import WordTex.Proofs.PairedQuotes
import WordTex.Proofs.SourcePieces
import WordTex.Proofs.SubstitutedTexts
import Mathlib.Data.Bool.AllAny

/-! # Composed letters and letters with a combining accent

TeX reads the command of an accent before the letter, and there the entries of composed letters have it. A
combining accent follows its letter and is replaced where it stands, so its command comes behind the
letter and goes to whatever is next. -/
namespace WordTex

/-- In any text the first becomes the second, and what is before and behind it is replaced by itself. -/
def AlwaysBecomes (w t : List Char) : Prop :=
  ∀ u v, replaceCharacters (u ++ (w ++ v)) = replaceCharacters u ++ (t ++ replaceCharacters v)

theorem AlwaysBecomes.append {w t x y : List Char} (h : AlwaysBecomes w t) (h' : AlwaysBecomes x y) :
    AlwaysBecomes (w ++ x) (t ++ y) := by
  intro u v
  -- at the start of a text the second part is replaced as anywhere
  have hfront : replaceCharacters (x ++ v) = y ++ replaceCharacters v := by
    simpa [replaceCharacters_nil] using h' [] v
  rw [List.append_assoc, h, hfront, List.append_assoc]

/-- The signs that a pattern may go on with behind a cut. -/
def joiningSigns : List Char := ['=', '>', '|']

theorem not_joins_of_head? {w : List Char} (hw : ∀ c ∈ w.head?, c ∉ joiningSigns) (u : List Char) :
    ¬ Joins u w := by
  rintro (⟨-, v, rfl⟩ | ⟨-, v, rfl⟩ | ⟨-, v, rfl⟩) <;> simp [joiningSigns] at hw

theorem alwaysBecomes_entry {e : Substitution} (he : e ∈ CharacterTable.all)
    (hfirst : ∀ c ∈ e.pattern.head?, c ∉ joiningSigns) : AlwaysBecomes e.pattern e.value := by
  intro u v
  have hhead : ∀ c ∈ (e.pattern ++ v).head?, c ∉ joiningSigns := by
    obtain ⟨c, cs, hcs⟩ := List.exists_cons_of_ne_nil (CharacterTable.pattern_ne_nil e he)
    simpa [hcs] using hfirst
  rw [replaceCharacters_append (not_joins_of_head? hhead u), replaceCharacters_pattern_append he]

/-- No pattern begins with a letter of the alphabet. -/
theorem CharacterTable.isAlpha_head? : ∀ e ∈ all, e.pattern.head?.any Char.isAlpha = false := by
  decide +kernel

theorem alwaysBecomes_letter {c : Char} (hc : c.isAlpha = true) : AlwaysBecomes [c] [c] := by
  intro u v
  have hnone : Substitution.first? CharacterTable.all (c :: v) = none := by
    refine List.find?_eq_none.mpr fun e he hprefix => ?_
    obtain ⟨d, ds, hd⟩ := List.exists_cons_of_ne_nil (CharacterTable.pattern_ne_nil e he)
    have halpha := CharacterTable.isAlpha_head? e he
    obtain ⟨rfl, -⟩ : d = c ∧ ds <+: v := by simpa [hd] using hprefix
    simp [hd, hc] at halpha
  have hkept : replaceCharacters ([c] ++ v) = [c] ++ replaceCharacters v := by
    rw [List.singleton_append, replaceCharacters, Substitution.apply, hnone]
    rfl
  have hsign : ∀ d ∈ ([c] ++ v).head?, d ∉ joiningSigns := by
    have hsigns : ∀ d ∈ joiningSigns, d.isAlpha = false := List.all_iff_forall_prop.mp (by decide)
    intro d hd hmem
    obtain rfl : c = d := by simpa using hd
    exact absurd hc (by simp [hsigns c hmem])
  rw [replaceCharacters_append (not_joins_of_head? hsign u), hkept]

/-- A cut that is not inside of a run of underscores. -/
theorem fillInBlanks_append_of_head? (width : Nat) (a : List Char) {b : List Char}
    (hb : ∀ c ∈ b.head?, c ≠ '_') :
    fillInBlanks width (a ++ b) = fillInBlanks width a ++ fillInBlanks width b := by
  have hrun : b.takeWhile (· = '_') = [] ∧ b.dropWhile (· = '_') = b := by
    cases b with
    | nil => exact ⟨rfl, rfl⟩
    | cons c b =>
      have hc : c ≠ '_' := hb c rfl
      simp [hc]
  fun_induction fillInBlanks width a with
  | case1 => rfl
  | case2 cs ih =>
    have htake : (cs ++ b).takeWhile (· = '_') = cs.takeWhile (· = '_') := by
      rw [List.takeWhile_append, hrun.1, List.append_nil]
      split
      · rename_i hall
        exact ((List.takeWhile_prefix _).eq_of_length hall).symm
      · rfl
    have hdrop : (cs ++ b).dropWhile (· = '_') = cs.dropWhile (· = '_') ++ b := by
      rw [List.dropWhile_append, hrun.2]
      split
      · rename_i hall
        rw [List.isEmpty_iff.mp hall, List.nil_append]
      · rfl
    rw [List.cons_append, fillInBlanks, if_pos rfl, htake, hdrop, ih, List.append_assoc]
  | case3 c cs hc ih => rw [List.cons_append, fillInBlanks, if_neg hc, ih, List.cons_append]

theorem fillInBlanks_of_alwaysBecomes (width : Nat) {w t : List Char} (h : AlwaysBecomes w t) (ht : t ≠ [])
    (hblank : '_' ∉ t) (u v : List Char) :
    fillInBlanks width (replaceCharacters (u ++ (w ++ v))) =
      fillInBlanks width (replaceCharacters u) ++ (t ++ fillInBlanks width (replaceCharacters v)) := by
  have hhead : ∀ c ∈ (t ++ replaceCharacters v).head?, c ≠ '_' := by
    obtain ⟨c, t, rfl⟩ := List.exists_cons_of_ne_nil ht
    rw [List.mem_cons, not_or] at hblank
    simpa using Ne.symm hblank.1
  rw [h, fillInBlanks_append_of_head? width _ hhead, fillInBlanks_append width hblank]

/-- All that the quote pass changes are quotes. -/
theorem filter_escapeChars (options : LatexOptions) (text : List Char) :
    (escapeChars options text).filter (!QuotePairs.isQuote ·) =
      (fillInBlanks options.underscoreWidth (replaceCharacters text)).filter (!QuotePairs.isQuote ·) := by
  rw [escapeChars]
  split
  · rw [QuotePairs.convertAll, QuotePairs.convert, QuotePairs.convert,
      QuotePairs.filter_convertFrom (by decide), QuotePairs.filter_convertFrom (by decide)]
  · rfl

/-- A letter with an accent as one character. -/
structure Composition where
  composed : Char
  letter : Char
  accent : Substitution
deriving DecidableEq, Repr

namespace Composition

/-- The letter with the combining accent behind it. -/
def decomposed (c : Composition) : List Char := [c.letter] ++ c.accent.pattern

/-- The letter with the combining accent in front of it. -/
def transposed (c : Composition) : List Char := c.accent.pattern ++ [c.letter]

/-- The entry of the composed letter. -/
def entry (c : Composition) : Substitution := ⟨[c.composed], c.accent.value ++ [c.letter]⟩

def acute : Substitution := ⟨['\u0301'], "\\'".toList⟩

def diaeresis : Substitution := ⟨['\u0308'], "\\\"".toList⟩

/-- The composed letters of the character table whose accent the table also has by itself. -/
def all : List Composition :=
  [⟨'á', 'a', acute⟩, ⟨'é', 'e', acute⟩, ⟨'í', 'i', acute⟩, ⟨'ó', 'o', acute⟩, ⟨'ú', 'u', acute⟩,
    ⟨'ö', 'o', diaeresis⟩, ⟨'ü', 'u', diaeresis⟩]

theorem entry_mem : ∀ c ∈ all, c.entry ∈ CharacterTable.all := by decide +kernel

/-- No other entry writes a letter behind the command of a combining accent. -/
theorem exists_entry_eq : ∀ e ∈ CharacterTable.all, ∀ a ∈ CharacterTable.combiningAccents,
    e.value.dropLast = a.value → ∃ c ∈ all, c.entry = e ∧ c.accent = a := by
  decide +kernel

theorem isAlpha_letter : ∀ c ∈ all, c.letter.isAlpha = true := by decide

theorem accent_mem : ∀ c ∈ all, c.accent ∈ CharacterTable.combiningAccents := by decide +kernel

theorem composed_not_mem : ∀ c ∈ all, c.composed ∉ joiningSigns := by decide

variable {c : Composition}

theorem alwaysBecomes_composed (hc : c ∈ all) : AlwaysBecomes [c.composed] (c.accent.value ++ [c.letter]) :=
  alwaysBecomes_entry (entry_mem c hc) (by simpa [entry] using composed_not_mem c hc)

theorem alwaysBecomes_accent {a : Substitution} (ha : a ∈ CharacterTable.combiningAccents) :
    AlwaysBecomes a.pattern a.value := by
  have htable : ∀ a ∈ CharacterTable.combiningAccents,
      a ∈ CharacterTable.all ∧ a.pattern.head?.any (joiningSigns.contains ·) = false := by
    decide +kernel
  obtain ⟨hmem, hsign⟩ := htable a ha
  exact alwaysBecomes_entry hmem fun c hc => by simpa [Option.mem_def.mp hc] using hsign

theorem alwaysBecomes_decomposed (hc : c ∈ all) :
    AlwaysBecomes c.decomposed ([c.letter] ++ c.accent.value) :=
  (alwaysBecomes_letter (isAlpha_letter c hc)).append (alwaysBecomes_accent (accent_mem c hc))

theorem alwaysBecomes_transposed (hc : c ∈ all) :
    AlwaysBecomes c.transposed (c.accent.value ++ [c.letter]) :=
  (alwaysBecomes_accent (accent_mem c hc)).append (alwaysBecomes_letter (isAlpha_letter c hc))

/-- Without the quotes, a letter and the command of its accent are the letter and a backslash. -/
theorem spelled (hc : c ∈ all) : '_' ∉ c.letter :: c.accent.value ∧ c.letter ≠ '\\' ∧
    ([c.letter] ++ c.accent.value).filter (!QuotePairs.isQuote ·) = [c.letter, '\\'] ∧
    (c.accent.value ++ [c.letter]).filter (!QuotePairs.isQuote ·) = ['\\', c.letter] := by
  revert c
  decide +kernel

end Composition

/-- A letter with an accent behind it does not become what the composed letter becomes, whatever is around
it: the command is behind the letter. It is in its place for an accent in front of the letter, so an accent
between two letters goes to the second. -/
theorem escapeChars_of_compositions (options : LatexOptions) (u v : List Char) {c : Composition}
    (hc : c ∈ Composition.all) :
    escapeChars options (u ++ (c.decomposed ++ v)) ≠ escapeChars options (u ++ ([c.composed] ++ v)) ∧
      escapeChars options (u ++ (c.transposed ++ v)) = escapeChars options (u ++ ([c.composed] ++ v)) ∧
      (options.smartQuotes = false →
        escapeChars options (u ++ (c.decomposed ++ v)) =
            escapeChars options u ++ ([c.letter] ++ c.accent.value ++ escapeChars options v) ∧
          escapeChars options (u ++ ([c.composed] ++ v)) =
            escapeChars options u ++ (c.accent.value ++ [c.letter] ++ escapeChars options v)) := by
  obtain ⟨hblank, hletter, hbehind, hfront⟩ := Composition.spelled hc
  rw [List.mem_cons, not_or] at hblank
  have hdecomposed := fillInBlanks_of_alwaysBecomes options.underscoreWidth
    (Composition.alwaysBecomes_decomposed hc) (by simp) (by simpa using hblank) u v
  have hcomposed := fillInBlanks_of_alwaysBecomes options.underscoreWidth
    (Composition.alwaysBecomes_composed hc) (by simp) (by simpa [and_comm] using hblank) u v
  refine ⟨fun h => ?_, ?_, fun hquotes => ?_⟩
  · -- the quote pass may change the quote of `\'` or `\"`, but it keeps the order of all else
    have hfiltered := congrArg (List.filter (!QuotePairs.isQuote ·)) h
    simp only [filter_escapeChars, hdecomposed, hcomposed, List.filter_append] at hfiltered
    rw [List.append_cancel_left_eq, List.append_cancel_right_eq, ← List.filter_append,
      ← List.filter_append, hbehind, hfront] at hfiltered
    exact hletter (List.cons.inj hfiltered).1
  · have htransposed := Composition.alwaysBecomes_transposed hc u v
    rw [← Composition.alwaysBecomes_composed hc u v] at htransposed
    rw [escapeChars, htransposed, escapeChars]
  · simp only [escapeChars, hquotes, Bool.false_eq_true, if_false]
    exact ⟨hdecomposed, hcomposed⟩

theorem escapeChars_of_decomposed_acute :
    (⟨'é', 'e', Composition.acute⟩ : Composition) ∈ Composition.all ∧
      escapeChars { smartQuotes := false } ("caf".toList ++ (['e', '\u0301'] ++ "s".toList)) ≠
        escapeChars { smartQuotes := false } ("caf".toList ++ (['é'] ++ "s".toList)) ∧
      escapeChars { smartQuotes := false } ("caf".toList ++ (['\u0301', 'e'] ++ "s".toList)) =
        escapeChars { smartQuotes := false } ("caf".toList ++ (['é'] ++ "s".toList)) ∧
      escapeChars { smartQuotes := false } ("caf".toList ++ (['e', '\u0301'] ++ "s".toList)) =
        "cafe\\'s".toList ∧
      escapeChars { smartQuotes := false } ("caf".toList ++ (['é'] ++ "s".toList)) =
        "caf\\'es".toList := by
  have hacute : (⟨'é', 'e', Composition.acute⟩ : Composition) ∈ Composition.all := by decide
  obtain ⟨hne, htransposed, hforms⟩ :=
    escapeChars_of_compositions { smartQuotes := false } "caf".toList "s".toList hacute
  obtain ⟨hdecomposed, hcomposed⟩ := hforms rfl
  exact ⟨hacute, hne, htransposed, hdecomposed.trans (by decide +kernel),
    hcomposed.trans (by decide +kernel)⟩

/-- Not every letter with an accent is escaped as the composed letter is. -/
theorem escapeChars_decomposed_ne : ¬ ∀ (options : LatexOptions) (u v : List Char),
    ∀ c ∈ Composition.all, escapeChars options (u ++ (c.decomposed ++ v)) =
      escapeChars options (u ++ ([c.composed] ++ v)) := by
  intro h
  have hacute := h {} [] [] ⟨'é', 'e', Composition.acute⟩ (by decide)
  revert hacute
  decide +kernel

end WordTex
