import WordTex.Proofs.EscapedText

/-! # Blank lines

A blank line is two line feeds with nothing to see between them. A reader of one character after the
other that refuses them is related to the same reader of another text: where the one text has no blank
line, the other has none either. Escaping a text keeps its lines in this sense. -/
namespace WordTex

/-- Behind this front the text has a blank line with this gap between its line feeds. -/
def BlankLineAt (unseen : Char → Bool) (text front gap : List Char) : Prop :=
  (∀ c ∈ gap, unseen c = true) ∧ front ++ '\n' :: (gap ++ ['\n']) <+: text

def HasBlankLine (unseen : Char → Bool) (text : List Char) : Prop :=
  ∃ front gap, BlankLineAt unseen text front gap

/-- A line ends here with nothing to see before its end. -/
def BlankStart (unseen : Char → Bool) (text : List Char) : Prop :=
  ∃ gap, (∀ c ∈ gap, unseen c = true) ∧ gap ++ ['\n'] <+: text

/-- One more character of a text without blank lines. The flag tells that there was nothing to see since
a line feed. -/
def lineStep (unseen : Char → Bool) (fed : Bool) (c : Char) : Option Bool :=
  if c = '\n' then if fed then none else some true
  else some (fed && unseen c)

def readLines (unseen : Char → Bool) (fed : Bool) (text : List Char) : Option Bool :=
  text.foldlM (lineStep unseen) fed

section

variable {unseen : Char → Bool} {c : Char} {text : List Char}

theorem readLines_cons (fed : Bool) : readLines unseen fed (c :: text) =
    (lineStep unseen fed c).bind (readLines unseen · text) := rfl

theorem readLines_append (fed : Bool) (a b : List Char) : readLines unseen fed (a ++ b) =
    (readLines unseen fed a).bind (readLines unseen · b) :=
  List.foldlM_append ..

/-- Within a line only what is seen matters. -/
theorem readLines_of_not_mem (fed : Bool) (h : '\n' ∉ text) :
    readLines unseen fed text = some (fed && text.all unseen) := by
  induction text generalizing fed with
  | nil => simp [readLines]
  | cons c text ih =>
    obtain ⟨hc, htext⟩ := List.ne_and_not_mem_of_not_mem_cons h
    rw [readLines_cons, lineStep, if_neg (Ne.symm hc), Option.bind_some, ih _ htext, List.all_cons,
      Bool.and_assoc]

theorem blankStart_cons_iff : BlankStart unseen (c :: text) ↔
    c = '\n' ∨ unseen c = true ∧ BlankStart unseen text := by
  constructor
  · rintro ⟨gap, hgap, hprefix⟩
    cases gap with
    | nil => exact .inl (List.cons_prefix_cons.mp hprefix).1.symm
    | cons e gap =>
      obtain ⟨rfl, hrest⟩ := List.cons_prefix_cons.mp hprefix
      obtain ⟨he, hgap⟩ := List.forall_mem_cons.mp hgap
      exact .inr ⟨he, gap, hgap, hrest⟩
  · rintro (rfl | ⟨hc, gap, hgap, hprefix⟩)
    · exact ⟨[], by simp, by simp⟩
    · exact ⟨c :: gap, List.forall_mem_cons.mpr ⟨hc, hgap⟩, List.cons_prefix_cons.mpr ⟨rfl, hprefix⟩⟩

theorem hasBlankLine_cons_iff : HasBlankLine unseen (c :: text) ↔
    c = '\n' ∧ BlankStart unseen text ∨ HasBlankLine unseen text := by
  constructor
  · rintro ⟨front, gap, hgap, hprefix⟩
    cases front with
    | nil =>
      obtain ⟨rfl, hrest⟩ := List.cons_prefix_cons.mp hprefix
      exact .inl ⟨rfl, gap, hgap, hrest⟩
    | cons e front => exact .inr ⟨front, gap, hgap, (List.cons_prefix_cons.mp hprefix).2⟩
  · rintro (⟨rfl, gap, hgap, hprefix⟩ | ⟨front, gap, hgap, hprefix⟩)
    · exact ⟨[], gap, hgap, List.cons_prefix_cons.mpr ⟨rfl, hprefix⟩⟩
    · exact ⟨c :: front, gap, hgap, List.cons_prefix_cons.mpr ⟨rfl, hprefix⟩⟩

/-- The reader refuses a text if it has a blank line, or ends one. -/
theorem readLines_eq_none_iff (fed : Bool) : readLines unseen fed text = none ↔
    fed = true ∧ BlankStart unseen text ∨ HasBlankLine unseen text := by
  induction text generalizing fed with
  | nil => simp [readLines, BlankStart, HasBlankLine, BlankLineAt]
  | cons c text ih =>
    rw [readLines_cons, lineStep, blankStart_cons_iff, hasBlankLine_cons_iff]
    by_cases hc : c = '\n'
    · cases fed <;> simp [hc, ih]
    · simp [hc, ih, and_assoc]

theorem hasBlankLine_iff : HasBlankLine unseen text ↔ readLines unseen false text = none := by
  simp [readLines_eq_none_iff]

instance : Decidable (HasBlankLine unseen text) := decidable_of_iff _ hasBlankLine_iff.symm

end

/-- Wherever the first text can be read without a blank line the second can, and if there is nothing to see
at the end of the second, then neither at the end of the first. -/
def LinesKept (unseen unseen' : Char → Bool) (text tex : List Char) : Prop :=
  ∀ fed fed' after, (fed' = true → fed = true) → readLines unseen fed text = some after →
    ∃ after', readLines unseen' fed' tex = some after' ∧ (after' = true → after = true)

namespace LinesKept

variable {unseen unseen' unseen'' : Char → Bool} {text tex a b : List Char}

/-- Where there is a blank line there was one before. -/
theorem hasBlankLine (h : LinesKept unseen unseen' text tex) (htex : HasBlankLine unseen' tex) :
    HasBlankLine unseen text := by
  rw [hasBlankLine_iff, Option.eq_none_iff_forall_ne_some]
  intro after hafter
  obtain ⟨after', hafter', -⟩ := h false false after id hafter
  rw [hasBlankLine_iff.mp htex] at hafter'
  cases hafter'

theorem nil : LinesKept unseen unseen' [] [] := by
  rintro fed fed' after hfed ⟨⟩
  exact ⟨fed', rfl, hfed⟩

theorem append (h : LinesKept unseen unseen' text tex) (h' : LinesKept unseen unseen' a b) :
    LinesKept unseen unseen' (text ++ a) (tex ++ b) := by
  intro fed fed' after hfed hread
  rw [readLines_append] at hread
  obtain ⟨mid, hmid, hread⟩ := Option.bind_eq_some_iff.mp hread
  obtain ⟨mid', hmid', hle⟩ := h fed fed' mid hfed hmid
  obtain ⟨after', hafter', hle'⟩ := h' mid mid' after hle hread
  exact ⟨after', by rw [readLines_append, hmid', Option.bind_some, hafter'], hle'⟩

theorem trans (h : LinesKept unseen unseen' text tex) (h' : LinesKept unseen' unseen'' tex a) :
    LinesKept unseen unseen'' text a := by
  intro fed fed' after hfed hread
  obtain ⟨mid, hmid, hle⟩ := h fed fed after id hread
  obtain ⟨after', hafter', hle'⟩ := h' fed fed' mid hfed hmid
  exact ⟨after', hafter', fun h => hle (hle' h)⟩

/-- A part of a line is kept if nothing was to be seen of it where nothing is. -/
theorem inLine (htext : '\n' ∉ text) (htex : '\n' ∉ tex)
    (hunseen : tex.all unseen' = true → text.all unseen = true) :
    LinesKept unseen unseen' text tex := by
  intro fed fed' after hfed hread
  rw [readLines_of_not_mem fed htext] at hread
  refine ⟨_, readLines_of_not_mem fed' htex, fun hafter' => ?_⟩
  obtain ⟨hfed', hall'⟩ := Bool.and_eq_true_iff.mp hafter'
  rw [← Option.some.inj hread, hfed hfed', hunseen hall', Bool.and_self]

theorem lineFeed : LinesKept unseen unseen' ['\n'] ['\n'] := by
  intro fed fed' after hfed hread
  cases fed with
  | true => cases hread
  | false =>
    cases fed' with
    | true => simp at hfed
    | false => exact ⟨true, rfl, fun _ => by simpa [readLines, lineStep] using hread⟩

/-- What has no line feed may be added anywhere. -/
theorem added (h : '\n' ∉ tex) : LinesKept unseen unseen' [] tex := inLine (by simp) h (by simp)

theorem flatMap {α : Type} {f g : α → List Char} {xs : List α}
    (h : ∀ x ∈ xs, LinesKept unseen unseen' (f x) (g x)) :
    LinesKept unseen unseen' (xs.flatMap f) (xs.flatMap g) := by
  induction xs with
  | nil => exact nil
  | cons x xs ih =>
    exact (h x List.mem_cons_self).append (ih fun y hy => h y (List.mem_cons_of_mem x hy))

theorem of_rewrites {form : Char → List Char → Prop}
    (hform : ∀ {c u}, form c u → LinesKept unseen unseen' [c] u) (h : Rewrites form text tex) :
    LinesKept unseen unseen' text tex := by
  induction h with
  | nil => exact nil
  | cons hc _ ih => exact (hform hc).append ih

/-- A character may stand for itself if it was not to be seen where it is not. -/
theorem self {c : Char} (h : unseen' c = true → unseen c = true) :
    LinesKept unseen unseen' [c] [c] := by
  by_cases hc : c = '\n'
  · exact hc ▸ lineFeed
  · have hline : '\n' ∉ [c] := by simpa using Ne.symm hc
    exact inLine hline hline (by simpa using h)

end LinesKept

/-- A character that is written as white space or not at all. -/
def isUnseen (c : Char) : Bool := (replaceCharacters [c]).all isBlank

/-- No entry of the table is about line feeds, and what was seen is seen again. -/
theorem CharacterTable.keepsLines : ∀ e ∈ all, e.pattern ≠ [] ∧ '\n' ∉ e.pattern ∧ '\n' ∉ e.value ∧
    (e.value.all isBlank = true → e.pattern.all isUnseen = true) := by
  decide +kernel

/-- A character that is kept in front of a text is kept by itself. -/
theorem Substitution.apply_singleton {table : List Substitution} {c : Char} {cs : List Char}
    (h : first? table (c :: cs) = none) : apply table [c] = [c] := by
  have hnone : first? table [c] = none := by
    refine List.find?_eq_none.mpr fun e he hprefix => List.find?_eq_none.mp h e he ?_
    rw [List.isPrefixOf_iff_prefix] at hprefix ⊢
    exact hprefix.trans (List.prefix_append [c] cs)
  rw [apply, hnone, apply]

namespace LinesKept

theorem replaceCharacters (text : List Char) :
    LinesKept isUnseen isBlank text (replaceCharacters text) := by
  rw [WordTex.replaceCharacters]
  fun_induction Substitution.apply CharacterTable.all text with
  | case1 => exact nil
  | case2 c cs e he ih =>
    obtain ⟨hne, hpattern, hvalue, hunseen⟩ := CharacterTable.keepsLines e (Substitution.mem_of_first? he).1
    rw [← Substitution.pattern_append_drop he hne]
    exact (inLine hpattern hvalue hunseen).append ih
  | case3 c cs h ih =>
    refine (self fun hc => ?_).append ih
    rw [isUnseen, WordTex.replaceCharacters, Substitution.apply_singleton h]
    simpa using hc

theorem not_all_blankRule (points : Nat) : (blankRule points).all isBlank ≠ true := by
  simp [blankRule, show isBlank '\\' = false by decide]

/-- A rule is seen as the underscores were. -/
theorem fillInBlanks (width : Nat) (text : List Char) :
    LinesKept isBlank isBlank text (fillInBlanks width text) := by
  fun_induction WordTex.fillInBlanks width text with
  | case1 => exact nil
  | case2 cs ih =>
    have hrun : '\n' ∉ '_' :: cs.takeWhile (· = '_') := by
      rintro (_ | ⟨_, h⟩)
      simpa using List.mem_takeWhile_imp h
    have hline := (inLine hrun (not_mem_blankRule (by decide) (by decide) _) fun h => absurd h (not_all_blankRule
      (((cs.takeWhile (· = '_')).length + 1) * width))).append ih
    rwa [List.cons_append, List.takeWhile_append_dropWhile] at hline
  | case3 c cs hc ih => exact (self id).append ih

theorem convert {m : QuotePairs.Marks} (hm : m = QuotePairs.single ∨ m = QuotePairs.double)
    (text : List Char) : LinesKept isBlank isBlank text (QuotePairs.convert m text) := by
  refine of_rewrites (fun {c u} hu => ?_) (QuotePairs.rewrites_convertFrom m true text)
  rcases hu with rfl | ⟨rfl, hu⟩
  · exact self id
  · refine inLine ?_ ?_ ?_ <;> rcases hm with rfl | rfl <;> rcases hu with rfl | rfl <;> decide

theorem escapeChars (options : LatexOptions) (text : List Char) :
    LinesKept isUnseen isBlank text (escapeChars options text) := by
  have hfilled := (replaceCharacters text).trans (fillInBlanks options.underscoreWidth _)
  rw [WordTex.escapeChars]
  split
  · exact (hfilled.trans (convert (.inl rfl) _)).trans (convert (.inr rfl) _)
  · exact hfilled

end LinesKept

end WordTex
