import WordTex.TextCuts
import WordTex.Proofs.RespelledQuotes

/-! # The control words of escaped text

A control word runs as far as there are letters, so it has to be ended before the text goes on. All of
them are ended by a brace or a dollar sign of their own replacement, but for those of the slashed
letters, which take up the letters or the space that follow. -/
namespace WordTex

/-- A control word of a text: a backslash and the longest run of letters behind it. -/
structure ControlWordAt (tex before word after : List Char) : Prop where
  split : tex = before ++ '\\' :: (word ++ after)
  ne_nil : word ≠ []
  letters : ∀ c ∈ word, c.isAlpha = true
  longest : ∀ c ∈ after.head?, c.isAlpha = false

/-- The control words of a text in order. -/
def controlWords : List Char → List (List Char)
  | [] => []
  | c :: s =>
    if c = '\\' ∧ s.takeWhile Char.isAlpha ≠ [] then s.takeWhile Char.isAlpha :: controlWords s
    else controlWords s

theorem ControlWordAt.takeWhile_eq {tex before word after : List Char}
    (h : ControlWordAt tex before word after) : (word ++ after).takeWhile Char.isAlpha = word :=
  takeWhile_append_of_head? h.letters h.longest

/-- The first control word is at the first character, or it is one of the rest. -/
theorem exists_controlWordAt_cons_iff {c : Char} {s word : List Char} :
    (∃ before after, ControlWordAt (c :: s) before word after) ↔
      (c = '\\' ∧ word ≠ [] ∧ word = s.takeWhile Char.isAlpha) ∨
        ∃ before after, ControlWordAt s before word after := by
  constructor
  · rintro ⟨before, after, h⟩
    cases before with
    | nil =>
      obtain ⟨rfl, rfl⟩ := List.cons.inj h.split
      exact .inl ⟨rfl, h.ne_nil, h.takeWhile_eq.symm⟩
    | cons b before =>
      exact .inr ⟨before, after, (List.cons.inj h.split).2, h.ne_nil, h.letters, h.longest⟩
  · rintro (⟨rfl, hne, rfl⟩ | ⟨before, after, h⟩)
    · have hlongest : ∀ d ∈ (s.dropWhile Char.isAlpha).head?, d.isAlpha = false :=
        fun d hd => of_mem_head?_dropWhile hd
      exact ⟨[], s.dropWhile Char.isAlpha, by simp, hne, fun d hd => List.mem_takeWhile_imp hd, hlongest⟩
    · exact ⟨c :: before, after, by rw [h.split, List.cons_append], h.ne_nil, h.letters, h.longest⟩

theorem mem_controlWords_iff {tex word : List Char} :
    word ∈ controlWords tex ↔ ∃ before after, ControlWordAt tex before word after := by
  induction tex with
  | nil =>
    have hnone : ¬ ∃ before after, ControlWordAt [] before word after := by
      rintro ⟨before, after, h⟩
      simpa using h.split
    simp [controlWords, hnone]
  | cons c s ih =>
    rw [exists_controlWordAt_cons_iff, ← ih, controlWords]
    split
    · rename_i hc
      rw [List.mem_cons]
      constructor
      · rintro (rfl | h)
        · exact .inl ⟨hc.1, hc.2, rfl⟩
        · exact .inr h
      · rintro (⟨-, -, h⟩ | h)
        · exact .inl h
        · exact .inr h
    · rename_i hc
      refine (or_iff_right ?_).symm
      rintro ⟨hslash, hne, rfl⟩
      exact hc ⟨hslash, hne⟩

/-- The control words of the character table and of blanks. -/
def knownWords : List (List Char) :=
  CharacterTable.all.flatMap (fun e => controlWords e.value) ++ ["underline".toList, "hspace".toList]

/-- What follows a backslash is no letter, or a known word and the character that ends it. -/
inductive EndsWord : List Char → Prop where
  | symbol {c : Char} {s : List Char} (hc : c.isAlpha = false) : EndsWord (c :: s)
  | word {w s : List Char} {c : Char} (hw : w ∈ knownWords) (hletters : ∀ d ∈ w, d.isAlpha = true)
      (hc : c = '\x7b' ∨ c = '$') : EndsWord (w ++ c :: s)

theorem EndsWord.append {s : List Char} (h : EndsWord s) (rest : List Char) : EndsWord (s ++ rest) := by
  cases h with
  | symbol hc => exact .symbol hc
  | word hw hletters hc =>
    rw [List.append_assoc, List.cons_append]
    exact .word hw hletters hc

/-- All control words of the text end in it. -/
def EndsWords (tex : List Char) : Prop := ∀ before after, tex = before ++ '\\' :: after → EndsWord after

namespace EndsWords

variable {a b : List Char}

theorem of_not_mem (h : '\\' ∉ a) : EndsWords a := by
  rintro before after rfl
  simp at h

theorem append (ha : EndsWords a) (hb : EndsWords b) : EndsWords (a ++ b) := by
  intro before after h
  rcases List.append_eq_append_iff.mp h with ⟨s, rfl, hs⟩ | ⟨s, rfl, hs⟩
  · exact hb s after hs
  · cases s with
    | nil => exact hb [] after hs.symm
    | cons c s =>
      obtain ⟨rfl, rfl⟩ := List.cons.inj hs
      exact (ha before s rfl).append b

end EndsWords

/-- The check of `EndsWord`. -/
def endsWord (s : List Char) : Bool :=
  match s.dropWhile Char.isAlpha with
  | [] => false
  | c :: _ => s.takeWhile Char.isAlpha == [] ||
      knownWords.contains (s.takeWhile Char.isAlpha) && (c == '\x7b' || c == '$')

def endsWords : List Char → Bool
  | [] => true
  | c :: s => (c != '\\' || endsWord s) && endsWords s

theorem EndsWord.of_endsWord {s : List Char} (h : endsWord s = true) : EndsWord s := by
  have hcut := List.takeWhile_append_dropWhile (p := Char.isAlpha) (l := s)
  have hfirst := List.head?_dropWhile_not Char.isAlpha s
  rw [endsWord] at h
  split at h
  · simp at h
  · rename_i c rest hdrop
    rw [hdrop] at hcut hfirst
    rw [← hcut]
    simp only [Bool.or_eq_true, beq_iff_eq, Bool.and_eq_true, List.contains_iff_mem] at h
    rcases h with h | ⟨hw, hc⟩
    · rw [h]
      exact .symbol (by simpa using hfirst)
    · exact .word hw (fun d hd => List.mem_takeWhile_imp hd) hc

theorem EndsWords.of_endsWords {tex : List Char} (h : endsWords tex = true) : EndsWords tex := by
  rintro before after rfl
  induction before with
  | nil =>
    simp only [List.nil_append, endsWords, Bool.and_eq_true] at h
    exact .of_endsWord (by simpa using h.1)
  | cons b before ih =>
    simp only [List.cons_append, endsWords, Bool.and_eq_true] at h
    exact ih h.2

/-- The slashed letters, whose control words nothing ends. -/
def slashedLetters : List TexPiece := [⟨['ø'], "\\o".toList⟩, ⟨['Ø'], "\\O".toList⟩]

theorem CharacterTable.endsWords_or_slashed :
    ∀ e ∈ all, endsWords e.value = true ∨ ⟨e.pattern, e.value⟩ ∈ slashedLetters := by
  decide +kernel

theorem endsWords_blankRule (points : Nat) : EndsWords (blankRule points) := by
  obtain ⟨rest, hrest, hrule⟩ := exists_blankRule_eq points
  have hcommands : EndsWords "\\underline\x7b\\hspace\x7b".toList := .of_endsWords (by decide +kernel)
  rw [hrule]
  exact hcommands.append (.of_not_mem hrest)

theorem endsWords_respellings : ∀ r ∈ QuotePairs.respellings, endsWords r.2 = true := by decide +kernel

/-- A piece before quotes are paired, if it has no slashed letter in it, ends its words. -/
theorem endsWords_of_isRuled {width : Nat} {p : TexPiece} (h : IsRuled width p) :
    EndsWords p.tex ∨ p ∈ slashedLetters := by
  cases h with
  | @kept c htable _ =>
    have hc : c ≠ '\\' := by
      rintro rfl
      have hslash : (⟨['\\'], "\\backslash\x7b\x7d".toList⟩ : Substitution) ∈ CharacterTable.all := by
        decide +kernel
      exact htable _ hslash rfl
    exact .inl (.of_not_mem (by simpa using Ne.symm hc))
  | @entry e he => exact (CharacterTable.endsWords_or_slashed e he).imp_left .of_endsWords
  | blank => exact .inl (endsWords_blankRule _)

theorem endsWords_of_isRespelled {options : LatexOptions} {p q : TexPiece}
    (h : IsRespelled options p q) (hp : IsRuled options.underscoreWidth p) :
    EndsWords q.tex ∨ q ∈ slashedLetters := by
  rcases h.tex with htex | ⟨-, hmem⟩
  · have hq : q = p := TexPiece.ext h.source htex
    exact hq ▸ endsWords_of_isRuled hp
  · exact .inl (.of_endsWords (endsWords_respellings _ hmem))

theorem endsWords_of_mem {options : LatexOptions} {raw : List Char} {qs : List TexPiece}
    (h : IsEscapeOf options raw qs) : ∀ q ∈ qs, EndsWords q.tex ∨ q ∈ slashedLetters := by
  intro q hq
  obtain ⟨p, hp, hpq⟩ := h.exists_isRespelled q hq
  exact endsWords_of_isRespelled hpq hp

theorem eq_nil_of_mem_slashedLetters {p : TexPiece} (h : p ∈ slashedLetters) {u v : List Char}
    (hp : p.tex = u ++ '\\' :: v) : u = [] := by
  have htail : ∀ p ∈ slashedLetters, '\\' ∉ p.tex.tail := by decide
  cases u with
  | nil => rfl
  | cons c u => exact absurd (by simp [hp]) (htail p h)

/-- A word that ends in its piece is the control word there. -/
theorem ControlWordAt.of_endsWord {tex before word after v rest : List Char}
    (h : ControlWordAt tex before word after) (hv : EndsWord v) (hcut : word ++ after = v ++ rest) :
    word ∈ knownWords ∧ ∃ c ∈ after.head?, c = '\x7b' ∨ c = '$' := by
  have hword := h.takeWhile_eq
  cases hv with
  | @symbol c s hc =>
    rw [hcut, List.cons_append, List.takeWhile_cons_of_neg (by simp [hc])] at hword
    exact absurd hword.symm h.ne_nil
  | @word w s c hw hletters hc =>
    have hend : ∀ d ∈ (c :: (s ++ rest)).head?, d.isAlpha = false := by
      rintro _ ⟨rfl⟩
      rcases hc with rfl | rfl <;> rfl
    have hcut : word ++ after = w ++ c :: (s ++ rest) := by
      rw [hcut, List.append_assoc, List.cons_append]
    rw [hcut, takeWhile_append_of_head? hletters hend] at hword
    subst hword
    exact ⟨hw, c, by simp [List.append_cancel_left hcut], hc⟩

/-- A control word is known and ended by a brace or a dollar sign, unless it begins in the place of a
slashed letter: then it is the letter with all letters that follow. -/
theorem controlWord_of_escapeChars (options : LatexOptions) (raw : List Char) :
    ∃ qs, IsEscapeOf options raw qs ∧ sourceOf qs = raw ∧
      ∀ before word after, ControlWordAt (escapeChars options raw) before word after →
        (word ∈ knownWords ∧ ∃ c ∈ after.head?, c = '\x7b' ∨ c = '$') ∨
          ∃ P p Q, qs = P ++ p :: Q ∧ p ∈ slashedLetters ∧ before = texOf P ∧
            '\\' :: (word ++ after) = p.tex ++ texOf Q := by
  obtain ⟨qs, hqs⟩ := exists_isEscapeOf options raw
  refine ⟨qs, hqs, hqs.sourceOf, fun before word after h => ?_⟩
  obtain ⟨P, p, Q, u, v, rfl, hp, rfl, hrest⟩ := exists_piece_of_texOf (hqs.tex.trans h.split)
  rcases endsWords_of_mem hqs p (by simp) with hends | hslashed
  · exact .inl (h.of_endsWord (hends u v hp) hrest)
  · obtain rfl := eq_nil_of_mem_slashedLetters hslashed hp
    refine .inr ⟨P, p, Q, rfl, hslashed, List.append_nil _, ?_⟩
    rw [hrest, hp]
    rfl

theorem controlWord_before_slashed_letter :
    ControlWordAt (escapeChars {} "∧ øre".toList) ['$'] "wedge".toList "$ \\ore".toList ∧
      ∃ qs, IsEscapeOf {} "∧ øre".toList qs ∧ sourceOf qs = "∧ øre".toList ∧
        (("wedge".toList ∈ knownWords ∧ ∃ c ∈ "$ \\ore".toList.head?, c = '\x7b' ∨ c = '$') ∨
          ∃ P p Q, qs = P ++ p :: Q ∧ p ∈ slashedLetters ∧ ['$'] = texOf P ∧
            '\\' :: ("wedge".toList ++ "$ \\ore".toList) = p.tex ++ texOf Q) := by
  have hword : ControlWordAt (escapeChars {} "∧ øre".toList) ['$'] "wedge".toList "$ \\ore".toList :=
    ⟨by decide +kernel, by simp, by simp, by simp⟩
  obtain ⟨qs, hqs, hsource, h⟩ := controlWord_of_escapeChars {} "∧ øre".toList
  exact ⟨hword, qs, hqs, hsource, h _ _ _ hword⟩

/-- The word of a slashed letter goes on in the text: not every control word is known. -/
theorem unended_controlWords : ¬ ∀ (options : LatexOptions) (raw before word after : List Char),
    ControlWordAt (escapeChars options raw) before word after → word ∈ knownWords := by
  intro h
  have hword : ControlWordAt (escapeChars {} "øre".toList) [] "ore".toList [] :=
    ⟨by decide +kernel, by simp, by simp, by simp⟩
  have hunknown : "ore".toList ∉ knownWords := by decide +kernel
  exact hunknown (h _ _ _ _ _ hword)

/-- A space that follows it is taken for its end. -/
example : ControlWordAt (escapeChars {} "ø a".toList) [] ['o'] " a".toList :=
  ⟨by decide +kernel, by simp, by simp, by simp⟩

end WordTex
