import WordTex.Proofs.RespelledQuotes
import Mathlib.Data.Bool.AllAny

/-! # The specials of the source

Each character of a text that is special to TeX is taken by a backslash or replaced by a command, but for
the tilde and the caret, which the character table does not have. No piece of the result ends in the
middle of a lexeme, so the pieces can be read one by one. -/
namespace WordTex

/-- Nothing is left for the last backslash to take from what follows. -/
def EndsLexeme (a : List Char) : Prop := .bare '\\' ∉ lexemes a

instance (a : List Char) : Decidable (EndsLexeme a) := inferInstanceAs (Decidable (_ ∉ _))

section Lexemes

variable {a b : List Char} {c : Char}

theorem lexemes_cons_of_ne (hc : c ≠ '\\') (s : List Char) : lexemes (c :: s) = .bare c :: lexemes s := by
  rw [lexemes] <;> simp [hc]

theorem lexemes_append (h : EndsLexeme a) (b : List Char) : lexemes (a ++ b) = lexemes a ++ lexemes b := by
  rw [EndsLexeme] at h
  induction a using lexemes.induct with
  | case1 => rfl
  | case2 => simp [lexemes] at h
  | case3 c s ih =>
    rw [lexemes, List.mem_cons, not_or] at h
    rw [List.cons_append, List.cons_append, lexemes, lexemes, ih h.2, List.cons_append]
  | case4 c s hlast htaken ih =>
    have hc : c ≠ '\\' := by
      rintro rfl
      cases s with
      | nil => exact hlast rfl rfl
      | cons d s => exact htaken d s rfl rfl
    rw [lexemes_cons_of_ne hc, List.mem_cons, not_or] at h
    rw [List.cons_append, lexemes_cons_of_ne hc, lexemes_cons_of_ne hc, ih h.2, List.cons_append]

theorem EndsLexeme.append (ha : EndsLexeme a) (hb : EndsLexeme b) : EndsLexeme (a ++ b) := by
  rw [EndsLexeme, lexemes_append ha, List.mem_append, not_or]
  exact ⟨ha, hb⟩

/-- A lexeme that is not taken is a character of the text. -/
theorem mem_of_bare_mem_lexemes (h : .bare c ∈ lexemes a) : c ∈ a := by
  induction a using lexemes.induct with
  | case1 => simp [lexemes] at h
  | case2 => simpa [lexemes] using h
  | case3 d s ih =>
    rw [lexemes, List.mem_cons] at h
    rcases h with h | h
    · simp at h
    · exact List.mem_cons_of_mem _ (List.mem_cons_of_mem _ (ih h))
  | case4 d s hlast htaken ih =>
    rw [lexemes] at h
    · rcases List.mem_cons.mp h with h | h
      · obtain rfl : c = d := by simpa using h
        exact List.mem_cons_self
      · exact List.mem_cons_of_mem _ (ih h)
    · exact hlast
    · exact htaken

theorem EndsLexeme.of_not_mem (h : '\\' ∉ a) : EndsLexeme a := fun hmem => h (mem_of_bare_mem_lexemes hmem)

theorem lexemes_texOf {qs : List TexPiece} (h : ∀ q ∈ qs, EndsLexeme q.tex) :
    lexemes (texOf qs) = qs.flatMap fun q => lexemes q.tex := by
  induction qs with
  | nil => rfl
  | cons q qs ih =>
    obtain ⟨hq, hqs⟩ := List.forall_mem_cons.mp h
    rw [texOf_cons, lexemes_append hq, ih hqs, List.flatMap_cons]

end Lexemes

/-- The characters that are active or special in TeX. -/
def texSpecials : List Char := ['\\', '\x7b', '\x7d', '$', '#', '%', '&', '_', '^', '~']

/-- A special of the source does not stand by itself in its piece, unless it is a tilde or a caret;
besides these, a tilde stands for a no-break space and a caret is an accent. -/
structure TexPiece.Neutral (q : TexPiece) : Prop where
  ends : EndsLexeme q.tex
  specials : ∀ c ∈ texSpecials, c ∈ q.source → .bare c ∈ lexemes q.tex →
    q = ⟨[c], [c]⟩ ∧ (c = '~' ∨ c = '^')
  tilde : '~' ∈ q.tex → q = ⟨['\u00a0'], ['~']⟩ ∨ q = ⟨['~'], ['~']⟩
  caret : '^' ∈ q.tex → q = ⟨['ô'], "\\^\x7bo\x7d".toList⟩ ∨ q = ⟨['^'], ['^']⟩

instance (q : TexPiece) : Decidable q.Neutral :=
  haveI : Decidable (∀ c ∈ texSpecials, c ∈ q.source → .bare c ∈ lexemes q.tex →
      q = ⟨[c], [c]⟩ ∧ (c = '~' ∨ c = '^')) := List.decidableBAll _ _
  decidable_of_iff (EndsLexeme q.tex ∧ (∀ c ∈ texSpecials, c ∈ q.source → .bare c ∈ lexemes q.tex →
      q = ⟨[c], [c]⟩ ∧ (c = '~' ∨ c = '^')) ∧
      ('~' ∈ q.tex → q = ⟨['\u00a0'], ['~']⟩ ∨ q = ⟨['~'], ['~']⟩) ∧
      ('^' ∈ q.tex → q = ⟨['ô'], "\\^\x7bo\x7d".toList⟩ ∨ q = ⟨['^'], ['^']⟩))
    ⟨fun ⟨ends, specials, tilde, caret⟩ => ⟨ends, specials, tilde, caret⟩,
      fun h => ⟨h.ends, h.specials, h.tilde, h.caret⟩⟩

theorem CharacterTable.neutral : ∀ e ∈ all, (⟨e.pattern, e.value⟩ : TexPiece).Neutral := by
  decide +kernel

theorem neutral_respellings : ∀ r ∈ QuotePairs.respellings, (⟨r.1, r.2⟩ : TexPiece).Neutral := by
  decide +kernel

/-- The table has all specials but the tilde, the caret and the underscore. -/
theorem CharacterTable.special_of_pattern_ne : ∀ c ∈ texSpecials, (∀ e ∈ all, e.pattern ≠ [c]) →
    c = '~' ∨ c = '^' ∨ c = '_' :=
  List.all_iff_forall_prop.mp (by decide +kernel)

theorem neutral_kept {c : Char} (htable : ∀ e ∈ CharacterTable.all, e.pattern ≠ [c]) (hc : c ≠ '_') :
    (⟨[c], [c]⟩ : TexPiece).Neutral := by
  have hslash : c ≠ '\\' := by
    rintro rfl
    have := CharacterTable.special_of_pattern_ne '\\' (by decide) htable
    simp at this
  refine ⟨.of_not_mem (by simpa using Ne.symm hslash), ?_, ?_, ?_⟩
  · intro d hd hsource _
    obtain rfl : d = c := by simpa using hsource
    have hspecial := CharacterTable.special_of_pattern_ne d hd htable
    exact ⟨rfl, by tauto⟩
  · intro hmem
    obtain rfl : '~' = c := by simpa using hmem
    exact .inr rfl
  · intro hmem
    obtain rfl : '^' = c := by simpa using hmem
    exact .inr rfl

theorem endsLexeme_blankRule (points : Nat) : EndsLexeme (blankRule points) := by
  obtain ⟨rest, hrest, hrule⟩ := exists_blankRule_eq points
  have hcommands : EndsLexeme "\\underline\x7b\\hspace\x7b".toList := by decide +kernel
  rw [hrule]
  exact hcommands.append (.of_not_mem hrest)

/-- Of the specials only the underscore is in a run. -/
theorem eq_underscore_of_isBlankSource : ∀ c ∈ texSpecials, isBlankSource c = true → c = '_' :=
  List.all_iff_forall_prop.mp (by decide)

theorem neutral_blank {source : List Char} (hsource : source.all isBlankSource = true) (points : Nat) :
    (⟨source, blankRule points⟩ : TexPiece).Neutral := by
  have hnot {c : Char} (hdigit : c.isDigit = false)
      (hc : c ∉ "\\underline\x7b\\hspace\x7bpt\x7d\x7d".toList) : c ∉ blankRule points :=
    not_mem_blankRule hdigit hc points
  refine ⟨endsLexeme_blankRule points, ?_, fun h => absurd h (hnot (by decide) (by decide)),
    fun h => absurd h (hnot (by decide) (by decide))⟩
  intro c hc hmem hbare
  obtain rfl := eq_underscore_of_isBlankSource c hc (List.all_eq_true.mp hsource c hmem)
  exact absurd (mem_of_bare_mem_lexemes hbare) (hnot (by decide) (by decide))

theorem neutral_of_isRespelled {options : LatexOptions} {width : Nat} {p q : TexPiece}
    (h : IsRespelled options p q) (hp : IsRuled width p) : q.Neutral := by
  rcases h.tex with htex | ⟨-, hmem⟩
  · obtain rfl : q = p := TexPiece.ext h.source htex
    cases hp with
    | kept htable hc => exact neutral_kept htable hc
    | entry he => exact CharacterTable.neutral _ he
    | blank hsource => exact neutral_blank hsource _
  · have hq : q = ⟨p.source, q.tex⟩ := TexPiece.ext h.source rfl
    rw [hq]
    exact neutral_respellings _ hmem

/-- Specials of the source do not come through by themselves, except for tildes and carets. A tilde of the
result is a no-break space or a tilde of the source, and a caret is an accent or a caret of the source. -/
theorem neutral_of_escapeChars (options : LatexOptions) (raw : List Char) :
    ∃ qs, IsEscapeOf options raw qs ∧ sourceOf qs = raw ∧ texOf qs = escapeChars options raw ∧
      lexemes (escapeChars options raw) = qs.flatMap (fun q => lexemes q.tex) ∧ ∀ q ∈ qs, q.Neutral := by
  obtain ⟨qs, hqs⟩ := exists_isEscapeOf options raw
  have hneutral : ∀ q ∈ qs, q.Neutral := by
    intro q hq
    obtain ⟨p, hp, hpq⟩ := hqs.exists_isRespelled q hq
    exact neutral_of_isRespelled hpq hp
  refine ⟨qs, hqs, hqs.sourceOf, hqs.tex, ?_, hneutral⟩
  rw [← hqs.tex]
  exact lexemes_texOf fun q hq => (hneutral q hq).ends

/-- A tilde and a caret come through: not every special is neutralized. -/
theorem bare_tilde_and_caret : ¬ ∀ (options : LatexOptions) (raw : List Char),
    ∃ qs, IsEscapeOf options raw qs ∧ sourceOf qs = raw ∧
      (∀ q ∈ qs, ∀ c ∈ texSpecials, c ∈ q.source → .bare c ∉ lexemes q.tex) ∧
      (∀ q ∈ qs, '~' ∈ q.tex → q.source = ['\u00a0']) ∧ ∀ q ∈ qs, '^' ∈ q.tex → q.source = ['ô'] := by
  intro h
  obtain ⟨qs, hqs, hsource, -, htilde, -⟩ := h {} "~^".toList
  have htex : texOf qs = [] ++ '~' :: ['^'] := hqs.tex.trans (by decide +kernel)
  obtain ⟨P, p, Q, u, v, rfl, hp, -, -⟩ := exists_piece_of_texOf htex
  have hspace : '\u00a0' ∈ sourceOf (P ++ p :: Q) := by
    simp [htilde p (by simp) (by simp [hp])]
  rw [hsource] at hspace
  revert hspace
  decide

end WordTex
