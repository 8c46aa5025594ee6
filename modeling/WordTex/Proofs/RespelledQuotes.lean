import WordTex.Proofs.SourcePieces
import Mathlib.Data.List.Forall2

/-! # What the pairing of quotes changes

A straight quote is changed by what stands next to it, wherever it comes from. Most pieces of the text
have none, or one next to a backslash or a letter, and are kept. -/
namespace WordTex
namespace QuotePairs

/-- What is changed in a text is changed in its parts. -/
theorem Respells.of_append {m : Marks} {before : Option Char} {after a b t : List Char}
    (h : Respells m before after (a ++ b) t) :
    ∃ t₁ t₂, t = t₁ ++ t₂ ∧ Respells m before (b ++ after) a t₁ ∧
      Respells m (a.getLast?.or before) after b t₂ := by
  induction a generalizing before t with
  | nil => exact ⟨[], t, rfl, .nil, by simpa using h⟩
  | cons c a ih =>
    rw [getLast?_cons_or]
    cases h with
    | keep h =>
      obtain ⟨t₁, t₂, rfl, h₁, h₂⟩ := ih h
      exact ⟨c :: t₁, t₂, rfl, .keep h₁, h₂⟩
    | opening hbefore h =>
      obtain ⟨t₁, t₂, rfl, h₁, h₂⟩ := ih h
      exact ⟨m.opening ++ t₁, t₂, by rw [List.append_assoc], .opening hbefore h₁, h₂⟩
    | closing hclose h =>
      obtain ⟨t₁, t₂, rfl, h₁, h₂⟩ := ih h
      have hclose : mayClose (a ++ (b ++ after)) = true := by simpa using hclose
      exact ⟨m.closing ++ t₁, t₂, by rw [List.append_assoc], .closing hclose h₁, h₂⟩

/-- What can become of a text, given the character before it if that is known. -/
def outcomes (m : Marks) (before : Option Char) : List Char → List (List Char)
  | [] => [[]]
  | c :: s =>
    let rest := outcomes m (some c) s
    let opened := if before.all opensAfter then rest.map (m.opening ++ ·) else []
    let closed := if s.head?.all closesBefore then rest.map (m.closing ++ ·) else []
    rest.map (c :: ·) ++ if c = m.straight then opened ++ closed else []

theorem Respells.mem_outcomes {m : Marks} {before known : Option Char} {after s t : List Char}
    (h : Respells m before after s t) (hknown : ∀ c ∈ known, before = some c) :
    t ∈ outcomes m known s := by
  induction h generalizing known with
  | nil => exact List.mem_singleton.mpr rfl
  | @keep before c s t after _ ih =>
    rw [outcomes]
    exact List.mem_append_left _ (List.mem_map.mpr ⟨t, ih (by simp), rfl⟩)
  | @opening before s t after hbefore _ ih =>
    have hopens : known.all opensAfter = true := by
      rw [Option.all_eq_true]
      exact fun c hc => hbefore c (hknown c hc)
    simp only [outcomes, hopens, ↓reduceIte, List.mem_append]
    exact .inr (.inl (List.mem_map.mpr ⟨t, ih (by simp), rfl⟩))
  | @closing before s t after hclose _ ih =>
    have hcloses : s.head?.all closesBefore = true := by
      cases s with
      | nil => rfl
      | cons d s => simpa [mayClose] using hclose
    simp only [outcomes, hcloses, ↓reduceIte, List.mem_append]
    exact .inr (.inr (List.mem_map.mpr ⟨t, ih (by simp), rfl⟩))

theorem outcomes_of_not_mem {m : Marks} {s : List Char} (h : m.straight ∉ s) (known : Option Char) :
    outcomes m known s = [s] := by
  induction s generalizing known with
  | nil => rfl
  | cons c s ih =>
    rw [List.mem_cons, not_or] at h
    simp [outcomes, ih h.2, Ne.symm h.1]

/-- What a piece can become; it stands for the same. -/
def Becomes (m : Marks) (p q : TexPiece) : Prop := q.source = p.source ∧ q.tex ∈ outcomes m none p.tex

/-- The pieces of a text are changed one by one. -/
theorem Respells.exists_pieces {m : Marks} {before : Option Char} {after t : List Char}
    {ps : List TexPiece} (h : Respells m before after (texOf ps) t) :
    ∃ qs, texOf qs = t ∧ List.Forall₂ (Becomes m) ps qs := by
  induction ps generalizing before t with
  | nil =>
    cases h
    exact ⟨[], rfl, .nil⟩
  | cons p ps ih =>
    obtain ⟨t₁, t₂, rfl, h₁, h₂⟩ := h.of_append
    obtain ⟨qs, rfl, hqs⟩ := ih h₂
    exact ⟨⟨p.source, t₁⟩ :: qs, rfl, .cons ⟨rfl, h₁.mem_outcomes (by simp)⟩ hqs⟩

/-- The ways in which pairing changes a piece, by what the piece stands for: a straight quote, a curly
one that closes, or a diaeresis, of which the accent is written with a straight quote. -/
def respellings : List (List Char × List Char) :=
  [(['\x27'], "\x60".toList), (['\x22'], "\x60\x60".toList), (['\x22'], "\x27\x27".toList),
    (['\u2019'], "\x60".toList), (['\u201d'], "\x60\x27".toList), (['\u0308'], "\\\x27\x27".toList)]

/-- The texts that a text can become when single and then double quotes are paired in it. -/
def respelled (s : List Char) : List (List Char) :=
  (outcomes single none s).flatMap (outcomes double none)

theorem respelling_of_entry : ∀ e ∈ CharacterTable.all, ∀ u ∈ respelled e.value,
    u = e.value ∨ (e.pattern, u) ∈ respellings := by
  decide +kernel

theorem respelling_of_isRuled {width : Nat} {p : TexPiece} (h : IsRuled width p) :
    ∀ u ∈ respelled p.tex, u = p.tex ∨ (p.source, u) ∈ respellings := by
  have hnone (s : List Char) (hsingle : '\x27' ∉ s) (hdouble : '\x22' ∉ s) : respelled s = [s] := by
    simp [respelled, outcomes_of_not_mem (m := single) hsingle, outcomes_of_not_mem (m := double) hdouble]
  cases h with
  | @kept c _ _ =>
    by_cases hsingle : c = '\x27'
    · subst hsingle
      decide
    by_cases hdouble : c = '\x22'
    · subst hdouble
      decide
    rw [hnone [c] (by simpa using Ne.symm hsingle) (by simpa using Ne.symm hdouble)]
    simp
  | entry he => exact respelling_of_entry _ he
  | @blank source _ =>
    rw [hnone (blankRule _) (not_mem_blankRule (by decide) (by decide) _)
      (not_mem_blankRule (by decide) (by decide) _)]
    simp

end QuotePairs

/-- A piece before quotes are paired, and what it is then. -/
structure IsRespelled (options : LatexOptions) (p q : TexPiece) : Prop where
  source : q.source = p.source
  tex : q.tex = p.tex ∨ options.smartQuotes = true ∧ (p.source, q.tex) ∈ QuotePairs.respellings

/-- The pieces make up the escaped text, each with what has become of it. -/
structure IsEscapeOf (options : LatexOptions) (raw : List Char) (qs : List TexPiece) : Prop where
  tex : texOf qs = escapeChars options raw
  pieces : List.Forall₂ (IsRespelled options) (ruledPieces options.underscoreWidth raw) qs

namespace IsEscapeOf

variable {options : LatexOptions} {raw : List Char} {qs : List TexPiece}

/-- The pieces stand for the whole source. -/
theorem sourceOf (h : IsEscapeOf options raw qs) : WordTex.sourceOf qs = raw := by
  rw [WordTex.sourceOf, flatMap_eq_of_forall₂ (h.pieces.imp fun _ _ hpq => hpq.source)]
  exact sourceOf_ruledPieces _ raw

theorem exists_isRespelled (h : IsEscapeOf options raw qs) :
    ∀ q ∈ qs, ∃ p, IsRuled options.underscoreWidth p ∧ IsRespelled options p q := by
  intro q hq
  obtain ⟨p, hp, hpq⟩ := exists_mem_of_forall₂ h.pieces q hq
  exact ⟨p, isRuled_of_mem_ruledPieces p hp, hpq⟩

end IsEscapeOf

theorem forall₂_isRespelled {options : LatexOptions} (hquotes : options.smartQuotes = true) {width : Nat}
    {ps rs qs : List TexPiece} (hps : ∀ p ∈ ps, IsRuled width p)
    (hsingle : List.Forall₂ (QuotePairs.Becomes QuotePairs.single) ps rs)
    (hdouble : List.Forall₂ (QuotePairs.Becomes QuotePairs.double) rs qs) :
    List.Forall₂ (IsRespelled options) ps qs := by
  induction hsingle generalizing qs with
  | nil =>
    cases hdouble
    exact .nil
  | @cons p r ps rs hr _ ih =>
    obtain ⟨hp, hps⟩ := List.forall_mem_cons.mp hps
    cases hdouble with
    | @cons _ q _ qs hq hqs =>
      have hmem : q.tex ∈ QuotePairs.respelled p.tex := List.mem_flatMap.mpr ⟨r.tex, hr.2, hq.2⟩
      refine .cons ⟨hq.1.trans hr.1, ?_⟩ (ih hps hqs)
      exact (QuotePairs.respelling_of_isRuled hp _ hmem).imp_right fun h => ⟨hquotes, h⟩

theorem exists_isEscapeOf (options : LatexOptions) (raw : List Char) : ∃ qs, IsEscapeOf options raw qs := by
  have hruled := texOf_ruledPieces options.underscoreWidth raw
  cases hquotes : options.smartQuotes with
  | false =>
    refine ⟨ruledPieces options.underscoreWidth raw, ?_, ?_⟩
    · rw [hruled, escapeChars, hquotes]
      rfl
    · exact List.forall₂_same.mpr fun p _ => ⟨rfl, .inl rfl⟩
  | true =>
    have hsingle := QuotePairs.respells_convertFrom QuotePairs.single true
      (texOf (ruledPieces options.underscoreWidth raw)) fun _ => rfl
    obtain ⟨rs, hrs, hps⟩ := hsingle.exists_pieces
    have hdouble := QuotePairs.respells_convertFrom QuotePairs.double true (texOf rs) fun _ => rfl
    obtain ⟨qs, hqs, hrs'⟩ := hdouble.exists_pieces
    refine ⟨qs, ?_, forall₂_isRespelled hquotes isRuled_of_mem_ruledPieces hps hrs'⟩
    rw [hqs, hrs, hruled, escapeChars, hquotes]
    rfl

/-- Pairing quotes changes nothing but straight quotes, curly ones that close, and the accent of a
diaeresis that combines with the letter before it. -/
theorem escapeChars_respells_quotes (options : LatexOptions) (raw : List Char) :
    sourceOf (ruledPieces options.underscoreWidth raw) = raw ∧
      texOf (ruledPieces options.underscoreWidth raw) =
        fillInBlanks options.underscoreWidth (replaceCharacters raw) ∧
      ∃ qs, IsEscapeOf options raw qs :=
  ⟨sourceOf_ruledPieces _ raw, texOf_ruledPieces _ raw, exists_isEscapeOf options raw⟩

/-- The accent is lost where a quote before its word is taken to be closed by it. -/
example : escapeText {} "\x22Chloe\u0308" = "\x60\x60Chloe\\\x27\x27" := by decide +kernel

/-- Not only straight quotes of the source are changed: two closing curly ones become a pair. -/
theorem curly_quotes_paired : ¬ ∀ (options : LatexOptions) (raw : List Char),
    ∃ qs, texOf qs = escapeChars options raw ∧
      List.Forall₂ (fun p q => q.source = p.source ∧
        (q.tex = p.tex ∨ p.source = ['\x27'] ∨ p.source = ['\x22']))
        (ruledPieces options.underscoreWidth raw) qs := by
  intro h
  obtain ⟨qs, htex, hqs⟩ := h {} "\u2019tis the season\u2019".toList
  have hnone : ∀ p ∈ ruledPieces 3 "\u2019tis the season\u2019".toList,
      p.source ≠ ['\x27'] ∧ p.source ≠ ['\x22'] := by
    decide +kernel
  have hkept : texOf qs = texOf (ruledPieces 3 "\u2019tis the season\u2019".toList) := by
    refine flatMap_eq_of_forall₂ (((List.forall₂_and_left _ _).mpr ⟨hnone, hqs⟩).imp fun p q hpq => ?_)
    exact hpq.2.2.resolve_right (by simp [hpq.1])
  rw [htex, texOf_ruledPieces] at hkept
  revert hkept
  decide +kernel

end WordTex
