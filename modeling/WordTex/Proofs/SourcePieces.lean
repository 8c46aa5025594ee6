import WordTex.TextCuts
import WordTex.Proofs.EscapedText

/-! # Where escaped text comes from

The character table and the blanks once more, with the part of the source that each piece of their
result stands for. -/
namespace WordTex

section Forall₂

variable {α β γ : Type} {as : List α} {bs : List β}

theorem flatMap_eq_of_forall₂ {f : α → List γ} {g : β → List γ}
    (h : List.Forall₂ (fun a b => g b = f a) as bs) : bs.flatMap g = as.flatMap f := by
  induction h with
  | nil => rfl
  | cons hab _ ih => rw [List.flatMap_cons, List.flatMap_cons, hab, ih]

theorem exists_mem_of_forall₂ {R : α → β → Prop} (h : List.Forall₂ R as bs) :
    ∀ b ∈ bs, ∃ a ∈ as, R a b := by
  induction h with
  | nil => simp
  | @cons a b as bs hab _ ih =>
    rw [List.forall_mem_cons]
    refine ⟨⟨a, List.mem_cons_self, hab⟩, fun c hc => ?_⟩
    obtain ⟨d, hd, hdc⟩ := ih c hc
    exact ⟨d, List.mem_cons_of_mem a hd, hdc⟩

end Forall₂

/-- A piece of text as LaTeX, and what it stands for. -/
@[ext]
structure TexPiece where
  source : List Char
  tex : List Char
deriving DecidableEq, Repr

def sourceOf (ps : List TexPiece) : List Char := ps.flatMap TexPiece.source

def texOf (ps : List TexPiece) : List Char := ps.flatMap TexPiece.tex

section Append

variable {p : TexPiece} {ps qs : List TexPiece}

@[simp] theorem sourceOf_nil : sourceOf [] = [] := rfl

@[simp] theorem sourceOf_cons : sourceOf (p :: ps) = p.source ++ sourceOf ps := rfl

@[simp] theorem sourceOf_append : sourceOf (ps ++ qs) = sourceOf ps ++ sourceOf qs :=
  List.flatMap_append

@[simp] theorem texOf_nil : texOf [] = [] := rfl

@[simp] theorem texOf_cons : texOf (p :: ps) = p.tex ++ texOf ps := rfl

@[simp] theorem texOf_append : texOf (ps ++ qs) = texOf ps ++ texOf qs := List.flatMap_append

end Append

/-- Each character of the text is in one of the pieces. -/
theorem exists_piece_of_texOf {ps : List TexPiece} {before after : List Char} {c : Char}
    (h : texOf ps = before ++ c :: after) :
    ∃ P p Q u v, ps = P ++ p :: Q ∧ p.tex = u ++ c :: v ∧ before = texOf P ++ u ∧
      after = v ++ texOf Q := by
  induction ps generalizing before with
  | nil => simp at h
  | cons p ps ih =>
    rw [texOf_cons] at h
    rcases List.append_eq_append_iff.mp h with ⟨s, rfl, hs⟩ | ⟨s, hp, hs⟩
    · obtain ⟨P, q, Q, u, v, rfl, hq, rfl, rfl⟩ := ih hs
      exact ⟨p :: P, q, Q, u, v, rfl, hq, by simp, rfl⟩
    · cases s with
      | nil =>
        have hps : texOf ps = [] ++ c :: after := by simpa using hs.symm
        obtain ⟨P, q, Q, u, v, rfl, hq, hu, rfl⟩ := ih hps
        rw [List.append_nil] at hp
        exact ⟨p :: P, q, Q, u, v, rfl, hq, by simp [← hp, List.append_assoc, ← hu], rfl⟩
      | cons d s =>
        obtain ⟨rfl, rfl⟩ := List.cons.inj hs
        exact ⟨[], p, ps, before, s, rfl, hp, rfl, rfl⟩

namespace Substitution

/-- What `apply` does, with what each replacement and each kept character stands for. -/
def pieces (table : List Substitution) : List Char → List TexPiece
  | [] => []
  | c :: cs =>
    match first? table (c :: cs) with
    | some s => ⟨c :: cs.take (s.pattern.length - 1), s.value⟩ ::
        pieces table (cs.drop (s.pattern.length - 1))
    | none => ⟨[c], [c]⟩ :: pieces table cs
termination_by text => text.length
decreasing_by
  · simp only [List.length_drop, List.length_cons]
    omega
  · simp

variable {table : List Substitution}

@[simp] theorem sourceOf_pieces (text : List Char) : sourceOf (pieces table text) = text := by
  fun_induction pieces table text with
  | case1 => rfl
  | case2 c cs s _ ih => rw [sourceOf_cons, ih, List.cons_append, List.take_append_drop]
  | case3 c cs _ ih => rw [sourceOf_cons, ih, List.singleton_append]

@[simp] theorem texOf_pieces (text : List Char) : texOf (pieces table text) = apply table text := by
  fun_induction pieces table text with
  | case1 => rw [apply, texOf_nil]
  | case2 c cs s hs ih =>
    rw [texOf_cons, ih, apply]
    simp [hs]
  | case3 c cs h ih =>
    rw [texOf_cons, ih, apply]
    simp [h]

/-- A piece is a character without an entry, or what an entry of the table says. -/
theorem of_mem_pieces (htable : ∀ e ∈ table, e.pattern ≠ []) {text : List Char} {p : TexPiece}
    (h : p ∈ pieces table text) :
    (∃ c, (∀ e ∈ table, e.pattern ≠ [c]) ∧ p = ⟨[c], [c]⟩) ∨
      ∃ e ∈ table, p = ⟨e.pattern, e.value⟩ := by
  fun_induction pieces table text with
  | case1 => simp at h
  | case2 c cs s hs ih =>
    rcases List.mem_cons.mp h with rfl | h
    · have hmem := (mem_of_first? hs).1
      have htext := pattern_append_drop hs (htable s hmem)
      have hcut : c :: cs.take (s.pattern.length - 1) ++ cs.drop (s.pattern.length - 1) = c :: cs := by simp
      exact .inr ⟨s, hmem, by rw [List.append_cancel_right (hcut.trans htext.symm)]⟩
    · exact ih h
  | case3 c cs hnone ih =>
    rcases List.mem_cons.mp h with rfl | h
    · exact .inl ⟨c, fun e he => pattern_ne_of_first?_eq_none hnone he, rfl⟩
    · exact ih h

end Substitution

/-- There is nothing but underscores, if anything at all. -/
def TexPiece.isBlank (p : TexPiece) : Bool := p.tex.all (· == '_')

/-- What `fillInBlanks` does: the rule stands for all pieces of the run. -/
def joinBlanks (width : Nat) : List TexPiece → List TexPiece
  | [] => []
  | p :: ps =>
    if p.tex = ['_'] then
      let run := p :: ps.takeWhile TexPiece.isBlank
      ⟨sourceOf run, blankRule ((texOf run).length * width)⟩ ::
        joinBlanks width (ps.dropWhile TexPiece.isBlank)
    else p :: joinBlanks width ps
termination_by ps => ps.length
decreasing_by
  · have := length_dropWhile_le TexPiece.isBlank ps
    simp only [List.length_cons]
    omega
  · simp

/-- No piece has underscores among other characters. -/
def SeparatesBlanks (ps : List TexPiece) : Prop := ∀ p ∈ ps, p.tex = ['_'] ∨ '_' ∉ p.tex

@[simp] theorem sourceOf_joinBlanks (width : Nat) (ps : List TexPiece) :
    sourceOf (joinBlanks width ps) = sourceOf ps := by
  fun_induction joinBlanks width ps with
  | case1 => rfl
  | case2 p ps _ run ih =>
    rw [sourceOf_cons, ih, ← sourceOf_append, List.cons_append, List.takeWhile_append_dropWhile]
  | case3 p ps _ ih => rw [sourceOf_cons, sourceOf_cons, ih]

theorem fillInBlanks_append (width : Nat) {s : List Char} (hs : '_' ∉ s) (rest : List Char) :
    fillInBlanks width (s ++ rest) = s ++ fillInBlanks width rest := by
  induction s with
  | nil => rfl
  | cons c s ih =>
    rw [List.mem_cons, not_or] at hs
    rw [List.cons_append, fillInBlanks, if_neg (Ne.symm hs.1), ih hs.2, List.cons_append]

theorem all_texOf_takeWhile (ps : List TexPiece) :
    ∀ c ∈ texOf (ps.takeWhile TexPiece.isBlank), decide (c = '_') = true := by
  intro c hc
  obtain ⟨p, hp, hc⟩ := List.mem_flatMap.mp hc
  have hblank := List.mem_takeWhile_imp hp
  simpa using List.all_eq_true.mp hblank c hc

/-- Behind a run there is a character other than an underscore, if there is any. -/
theorem head?_texOf_dropWhile {ps : List TexPiece} (h : SeparatesBlanks ps) :
    ∀ c ∈ (texOf (ps.dropWhile TexPiece.isBlank)).head?, decide (c = '_') = false := by
  cases hdrop : ps.dropWhile TexPiece.isBlank with
  | nil => simp
  | cons p rest =>
    have hp : p.isBlank = false := by
      have := List.head?_dropWhile_not TexPiece.isBlank ps
      simpa [hdrop] using this
    have hmem : p ∈ ps := (List.dropWhile_sublist TexPiece.isBlank).mem (by simp [hdrop])
    have hnot : '_' ∉ p.tex := (h p hmem).resolve_left fun htex => by
      simp [TexPiece.isBlank, htex] at hp
    cases htex : p.tex with
    | nil => simp [TexPiece.isBlank, htex] at hp
    | cons c tex =>
      rw [htex, List.mem_cons, not_or] at hnot
      simpa [htex] using Ne.symm hnot.1

theorem texOf_joinBlanks (width : Nat) {ps : List TexPiece} (h : SeparatesBlanks ps) :
    texOf (joinBlanks width ps) = fillInBlanks width (texOf ps) := by
  fun_induction joinBlanks width ps with
  | case1 => rw [texOf_nil, fillInBlanks]
  | case2 p ps hp run ih =>
    have hps : SeparatesBlanks ps := fun q hq => h q (List.mem_cons_of_mem p hq)
    have hrun := all_texOf_takeWhile ps
    have hrest := head?_texOf_dropWhile hps
    have hcut : texOf ps = texOf (ps.takeWhile TexPiece.isBlank) ++
        texOf (ps.dropWhile TexPiece.isBlank) := by
      rw [← texOf_append, List.takeWhile_append_dropWhile]
    have hlength : (texOf run).length = (texOf (ps.takeWhile TexPiece.isBlank)).length + 1 := by
      simp [run, hp]
    have hfill : fillInBlanks width (texOf (p :: ps)) =
        blankRule ((texOf run).length * width) ++
          fillInBlanks width (texOf (ps.dropWhile TexPiece.isBlank)) := by
      rw [texOf_cons, hp, List.singleton_append, fillInBlanks, if_pos rfl, hcut,
        takeWhile_append_of_head? hrun hrest, dropWhile_append_of_head? hrun hrest, hlength]
    rw [hfill, texOf_cons, ih fun q hq => hps q ((List.dropWhile_sublist _).mem hq)]
  | case3 p ps hp ih =>
    have hnot := (h p List.mem_cons_self).resolve_left hp
    rw [texOf_cons, texOf_cons, fillInBlanks_append width hnot,
      ih fun q hq => h q (List.mem_cons_of_mem p hq)]

/-- The text before its quotes are paired. -/
def ruledPieces (width : Nat) (raw : List Char) : List TexPiece :=
  joinBlanks width (Substitution.pieces CharacterTable.all raw)

/-- What may be in a run of underscores: the left-to-right mark is dropped before they are counted. -/
def isBlankSource (c : Char) : Bool := c == '_' || c == '\u200e'

/-- The pieces before quotes are paired. -/
inductive IsRuled (width : Nat) : TexPiece → Prop where
  | kept {c : Char} (htable : ∀ e ∈ CharacterTable.all, e.pattern ≠ [c]) (hc : c ≠ '_') :
      IsRuled width ⟨[c], [c]⟩
  | entry {e : Substitution} (he : e ∈ CharacterTable.all) : IsRuled width ⟨e.pattern, e.value⟩
  | blank {source : List Char} (hsource : source.all isBlankSource = true) :
      IsRuled width ⟨source, blankRule (source.count '_' * width)⟩

theorem sourceOf_ruledPieces (width : Nat) (raw : List Char) :
    sourceOf (ruledPieces width raw) = raw := by
  rw [ruledPieces, sourceOf_joinBlanks, Substitution.sourceOf_pieces]

theorem CharacterTable.pattern_ne_nil : ∀ e ∈ all, e.pattern ≠ [] := by decide +kernel

theorem CharacterTable.underscore_not_mem_value : ∀ e ∈ all, '_' ∉ e.value := by decide +kernel

/-- The left-to-right mark is the only entry that disappears. -/
theorem CharacterTable.pattern_of_value_eq_nil : ∀ e ∈ all, e.value = [] → e.pattern = ['\u200e'] := by
  decide +kernel

theorem CharacterTable.of_mem_pieces {raw : List Char} {p : TexPiece}
    (h : p ∈ Substitution.pieces all raw) :
    (∃ c, (∀ e ∈ all, e.pattern ≠ [c]) ∧ p = ⟨[c], [c]⟩) ∨ ∃ e ∈ all, p = ⟨e.pattern, e.value⟩ :=
  Substitution.of_mem_pieces pattern_ne_nil h

theorem separatesBlanks_pieces (raw : List Char) :
    SeparatesBlanks (Substitution.pieces CharacterTable.all raw) := by
  intro p hp
  rcases CharacterTable.of_mem_pieces hp with ⟨c, -, rfl⟩ | ⟨e, he, rfl⟩
  · by_cases hc : c = '_'
    · exact .inl (by rw [hc])
    · exact .inr (by simpa using Ne.symm hc)
  · exact .inr (CharacterTable.underscore_not_mem_value e he)

theorem texOf_ruledPieces (width : Nat) (raw : List Char) :
    texOf (ruledPieces width raw) = fillInBlanks width (replaceCharacters raw) := by
  rw [ruledPieces, texOf_joinBlanks width (separatesBlanks_pieces raw), Substitution.texOf_pieces]
  rfl

/-- A blank piece is an underscore or a mark that disappears. -/
theorem source_of_isBlank {raw : List Char} {p : TexPiece}
    (h : p ∈ Substitution.pieces CharacterTable.all raw) (hp : p.isBlank = true) :
    p.source.all isBlankSource = true ∧ p.tex.length = p.source.count '_' := by
  rcases CharacterTable.of_mem_pieces h with ⟨c, -, rfl⟩ | ⟨e, he, rfl⟩
  · obtain rfl : c = '_' := by simpa [TexPiece.isBlank] using hp
    exact ⟨rfl, rfl⟩
  · have hnil : e.value = [] := by
      refine List.eq_nil_iff_forall_not_mem.mpr fun c hc => ?_
      obtain rfl : c = '_' := by simpa using List.all_eq_true.mp hp c hc
      exact CharacterTable.underscore_not_mem_value e he hc
    rw [CharacterTable.pattern_of_value_eq_nil e he hnil, hnil]
    exact ⟨rfl, rfl⟩

theorem source_of_forall_isBlank {raw : List Char} {run : List TexPiece}
    (h : ∀ p ∈ run, p ∈ Substitution.pieces CharacterTable.all raw ∧ p.isBlank = true) :
    (sourceOf run).all isBlankSource = true ∧ (texOf run).length = (sourceOf run).count '_' := by
  induction run with
  | nil => exact ⟨rfl, rfl⟩
  | cons p run ih =>
    obtain ⟨hall, hlength⟩ := ih fun q hq => h q (List.mem_cons_of_mem p hq)
    obtain ⟨hmem, hp⟩ := h p List.mem_cons_self
    obtain ⟨hall', hlength'⟩ := source_of_isBlank hmem hp
    simp [hall, hall', hlength, hlength']

theorem isRuled_of_mem_joinBlanks (width : Nat) {raw : List Char} {ps : List TexPiece}
    (hps : ∀ p ∈ ps, p ∈ Substitution.pieces CharacterTable.all raw) :
    ∀ p ∈ joinBlanks width ps, IsRuled width p := by
  fun_induction joinBlanks width ps with
  | case1 => simp
  | case2 p ps hp run ih =>
    rw [List.forall_mem_cons]
    constructor
    · have hrun : ∀ q ∈ run, q ∈ Substitution.pieces CharacterTable.all raw ∧ q.isBlank = true := by
        intro q hq
        rcases List.mem_cons.mp hq with rfl | hq
        · exact ⟨hps q List.mem_cons_self, by simp [TexPiece.isBlank, hp]⟩
        · exact ⟨hps q (List.mem_cons_of_mem p ((List.takeWhile_sublist _).mem hq)),
            List.mem_takeWhile_imp hq⟩
      obtain ⟨hall, hlength⟩ := source_of_forall_isBlank hrun
      rw [hlength]
      exact .blank hall
    · exact ih fun q hq => hps q (List.mem_cons_of_mem p ((List.dropWhile_sublist _).mem hq))
  | case3 p ps hp ih =>
    rw [List.forall_mem_cons]
    refine ⟨?_, ih fun q hq => hps q (List.mem_cons_of_mem p hq)⟩
    rcases CharacterTable.of_mem_pieces (hps p List.mem_cons_self) with ⟨c, htable, rfl⟩ | ⟨e, he, rfl⟩
    · exact .kept htable fun hc => hp (by rw [hc])
    · exact .entry he

theorem isRuled_of_mem_ruledPieces {width : Nat} {raw : List Char} :
    ∀ p ∈ ruledPieces width raw, IsRuled width p :=
  isRuled_of_mem_joinBlanks width fun _ hp => hp

end WordTex
