import WordTex.StyledText
import WordTex.TextCuts
import Mathlib.Data.List.TakeWhile

/-! # The spans of styled texts -/
namespace WordTex

/-- The parts make up the text; white space is at the edges and nowhere at those of the core. -/
structure Edges.Cut (e : Edges) (s : List Char) : Prop where
  whole : e.leading ++ e.core ++ e.trailing = s
  leading : ∀ c ∈ e.leading, isBlank c = true
  trailing : ∀ c ∈ e.trailing, isBlank c = true
  first : ∀ c ∈ e.core.head?, isBlank c = false
  last : ∀ c ∈ e.core.getLast?, isBlank c = false
  blank : e.core = [] → e.trailing = []

theorem trimRight_append (s : List Char) :
    trimRight s ++ (s.reverse.takeWhile isBlank).reverse = s := by
  rw [trimRight, ← List.reverse_append, List.takeWhile_append_dropWhile, List.reverse_reverse]

private theorem trimRight_eq_nil {s : List Char} (h : trimRight s = []) : ∀ c ∈ s, isBlank c = true := by
  simpa [trimRight] using h

theorem cut_edges (s : List Char) : (edges s).Cut s where
  whole := by
    rw [List.append_assoc]
    simp only [edges, trim, trimRight_append]
    exact List.takeWhile_append_dropWhile
  leading _ hc := List.mem_takeWhile_imp hc
  trailing _ hc := List.mem_takeWhile_imp (List.mem_reverse.mp hc)
  first := by
    intro c hc
    have hwhole := trimRight_append (trimLeft s)
    refine of_mem_head?_dropWhile (s := s) ?_
    obtain ⟨rest, hrest⟩ := List.head?_eq_some_iff.mp hc
    change (trimLeft s).head? = some c
    rw [← hwhole, show trimRight (trimLeft s) = c :: rest from hrest]
    rfl
  last := by
    intro c hc
    refine of_mem_head?_dropWhile (s := (trimLeft s).reverse) ?_
    simpa [edges, trim, trimRight] using hc
  blank := by
    intro hcore
    have hblank := trimRight_eq_nil hcore
    cases htrim : trimLeft s with
    | nil => simp [edges, htrim]
    | cons c rest =>
      have hfirst : isBlank c = false :=
        of_mem_head?_dropWhile (s := s) (by rw [← trimLeft, htrim]; rfl)
      have hc := hblank c (by simp [htrim])
      simp [hfirst] at hc

/-- A text can be cut in one way only. -/
theorem Edges.Cut.eq_edges {e : Edges} {s : List Char} (h : e.Cut s) : e = edges s := by
  have hstart : ∀ c ∈ (e.core ++ e.trailing).head?, isBlank c = false := by
    cases hcore : e.core with
    | nil => simp [h.blank hcore]
    | cons c core => simpa [hcore] using h.first
  have hend : ∀ c ∈ e.core.reverse.head?, isBlank c = false := by simpa using h.last
  have hblank : ∀ c ∈ e.trailing.reverse, isBlank c = true := by simpa using h.trailing
  have hrest : trimLeft s = e.core ++ e.trailing := by
    rw [trimLeft, ← h.whole, List.append_assoc]
    exact dropWhile_append_of_head? h.leading hstart
  have hleading : e.leading = s.takeWhile isBlank := by
    rw [← h.whole, List.append_assoc]
    exact (takeWhile_append_of_head? h.leading hstart).symm
  have hcore : e.core = trim s := by
    rw [trim, hrest, trimRight, List.reverse_append, dropWhile_append_of_head? hblank hend,
      List.reverse_reverse]
  have htrailing : e.trailing = ((trimLeft s).reverse.takeWhile isBlank).reverse := by
    rw [hrest, List.reverse_append, takeWhile_append_of_head? hblank hend, List.reverse_reverse]
  rw [edges, ← hleading, ← hcore, ← htrailing]

namespace Span

/-- White space in front of spans joins the white space they start with. -/
def prependBlank (t : List Char) : List Span → List Span
  | .blank u :: spans => .blank (t ++ u) :: spans
  | spans => if t = [] then spans else .blank t :: spans

/-- Neighbouring stretches of white space become one. -/
def joinBlanks : List Span → List Span
  | [] => []
  | .core t styles :: spans => .core t styles :: joinBlanks spans
  | .blank t :: spans => prependBlank t (joinBlanks spans)

theorem prependBlank_nil (spans : List Span) : prependBlank [] spans = spans := by
  simp only [prependBlank]
  split <;> simp

theorem prependBlank_append (a b : List Char) (spans : List Span) :
    prependBlank (a ++ b) spans = prependBlank a (prependBlank b spans) := by
  by_cases hb : b = []
  · rw [hb, List.append_nil, prependBlank_nil]
  · match spans with
    | [] => simp [prependBlank, hb]
    | .core t styles :: rest => simp [prependBlank, hb]
    | .blank t :: rest => simp [prependBlank]

end Span

end WordTex
