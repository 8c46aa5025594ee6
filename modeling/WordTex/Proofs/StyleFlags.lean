import WordTex.CharacterStyle
import Mathlib.Data.List.Nodup

/-! # The flags of a style

A named flag is one bit, so a style has it or lacks it, and unions and differences can be read flag
by flag. What is left of a style without its named flags has no command. -/
namespace WordTex

namespace Style

def IsNamed (f : Style) : Prop := f ∈ named.map Prod.fst

instance (f : Style) : Decidable f.IsNamed := inferInstanceAs (Decidable (_ ∈ _))

/-- A single flag: a named one, or bits that have no names. -/
def IsFlag (f : Style) : Prop := f.IsNamed ∨ ∀ g : Style, g.IsNamed → f.contains g = false

variable {a b f g : Style}

theorem IsNamed.cases (h : f.IsNamed) :
    f = bold ∨ f = italic ∨ f = underline ∨ f = subscript ∨ f = superscript := by
  simpa [IsNamed, named] using h

@[simp] theorem empty_union (a : Style) : empty.union a = a := by
  simp [union, empty]

@[simp] theorem union_empty (a : Style) : a.union empty = a := by
  simp [union, empty]

theorem union_comm (a b : Style) : a.union b = b.union a := by
  simp [union, BitVec.or_comm]

theorem union_assoc (a b c : Style) : (a.union b).union c = a.union (b.union c) := by
  simp [union, BitVec.or_assoc]

theorem unionAll_cons (a : Style) (ss : List Style) :
    unionAll (a :: ss) = a.union (unionAll ss) := by
  have hfoldl : ∀ b c : Style, ss.foldl union (b.union c) = b.union (ss.foldl union c) := by
    induction ss with
    | nil => exact fun _ _ => rfl
    | cons d ds ih => exact fun b c => by rw [List.foldl_cons, union_assoc, ih, List.foldl_cons]
  rw [unionAll, List.foldl_cons, union_comm, hfoldl, unionAll]

theorem contains_empty (s : Style) : s.contains .empty = true := by
  simp [contains, empty]

private theorem exists_bit (hg : g.IsNamed) :
    ∃ i : Nat, i < 8 ∧ ∀ a : Style, a.contains g = a.bits.getLsbD i := by
  have hbit : ∃ i : Nat, i < 8 ∧ g = ⟨BitVec.twoPow 8 i⟩ := by
    obtain rfl | rfl | rfl | rfl | rfl := hg.cases
    · exact ⟨0, by decide, rfl⟩
    · exact ⟨1, by decide, rfl⟩
    · exact ⟨2, by decide, rfl⟩
    · exact ⟨3, by decide, rfl⟩
    · exact ⟨4, by decide, rfl⟩
  obtain ⟨i, hi, rfl⟩ := hbit
  refine ⟨i, hi, fun a => ?_⟩
  have hone : BitVec.twoPow 8 i ≠ 0#8 := by
    intro h
    simpa [hi] using congrArg (fun x => x.getLsbD i) h
  rw [contains, BitVec.and_twoPow]
  cases a.bits.getLsbD i with
  | false => simpa using hone.symm
  | true => simp

theorem contains_union (hg : g.IsNamed) :
    (a.union b).contains g = (a.contains g || b.contains g) := by
  obtain ⟨i, -, hi⟩ := exists_bit hg
  simp [hi, union]

theorem contains_difference (hg : g.IsNamed) :
    (a.difference b).contains g = (a.contains g && !b.contains g) := by
  obtain ⟨i, hlt, hi⟩ := exists_bit hg
  simp [hi, difference, hlt]

theorem empty_contains (hg : g.IsNamed) : empty.contains g = false := by
  obtain rfl | rfl | rfl | rfl | rfl := hg.cases <;> rfl

/-- Two named flags are equal when one has the other. -/
theorem IsNamed.contains_iff (hf : f.IsNamed) (hg : g.IsNamed) : f.contains g = true ↔ f = g := by
  have hall : ∀ f ∈ named.map Prod.fst, ∀ g ∈ named.map Prod.fst, f.contains g = true ↔ f = g := by
    decide
  exact hall f hf g hg

theorem unnamed_contains (s : Style) (hg : g.IsNamed) : s.unnamed.contains g = false := by
  have hall : (named.foldl (fun t f => t.union f.1) empty).contains g = true := by
    obtain rfl | rfl | rfl | rfl | rfl := hg.cases <;> rfl
  rw [unnamed, contains_difference hg, hall, Bool.not_true, Bool.and_false]

theorem IsFlag.of_mem_flags {s : Style} (h : f ∈ s.flags) :
    f.IsFlag ∧ (f.IsNamed → s.contains f = true) := by
  rcases List.mem_append.mp h with hnamed | hrest
  · obtain ⟨hf, hs⟩ := List.mem_filter.mp hnamed
    exact ⟨Or.inl hf, fun _ => hs⟩
  · split at hrest
    · simp at hrest
    · obtain rfl := List.mem_singleton.mp hrest
      refine ⟨Or.inr fun g hg => unnamed_contains s hg, fun hnamed => ?_⟩
      have hself := (hnamed.contains_iff hnamed).mpr rfl
      rw [unnamed_contains s hnamed] at hself
      simp at hself

theorem nodup_named : (named.map Prod.fst).Nodup := by
  decide

theorem nodup_flags (s : Style) : s.flags.Nodup := by
  have hnamed := nodup_named.filter s.contains
  refine List.nodup_append.mpr ⟨hnamed, ?_, ?_⟩
  · split <;> simp
  · rintro f hf g hg rfl
    split at hg
    · simp at hg
    · obtain rfl := List.mem_singleton.mp hg
      obtain ⟨hf, -⟩ := List.mem_filter.mp hf
      have hself := (IsNamed.contains_iff hf hf).mpr rfl
      rw [unnamed_contains s hf] at hself
      simp at hself

end Style

end WordTex
