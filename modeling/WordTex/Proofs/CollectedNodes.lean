import WordTex.Proofs.DocumentWalks
import WordTex.Proofs.FieldEvents

/-! # What is collected from the nodes of a paragraph

Nodes go to the innermost open field, and fields are handed on when they close. If a field has just what
is collected from its children, then at any time what is handed on and what the open fields have, from
the outermost on, is what the events brought. -/
namespace WordTex

variable {κ : Type}

/-- What is collected from a field is what is collected from its children. -/
structure CollectsFromFields (collect : Node → List κ) : Prop where
  field : ∀ ns, collect (.group .fieldResult ⟨ns, []⟩) = ns.flatMap collect
  reference : ∀ code ns, collect (.reference code ns) = ns.flatMap collect

/-- What is collected from open fields, of which the innermost comes first in the list and last in what
is collected. -/
def OpenField.collectAll (collect : Node → List κ) (fields : List OpenField) : List κ :=
  fields.reverse.flatMap fun f => f.children.flatMap collect

/-- What is collected from the node of an event. -/
def FieldEvent.collect (collect : Node → List κ) : FieldEvent → List κ
  | node n => collect n
  | _ => []

theorem OpenField.collectAll_push (collect : Node → List κ) (f : OpenField) (n : Node)
    (outer : List OpenField) :
    collectAll collect (f.push n :: outer) = collectAll collect (f :: outer) ++ collect n := by
  simp [collectAll, OpenField.push]

open OpenField

theorem FieldEvent.collect_place (collect : Node → List κ) (n : Node) (fields : List OpenField) :
    (place n fields).2.flatMap collect ++ collectAll collect (place n fields).1 =
      collectAll collect fields ++ collect n := by
  cases fields with
  | nil => simp [place, collectAll]
  | cons f rest => simp [place, collectAll_push]

namespace CollectsFromFields

variable {collect : Node → List κ} (h : CollectsFromFields collect)

include h

theorem result (f : OpenField) : collect f.result = f.children.flatMap collect :=
  h.field f.children

/-- The instruction of a field makes no difference. -/
theorem close (f : OpenField) : collect f.close = f.children.flatMap collect := by
  rw [OpenField.close]
  split
  · exact h.reference _ f.children
  · exact h.result f

theorem closeAll (fields : List OpenField) :
    (OpenField.closeAll fields).flatMap collect = collectAll collect fields := by
  induction fields using OpenField.closeAll.induct with
  | case1 => simp [OpenField.closeAll, collectAll]
  | case2 f => simp [OpenField.closeAll, collectAll, h.result]
  | case3 f g rest ih =>
    rw [OpenField.closeAll, ih, collectAll_push, h.result]
    simp [collectAll]

/-- An event adds what it brings behind the rest. -/
theorem apply (e : FieldEvent) (fields : List OpenField) :
    (e.apply fields).2.flatMap collect ++ collectAll collect (e.apply fields).1 =
      collectAll collect fields ++ e.collect collect := by
  cases e with
  | node n => exact FieldEvent.collect_place collect n fields
  | instruction text =>
    cases fields with
    | nil => simp [FieldEvent.apply, FieldEvent.collect]
    | cons f rest =>
      simp [FieldEvent.apply, FieldEvent.collect, collectAll, f.children_addInstruction]
  | mark m =>
    cases m with
    | opening => simp [FieldEvent.apply, FieldEvent.collect, collectAll, OpenField.start]
    | separator =>
      cases fields with
      | nil => simp [FieldEvent.apply, FieldEvent.collect]
      | cons f rest => simp [FieldEvent.apply, FieldEvent.collect, collectAll, OpenField.separate]
    | closing =>
      cases fields with
      | nil => simp [FieldEvent.apply, FieldEvent.collect]
      | cons f rest =>
        have hplace := FieldEvent.collect_place collect f.close rest
        rw [h.close] at hplace
        simpa [FieldEvent.apply, FieldEvent.collect, collectAll] using hplace

theorem feed (es : List FieldEvent) (fields : List OpenField) :
    (FieldEvent.feed fields es).2.flatMap collect ++
        collectAll collect (FieldEvent.feed fields es).1 =
      collectAll collect fields ++ es.flatMap (FieldEvent.collect collect) := by
  induction es generalizing fields with
  | nil => simp [FieldEvent.feed]
  | cons e es ih =>
    rw [FieldEvent.feed, List.flatMap_append, List.append_assoc, ih, ← List.append_assoc, h.apply,
      List.append_assoc, List.flatMap_cons]

/-- The nodes of a paragraph have what the open fields had, and then what its events bring, in order. -/
theorem deliver (fields : List OpenField) (es : List FieldEvent) :
    (FieldEvent.deliver fields es).flatMap collect =
      collectAll collect fields ++ es.flatMap (FieldEvent.collect collect) := by
  rw [FieldEvent.deliver, List.flatMap_append, h.closeAll, h.feed]

omit h in
/-- On walks that do not look into notes, nodes are collected that are no fields. -/
theorem bodyWalk {f : Node → Option κ} (hfield : ∀ ns, f (.group .fieldResult ⟨ns, []⟩) = none)
    (hreference : ∀ code ns, f (.reference code ns) = none) :
    CollectsFromFields fun n => n.bodyWalk.filterMap f where
  field ns := by
    rw [Node.bodyWalk, List.filterMap_cons_none (hfield ns), bodyWalkAll_eq_flatMap,
      List.filterMap_flatMap]
  reference code ns := by
    rw [Node.bodyWalk, List.filterMap_cons_none (hreference code ns), bodyWalkAll_eq_flatMap,
      List.filterMap_flatMap]

end CollectsFromFields

end WordTex
