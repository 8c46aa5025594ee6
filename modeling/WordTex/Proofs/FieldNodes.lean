import WordTex.Proofs.FieldParts
import Mathlib.Data.List.TakeWhile

/-! # The nodes of fields

What the reader makes of a list of events is what its brackets say: one node for each field, with the
nodes between its marks as children, and with an instruction that stands in the field itself. -/
namespace WordTex

namespace FieldPart

def instruction? : FieldPart → Option String
  | instruction text => some text
  | _ => none

def isSeparator : FieldPart → Bool
  | separator => true
  | _ => false

/-- The instructions that stand in a field itself, not in those inside of it, before its first
separator. -/
def fragments (parts : List FieldPart) : List String :=
  (parts.takeWhile fun p => !p.isSeparator).filterMap instruction?

def instructionOf (parts : List FieldPart) : String := String.join (fragments parts)

end FieldPart

/-- The code of the bookmark that an instruction refers to. -/
def FieldInstruction.code? (text : String) : Option String :=
  match FieldInstruction.ofText text with
  | .reference _ code _ => some code
  | _ => none

/-- The node of a field. Only a field that is closed can be a cross-reference. -/
def fieldNode (closed : Bool) (instruction : String) (children : List Node) : Node :=
  match closed, FieldInstruction.code? instruction with
  | true, some code => .reference code children
  | _, _ => .group .fieldResult (.ofChildren children)

namespace FieldPart

mutual

def nodes : FieldPart → List Node
  | node n => [n]
  | field closed parts => [fieldNode closed (instructionOf parts) (nodesAll parts)]
  | _ => []

def nodesAll : List FieldPart → List Node
  | [] => []
  | p :: ps => p.nodes ++ nodesAll ps

end

@[simp] theorem nodesAll_append (ps qs : List FieldPart) :
    nodesAll (ps ++ qs) = nodesAll ps ++ nodesAll qs := by
  induction ps with
  | nil => rfl
  | cons p ps ih => simp [nodesAll, ih]

/-- An open field with the parts that it has so far. -/
def openField (parts : List FieldPart) : OpenField :=
  ⟨fragments parts, parts.any isSeparator, nodesAll parts⟩

theorem fragments_append_singleton (parts : List FieldPart) (p : FieldPart) :
    fragments (parts ++ [p]) = fragments parts ++
      if parts.any isSeparator then [] else p.instruction?.toList := by
  simp only [fragments]
  cases hany : parts.any isSeparator with
  | true =>
    obtain ⟨q, hq, hsep⟩ := List.any_eq_true.mp hany
    have hshort : (parts.takeWhile fun p => !p.isSeparator).length ≠ parts.length := by
      intro hlength
      have hall := (List.takeWhile_prefix fun p : FieldPart => !p.isSeparator).eq_of_length hlength
      have := List.mem_takeWhile_imp (hall ▸ hq)
      simp [hsep] at this
    rw [List.takeWhile_append, if_neg hshort]
    simp
  | false =>
    have hnone : ∀ q ∈ parts, (!q.isSeparator) = true := by
      simpa using List.any_eq_false.mp hany
    rw [List.takeWhile_append_of_pos hnone, List.takeWhile_eq_self_iff.mpr hnone,
      List.filterMap_append]
    congr 1
    cases p <;> rfl

variable (parts : List FieldPart)

theorem openField_node (n : Node) : openField (parts ++ [.node n]) = (openField parts).push n := by
  simp [openField, fragments_append_singleton, OpenField.push, instruction?, isSeparator, nodesAll,
    nodes]

theorem openField_instruction (text : String) :
    openField (parts ++ [.instruction text]) = (openField parts).addInstruction text := by
  cases hany : parts.any isSeparator <;>
    simp [openField, fragments_append_singleton, OpenField.addInstruction, instruction?,
      isSeparator, nodesAll, nodes, hany]

theorem openField_separator : openField (parts ++ [.separator]) = (openField parts).separate := by
  simp [openField, fragments_append_singleton, OpenField.separate, instruction?, isSeparator,
    nodesAll, nodes]

theorem openField_field (closed : Bool) (ps : List FieldPart) :
    openField (parts ++ [.field closed ps]) =
      (openField parts).push (fieldNode closed (instructionOf ps) (nodesAll ps)) := by
  simp [openField, fragments_append_singleton, OpenField.push, instruction?, isSeparator, nodesAll,
    nodes]

theorem close_openField :
    (openField parts).close = fieldNode true (instructionOf parts) (nodesAll parts) := by
  have hinstruction : (openField parts).instruction = instructionOf parts := rfl
  rw [OpenField.close, hinstruction]
  simp only [fieldNode, FieldInstruction.code?]
  cases FieldInstruction.ofText (instructionOf parts) <;> rfl

theorem result_openField :
    (openField parts).result = fieldNode false (instructionOf parts) (nodesAll parts) := rfl

end FieldPart

namespace OpenParts

open FieldPart

/-- The open fields with the parts that they have so far. -/
def fields (z : OpenParts) : List OpenField := z.opened.map openField

theorem place_push (z : OpenParts) {p : FieldPart} {n : Node} (hnodes : p.nodes = [n])
    (hfield : ∀ parts, openField (parts ++ [p]) = (openField parts).push n) :
    (FieldEvent.place n z.fields).1 = (z.push p).fields ∧
      nodesAll (z.push p).complete = nodesAll z.complete ++ (FieldEvent.place n z.fields).2 := by
  simp only [push, fields]
  rcases hopened : z.opened with _ | ⟨ps, outer⟩
  · simp [FieldEvent.place, nodesAll, hnodes]
  · simp [FieldEvent.place, hfield]

/-- A step of the reader is a step of the brackets. -/
theorem apply_fields (z : OpenParts) (e : FieldEvent) :
    (e.apply z.fields).1 = (z.next e).fields ∧
      nodesAll (z.next e).complete = nodesAll z.complete ++ (e.apply z.fields).2 := by
  cases e with
  | node n => exact z.place_push rfl fun parts => openField_node parts n
  | instruction text =>
    simp only [next, push, fields]
    rcases hopened : z.opened with _ | ⟨ps, outer⟩
    · simp [FieldEvent.apply, nodesAll, nodes]
    · simp [FieldEvent.apply, openField_instruction]
  | mark m =>
    cases m with
    | opening => exact ⟨rfl, by simp [next, FieldEvent.apply]⟩
    | separator =>
      simp only [next, push, fields]
      rcases hopened : z.opened with _ | ⟨ps, outer⟩
      · simp [FieldEvent.apply, nodesAll, nodes]
      · simp [FieldEvent.apply, openField_separator]
    | closing =>
      rw [next]
      rcases hopened : z.opened with _ | ⟨ps, outer⟩
      · simp [FieldEvent.apply, push, fields, hopened, nodesAll, nodes]
      · have hplace := place_push ⟨z.complete, outer⟩ (p := .field true ps) rfl
          fun parts => openField_field parts true ps
        rw [← close_openField] at hplace
        simpa [FieldEvent.apply, fields, hopened] using hplace

theorem feed_fields (z : OpenParts) (es : List FieldEvent) :
    (FieldEvent.feed z.fields es).1 = (z.read es).fields ∧
      nodesAll (z.read es).complete = nodesAll z.complete ++ (FieldEvent.feed z.fields es).2 := by
  induction es generalizing z with
  | nil => simp [FieldEvent.feed, read]
  | cons e es ih =>
    obtain ⟨hfields, hnodes⟩ := z.apply_fields e
    obtain ⟨hrestFields, hrestNodes⟩ := ih (z.next e)
    rw [FieldEvent.feed, hfields]
    refine ⟨hrestFields, ?_⟩
    rw [hnodes, List.append_assoc] at hrestNodes
    exact hrestNodes

theorem nodesAll_nest (ps inner : List FieldPart) (outer : List (List FieldPart)) :
    nodesAll (nest inner (ps :: outer)) =
      OpenField.closeAll (openField (ps ++ inner) :: outer.map openField) := by
  induction outer generalizing ps inner with
  | nil => simp [nest, nodesAll, nodes, OpenField.closeAll, result_openField]
  | cons qs outer ih =>
    rw [List.map_cons, OpenField.closeAll, result_openField, ← openField_field, ← ih]
    rfl

theorem nodesAll_close (z : OpenParts) :
    nodesAll z.close = nodesAll z.complete ++ OpenField.closeAll z.fields := by
  rw [close, nodesAll_append, fields]
  congr 1
  cases z.opened with
  | nil => simp [nest, nodesAll, OpenField.closeAll]
  | cons ps outer => simp [nodesAll_nest]

end OpenParts

/-- The nodes of a paragraph are those of its parts. -/
theorem FieldEvent.deliver_eq (es : List FieldEvent) :
    deliver [] es = FieldPart.nodesAll (FieldPart.ofEvents es) := by
  obtain ⟨hfields, hnodes⟩ := OpenParts.start.feed_fields es
  rw [FieldPart.ofEvents, OpenParts.nodesAll_close, hnodes, ← hfields]
  simp [deliver, OpenParts.start, OpenParts.fields, FieldPart.nodesAll]

end WordTex
