import Mathlib.Data.List.Induction
import WordTex.Proofs.ParagraphFields

/-! # Fields that are left open

The fields of a paragraph that are not closed lie one inside the other. They are what the reader still
has open at the end, with the same instructions. -/
namespace WordTex

namespace FieldPart

/-- The instructions of the fields that are not closed, those around a field before it. -/
def openInstructions (parts : List FieldPart) : List String :=
  ((fieldsAll parts).filter fun f => !f.1).map fun f => instructionOf f.2

theorem fieldsAll_append (ps qs : List FieldPart) :
    fieldsAll (ps ++ qs) = fieldsAll ps ++ fieldsAll qs := by
  induction ps with
  | nil => rfl
  | cons p ps ih => simp [fieldsAll, ih]

theorem openInstructions_append (ps qs : List FieldPart) :
    openInstructions (ps ++ qs) = openInstructions ps ++ openInstructions qs := by
  simp [openInstructions, fieldsAll_append]

mutual

/-- If nothing is open at the end of a part, all its fields are closed. -/
theorem closed_of_matched {free : Bool} : ∀ p : FieldPart, p.Matched free false →
    ∀ f ∈ p.fields, f.1 = true
  | .node n, _ => by simp [fields]
  | .instruction text, _ => by simp [fields]
  | .separator, _ => by simp [fields]
  | .strayEnd, _ => by simp [fields]
  | .field true ps, h => by
    intro f hf
    rcases List.mem_cons.mp hf with rfl | hf
    · rfl
    · exact closed_of_matchedAll ps h f hf
  | .field false ps, h => by simp [Matched] at h

theorem closed_of_matchedAll {free : Bool} : ∀ ps : List FieldPart, MatchedAll free false ps →
    ∀ f ∈ fieldsAll ps, f.1 = true
  | [], _ => by simp [fieldsAll]
  | p :: ps, h => by
    intro f hf
    rcases List.mem_append.mp hf with hf | hf
    · exact closed_of_matched p (by simpa using h.1) f hf
    · exact closed_of_matchedAll ps (by simpa using h.2) f hf

end

theorem openInstructions_of_matchedAll {free : Bool} {ps : List FieldPart}
    (h : MatchedAll free false ps) : openInstructions ps = [] := by
  have hnone : (fieldsAll ps).filter (fun f => !f.1) = [] :=
    List.filter_eq_nil_iff.mpr fun f hf => by simp [closed_of_matchedAll ps h f hf]
  rw [openInstructions, hnone, List.map_nil]

/-- Parts without instructions add none. -/
theorem instructionOf_append {ps qs : List FieldPart} (h : ∀ q ∈ qs, q.instruction? = none) :
    instructionOf (ps ++ qs) = instructionOf ps := by
  have hfragments : fragments (ps ++ qs) = fragments ps := by
    induction qs using List.reverseRecOn with
    | nil => rw [List.append_nil]
    | append_singleton qs q ih =>
      rw [← List.append_assoc, fragments_append_singleton, h q (by simp),
        ih fun p hp => h p (List.mem_append_left _ hp)]
      simp
  rw [instructionOf, hfragments, instructionOf]

end FieldPart

open FieldPart

namespace OpenParts

/-- The open fields around `inner` come first, the outermost in front. -/
theorem openInstructions_nest {opened : List (List FieldPart)}
    (hopened : ∀ ps ∈ opened, MatchedAll false false ps) {inner : List FieldPart}
    (hinner : ∀ p ∈ inner, p.instruction? = none) :
    openInstructions (nest inner opened) =
      opened.reverse.map instructionOf ++ openInstructions inner := by
  induction opened generalizing inner with
  | nil => rfl
  | cons ps outer ih =>
    have hps : openInstructions ps = [] :=
      openInstructions_of_matchedAll (hopened ps List.mem_cons_self)
    have hfield : openInstructions [.field false (ps ++ inner)] =
        instructionOf ps :: openInstructions inner := by
      have happend := openInstructions_append ps inner
      rw [hps, List.nil_append] at happend
      rw [← happend, ← instructionOf_append hinner]
      simp [openInstructions, fieldsAll, FieldPart.fields]
    rw [nest, ih (fun qs hqs => hopened qs (List.mem_cons_of_mem ps hqs)) (by simp [instruction?]),
      hfield]
    simp

theorem openInstructions_close {z : OpenParts} (h : z.Matched) :
    openInstructions z.close = (z.opened.map instructionOf).reverse := by
  rw [close, openInstructions_append, openInstructions_of_matchedAll h.1,
    openInstructions_nest h.2 (by simp)]
  simp [openInstructions, fieldsAll]

end OpenParts

/-- The instructions of the fields that are open after some events, the innermost first. -/
theorem FieldEvent.instructions_feed (es : List FieldEvent) :
    (feed [] es).1.map OpenField.instruction = (openInstructions (ofEvents es)).reverse := by
  have hmatched : (OpenParts.start.read es).Matched :=
    OpenParts.matched_read ⟨by simp [OpenParts.start, MatchedAll], by simp [OpenParts.start]⟩ es
  have hfields := (OpenParts.start.feed_fields es).1
  rw [ofEvents, OpenParts.openInstructions_close hmatched, List.reverse_reverse]
  change (feed OpenParts.start.fields es).1.map _ = _
  rw [hfields, OpenParts.fields, List.map_map]
  rfl

end WordTex
