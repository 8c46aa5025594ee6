import WordTex.Proofs.DocumentWalks
import WordTex.Proofs.FieldNodes
import WordTex.Proofs.ParagraphEvents

/-! # The fields of a paragraph

The fields and cross-references in the tree of a paragraph are the brackets of its marks, in the order
of their beginnings. -/
namespace WordTex

/-- The nodes that come from fields. -/
def Node.isField : Node → Bool
  | .group role _ => role == .fieldResult
  | .reference _ _ => true
  | _ => false

namespace FieldPart

mutual

/-- The fields, those around a field before it, with their parts and whether they are closed. -/
def fields : FieldPart → List (Bool × List FieldPart)
  | field closed parts => (closed, parts) :: fieldsAll parts
  | _ => []

def fieldsAll : List FieldPart → List (Bool × List FieldPart)
  | [] => []
  | p :: ps => p.fields ++ fieldsAll ps

end

/-- The node of a field with these parts. -/
def nodeOfField (f : Bool × List FieldPart) : Node :=
  fieldNode f.1 (instructionOf f.2) (nodesAll f.2)

end FieldPart

open FieldPart

theorem bodyWalk_fieldNode (closed : Bool) (instruction : String) (children : List Node) :
    (fieldNode closed instruction children).bodyWalk =
      fieldNode closed instruction children :: bodyWalkAll children := by
  simp only [fieldNode]
  split
  · rw [Node.bodyWalk]
  · rw [Container.ofChildren, Node.bodyWalk]

theorem isField_fieldNode (closed : Bool) (instruction : String) (children : List Node) :
    (fieldNode closed instruction children).isField = true := by
  simp only [fieldNode]
  split <;> rfl

theorem children_nodeOfField (f : Bool × List FieldPart) :
    (nodeOfField f).children = nodesAll f.2 := by
  simp only [nodeOfField, fieldNode]
  split <;> rfl

/-- A field is a cross-reference if and only if it is closed and its instruction refers. -/
theorem nodeOfField_eq_reference (f : Bool × List FieldPart) (code : String) :
    (∃ children, nodeOfField f = .reference code children) ↔
      f.1 = true ∧ ∃ kind switches,
        FieldInstruction.ofText (instructionOf f.2) = .reference kind code switches := by
  obtain ⟨closed, parts⟩ := f
  simp only [nodeOfField, fieldNode, FieldInstruction.code?]
  cases closed with
  | false => simp
  | true => cases FieldInstruction.ofText (instructionOf parts) <;> simp

/-- The node of an event is no field and has none outside of notes. -/
def FieldEvent.IsLeaf : FieldEvent → Prop
  | node n => n.bodyWalk.filter Node.isField = []
  | _ => True

mutual

theorem filter_isField_nodes : ∀ p : FieldPart, (∀ e ∈ p.events, e.IsLeaf) →
    (bodyWalkAll p.nodes).filter Node.isField = p.fields.map nodeOfField
  | .node n, h => by
    have hleaf : n.bodyWalk.filter Node.isField = [] := h (.node n) List.mem_cons_self
    simpa [nodes, bodyWalkAll, fields] using hleaf
  | .instruction text, _ => rfl
  | .separator, _ => rfl
  | .strayEnd, _ => rfl
  | .field closed ps, h => by
    have hinner := filter_isField_nodesAll ps fun e he => h e (by simp [events, he])
    rw [nodes, bodyWalkAll, bodyWalkAll, List.append_nil, bodyWalk_fieldNode,
      List.filter_cons_of_pos (isField_fieldNode _ _ _), hinner, fields, List.map_cons]
    rfl

theorem filter_isField_nodesAll : ∀ ps : List FieldPart, (∀ e ∈ eventsAll ps, e.IsLeaf) →
    (bodyWalkAll (nodesAll ps)).filter Node.isField = (fieldsAll ps).map nodeOfField
  | [], _ => rfl
  | p :: ps, h => by
    have hhead := filter_isField_nodes p fun e he => h e (by simp [eventsAll, he])
    have htail := filter_isField_nodesAll ps fun e he => h e (by simp [eventsAll, he])
    rw [nodesAll, bodyWalkAll_append, List.filter_append, hhead, htail, fieldsAll, List.map_append]

end

def FieldEvent.isOpening : FieldEvent → Bool
  | mark .opening => true
  | _ => false

/-- The element is the mark that a field begins at. -/
def Element.beginsField (e : Element) : Bool :=
  e.localName == "fldChar" && (e.attribute? "w:fldCharType").getD "" == "begin"

mutual

theorem length_fields : ∀ p : FieldPart,
    p.fields.length = (p.events.filter FieldEvent.isOpening).length
  | .node n => rfl
  | .instruction text => rfl
  | .separator => rfl
  | .strayEnd => rfl
  | .field closed ps => by
    have hinner := length_fieldsAll ps
    cases closed <;> simp [fields, events, hinner, List.filter_cons, FieldEvent.isOpening]

theorem length_fieldsAll : ∀ ps : List FieldPart,
    (fieldsAll ps).length = ((eventsAll ps).filter FieldEvent.isOpening).length
  | [] => rfl
  | p :: ps => by simp [fieldsAll, eventsAll, length_fields p, length_fieldsAll ps]

end

variable (notes : Notes)

theorem isLeaf_of_mem_runChildEvents (style : Style) (child : Element) :
    ∀ e ∈ runChildEvents notes style child, e.IsLeaf := by
  simp only [runChildEvents, Notes.citation]
  cases child.runItem with
  | text data => simp [FieldEvent.IsLeaf, Node.bodyWalk, Node.isField]
  | symbol font code => simp [FieldEvent.IsLeaf, Node.bodyWalk, Node.isField]
  | note kind id =>
    cases hbody : notes.get? kind id <;>
      simp [hbody, FieldEvent.IsLeaf, Node.bodyWalk, Node.isField]
  | fieldMark type => cases FieldMark.ofType? type <;> simp [FieldEvent.IsLeaf]
  | _ => simp [FieldEvent.IsLeaf]

/-- The item is the mark that a field begins at. -/
def RunItem.beginsField : RunItem → Bool
  | fieldMark type => type == "begin"
  | _ => false

theorem Element.beginsField_runItem (child : Element) :
    child.runItem.beginsField = child.beginsField := by
  rw [Element.runItem, Element.beginsField]
  split <;> simp_all [RunItem.beginsField]

theorem FieldMark.ofType?_eq_opening {type : String} :
    FieldMark.ofType? type = some .opening ↔ type = "begin" := by
  simp only [FieldMark.ofType?]
  split <;> simp_all

theorem openings_runChildEvents (style : Style) (child : Element) :
    (runChildEvents notes style child).flatMap (fun e => if e.isOpening then [()] else []) =
      if child.beginsField then [()] else [] := by
  rw [← Element.beginsField_runItem]
  rw [runChildEvents]
  cases child.runItem with
  | fieldMark type =>
    by_cases hbegin : type = "begin"
    · simp [RunItem.beginsField, hbegin, FieldMark.ofType?, FieldEvent.isOpening]
    · have hmark : FieldMark.ofType? type ≠ some .opening :=
        fun h => hbegin (FieldMark.ofType?_eq_opening.mp h)
      cases hm : FieldMark.ofType? type with
      | none => simp [RunItem.beginsField, hbegin, hm]
      | some m =>
        cases m with
        | opening => exact (hmark hm).elim
        | separator => simp [RunItem.beginsField, hbegin, hm, FieldEvent.isOpening]
        | closing => simp [RunItem.beginsField, hbegin, hm, FieldEvent.isOpening]
  | _ => simp [RunItem.beginsField, FieldEvent.isOpening]

private theorem length_flatMap_ite {α : Type} (p : α → Bool) (l : List α) :
    (l.flatMap fun a => if p a then [()] else []).length = (l.filter p).length := by
  induction l with
  | nil => rfl
  | cons a l ih => cases hp : p a <;> simp [hp, ih]

/-- Each mark that begins a field is an event that opens one. -/
theorem length_filter_isOpening (style : Style) (paragraph : Element) :
    ((paragraphEvents notes style paragraph.childElements).filter FieldEvent.isOpening).length =
      (paragraph.runChildren.filter Element.beginsField).length := by
  have hall := flatMap_paragraphEvents (openings_runChildEvents notes) style paragraph
  rw [← length_flatMap_ite, ← length_flatMap_ite, hall]

/-- The marks of a paragraph can be matched in just one way. The fields in its tree are those of the
matching, in order, one for each mark that begins a field; each has the nodes of its own parts, and
is a cross-reference if it is closed and the instruction in it refers. -/
theorem fields_of_readParagraph {notes : Notes} {paragraph : Element} {s s' : ReadingState}
    {n : Node} (hfields : s.fields = [])
    (h : (Reading.readParagraph notes paragraph).run.run s = (.ok n, s')) :
    ∃ parts : List FieldPart, (MatchedAll true true parts ∧
        eventsAll parts = paragraphEvents notes s.currentStyle paragraph.childElements ∧
        ∀ parts', MatchedAll true true parts' →
          eventsAll parts' = paragraphEvents notes s.currentStyle paragraph.childElements →
          parts' = parts) ∧
      (fieldsAll parts).length = (paragraph.runChildren.filter Element.beginsField).length ∧
      n.children = nodesAll parts ∧
      n.bodyWalk.filter Node.isField = (fieldsAll parts).map nodeOfField ∧
      ∀ f ∈ fieldsAll parts, (nodeOfField f).children = nodesAll f.2 ∧
        ∀ code, (∃ children, nodeOfField f = .reference code children) ↔
          f.1 = true ∧ ∃ kind switches,
            FieldInstruction.ofText (instructionOf f.2) = .reference kind code switches := by
  obtain ⟨rfl, -⟩ := runs_readParagraph h
  rw [hfields]
  have hevents := eventsAll_ofEvents (paragraphEvents notes s.currentStyle paragraph.childElements)
  refine ⟨ofEvents (paragraphEvents notes s.currentStyle paragraph.childElements),
    ⟨matchedAll_ofEvents _, hevents, fun parts' hmatched heq => ?_⟩, ?_, ?_, ?_,
    fun f _ => ⟨children_nodeOfField f, nodeOfField_eq_reference f⟩⟩
  · rw [← heq, ofEvents_eventsAll hmatched]
  · rw [length_fieldsAll, hevents, length_filter_isOpening notes]
  · exact FieldEvent.deliver_eq _
  · have hleaves := forall_mem_paragraphEvents (isLeaf_of_mem_runChildEvents notes) s.currentStyle
      paragraph
    have hrole : paragraph.childElements.foldl roleAfter .plain ≠ .fieldResult := by
      have := isParagraph_foldl_roleAfter (show Role.plain.isParagraph = true from rfl)
        paragraph.childElements
      simpa [Role.isParagraph] using this
    rw [← hevents] at hleaves
    rw [paragraphNode, Node.bodyWalk, List.filter_cons_of_neg (by simpa [Node.isField] using hrole),
      FieldEvent.deliver_eq, filter_isField_nodesAll _ hleaves]

/-- The node is a cross-reference with this code. -/
def Node.refersTo (code : String) : Node → Bool
  | .reference c _ => c == code
  | _ => false

theorem Node.exists_of_refersTo {code : String} {m : Node} (h : m.refersTo code = true) :
    ∃ children, m = .reference code children := by
  cases m with
  | reference c children => exact ⟨children, by rw [beq_iff_eq.mp h]⟩
  | _ => cases h

theorem fields_of_nestedFieldsParagraph :
    ∃ n s' parts, (Reading.readParagraph .empty nestedFieldsParagraph).run.run (.start "a" []) =
        (.ok n, s') ∧ (ReadingState.start "a" []).fields = [] ∧ (fieldsAll parts).length = 2 ∧
      n.bodyWalk.filter Node.isField = (fieldsAll parts).map nodeOfField ∧
      ∃ f ∈ fieldsAll parts, (∃ children, nodeOfField f = .reference "a" children) ∧ f.1 = true ∧
        ∃ kind switches, FieldInstruction.ofText (instructionOf f.2) = .reference kind "a" switches := by
  obtain ⟨n, s', h⟩ := exists_readParagraph_nestedFieldsParagraph
  obtain ⟨parts, -, hlength, -, hnodes, hfields⟩ := fields_of_readParagraph rfl h
  have hbegins : (nestedFieldsParagraph.runChildren.filter Element.beginsField).length = 2 := by
    decide +kernel
  have hrefers : (n.bodyWalk.filter Node.isField).any (·.refersTo "a") = true := by
    rw [(runs_readParagraph h).1]
    decide +kernel
  rw [hnodes, List.any_map] at hrefers
  obtain ⟨f, hf, hf'⟩ := List.any_eq_true.mp hrefers
  have hreference := Node.exists_of_refersTo hf'
  exact ⟨n, s', parts, h, rfl, hlength.trans hbegins, hnodes, f, hf, hreference,
    ((hfields f hf).2 "a").mp hreference⟩

end WordTex
