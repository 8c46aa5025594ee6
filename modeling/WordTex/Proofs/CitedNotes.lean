import WordTex.Proofs.CollectedNodes
import WordTex.Proofs.ParagraphFields
import WordTex.Proofs.ReadLabels

/-! # The notes that a document cites

Each reference to a note, in the runs of a body, is one node of the document, wherever fields have put
it: the note with its id, or a node that stands for a missing one. Notes are read without notes and
cite none. -/
namespace WordTex

open DocumentReading

/-- The note that an element refers to. An element without an id refers to the one with an empty id. -/
def Element.citation? (e : Element) : Option (NoteKind × String) :=
  match e.localName with
  | "footnoteReference" => some (.footnote, (e.attribute? "w:id").getD "")
  | "endnoteReference" => some (.endnote, (e.attribute? "w:id").getD "")
  | _ => none

/-- The notes that the runs of a body refer to, in order. -/
def bodyCitations (body : Element) : List (NoteKind × String) :=
  (body.childElements.filter (·.localName == "p")).flatMap fun p =>
    p.runChildren.filterMap Element.citation?

def documentCitations (root : Element) : List (NoteKind × String) :=
  ((body? root).map fun b => bodyCitations b.1).getD []

/-- The node is a note, or stands for a missing one. -/
def Node.citesNote : Node → Bool
  | .note _ _ _ => true
  | .unresolved _ _ => true
  | _ => false

/-- What stands in the body for a reference to a note: the note that the document has under the id, or
a node for a missing one. -/
def Document.citation (d : Document) (kind : NoteKind) (id : String) : Node :=
  match Dictionary.get? id (d.notes kind) with
  | some body => .note kind (some id) body
  | none => .unresolved kind id

/-- The citations that an event brings. -/
def FieldEvent.citations : FieldEvent → List Node
  | node n => n.bodyWalk.filter Node.citesNote
  | _ => []

theorem FieldEvent.citations_eq :
    FieldEvent.citations = collect fun n => n.bodyWalk.filter Node.citesNote := by
  funext e
  cases e <;> rfl

theorem collectsFromFields_citesNote : CollectsFromFields fun n => n.bodyWalk.filter Node.citesNote := by
  simp only [← List.filterMap_eq_filter]
  exact .bodyWalk (fun _ => rfl) fun _ _ => rfl

/-- The note that an item of a run refers to. -/
def RunItem.citation? : RunItem → Option (NoteKind × String)
  | note kind id => some (kind, id)
  | _ => none

theorem Element.citation?_runItem (child : Element) : child.runItem.citation? = child.citation? := by
  rw [Element.runItem, Element.citation?]
  split <;> simp_all [RunItem.citation?]

variable (notes : Notes) (style : Style)

theorem citations_runChildEvents (style : Style) (child : Element) :
    (runChildEvents notes style child).flatMap FieldEvent.citations =
      child.citation?.toList.map fun c => notes.citation c.1 c.2 := by
  rw [← Element.citation?_runItem]
  rw [runChildEvents]
  cases child.runItem with
  | note kind id =>
    cases hget : notes.get? kind id <;>
      simp [RunItem.citation?, Notes.citation, hget, FieldEvent.citations, Node.bodyWalk,
        Node.citesNote]
  | fieldMark type =>
    cases hmark : FieldMark.ofType? type <;> simp [RunItem.citation?, hmark, FieldEvent.citations]
  | _ => simp [RunItem.citation?, FieldEvent.citations, Node.bodyWalk, Node.citesNote]

/-- The citations in the tree of a paragraph are those of its runs, in order. -/
theorem citations_paragraphNode (paragraph : Element) :
    (paragraphNode notes [] style paragraph).bodyWalk.filter Node.citesNote =
      (paragraph.runChildren.filterMap Element.citation?).map fun c => notes.citation c.1 c.2 := by
  have hall := flatMap_paragraphEvents (citations_runChildEvents notes) style paragraph
  rw [paragraphNode, Node.bodyWalk, List.filter_cons_of_neg (by simp [Node.citesNote]),
    bodyWalkAll_eq_flatMap, List.filter_flatMap, collectsFromFields_citesNote.deliver,
    ← FieldEvent.citations_eq, hall, ← List.map_flatMap, List.filterMap_eq_flatMap_toList]
  rfl

theorem citations_bodyNodes (body : Element) :
    (bodyWalkAll (bodyNodes notes style body)).filter Node.citesNote =
      (bodyCitations body).map fun c => notes.citation c.1 c.2 := by
  rw [bodyWalkAll_eq_flatMap, bodyNodes, List.flatMap_map, List.filter_flatMap, bodyCitations,
    List.map_flatMap]
  exact List.flatMap_congr fun p _ => citations_paragraphNode notes style p

/-- The nodes in a note. -/
def Node.noteNodes : Node → List Node
  | .note _ _ c => walkAll c.children
  | _ => []

/-- A walk is a walk that does not look into notes, with what is in each of them. -/
theorem Node.walk_eq_bodyWalk (n : Node) :
    n.walk = n.bodyWalk.flatMap fun m => m :: m.noteNodes := by
  induction n using Node.induction_children with
  | node n ih =>
    rw [walk_eq, bodyWalk_eq, List.flatMap_cons, List.flatMap_assoc]
    cases n with
    | note kind entry c => simp [noteNodes, bodyChildren, children, walkAll_eq_flatMap]
    | _ => exact congrArg _ (List.flatMap_congr ih)

/-- The node is a note, or a document, which may have notes of its own. -/
def Node.holdsNotes : Node → Bool
  | .note _ _ _ => true
  | .document _ => true
  | _ => false

/-- The nodes in the note that the document stores under the id of a node. -/
def Document.storedNodes (d : Document) : Node → List Node
  | .note kind (some id) _ =>
    ((Dictionary.get? id (d.notes kind)).map fun c => walkAll c.children).getD []
  | _ => []

/-- Nothing in a note holds notes, so a walk over it ends there. -/
theorem holdsNotes_noteBody {child : Element} {m : Node}
    (hm : m ∈ walkAll (noteBody child).children) : m.holdsNotes = false := by
  have hinherited : Inherited fun n => ∀ m ∈ n.walk, m.holdsNotes = false :=
    .walk (fun _ => rfl) (fun _ _ => rfl) (fun _ _ => rfl) fun _ _ => rfl
  rw [walkAll_eq_flatMap] at hm
  obtain ⟨n, hn, hm⟩ := List.mem_flatMap.mp hm
  exact hinherited.noteBody child n hn m hm

section

variable {root : Element} {parts : DocumentParts}

theorem citations_documentOf :
    (bodyWalkAll (documentOf root parts).children).filter Node.citesNote =
      (documentCitations root).map fun c => (documentOf root parts).citation c.1 c.2 := by
  have hcitation : ∀ c ∈ documentCitations root,
      (documentOf root parts).citation c.1 c.2 = parts.notes.citation c.1 c.2 := by
    intro c _
    rw [Document.citation, get?_notes_documentOf]
    rfl
  rw [List.map_congr_left hcitation, documentOf, documentCitations]
  cases body? root with
  | none => rfl
  | some b => exact citations_bodyNodes parts.notes .empty b.1

theorem exists_entry_of_mem_walk (hnotes : parts.notes.FromElements) {kind : NoteKind}
    {entry : Option String} {c : Container}
    (hm : .note kind entry c ∈ (documentOf root parts).walk) :
    ∃ id, entry = some id ∧ Dictionary.get? id ((documentOf root parts).notes kind) = some c := by
  obtain ⟨id, rfl, hget⟩ := isCitation_of_mem_walk hnotes hm
  exact ⟨id, rfl, (get?_notes_documentOf kind id).trans hget⟩

/-- Where every note is a stored one, a walk goes from each of them to what is stored for it. -/
theorem Document.walk_eq_storedNodes {d : Document}
    (h : ∀ kind entry c, .note kind entry c ∈ bodyWalkAll d.children →
      ∃ id, entry = some id ∧ Dictionary.get? id (d.notes kind) = some c) :
    d.walk = (bodyWalkAll d.children).flatMap fun m => m :: d.storedNodes m := by
  rw [walk, walkAll_eq_flatMap, bodyWalkAll_eq_flatMap, List.flatMap_assoc]
  refine List.flatMap_congr fun n hn => ?_
  rw [n.walk_eq_bodyWalk]
  refine List.flatMap_congr fun m hm => congrArg _ ?_
  cases m with
  | note kind entry c =>
    have hmem : .note kind entry c ∈ bodyWalkAll d.children := by
      rw [bodyWalkAll_eq_flatMap]
      exact List.mem_flatMap.mpr ⟨n, hn, hm⟩
    obtain ⟨id, rfl, hget⟩ := h kind entry c hmem
    rw [storedNodes, hget]
    rfl
  | _ => rfl

end

/-- What a walk that stays out of notes meets is met on the whole walk. -/
theorem mem_walkAll_of_mem_bodyWalkAll {ns : List Node} {m : Node} (hm : m ∈ bodyWalkAll ns) :
    m ∈ walkAll ns := by
  rw [bodyWalkAll_eq_flatMap] at hm
  rw [walkAll_eq_flatMap]
  obtain ⟨n, hn, hm⟩ := List.mem_flatMap.mp hm
  refine List.mem_flatMap.mpr ⟨n, hn, ?_⟩
  rw [n.walk_eq_bodyWalk]
  exact List.mem_flatMap.mpr ⟨m, hm, List.mem_cons_self⟩

theorem holdsNotes_of_mem_notes {source : PartSource} {root : Element} {parts : DocumentParts}
    (hparts : parts.notes = source.notes) {kind : NoteKind} {entry : String × Container}
    (hentry : entry ∈ (documentOf root parts).notes kind) {m : Node}
    (hm : m ∈ walkAll entry.2.children) : m.holdsNotes = false := by
  obtain ⟨child, hchild⟩ := exists_noteBody_of_mem_notes hparts hentry
  rw [hchild] at hm
  exact holdsNotes_noteBody hm

/-- Each reference to a note in the body is one citation in the document, of the very note that is
stored under the id or of a missing one. What is stored holds no notes, every note met on a walk is a
stored one, and a walk goes no further than through the body and what is stored. -/
theorem citations_of_ofSource {source : PartSource} {log log' : List Notice} {d : Document}
    (h : (ofSource source).run.run log = (.ok d, log')) :
    ∃ root, source.root? documentPart = some root ∧
      (bodyWalkAll d.children).filter Node.citesNote =
        (documentCitations root).map (fun c => d.citation c.1 c.2) ∧
      (∀ kind, ∀ entry ∈ d.notes kind, ∀ m ∈ walkAll entry.2.children, m.holdsNotes = false) ∧
      (∀ kind entry c, .note kind entry c ∈ d.walk →
        ∃ id, entry = some id ∧ Dictionary.get? id (d.notes kind) = some c) ∧
      d.walk = (bodyWalkAll d.children).flatMap fun m => m :: d.storedNodes m := by
  obtain ⟨root, parts, hroot, hparts, rfl⟩ := runs_ofSource h
  have hnotes : parts.notes.FromElements := hparts ▸ source.fromElements_notes
  refine ⟨root, hroot, citations_documentOf, ?_, ?_, ?_⟩
  · exact fun kind entry hentry m hm => holdsNotes_of_mem_notes hparts hentry hm
  · exact fun kind entry c hm => exists_entry_of_mem_walk hnotes hm
  · exact Document.walk_eq_storedNodes fun kind entry c hm =>
      exists_entry_of_mem_walk hnotes (mem_walkAll_of_mem_bodyWalkAll hm)

/-- A body that cites a footnote and a missing endnote with the same id. The footnote cites itself. -/
def selfCitingPackage : PartSource :=
  .ofTexts
    [(documentPart,
        "<d><body><p><r><footnoteReference w:id=\"1\"/><endnoteReference w:id=\"1\"/></r></p></body></d>"),
      (footnotesPart, "<n><a w:id=\"1\"><p><r><t>b</t><footnoteReference w:id=\"1\"/></r></p></a></n>")]

theorem exists_document_selfCitingPackage :
    ∃ d log, (ofSource selfCitingPackage).run.run [] = (.ok d, log) ∧
      ((bodyWalkAll d.children).filter Node.citesNote).map (fun m => (d.sharesEntry m, m.plainText)) =
        [(true, "b"), (false, "")] :=
  exists_document_of_map (by decide +kernel)

theorem citations_of_selfCitingPackage :
    ∃ d log root, (ofSource selfCitingPackage).run.run [] = (.ok d, log) ∧
      ((bodyWalkAll d.children).filter Node.citesNote).map (fun m => (d.sharesEntry m, m.plainText)) =
        [(true, "b"), (false, "")] ∧
      selfCitingPackage.root? documentPart = some root ∧
      (bodyWalkAll d.children).filter Node.citesNote =
        (documentCitations root).map (fun c => d.citation c.1 c.2) ∧
      (∀ kind, ∀ entry ∈ d.notes kind, ∀ m ∈ walkAll entry.2.children, m.holdsNotes = false) ∧
      (∀ kind entry c, .note kind entry c ∈ d.walk →
        ∃ id, entry = some id ∧ Dictionary.get? id (d.notes kind) = some c) ∧
      d.walk = (bodyWalkAll d.children).flatMap fun m => m :: d.storedNodes m := by
  obtain ⟨d, log, hrun, hcited⟩ := exists_document_selfCitingPackage
  obtain ⟨root, hall⟩ := citations_of_ofSource hrun
  exact ⟨d, log, root, hrun, hcited, hall⟩

end WordTex
