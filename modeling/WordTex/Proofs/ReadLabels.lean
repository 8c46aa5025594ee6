import WordTex.Proofs.DocumentRuns
import WordTex.Proofs.WrittenNodes
import Mathlib.Data.List.Perm.Basic

/-! # The labels of documents that were read

A bookmark is a label of its paragraph. Inside of paragraphs there are labels only in the notes that
are cited there, and in notes no other notes are cited. -/
namespace WordTex

open DocumentReading

/-- The labels of the note that a node cites. -/
def Node.noteLabels : Node → List String
  | .note _ _ c => c.allLabels
  | _ => []

/-- If the node is a note, it is one of these where it is cited. -/
def Node.IsCitation (notes : Notes) : Node → Prop
  | .note kind entry c => ∃ id, entry = some id ∧ notes.get? kind id = some c
  | _ => True

/-- The bookmarks of the paragraphs of a body. -/
def bodyLabels (body : Element) : List String :=
  (body.childElements.filter (·.localName == "p")).flatMap fun p => p.childElements.filterMap label?

variable {notes : Notes} (style : Style)

theorem written_paragraphNode (paragraph : Element) :
    (paragraphNode notes [] style paragraph).written =
      writtenAll (paragraphNode notes [] style paragraph).children ++
        [paragraphNode notes [] style paragraph] :=
  Node.written_group _ _

theorem inherited_isCitation (notes : Notes) : Inherited fun n => ∀ m ∈ n.walk, m.IsCitation notes :=
  .walk (fun _ => trivial) (fun _ _ => trivial) (fun _ _ => trivial) fun _ _ => trivial

/-- Notes cite no notes. -/
theorem ne_note_of_mem_noteBody {child : Element} {n m : Node} (hn : n ∈ (noteBody child).children)
    (hm : m ∈ n.walk) (kind : NoteKind) (entry : Option String) (c : Container) :
    m ≠ .note kind entry c := by
  rintro rfl
  obtain ⟨id, -, hget⟩ := (inherited_isCitation .empty).noteBody child n hn _ hm
  rw [Notes.get?_empty] at hget
  cases hget

/-- The notes met on a walk over a body are those that it cites. -/
theorem Notes.FromElements.isCitation (hnotes : notes.FromElements) {body : Element} {m : Node}
    (hm : m ∈ walkAll (bodyNodes notes style body)) : m.IsCitation notes := by
  have hhave : notes.Have fun n => ∀ m ∈ n.walk, m.IsCitation notes := by
    intro kind id c hget
    refine Node.forall_mem_walk ⟨id, rfl, hget⟩ fun n hn m hm => ?_
    obtain ⟨child, rfl⟩ := hnotes kind id c hget
    cases m with
    | note kind entry c => exact (ne_note_of_mem_noteBody hn hm kind entry c rfl).elim
    | _ => trivial
  rw [walkAll_eq_flatMap] at hm
  obtain ⟨n, hn, hm⟩ := List.mem_flatMap.mp hm
  exact (inherited_isCitation notes).bodyNodes hhave style body n hn m hm

/-- Without notes there are no labels inside of paragraphs. -/
theorem labels_of_mem_paragraphNode {paragraph : Element} {c m : Node}
    (hc : c ∈ (paragraphNode .empty [] style paragraph).children) (hm : m ∈ c.walk) : m.labels = [] := by
  have hfields : InheritedByFields fun n => ∀ m ∈ n.walk, m.labels = [] :=
    .walk (fun _ => rfl) (fun _ _ => rfl) (fun _ => rfl) fun _ _ => rfl
  exact hfields.paragraphChildren Notes.have_empty style paragraph c hc m hm

theorem flatMap_labels_bodyNodes {f : Node → List Node} {body : Element}
    (h : ∀ p ∈ body.childElements, (f (paragraphNode notes [] style p)).flatMap Node.labels =
      p.childElements.filterMap label?) :
    ((bodyNodes notes style body).flatMap f).flatMap Node.labels = bodyLabels body := by
  rw [bodyNodes, List.flatMap_map, List.flatMap_assoc, bodyLabels]
  exact List.flatMap_congr fun p hp => h p (List.mem_of_mem_filter hp)

/-- The labels of a note are the bookmarks of its paragraphs. -/
theorem allLabels_noteBody (child : Element) : (noteBody child).allLabels = bodyLabels child := by
  rw [Container.allLabels, noteBody, walkAll_eq_flatMap, List.nil_append]
  refine flatMap_labels_bodyNodes .empty fun p _ => ?_
  have hinner : ((paragraphNode .empty [] .empty p).children.flatMap Node.walk).flatMap Node.labels =
      [] := by
    refine List.flatMap_eq_nil_iff.mpr fun m hm => ?_
    obtain ⟨c, hc, hm⟩ := List.mem_flatMap.mp hm
    exact labels_of_mem_paragraphNode .empty hc hm
  rw [Node.walk_eq, List.flatMap_cons, hinner, List.append_nil]
  rfl

/-- All of them are written where the note is. -/
theorem written_labels_noteBody (child : Element) :
    (writtenAll (noteBody child).children).flatMap Node.labels = bodyLabels child := by
  rw [noteBody, writtenAll_eq_flatMap]
  refine flatMap_labels_bodyNodes .empty fun p _ => ?_
  have hinner : (writtenAll (paragraphNode .empty [] .empty p).children).flatMap Node.labels = [] := by
    rw [writtenAll_eq_flatMap]
    refine List.flatMap_eq_nil_iff.mpr fun m hm => ?_
    obtain ⟨c, hc, hm⟩ := List.mem_flatMap.mp hm
    exact labels_of_mem_paragraphNode .empty hc (Node.mem_walk_of_mem_written hm)
  rw [written_paragraphNode, List.flatMap_append, hinner, List.nil_append, List.flatMap_singleton]
  rfl

/-- The labels that are written for a node inside of a paragraph are those of the notes that are
written. -/
theorem inheritedByFields_noteLabels :
    InheritedByFields fun n => n.written.flatMap Node.labels = n.written.flatMap Node.noteLabels where
  text t := by simp [Node.written_text, Node.labels, Node.noteLabels]
  unresolved k id := by simp [Node.written_unresolved, Node.labels, Node.noteLabels]
  reference code ns _ := by simp [Node.written_reference, Node.labels, Node.noteLabels]
  field ns h := by
    rw [Node.written_group, writtenAll_eq_flatMap, List.flatMap_append, List.flatMap_append,
      List.flatMap_assoc, List.flatMap_assoc, List.flatMap_congr h]
    rfl

theorem Notes.FromElements.have_noteLabels (hnotes : notes.FromElements) :
    notes.Have fun n => n.written.flatMap Node.labels = n.written.flatMap Node.noteLabels := by
  intro kind id body hbody
  obtain ⟨child, rfl⟩ := hnotes kind id body hbody
  have hnone : (writtenAll (noteBody child).children).flatMap Node.noteLabels = [] := by
    rw [writtenAll_eq_flatMap]
    refine List.flatMap_eq_nil_iff.mpr fun m hm => ?_
    obtain ⟨n, hn, hm⟩ := List.mem_flatMap.mp hm
    cases m with
    | note kind entry c =>
      exact (ne_note_of_mem_noteBody hn (Node.mem_walk_of_mem_written hm) kind entry c rfl).elim
    | _ => rfl
  rw [Node.written_note, List.flatMap_append, List.flatMap_append, written_labels_noteBody, hnone,
    List.flatMap_singleton, List.flatMap_singleton, Node.noteLabels, allLabels_noteBody]
  exact List.append_nil _

/-- The labels that are written for a body are those of the notes that are written and the bookmarks
of its paragraphs. -/
theorem perm_written_labels (hnotes : notes.FromElements) (body : Element) :
    ((writtenAll (bodyNodes notes style body)).flatMap Node.labels).Perm
      ((writtenAll (bodyNodes notes style body)).flatMap Node.noteLabels ++ bodyLabels body) := by
  have hparagraph : ∀ p : Element, (paragraphNode notes [] style p).written.flatMap Node.labels =
      (paragraphNode notes [] style p).written.flatMap Node.noteLabels ++
        p.childElements.filterMap label? := by
    intro p
    have hchildren := List.flatMap_congr
      (inheritedByFields_noteLabels.paragraphChildren hnotes.have_noteLabels style p)
    rw [written_paragraphNode, writtenAll_eq_flatMap, List.flatMap_append, List.flatMap_append,
      List.flatMap_assoc, List.flatMap_assoc, hchildren, List.append_assoc, List.flatMap_singleton,
      List.flatMap_singleton]
    rfl
  rw [writtenAll_eq_flatMap, List.flatMap_assoc, List.flatMap_assoc, bodyNodes, List.flatMap_map,
    List.flatMap_map, bodyLabels, List.flatMap_congr fun p _ => hparagraph p]
  exact (List.flatMap_append_perm _ _ _).symm

/-- Every label met on a walk over a body is the bookmark of one of its paragraphs or a label of a
note. -/
theorem mem_walk_labels {body : Element} {m : Node} {l : String}
    (hm : m ∈ walkAll (bodyNodes notes style body)) (hl : l ∈ m.labels) :
    l ∈ bodyLabels body ∨ ∃ kind id c, notes.get? kind id = some c ∧ l ∈ c.allLabels := by
  have hfields : InheritedByFields fun n => ∀ m ∈ n.walk, ∀ l ∈ m.labels,
      ∃ kind id c, notes.get? kind id = some c ∧ l ∈ c.allLabels :=
    .walk (by simp [Node.labels]) (by simp [Node.labels]) (by simp [Node.labels])
      (by simp [Node.labels])
  have hnotes : notes.Have fun n => ∀ m ∈ n.walk, ∀ l ∈ m.labels,
      ∃ kind id c, notes.get? kind id = some c ∧ l ∈ c.allLabels := by
    intro kind id c hget m hm l hl
    refine ⟨kind, id, c, hget, ?_⟩
    rw [Node.walk_eq] at hm
    rw [Container.allLabels, List.mem_append, walkAll_eq_flatMap]
    rcases List.mem_cons.mp hm with rfl | hm
    · exact .inl hl
    · exact .inr (List.mem_flatMap.mpr ⟨m, hm, hl⟩)
  rw [walkAll_eq_flatMap] at hm
  obtain ⟨n, hn, hm⟩ := List.mem_flatMap.mp hm
  obtain ⟨p, hp, rfl⟩ := List.mem_map.mp hn
  rw [Node.walk_eq] at hm
  rcases List.mem_cons.mp hm with rfl | hm
  · exact .inl (List.mem_flatMap.mpr ⟨p, hp, hl⟩)
  · obtain ⟨c, hc, hm⟩ := List.mem_flatMap.mp hm
    exact .inr (hfields.paragraphChildren hnotes style p c hc m hm l hl)

/-- The bookmarks of the paragraphs of a document. -/
def documentLabels (root : Element) : List String :=
  ((body? root).map fun b => bodyLabels b.1).getD []

section

variable {root : Element} {parts : DocumentParts}

theorem get?_notes_documentOf (kind : NoteKind) (id : String) :
    Dictionary.get? id ((documentOf root parts).notes kind) = parts.notes.get? kind id := by
  cases kind <;> rfl

theorem exists_noteBody_of_mem_notes {source : PartSource} (hparts : parts.notes = source.notes)
    {kind : NoteKind} {entry : String × Container}
    (hentry : entry ∈ (documentOf root parts).notes kind) : ∃ child, entry.2 = noteBody child := by
  cases kind with
  | footnote =>
    have hfootnotes : parts.notes.footnotes = source.notesOfPart footnotesPart :=
      congrArg Notes.footnotes hparts
    exact source.fromElements_notesOfPart footnotesPart entry (hfootnotes ▸ hentry)
  | endnote =>
    have hendnotes : parts.notes.endnotes = source.notesOfPart endnotesPart :=
      congrArg Notes.endnotes hparts
    exact source.fromElements_notesOfPart endnotesPart entry (hendnotes ▸ hentry)

/-- The labels that are written for a document, with those of notes apart. -/
theorem perm_written_labels_documentOf (hnotes : parts.notes.FromElements) :
    ((documentOf root parts).written.flatMap Node.labels).Perm
      ((documentOf root parts).written.flatMap Node.noteLabels ++ documentLabels root) := by
  rw [Document.written, documentOf, documentLabels]
  cases body? root with
  | none => exact .refl []
  | some b => exact perm_written_labels .empty hnotes b.1

theorem isCitation_of_mem_walk (hnotes : parts.notes.FromElements) {m : Node}
    (hm : m ∈ (documentOf root parts).walk) : m.IsCitation parts.notes := by
  rw [Document.walk, documentOf] at hm
  cases hbody : body? root with
  | none =>
    rw [hbody] at hm
    cases hm
  | some b =>
    rw [hbody] at hm
    exact hnotes.isCitation .empty hm

/-- The labels of a note are written where it is. -/
theorem mem_written_labels_of_note (hnotes : parts.notes.FromElements) {kind : NoteKind}
    {entry : Option String} {c : Container} {l : String}
    (hc : .note kind entry c ∈ (documentOf root parts).written) (hl : l ∈ c.allLabels) :
    l ∈ (documentOf root parts).written.flatMap Node.labels :=
  (perm_written_labels_documentOf hnotes).mem_iff.mpr
    (List.mem_append_left _ (List.mem_flatMap.mpr ⟨_, hc, hl⟩))

theorem mem_walk_labels_documentOf {m : Node} {l : String} (hm : m ∈ (documentOf root parts).walk)
    (hl : l ∈ m.labels) :
    l ∈ documentLabels root ∨ ∃ kind id c, parts.notes.get? kind id = some c ∧ l ∈ c.allLabels := by
  rw [Document.walk, documentOf] at hm
  rw [documentLabels]
  cases hbody : body? root with
  | none =>
    rw [hbody] at hm
    cases hm
  | some b =>
    rw [hbody] at hm
    exact mem_walk_labels .empty hm hl

/-- Every label of the document is written or is in a note. -/
theorem mem_allLabels_documentOf (hnotes : parts.notes.FromElements) {l : String}
    (hl : l ∈ (documentOf root parts).allLabels) :
    l ∈ (documentOf root parts).written.flatMap Node.labels ∨
      ∃ kind id c, (id, c) ∈ (documentOf root parts).notes kind ∧ l ∈ c.allLabels := by
  rw [Document.allLabels, List.mem_append, List.mem_append, List.mem_append] at hl
  rcases hl with ((hl | hl) | hl) | hl
  · cases hl
  · obtain ⟨m, hm, hl⟩ := List.mem_flatMap.mp hl
    rcases mem_walk_labels_documentOf hm hl with hl | ⟨kind, id, c, hget, hl⟩
    · exact .inl ((perm_written_labels_documentOf hnotes).mem_iff.mpr (List.mem_append_right _ hl))
    · have hentry : Dictionary.get? id ((documentOf root parts).notes kind) = some c :=
        (get?_notes_documentOf kind id).trans hget
      exact .inr ⟨kind, id, c, Dictionary.mem_of_get? hentry, hl⟩
  · obtain ⟨n, hn, hl⟩ := List.mem_flatMap.mp hl
    exact .inr ⟨.footnote, n.1, n.2, hn, hl⟩
  · obtain ⟨n, hn, hl⟩ := List.mem_flatMap.mp hl
    exact .inr ⟨.endnote, n.1, n.2, hn, hl⟩

end

end WordTex
