import WordTex.Proofs.ReadablePackages
import WordTex.Proofs.StoredNodes
import WordTex.Proofs.ReadLabels

/-! # The shape of documents that were read

Documents that were read are regular: a list of paragraphs, with nodes inside of them that stand in
the line. Labels belong to paragraphs. The trees that can be built by hand are more than these. -/
namespace WordTex

open Reading DocumentReading

/-- A node inside of a paragraph: a text, a citation of one of these notes or of a missing one, or a
field or cross-reference around such nodes. A field has no labels. -/
inductive Node.IsInline (isNote : NoteKind → String → Container → Prop) : Node → Prop
  | text (t : StyledText) : IsInline isNote (.text t)
  | unresolved (kind : NoteKind) (id : String) : IsInline isNote (.unresolved kind id)
  | note (kind : NoteKind) (id : String) (c : Container) (h : isNote kind id c) :
      IsInline isNote (.note kind (some id) c)
  | field (ns : List Node) (h : ∀ n ∈ ns, IsInline isNote n) :
      IsInline isNote (.group .fieldResult ⟨ns, []⟩)
  | reference (code : String) (ns : List Node) (h : ∀ n ∈ ns, IsInline isNote n) :
      IsInline isNote (.reference code ns)

/-- A paragraph in one of the roles of paragraphs, with any labels. -/
inductive Node.IsParagraph (isNote : NoteKind → String → Container → Prop) : Node → Prop
  | group (role : Role) (ns : List Node) (labels : List String) (hrole : role.isParagraph = true)
      (h : ∀ n ∈ ns, n.IsInline isNote) : IsParagraph isNote (.group role ⟨ns, labels⟩)

/-- A note is a list of paragraphs in which no notes are cited. It has no labels of its own. -/
structure Container.IsNoteBody (c : Container) : Prop where
  labels : c.labels = []
  paragraphs : ∀ n ∈ c.children, n.IsParagraph fun _ _ _ => False

/-- The node with its labels may stand in a document that was read. -/
structure Node.IsRegular (n : Node) : Prop where
  paragraph_of_labels : n.labels ≠ [] → ∃ role c, n = .group role c ∧ role.isParagraph = true
  not_named : ∀ name c, n ≠ .named name c
  not_document : ∀ d, n ≠ .document d

/-- The node is what a paragraph is read as, when no field is open. -/
def Node.IsReadAs (n : Node) (notes : Notes) (paragraph : Element) : Prop :=
  ∃ s, (readParagraph notes paragraph).run.run (.start documentPart []) = (.ok n, s)

/-- The paragraphs of a body, one for each of these elements in order, and the notes that they cite. -/
structure Document.IsRegular (d : Document) (paragraphs : List Element) : Prop where
  children : List.Forall₂ (fun p n => n.IsReadAs ⟨d.footnotes, d.endnotes⟩ p ∧
    n.IsParagraph fun kind id c => Dictionary.get? id (d.notes kind) = some c) paragraphs d.children
  notes : ∀ kind, ∀ entry ∈ d.notes kind, entry.2.IsNoteBody
  labels : d.labels = []
  nodes : ∀ m ∈ walkAll d.contents, m.IsRegular

/-- The elements that are read as the paragraphs of a document. -/
def documentParagraphs (root : Element) : List Element :=
  ((body? root).map fun b => b.1.childElements.filter (·.localName == "p")).getD []

variable {isNote : NoteKind → String → Container → Prop}

theorem inheritedByFields_isInline : InheritedByFields (Node.IsInline isNote) where
  text := .text
  unresolved := .unresolved
  field := .field
  reference := .reference

theorem isParagraph_paragraphNode {notes : Notes}
    (hnotes : ∀ kind id c, notes.get? kind id = some c → isNote kind id c) (style : Style)
    (paragraph : Element) : (paragraphNode notes [] style paragraph).IsParagraph isNote := by
  have hhave : notes.Have (Node.IsInline isNote) :=
    fun kind id c hget => .note kind id c (hnotes kind id c hget)
  exact .group _ _ _ (isParagraph_foldl_roleAfter rfl paragraph.childElements)
    (inheritedByFields_isInline.paragraphChildren hhave style paragraph)

theorem isNoteBody_noteBody (child : Element) : (noteBody child).IsNoteBody := by
  refine ⟨rfl, fun n hn => ?_⟩
  obtain ⟨p, -, rfl⟩ := List.mem_map.mp hn
  refine isParagraph_paragraphNode (fun kind id c hget => ?_) .empty p
  rw [Notes.get?_empty] at hget
  cases hget

/-- Without labels a node must only not be one of those that are built by hand. -/
theorem Node.IsRegular.of_labels_eq_nil {n : Node} (hlabels : n.labels = [])
    (hnamed : ∀ name c, n ≠ .named name c) (hdocument : ∀ d, n ≠ .document d) : n.IsRegular :=
  ⟨fun h => (h hlabels).elim, hnamed, hdocument⟩

theorem inheritedByFields_isRegular : InheritedByFields fun n => ∀ m ∈ n.walk, m.IsRegular :=
  .walk (fun _ => .of_labels_eq_nil rfl (by simp) (by simp))
    (fun _ _ => .of_labels_eq_nil rfl (by simp) (by simp))
    (fun _ => .of_labels_eq_nil rfl (by simp) (by simp))
    fun _ _ => .of_labels_eq_nil rfl (by simp) (by simp)

/-- A group is a field without labels or a paragraph. -/
theorem inherited_isRegular : Inherited fun n => ∀ m ∈ n.walk, m.IsRegular where
  toInheritedByFields := inheritedByFields_isRegular
  paragraph role ns labels hrole h :=
    Node.forall_mem_walk ⟨fun _ => ⟨role, ⟨ns, labels⟩, rfl, hrole⟩, by simp, by simp⟩ h

theorem isRegular_noteBody {child : Element} {n : Node} (hn : n ∈ (noteBody child).children) :
    ∀ m ∈ n.walk, m.IsRegular :=
  inherited_isRegular.noteBody child n hn

/-- A note without labels is as regular as its paragraphs. -/
theorem Notes.FromElements.have_isRegular {notes : Notes} (hnotes : notes.FromElements) :
    notes.Have fun n => ∀ m ∈ n.walk, m.IsRegular := by
  intro kind id c hget
  obtain ⟨child, rfl⟩ := hnotes kind id c hget
  exact Node.forall_mem_walk (.of_labels_eq_nil rfl (by simp) (by simp))
    fun n hn => isRegular_noteBody hn

section

variable {root : Element} {parts : DocumentParts}

theorem children_documentOf_eq_map : (documentOf root parts).children =
    (documentParagraphs root).map (paragraphNode parts.notes [] .empty) := by
  rw [documentOf, documentParagraphs]
  cases body? root <;> rfl

/-- In a body with known marks each paragraph can be read. -/
theorem isReadAs_paragraphNode (notes : Notes) (hmarks : root.HasKnownBodyMarks) {p : Element}
    (hp : p ∈ documentParagraphs root) : (paragraphNode notes [] .empty p).IsReadAs notes p := by
  have hknown : ∀ child ∈ p.runChildren, child.HasKnownMark := by
    rw [documentParagraphs] at hp
    cases hbody : body? root with
    | none => simp [hbody] at hp
    | some b =>
      obtain ⟨hmem, hname⟩ : p ∈ b.1.childElements ∧ p.localName = "p" := by simpa [hbody] using hp
      exact hmarks b hbody p hmem hname
  obtain ⟨n, s, hread⟩ := (succeedsIff_readParagraph notes p (.start documentPart [])).mpr hknown
  obtain ⟨rfl, -⟩ := runs_readParagraph hread
  exact ⟨s, hread⟩

theorem isRegular_of_mem_contents {source : PartSource} (hparts : parts.notes = source.notes)
    {n : Node} (hn : n ∈ (documentOf root parts).contents) : ∀ m ∈ n.walk, m.IsRegular := by
  have hnotes : parts.notes.FromElements := hparts ▸ source.fromElements_notes
  rcases Document.mem_contents_iff.mp hn with hn | ⟨kind, entry, hentry, hn⟩
  · rw [children_documentOf_eq_map] at hn
    obtain ⟨p, -, rfl⟩ := List.mem_map.mp hn
    exact inherited_isRegular.paragraph _ _ _ (isParagraph_foldl_roleAfter rfl p.childElements)
      (inheritedByFields_isRegular.paragraphChildren hnotes.have_isRegular .empty p)
  · obtain ⟨child, hchild⟩ := exists_noteBody_of_mem_notes hparts hentry
    exact isRegular_noteBody (hchild ▸ hn)

end

/-- A document that can be read has one paragraph for each of the elements that paragraphs are read
from, in order, and only nodes inside of them that stand in the line. Its notes are paragraphs too.
Only paragraphs have labels, and there are neither commands nor documents among the nodes. -/
theorem isRegular_of_ofSource {source : PartSource} {log log' : List Notice} {d : Document}
    (h : (ofSource source).run.run log = (.ok d, log')) :
    ∃ root, source.root? documentPart = some root ∧ d.IsRegular (documentParagraphs root) := by
  obtain ⟨-, root', hroot', -, hmarks⟩ := (succeedsIff_ofSource source log).mp ⟨d, log', h⟩
  obtain ⟨root, parts, hroot, hparts, rfl⟩ := runs_ofSource h
  obtain rfl := Option.some.inj (hroot'.symm.trans hroot)
  refine ⟨root', hroot, ?_, fun kind entry hentry => ?_, rfl, fun m hm => ?_⟩
  · rw [children_documentOf_eq_map, List.forall₂_map_right_iff]
    refine List.forall₂_same.mpr fun p hp => ⟨isReadAs_paragraphNode parts.notes hmarks hp, ?_⟩
    exact isParagraph_paragraphNode (fun kind id c hget => (get?_notes_documentOf kind id).trans hget)
      .empty p
  · obtain ⟨child, hchild⟩ := exists_noteBody_of_mem_notes hparts hentry
    exact hchild ▸ isNoteBody_noteBody child
  · rw [walkAll_eq_flatMap] at hm
    obtain ⟨n, hn, hm⟩ := List.mem_flatMap.mp hm
    exact isRegular_of_mem_contents hparts hn m hm

/-- A heading with a bookmark, a table and a paragraph. In the paragraph a field with a note is inside
of another one that stays open, and the note has a bookmark. -/
def headedPackage : PartSource :=
  .ofTexts
    [(documentPart, "<d><body><p><pPr><pStyle w:val=\"Heading1\"/></pPr><bookmarkStart w:name=\"a\"/>" ++
        "<r><t>b</t></r></p><tbl/><p><r><fldChar w:fldCharType=\"begin\"/><instrText>REF a</instrText>" ++
        "<fldChar w:fldCharType=\"begin\"/><footnoteReference w:id=\"1\"/>" ++
        "<fldChar w:fldCharType=\"end\"/></r></p></body></d>"),
      (footnotesPart, "<n><f w:id=\"1\"><p><bookmarkStart w:name=\"c\"/></p></f></n>")]

theorem isRegular_of_headedPackage :
    ∃ d log root, (ofSource headedPackage).run.run [] = (.ok d, log) ∧
      (d.children.length, d.footnotes.length, d.allLabels) = (2, 1, ["a", "c", "c"]) ∧
      headedPackage.root? documentPart = some root ∧ d.IsRegular (documentParagraphs root) := by
  obtain ⟨d, log, hrun, hcounts⟩ : ∃ d log, (ofSource headedPackage).run.run [] = (.ok d, log) ∧
      (d.children.length, d.footnotes.length, d.allLabels) = (2, 1, ["a", "c", "c"]) :=
    exists_document_of_map (by decide +kernel)
  obtain ⟨root, hroot, hregular⟩ := isRegular_of_ofSource hrun
  exact ⟨d, log, root, hrun, hcounts, hroot, hregular⟩

end WordTex
