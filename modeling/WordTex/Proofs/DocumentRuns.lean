import WordTex.Proofs.BodyReading
import WordTex.Proofs.Dictionaries

/-! # Documents that can be read

The notes are read without notes of their own and then the body with the notes, each from a state of
its own, so what holds of all that a body has holds of the document. -/
namespace WordTex

open Reading DocumentReading

/-- The note that an element of a notes part is read as. -/
def noteBody (child : Element) : Container := ⟨bodyNodes .empty .empty child, []⟩

/-- The elements under a root that are read as notes, with their ids. -/
def Element.noteElements (root : Element) : List (String × Element) :=
  root.childElements.filterMap fun child => (child.attribute? "w:id").map (·, child)

/-- The notes that the elements under a root are read as. -/
def notesOf (root : Element) : NoteMap :=
  Dictionary.ofPairs (root.noteElements.map fun n => (n.1, noteBody n.2))

/-- The document that an element is read as. -/
def documentOf (root : Element) (parts : DocumentParts) : Document where
  children := ((body? root).map fun b => bodyNodes parts.notes .empty b.1).getD []
  labels := []
  metadata := parts.metadata
  footnotes := parts.notes.footnotes
  endnotes := parts.notes.endnotes
  relationships := parts.relationships

namespace PartSource

/-- The root of a part, if the package has the part and the part is well-formed. -/
def root? (source : PartSource) (part : String) : Option Element :=
  match source.readOptionalText part with
  | .ok (some text) => (Element.ofXml text).toOption
  | _ => none

/-- The notes that a part is read as; a package without the part has none. -/
def notesOfPart (source : PartSource) (part : String) : NoteMap :=
  ((source.root? part).map notesOf).getD []

/-- The notes that the parts of a package are read as. -/
def notes (source : PartSource) : Notes :=
  ⟨source.notesOfPart footnotesPart, source.notesOfPart endnotesPart⟩

end PartSource

/-- Each of the notes comes from an element. -/
def NoteMap.FromElements (notes : NoteMap) : Prop := ∀ p ∈ notes, ∃ child, p.2 = noteBody child

def Notes.FromElements (notes : Notes) : Prop :=
  ∀ kind id body, notes.get? kind id = some body → ∃ child, body = noteBody child

theorem fromElements_notesOf (root : Element) : (notesOf root).FromElements := by
  intro p hp
  obtain ⟨n, -, rfl⟩ := List.mem_map.mp (Dictionary.mem_ofPairs hp)
  exact ⟨n.2, rfl⟩

theorem PartSource.fromElements_notesOfPart (source : PartSource) (part : String) :
    (source.notesOfPart part).FromElements := by
  rw [notesOfPart]
  cases source.root? part with
  | none => simp [NoteMap.FromElements]
  | some root => exact fromElements_notesOf root

theorem PartSource.fromElements_notes (source : PartSource) : source.notes.FromElements := by
  intro kind id body hbody
  cases kind with
  | footnote => exact source.fromElements_notesOfPart footnotesPart _ (Dictionary.mem_of_get? hbody)
  | endnote => exact source.fromElements_notesOfPart endnotesPart _ (Dictionary.mem_of_get? hbody)

variable {log log' : List Notice} {part : String}

theorem runs_ofPart {α : Type} {x : Reading α} {a : α} :
    Runs (ofPart part x) log a log' ↔
      ∃ s', Runs x (.start part log) a s' ∧ log' = s'.notices := by
  simp only [Runs]
  change ((x.run.run (.start part log)).1, (x.run.run (.start part log)).2.notices) = _ ↔ _
  rcases x.run.run (.start part log) with ⟨r, t⟩
  constructor
  · intro h
    cases h
    exact ⟨t, rfl, rfl⟩
  · rintro ⟨s', h, rfl⟩
    cases h
    rfl

/-- A body of a part is read from a state with no style. -/
theorem runs_partBody {notes : Notes} {root body : Element} {index : Nat} {ns : List Node}
    (h : Runs (ofPart part (.within root 0 (.within body index (.readBody notes body)))) log ns log') :
    ns = bodyNodes notes .empty body := by
  obtain ⟨s', hroot, rfl⟩ := runs_ofPart.mp h
  obtain ⟨t, hbody, rfl⟩ := runs_within.mp hroot
  obtain ⟨u, hread, rfl⟩ := runs_within.mp hbody
  obtain ⟨rfl, -⟩ := runs_readBody rfl hread
  congr 1

theorem runs_readNote {root child : Element} {index : Nat} {body : Container}
    (h : Runs (readNote part root child index) log body log') : body = noteBody child := by
  obtain ⟨ns, t, hread, hpure⟩ := runs_bind.mp h
  obtain ⟨rfl, -⟩ := runs_pure.mp hpure
  rw [runs_partBody hread]
  rfl

/-- The notes after the elements under a root, of which those without an id are passed over. -/
theorem runs_noteElements {root : Element} {children : List Element} {index : Nat}
    {notes notes' : NoteMap}
    (h : Runs ((children.zipIdx index).foldlM (fun notes (child, i) =>
      match child.attribute? "w:id" with
      | none => do
        note (.noteWithoutId part child.name)
        return notes
      | some id => do
        let body ← readNote part root child i
        return Dictionary.insert id body notes) notes) log notes' log') :
    notes' = (children.filterMap fun child => (child.attribute? "w:id").map (·, child)).foldl
      (fun d n => Dictionary.insert n.1 (noteBody n.2) d) notes := by
  induction children generalizing index notes log with
  | nil => exact (runs_pure.mp h).1
  | cons c cs ih =>
    rw [List.zipIdx_cons] at h
    obtain ⟨next, t, hchild, hrest⟩ := runs_foldlM_cons.mp h
    rw [ih hrest]
    cases hid : c.attribute? "w:id" with
    | none =>
      simp only [hid] at hchild
      obtain ⟨u, v, -, hpure⟩ := runs_bind.mp hchild
      rw [(runs_pure.mp hpure).1]
      simp [hid]
    | some id =>
      simp only [hid] at hchild
      obtain ⟨body, v, hread, hpure⟩ := runs_bind.mp hchild
      rw [(runs_pure.mp hpure).1, runs_readNote hread]
      simp [hid]

theorem runs_readNotes {root : Element} {notes : NoteMap}
    (h : Runs (readNotes part root) log notes log') : notes = notesOf root := by
  rw [runs_noteElements h, notesOf, Dictionary.ofPairs, List.foldl_map]
  rfl

variable {source : PartSource}

theorem runs_readRoot? {root? : Option Element}
    (h : Runs (readRoot? source part) log root? log') : root? = source.root? part := by
  rw [readRoot?] at h
  rw [PartSource.root?]
  split at h
  · exact (not_runs_throw h).elim
  · rename_i hnone
    rw [hnone]
    exact (runs_pure.mp h).1
  · rename_i text hsome
    rw [hsome]
    split at h
    · rename_i root hroot
      simp only [hroot]
      exact (runs_pure.mp h).1
    · exact (not_runs_throw h).elim

theorem runs_readNotesPart {notes : NoteMap}
    (h : Runs (readNotesPart source part) log notes log') : notes = source.notesOfPart part := by
  obtain ⟨root?, t, hroot, hrest⟩ := runs_bind.mp h
  rw [PartSource.notesOfPart, ← runs_readRoot? hroot]
  cases root? with
  | some root => exact runs_readNotes hrest
  | none => exact (runs_pure.mp hrest).1

theorem runs_readParts {parts : DocumentParts} (h : Runs (readParts source) log parts log') :
    parts.notes = source.notes := by
  obtain ⟨footnotes, t, hfootnotes, hrest⟩ := runs_bind.mp h
  obtain ⟨endnotes, u, hendnotes, hrest⟩ := runs_bind.mp hrest
  obtain ⟨core, v, -, hrest⟩ := runs_bind.mp hrest
  obtain ⟨relationships, w, -, hpure⟩ := runs_bind.mp hrest
  obtain ⟨rfl, -⟩ := runs_pure.mp hpure
  rw [PartSource.notes, ← runs_readNotesPart hfootnotes, ← runs_readNotesPart hendnotes]

theorem runs_readDocument {root : Element} {parts : DocumentParts} {d : Document}
    (h : Runs (readDocument root parts) log d log') : d = documentOf root parts := by
  rw [readDocument] at h
  rw [documentOf]
  cases hbody : body? root with
  | none =>
    simp only [hbody] at h
    obtain ⟨u, t, -, hrest⟩ := runs_bind.mp h
    obtain ⟨children, v, hnil, hpure⟩ := runs_bind.mp hrest
    obtain ⟨rfl, -⟩ := runs_pure.mp hnil
    exact (runs_pure.mp hpure).1
  | some b =>
    obtain ⟨body, index⟩ := b
    simp only [hbody] at h
    obtain ⟨children, t, hread, hpure⟩ := runs_bind.mp h
    rw [(runs_pure.mp hpure).1, runs_partBody hread]
    rfl

/-- A document that can be read is that of its root, with the notes of the package. -/
theorem runs_ofSource {d : Document} (h : Runs (ofSource source) log d log') :
    ∃ root parts, source.root? documentPart = some root ∧ parts.notes = source.notes ∧
      d = documentOf root parts := by
  obtain ⟨root?, t, hroot, hrest⟩ := runs_bind.mp h
  cases root? with
  | none => exact (not_runs_throw hrest).elim
  | some root =>
    obtain ⟨parts, u, hparts, hrest⟩ := runs_bind.mp hrest
    obtain ⟨d', v, hread, hrest⟩ := runs_bind.mp hrest
    obtain ⟨-, w, -, hpure⟩ := runs_bind.mp hrest
    obtain ⟨rfl, -⟩ := runs_pure.mp hpure
    exact ⟨root, parts, (runs_readRoot? hroot).symm, runs_readParts hparts, runs_readDocument hread⟩

/-- A package of texts. -/
def PartSource.ofTexts (parts : Dictionary String) : PartSource where
  hasPart path := (Dictionary.get? path parts).isSome
  readText path := (Dictionary.get? path parts).elim (.error (.partNotFound path)) .ok

/-- What is computed of the document of a package shows that it can be read. -/
theorem exists_document_of_map {β : Type} {f : Document → β} {b : β}
    (h : ((ofSource source).run.run log).1.toOption.map f = some b) :
    ∃ d log', (ofSource source).run.run log = (.ok d, log') ∧ f d = b := by
  rcases hrun : (ofSource source).run.run log with ⟨r, log'⟩
  rw [hrun] at h
  cases r with
  | error e => cases h
  | ok d => exact ⟨d, log', rfl, Option.some.inj h⟩

variable {Q : Node → Prop}

theorem Notes.get?_empty (kind : NoteKind) (id : String) : Notes.empty.get? kind id = none := by
  cases kind <;> rfl

theorem Notes.have_empty : Notes.empty.Have Q := by
  intro kind id body hbody
  rw [get?_empty] at hbody
  cases hbody

theorem Inherited.noteBody (hQ : Inherited Q) (child : Element) :
    ∀ n ∈ (noteBody child).children, Q n :=
  hQ.bodyNodes Notes.have_empty .empty child

theorem Notes.FromElements.have (hQ : Inherited Q)
    (hnote : ∀ kind id c, (∀ n ∈ c.children, Q n) → Q (.note kind (some id) c)) {notes : Notes}
    (hnotes : notes.FromElements) : notes.Have Q := by
  intro kind id body hbody
  obtain ⟨child, rfl⟩ := hnotes kind id body hbody
  exact hnote kind id _ (hQ.noteBody child)

/-- A property that passes on to fields, paragraphs and notes holds of all that is read. -/
theorem Inherited.document (hQ : Inherited Q)
    (hnote : ∀ kind id c, (∀ n ∈ c.children, Q n) → Q (.note kind (some id) c)) {d : Document}
    (h : Runs (ofSource source) log d log') : ∀ n ∈ d.children, Q n := by
  obtain ⟨root, parts, -, hnotes, rfl⟩ := runs_ofSource h
  rw [documentOf, hnotes]
  have hhave : source.notes.Have Q := source.fromElements_notes.have hQ hnote
  cases body? root with
  | none => simp
  | some b => exact hQ.bodyNodes hhave .empty b.1

/-- So does what holds of all that is met on a walk. -/
theorem Inherited.forall_mem_walk {P : Node → Prop} (hP : Inherited fun n => ∀ m ∈ n.walk, P m)
    (hnote : ∀ kind id c, P (.note kind (some id) c)) {d : Document}
    (h : Runs (ofSource source) log d log') : ∀ m ∈ d.walk, P m := by
  have hnodes := hP.document
    (fun kind id c hc => Node.forall_mem_walk (hnote kind id c) hc) h
  intro m hm
  obtain ⟨n, hn, hmn⟩ := Document.mem_walk_iff.mp hm
  exact hnodes n hn m hmn

end WordTex
