import WordTex.DocumentWalk
import WordTex.PackageParts
import WordTex.ParagraphReading
import WordTex.SideParts

/-! # Reading a document from a package -/
namespace WordTex

/-- Reading of several parts, with one log of notices, of which the newest comes first. -/
abbrev DocumentReading := ExceptT ReadError (StateM (List Notice))

/-- What a document has besides its body. -/
structure DocumentParts where
  notes : Notes
  metadata : Dictionary String
  relationships : Dictionary String

namespace DocumentParts

def empty : DocumentParts := ⟨.empty, [], []⟩

instance : Inhabited DocumentParts := ⟨empty⟩

end DocumentParts

namespace DocumentReading

variable {α : Type}

def note (n : Notice) : DocumentReading Unit := modify (n :: ·)

/-- Reads a part, or an independent piece of one, from a state of its own. -/
def ofPart (part : String) (x : Reading α) : DocumentReading α := ExceptT.mk fun log =>
  let (result, state) := x.run.run (.start part log)
  (result, state.notices)

/-- The result of reading, and the notices in order. -/
def runLogged (x : DocumentReading α) : Except ReadError α × List Notice :=
  let (result, log) := x.run.run []
  (result, log.reverse)

/-- Reads a note without access to other notes. -/
def readNote (part : String) (root child : Element) (index : Nat) : DocumentReading Container := do
  let children ← ofPart part <|
    .within root 0 <| .within child index <| .readBody .empty child
  return .ofChildren children

/-- Reads the notes under a root by their ids. -/
def readNotes (part : String) (root : Element) : DocumentReading NoteMap :=
  root.childElements.zipIdx.foldlM (fun notes (child, index) =>
    match child.attribute? "w:id" with
    | none => do
      note (.noteWithoutId part child.name)
      return notes
    | some id => do
      let body ← readNote part root child index
      return Dictionary.insert id body notes) []

/-- The root of a part, if the package has the part. -/
def readRoot? (source : PartSource) (part : String) : DocumentReading (Option Element) :=
  match source.readOptionalText part with
  | .error e => throw (.package e)
  | .ok none => return none
  | .ok (some text) =>
    match Element.ofXml text with
    | .ok root => return some root
    | .error e => throw (.xml part e)

/-- The notes of a part; a package without the part has none. -/
def readNotesPart (source : PartSource) (part : String) : DocumentReading NoteMap := do
  match ← readRoot? source part with
  | some root => readNotes part root
  | none => return []

def readParts (source : PartSource) : DocumentReading DocumentParts := do
  let footnotes ← readNotesPart source footnotesPart
  let endnotes ← readNotesPart source endnotesPart
  let core ← readRoot? source corePropertiesPart
  let relationships ← readRoot? source relationshipsPart
  return {
    notes := ⟨footnotes, endnotes⟩
    metadata := (core.map corePropertiesOf).getD []
    relationships := (relationships.map fun r => Relationship.targets (Relationship.ofRoot r)).getD [] }

/-- The first body under a root, with its index among the child elements. -/
def body? (root : Element) : Option (Element × Nat) :=
  root.childElements.zipIdx.find? (·.1.localName == "body")

/-- Reads the body under a root; the rest of the document is given. -/
def readDocument (root : Element) (parts : DocumentParts) : DocumentReading Document := do
  let children ← match body? root with
    | some (body, index) =>
      ofPart documentPart (.within root 0 (.within body index (.readBody parts.notes body)))
    | none => do
      note (.missingBody documentPart root.name)
      pure []
  return ⟨children, [], parts.metadata, parts.notes.footnotes, parts.notes.endnotes,
    parts.relationships⟩

/-- Reads the document of a package and notes its dangling references. -/
def ofSource (source : PartSource) : DocumentReading Document := do
  match ← readRoot? source documentPart with
  | none => throw (.missingPart documentPart)
  | some root =>
    let parts ← readParts source
    let document ← readDocument root parts
    document.danglingReferences.forM fun code => note (.danglingReference code)
    return document

end DocumentReading

end WordTex
