import WordTex.PartReading
import WordTex.SymbolFonts

/-! # Reading paragraphs and runs -/
namespace WordTex

/-- The notes of a document. -/
structure Notes where
  footnotes : NoteMap
  endnotes : NoteMap

namespace Notes

def empty : Notes := ⟨[], []⟩

instance : Inhabited Notes := ⟨empty⟩

def get? (notes : Notes) : NoteKind → String → Option Container
  | .footnote, id => Dictionary.get? id notes.footnotes
  | .endnote, id => Dictionary.get? id notes.endnotes

def isEmpty (notes : Notes) : Bool := notes.footnotes.isEmpty && notes.endnotes.isEmpty

end Notes

namespace Reading

def emit (n : Node) : Reading (List Node) := modifyGet (ReadingState.emit n)

/-- Text takes the current style. -/
def emitText (data : String) : Reading (List Node) :=
  modifyGet fun s => s.emit (.text ⟨data, s.currentStyle⟩)

/-- A citation shares the note with its id; one without a note stands for itself. -/
def emitNote (notes : Notes) (kind : NoteKind) (id : String) : Reading (List Node) :=
  match notes.get? kind id with
  | some body => emit (.note kind (some id) body)
  | none => modifyGet fun s =>
    (s.note (.unknownNote kind id s.place)).emit (.unresolved kind id)

def emitSymbol (font : Option String) (code : String) : Reading (List Node) := do
  if (symbolText? font code).isNone then modify (ReadingState.note (.symbolWithoutText code font))
  emitText (symbolText font code)

/-- A mark of an unknown type is the one thing in a document that cannot be read. -/
def readFieldMark (type : String) : Reading (List Node) :=
  match FieldMark.ofType? type with
  | some mark => modifyGet (ReadingState.applyMark mark)
  | none => do throw (.unrecognizedFieldMark type (← get).place)

/-- Reads the styles of a block of properties into the innermost scope. -/
def readProperties (block : Element) : Reading Unit :=
  modify fun s => (s.noteAll block.propertyNotices).mergeStyle block.propertyStyles

/-- The nodes that a child of a run adds outside of fields. -/
def readRunChild (notes : Notes) (child : Element) (index : Nat) : Reading (List Node) :=
  match child.runItem with
  | .properties => do
    readProperties child
    return []
  | .text data => emitText data
  | .symbol font code => emitSymbol font code
  | .note kind id => emitNote notes kind id
  | .instruction text => do
    modify (ReadingState.addInstruction text)
    return []
  | .fieldMark type => within child index (readFieldMark type)
  | .silent => return []
  | .other => do
    modify (ReadingState.note (.runChildIgnored child.localName))
    return []

def readRun (notes : Notes) (run : Element) : Reading (List Node) :=
  inScope do
    let nodes ← run.childElements.zipIdx.mapM fun (child, index) => readRunChild notes child index
    return nodes.flatten

/-- The link of a hyperlink is dropped and the text of its runs is kept. -/
def readHyperlinkChild (notes : Notes) (child : Element) (index : Nat) : Reading (List Node) :=
  if child.localName = "r" then within child index (readRun notes child)
  else do
    modify (ReadingState.note (.hyperlinkChildIgnored child.localName))
    return []

def readHyperlink (notes : Notes) (link : Element) : Reading (List Node) := do
  let nodes ← link.childElements.zipIdx.mapM fun (child, index) =>
    readHyperlinkChild notes child index
  return nodes.flatten

/-- A paragraph as far as it has been read. -/
structure Draft where
  role : Role
  body : Container

namespace Draft

def start : Draft := ⟨.plain, .empty⟩

def append (d : Draft) (nodes : List Node) : Draft :=
  { d with body := { d.body with children := d.body.children ++ nodes } }

def addLabel (d : Draft) (label : String) : Draft := { d with body := d.body.addLabel label }

end Draft

/-- Reads the role that the style of a paragraph gives it; an unknown style changes nothing. -/
def readRole (block : Element) (draft : Draft) : Reading Draft :=
  match block.styleId? with
  | none => return draft
  | some style =>
    match Role.ofStyleId? style with
    | some role => return { draft with role := role }
    | none => do
      modify (ReadingState.note (.paragraphStyleIgnored style))
      return draft

def readParagraphChild (notes : Notes) (draft : Draft) (child : Element) (index : Nat) :
    Reading Draft :=
  match child.paragraphItem with
  | .properties => do
    readProperties child
    readRole child draft
  | .run => do
    let nodes ← within child index (readRun notes child)
    return draft.append nodes
  | .hyperlink => do
    let nodes ← within child index (readHyperlink notes child)
    return draft.append nodes
  | .bookmark (some b) => return draft.addLabel b.name
  | .bookmark none => return draft
  | .silent => return draft
  | .other => do
    modify (ReadingState.note (.paragraphChildIgnored child.localName))
    return draft

/-- Fields end with their paragraph. -/
def readParagraph (notes : Notes) (paragraph : Element) : Reading Node :=
  inScope do
    let draft ← paragraph.childElements.zipIdx.foldlM
      (fun draft (child, index) => readParagraphChild notes draft child index) .start
    let rest ← modifyGet ReadingState.closeFields
    let draft := draft.append rest
    return .group draft.role draft.body

/-- Of the blocks of a body only paragraphs are read. -/
def readBlock (notes : Notes) (body child : Element) (index : Nat) : Reading (List Node) :=
  if child.localName = "p" then do
    let paragraph ← within child index (readParagraph notes child)
    return [paragraph]
  else if child.localName = "sectPr" then return []
  else do
    modify fun s => s.note (.blockSkipped s.part body.name child.localName)
    return []

/-- The paragraphs of a body or of a note. -/
def readBody (notes : Notes) (body : Element) : Reading (List Node) := do
  let nodes ← body.childElements.zipIdx.mapM fun (child, index) => readBlock notes body child index
  return nodes.flatten

end Reading

end WordTex
