import WordTex.ParagraphItems
import WordTex.ReadErrors

/-! # The state of the reader of a part

Three stacks follow the reader: the styles of the open scopes, the fields that are open, and the path
of the element that is read. The innermost entry comes first. Scopes and paths are left on every way
out, also when reading fails. -/
namespace WordTex

structure ReadingState where
  part : String
  styles : List Style
  fields : List OpenField
  path : List String
  /-- The newest notice comes first. -/
  notices : List Notice

/-- Reading that may fail, and that keeps its state when it does. -/
abbrev Reading := ExceptT ReadError (StateM ReadingState)

namespace ReadingState

def start (part : String) (notices : List Notice) : ReadingState := ⟨part, [.empty], [], [], notices⟩

/-- The style of text: the union of all open scopes. -/
def currentStyle (s : ReadingState) : Style := .unionAll s.styles

/-- Adds flags to the innermost scope. -/
def mergeStyle (style : Style) (s : ReadingState) : ReadingState :=
  { s with styles := s.styles.modifyHead (·.union style) }

def pathText (s : ReadingState) : String := "/".intercalate s.path.reverse

def place (s : ReadingState) : Place := ⟨s.part, s.pathText⟩

def note (n : Notice) (s : ReadingState) : ReadingState := { s with notices := n :: s.notices }

def noteAll (ns : List Notice) (s : ReadingState) : ReadingState :=
  { s with notices := ns.reverse ++ s.notices }

/-- A node goes to the innermost open field, and is handed on if there is none. -/
def emit (n : Node) (s : ReadingState) : List Node × ReadingState :=
  match s.fields with
  | [] => ([n], s)
  | f :: rest => ([], { s with fields := f.push n :: rest })

/-- Adds text to the instruction of the innermost open field. -/
def addInstruction (text : String) (s : ReadingState) : ReadingState :=
  match s.fields with
  | [] => s.note (.instructionOutsideField text s.place)
  | f :: rest =>
    { s with fields := f.addInstruction text :: rest }.noteAll (f.instructionNotices text)

/-- Separators and ends belong to the innermost open field. -/
def applyMark (mark : FieldMark) (s : ReadingState) : List Node × ReadingState :=
  match mark, s.fields with
  | .opening, _ => ([], { s with fields := .start :: s.fields })
  | .separator, [] => ([], s.note (.separatorOutsideField s.place))
  | .separator, f :: rest => ([], { s with fields := f.separate :: rest })
  | .closing, [] => ([], s.note (.endOutsideField s.place))
  | .closing, f :: rest => ({ s with fields := rest }.noteAll f.closeNotices).emit f.close

/-- Closes all open fields, the innermost first, as fields that are not references. -/
def closeFields (s : ReadingState) : List Node × ReadingState :=
  (OpenField.closeAll s.fields, { s with fields := [] }.noteAll
    (s.fields.map fun (f : OpenField) => .fieldLeftOpen (String.trim f.instruction) s.place))

end ReadingState

namespace Reading

variable {α : Type}

/-- A step of a path: the name of an element and its position among the child elements. -/
def step (e : Element) (index : Nat) : String := e.name ++ "[" ++ toString (index + 1) ++ "]"

/-- Reads in a new style scope. -/
def inScope (x : Reading α) : Reading α := ExceptT.mk do
  modify fun s => { s with styles := .empty :: s.styles }
  let result ← x.run
  modify fun s => { s with styles := s.styles.tail }
  return result

/-- Reads at an element with this index among its siblings. -/
def within (e : Element) (index : Nat) (x : Reading α) : Reading α := ExceptT.mk do
  modify fun s => { s with path := step e index :: s.path }
  let result ← x.run
  modify fun s => { s with path := s.path.tail }
  return result

end Reading

end WordTex
