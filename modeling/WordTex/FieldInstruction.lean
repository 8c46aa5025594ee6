import WordTex.WhiteSpace
import WordTex.TextCuts

/-! # Instructions of fields

An instruction is a list of words, of which the first names the field. Only the instructions of
cross-references change how a field is written. -/
namespace WordTex

/-- What a cross-reference shows of its bookmark: its text or number, a note's number, or a page. -/
inductive ReferenceKind where
  | text
  | note
  | page
deriving DecidableEq, Repr

def ReferenceKind.ofWord? : List Char → Option ReferenceKind
  | ['R', 'E', 'F'] => some text
  | ['N', 'O', 'T', 'E', 'R', 'E', 'F'] => some note
  | ['P', 'A', 'G', 'E', 'R', 'E', 'F'] => some page
  | _ => none

inductive FieldInstruction where
  | reference (kind : ReferenceKind) (code : String) (switches : List String)
  | hyperlink (url : String)
  | listNumber (series : String)
  /-- Any other field, or a cross-reference without a bookmark. -/
  | other (name : String)
deriving DecidableEq, Repr

namespace FieldInstruction

/-- The first quoted part of a text. -/
def quotedPart? (s : List Char) : Option (List Char) := do
  let (_, rest) ← cutAt? ['\x22'] s
  let (part, _) ← cutAt? ['\x22'] rest
  return part

/-- The target of a hyperlink: the first quoted part of its arguments, or else their first word. -/
def hyperlinkTarget (arguments : List Char) : List Char :=
  match quotedPart? arguments with
  | some part => part
  | none => (words arguments).headD []

/-- An instruction whose name is not that of a cross-reference. -/
def ofName (name : List Char) (arguments : List Char) : FieldInstruction :=
  if name = "HYPERLINK".toList then .hyperlink (.ofList (hyperlinkTarget arguments))
  else if name = "LISTNUM".toList then
    .listNumber (" ".intercalate ((words arguments).map String.ofList))
  else .other (.ofList name)

def ofChars (s : List Char) : FieldInstruction :=
  match words s with
  | [] => .other ""
  | name :: arguments =>
    match ReferenceKind.ofWord? name, arguments with
    | some kind, code :: switches => .reference kind (.ofList code) (switches.map String.ofList)
    | some _, [] => .other (.ofList name)
    | none, _ => ofName name ((trimLeft s).drop name.length)

def ofText (text : String) : FieldInstruction := ofChars text.toList

def isReference : FieldInstruction → Bool
  | reference .. => true
  | _ => false

end FieldInstruction

end WordTex
