import WordTex.JsonText
import WordTex.DocumentJson

/-! # Documents from JSON

A record is an object that has each of its fields exactly once, whatever other members it has, or
an array of exactly its fields in order. A node is a record with its tag, which an object has as the
member `kind` and an array as its first item. A node inside another one may give the tag as the
position of its form among all forms. -/
namespace WordTex
namespace Json

/-- The fields of a record in their order. -/
def fields? (names : List String) : Json → Option (List Json)
  | .array items => if items.length = names.length then some items else none
  | .object members =>
    names.mapM fun n =>
      match members.filter (·.1 == n) with
      | [(_, v)] => some v
      | _ => none
  | _ => none

def string? : Json → Option String
  | .string s => some s
  | _ => none

def strings? : Json → Option (List String)
  | .array items => items.mapM string?
  | _ => none

/-- An object as a dictionary; of several members with one name the last counts. -/
def dictionary? {α : Type} (value? : Json → Option α) : Json → Option (Dictionary α)
  | .object members =>
    (members.mapM fun m => (value? m.2).map (m.1, ·)).map Dictionary.ofPairs
  | _ => none

/-- A natural number written with nothing but digits. -/
def index? : Json → Option Nat
  | .number literal => number? 10 literal
  | _ => none

end Json

/-- The form that a tag names. The position of a form counts only where `byPosition` allows it. -/
def NodeForm.ofTag? (byPosition : Bool) (tag : Json) : Option NodeForm :=
  match tag with
  | .string s => all.find? (·.tag == s)
  | _ => if byPosition then tag.index?.bind (all[·]?) else none

/-- The form of a node and the record without its tag. -/
def tagged? (byPosition : Bool) : Json → Option (NodeForm × Json)
  | .array (tag :: items) => (NodeForm.ofTag? byPosition tag).map (·, .array items)
  | .object members =>
    match members.filter (·.1 == "kind") with
    | [(_, tag)] =>
      (NodeForm.ofTag? byPosition tag).map (·, .object (members.filter (·.1 != "kind")))
    | _ => none
  | _ => none

def StyledText.ofJson? (j : Json) : Option StyledText := do
  match ← j.fields? ["data", "styles"] with
  | [data, styles] => return ⟨← data.string?, ← Style.ofText? (← styles.string?)⟩
  | _ => none

def NoteKind.ofTag? (tag : String) : Option NoteKind :=
  [NoteKind.footnote, .endnote].find? (·.tag == tag)

/-- A kind of note is its tag, or an object with this one member and nothing in it. -/
def NoteKind.ofJson? : Json → Option NoteKind
  | .string tag => ofTag? tag
  | .object [(tag, .null)] => ofTag? tag
  | .object [(tag, .object [])] => ofTag? tag
  | _ => none

/-- A container, given the reader of its children. -/
def containerOfJson? (nodes? : Json → Option (List Node)) (j : Json) : Option Container := do
  match ← j.fields? ["children", "labels"] with
  | [children, labels] => return ⟨← nodes? children, ← labels.strings?⟩
  | _ => none

/-- A cross-reference, given the reader of its children. -/
def referenceOfJson? (nodes? : Json → Option (List Node)) (j : Json) :
    Option (String × List Node) := do
  match ← j.fields? ["code", "children"] with
  | [code, children] => return (← code.string?, ← nodes? children)
  | _ => none

/-- A document, given the readers of its children and of its notes. -/
def documentOfJson? (nodes? : Json → Option (List Node)) (container? : Json → Option Container)
    (j : Json) : Option Document := do
  match ← j.fields? ["children", "labels", "metadata", "footnotes", "endnotes", "relationships"] with
  | [children, labels, metadata, footnotes, endnotes, relationships] =>
    return ⟨← nodes? children, ← labels.strings?, ← metadata.dictionary? Json.string?,
      ← footnotes.dictionary? container?, ← endnotes.dictionary? container?,
      ← relationships.dictionary? Json.string?⟩
  | _ => none

/-- A list of nodes, given the reader of one. -/
def nodesOfJson? (node? : Json → Option Node) : Json → Option (List Node)
  | .array items => items.mapM node?
  | _ => none

/-- A node of at most so many levels of nodes. -/
def nodeOfJson? : Nat → Bool → Json → Option Node
  | 0, _, _ => none
  | levels + 1, byPosition, j => do
    let nodes? := nodesOfJson? (nodeOfJson? levels true)
    let container? := containerOfJson? nodes?
    let (form, record) ← tagged? byPosition j
    match form with
    | .text => return .text (← StyledText.ofJson? record)
    | .group role => return .group role (← container? record)
    | .note kind => return .note kind none (← container? record)
    | .reference =>
      let (code, children) ← referenceOfJson? nodes? record
      return .reference code children
    | .named =>
      match ← record.fields? ["name", "container"] with
      | [name, body] => return .named (← name.string?) (← container? body)
      | _ => none
    | .unresolved =>
      match ← record.fields? ["kind", "id"] with
      | [kind, id] => return .unresolved (← NoteKind.ofJson? kind) (← id.string?)
      | _ => none
    | .document => return .document (← documentOfJson? nodes? container? record)

/-- A node that stands by itself. -/
def Node.ofJson? (j : Json) : Option Node := nodeOfJson? j.depth false j

/-- The nodes of an array. -/
def childrenOfJson? (j : Json) : Option (List Node) := nodesOfJson? Node.ofJson? j

def Container.ofJson? (j : Json) : Option Container := containerOfJson? childrenOfJson? j

def Document.ofJson? (j : Json) : Option Document :=
  documentOfJson? childrenOfJson? Container.ofJson? j

/-- The greatest nesting of arrays and objects in text. Members that no record has a field for are passed
over, and count towards it only inside of a node. -/
def maxLevels : Nat := 127

/-- A reader of values that take up at most so many levels. -/
def withinLevels {α : Type} (levels : Nat) (read? : Json → Option α) (j : Json) : Option α :=
  if j.fits levels then read? j else none

def Node.ofJsonText? (text : String) : Option Node :=
  (Json.ofText? text).bind (withinLevels maxLevels Node.ofJson?)

def StyledText.ofJsonText? (text : String) : Option StyledText :=
  (Json.ofText? text).bind StyledText.ofJson?

def Container.ofJsonText? (text : String) : Option Container :=
  (Json.ofText? text).bind (containerOfJson? (withinLevels (maxLevels - 1) childrenOfJson?))

/-- A cross-reference outside of a node. -/
def referenceOfJsonText? (text : String) : Option (String × List Node) :=
  (Json.ofText? text).bind (referenceOfJson? (withinLevels (maxLevels - 1) childrenOfJson?))

def Document.ofJsonText? (text : String) : Option Document :=
  (Json.ofText? text).bind
    (documentOfJson? (withinLevels (maxLevels - 1) childrenOfJson?)
      (containerOfJson? (withinLevels (maxLevels - 3) childrenOfJson?)))

end WordTex
