import WordTex.JsonValue
import WordTex.DocumentTree

/-! # Documents as JSON

Every node is an object that names its kind first. The object of a missing note has two members
called `kind`, and can therefore not be read again. -/
namespace WordTex

/-- What a node is, without its contents. -/
inductive NodeForm where
  | text
  | group (role : Role)
  | note (kind : NoteKind)
  | reference
  | named
  | unresolved
  | document
deriving DecidableEq, Repr

namespace NodeForm

/-- All forms in their fixed order. -/
def all : List NodeForm :=
  [text, group .plain, group .heading1, group .heading2, group .heading3, group .numberedExample,
    group .fieldResult, note .footnote, note .endnote, reference, named, unresolved, document]

end NodeForm

def NoteKind.tag : NoteKind → String
  | .footnote => "Footnote"
  | .endnote => "Endnote"

def Role.tag : Role → String
  | .plain => "Container"
  | .heading1 => "Section"
  | .heading2 => "Subsection"
  | .heading3 => "Subsubsection"
  | .numberedExample => "Example"
  | .fieldResult => "Field"

def NodeForm.tag : NodeForm → String
  | .text => "Text"
  | .group role => role.tag
  | .note kind => kind.tag
  | .reference => "Reference"
  | .named => "Named"
  | .unresolved => "Unresolved"
  | .document => "Document"

def Node.form : Node → NodeForm
  | .text _ => .text
  | .group role _ => .group role
  | .note kind _ _ => .note kind
  | .reference _ _ => .reference
  | .named _ _ => .named
  | .unresolved _ _ => .unresolved
  | .document _ => .document

def stringsToJson (ss : List String) : Json := .array (ss.map .string)

def textMembers (t : StyledText) : List (String × Json) :=
  [("data", .string t.data), ("styles", .string t.styles.toText)]

def stringMapToJson (d : Dictionary String) : Json := .object (d.map fun e => (e.1, .string e.2))

/-- The tag of a node, which stands before its other members. -/
def tagMember (f : NodeForm) : String × Json := ("kind", .string f.tag)

mutual

def Node.toJson : Node → Json
  | .text t => .object (tagMember .text :: textMembers t)
  | .group role c => .object (tagMember (.group role) :: containerMembers c)
  | .note kind _ c => .object (tagMember (.note kind) :: containerMembers c)
  | .reference code children =>
    .object [tagMember .reference, ("code", .string code), ("children", .array (nodesToJson children))]
  | .named name c =>
    .object [tagMember .named, ("name", .string name), ("container", .object (containerMembers c))]
  | .unresolved kind id =>
    .object [tagMember .unresolved, ("kind", .string kind.tag), ("id", .string id)]
  | .document d => .object (tagMember .document :: documentMembers d)

def containerMembers : Container → List (String × Json)
  | ⟨children, labels⟩ =>
    [("children", .array (nodesToJson children)), ("labels", stringsToJson labels)]

def documentMembers : Document → List (String × Json)
  | ⟨children, labels, metadata, footnotes, endnotes, relationships⟩ =>
    [("children", .array (nodesToJson children)), ("labels", stringsToJson labels),
      ("metadata", stringMapToJson metadata), ("footnotes", .object (notesToJson footnotes)),
      ("endnotes", .object (notesToJson endnotes)),
      ("relationships", stringMapToJson relationships)]

def nodesToJson : List Node → List Json
  | [] => []
  | n :: ns => n.toJson :: nodesToJson ns

def notesToJson : List (String × Container) → List (String × Json)
  | [] => []
  | (id, c) :: rest => (id, .object (containerMembers c)) :: notesToJson rest

end

def StyledText.toJson (t : StyledText) : Json := .object (textMembers t)

def Container.toJson (c : Container) : Json := .object (containerMembers c)

def Document.toJson (d : Document) : Json := .object (documentMembers d)

/-- A cross-reference outside of a node. -/
def referenceToJson (code : String) (children : List Node) : Json :=
  .object [("code", .string code), ("children", .array (nodesToJson children))]

end WordTex
