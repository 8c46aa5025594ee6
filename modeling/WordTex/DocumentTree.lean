import WordTex.Dictionary
import WordTex.StyledText

/-! # The document tree

A document is a tree of styled texts, containers, notes and cross-references. It knows nothing of
the format it was read from or of the one it is written in. -/
namespace WordTex

inductive NoteKind where
  | footnote
  | endnote
deriving DecidableEq, Repr

/-- What a container of nodes is: a paragraph without or with a structural part, or the result of a
field inside a paragraph. -/
inductive Role where
  | plain
  | heading1
  | heading2
  | heading3
  | numberedExample
  | fieldResult
deriving DecidableEq, Repr

mutual

inductive Node where
  | text (text : StyledText)
  | group (role : Role) (body : Container)
  /-- A note at a place that cites it. `entry` is the id of the entry that it shares, if the note is
  one of the document's own. -/
  | note (kind : NoteKind) (entry : Option String) (body : Container)
  /-- A cross-reference to a bookmark with the text displayed for it. -/
  | reference (code : String) (children : List Node)
  /-- A container that is written as the command of this name. -/
  | named (name : String) (body : Container)
  /-- A citation of a note that does not exist. -/
  | unresolved (kind : NoteKind) (id : String)
  | document (document : Document)

/-- A list of nodes with the names of the bookmarks that point at it. -/
structure Container where
  children : List Node
  labels : List String

structure Document where
  children : List Node
  labels : List String
  metadata : List (String × String)
  footnotes : List (String × Container)
  endnotes : List (String × Container)
  relationships : List (String × String)

end

/-- Notes by their ids. -/
abbrev NoteMap := Dictionary Container

instance : Inhabited Container := ⟨⟨[], []⟩⟩

instance : Inhabited Document := ⟨⟨[], [], [], [], [], []⟩⟩

namespace NoteKind

def toText : NoteKind → String
  | footnote => "footnote"
  | endnote => "endnote"

end NoteKind

namespace Role

/-- The roles of paragraphs; the other one belongs to field results. -/
def isParagraph (r : Role) : Bool := r != .fieldResult

end Role

namespace Container

def empty : Container := ⟨[], []⟩

def ofChildren (children : List Node) : Container := ⟨children, []⟩

def push (c : Container) (n : Node) : Container := { c with children := c.children ++ [n] }

def addLabel (c : Container) (label : String) : Container := { c with labels := c.labels ++ [label] }

end Container

namespace Document

def notes (d : Document) : NoteKind → NoteMap
  | .footnote => d.footnotes
  | .endnote => d.endnotes

/-- The title among the core properties. -/
def title? (d : Document) : Option String := Dictionary.get? "title" d.metadata

end Document

namespace Node

/-- Blocks that are neighbours are separated by a blank line; everything else stands in the line. -/
def isBlock : Node → Bool
  | group role _ => role.isParagraph
  | named _ _ => true
  | document _ => true
  | _ => false

def container? : Node → Option Container
  | group _ c => some c
  | note _ _ c => some c
  | named _ c => some c
  | _ => none

def children : Node → List Node
  | group _ c => c.children
  | note _ _ c => c.children
  | named _ c => c.children
  | reference _ cs => cs
  | document d => d.children
  | _ => []

def labels : Node → List String
  | group _ c => c.labels
  | note _ _ c => c.labels
  | named _ c => c.labels
  | document d => d.labels
  | _ => []

end Node

end WordTex
