import WordTex.XmlTree
import WordTex.XmlMarkup

/-! # Element trees from XML texts

The tree is grown by the markup of the text in order. Neighbouring character data is merged, and
data outside of the root is dropped. -/
namespace WordTex

inductive XmlError where
  | malformed
  /-- The text, of this many bytes, ends inside an element. -/
  | unclosed (bytes : Nat)
  | noRoot
deriving DecidableEq, Repr

namespace XmlError

def message : XmlError → String
  | malformed => "malformed XML"
  | unclosed bytes =>
    "malformed XML at byte " ++ toString bytes ++ ": unclosed element at end of input"
  | noRoot => "document has no root element"

end XmlError

/-- An open element: its start tag, and the contents before it of the element around it. -/
structure OpenElement where
  name : String
  attributes : List (String × String)
  outer : List XmlContent

/-- A tree being grown: the contents of the innermost open element, and the open elements, innermost
first. Contents are kept newest first. -/
structure GrowingTree where
  contents : List XmlContent
  enclosing : List OpenElement

namespace GrowingTree

def start : GrowingTree := ⟨[], []⟩

/-- Character data joins a text that it follows; empty data leaves no trace. -/
def addText (data : List Char) (contents : List XmlContent) : List XmlContent :=
  if data = [] then contents
  else
    match contents with
    | .text t :: rest => .text (t ++ .ofList data) :: rest
    | _ => .text (.ofList data) :: contents

/-- The tree after one more piece of markup; an end tag must name the innermost open element. -/
def grow (tree : GrowingTree) : Markup → Option GrowingTree
  | .text data => some { tree with contents := addText data tree.contents }
  | .startTag name attributes => some ⟨[], ⟨name, attributes, tree.contents⟩ :: tree.enclosing⟩
  | .emptyTag name attributes =>
    some { tree with contents := .element ⟨name, attributes, []⟩ :: tree.contents }
  | .endTag name =>
    match tree.enclosing with
    | [] => none
    | e :: enclosing =>
      if e.name = name then
        some ⟨.element ⟨e.name, e.attributes, tree.contents.reverse⟩ :: e.outer, enclosing⟩
      else none

end GrowingTree

/-- One byte order mark at the start is not part of the text. -/
def withoutByteOrderMark : List Char → List Char
  | c :: cs => if c = '\ufeff' then cs else c :: cs
  | [] => []

/-- The first element of a text outside of any other. -/
def Element.ofXml (xml : String) : Except XmlError Element :=
  let s := withoutByteOrderMark xml.toList
  match (Markup.scan? s).bind (·.foldlM GrowingTree.grow .start) with
  | none => .error .malformed
  | some ⟨contents, []⟩ =>
    match contents.reverse.findSome? XmlContent.element? with
    | some root => .ok root
    | none => .error .noRoot
  | some ⟨_, _ :: _⟩ => .error (.unclosed (String.ofList s).utf8ByteSize)

end WordTex
