/-! # Element trees

Names are kept as they are written, with their namespace prefixes. -/
namespace WordTex

mutual

inductive XmlContent where
  | element (element : Element)
  | text (text : String)

/-- An element with its attributes and contents in document order. -/
structure Element where
  name : String
  attributes : List (String × String)
  contents : List XmlContent

end

instance : Inhabited Element := ⟨⟨"", [], []⟩⟩

/-- A name without its namespace prefix: the part after the last colon. -/
def localPart (name : String) : String :=
  .ofList (name.toList.reverse.takeWhile (· ≠ ':')).reverse

namespace XmlContent

def element? : XmlContent → Option Element
  | element e => some e
  | text _ => none

end XmlContent

namespace Element

def localName (e : Element) : String := localPart e.name

/-- The value of the first attribute with this qualified name. -/
def attribute? (e : Element) (name : String) : Option String :=
  (e.attributes.find? (·.1 == name)).map Prod.snd

/-- The elements among the contents. -/
def childElements (e : Element) : List Element := e.contents.filterMap XmlContent.element?

/-- The first child element with this local name. -/
def child? (e : Element) (name : String) : Option Element :=
  e.childElements.find? (·.localName == name)

end Element

mutual

/-- The first descendant with this local name, parents before their children. -/
def Element.descendant? (name : String) : Element → Option Element
  | ⟨_, _, contents⟩ => descendantIn? name contents

def descendantIn? (name : String) : List XmlContent → Option Element
  | [] => none
  | .text _ :: rest => descendantIn? name rest
  | .element e :: rest =>
    if e.localName == name then some e
    else (e.descendant? name).or (descendantIn? name rest)

end

mutual

/-- The text of the element and of all elements inside it. -/
def Element.textContent : Element → String
  | ⟨_, _, contents⟩ => textOfContents contents

def textOfContents : List XmlContent → String
  | [] => ""
  | .text t :: rest => t ++ textOfContents rest
  | .element e :: rest => e.textContent ++ textOfContents rest

end

end WordTex
