import WordTex.DocumentReading
import Mathlib.Order.Defs.LinearOrder
import Mathlib.Data.List.Pairwise
import Mathlib.Data.List.Lex

/-! # Paths to field marks

A path leads down a tree from an element to one of its child elements, and so on. The marks that are
read stand in runs, of paragraphs or of their hyperlinks, and are listed here in reading order, which
is the order of their positions. -/
namespace WordTex

open DocumentReading

/-- Steps down a tree: child elements, each with its position among those of its parent. -/
abbrev ElementPath := List (Element × Nat)

namespace ElementPath

/-- The element that the path leads to. -/
def last : Element → ElementPath → Element
  | e, [] => e
  | _, (child, _) :: rest => last child rest

/-- The path written from the root on, with the name of each element and its position from one on. -/
def text (root : Element) (path : ElementPath) : String :=
  "/".intercalate (((root, 0) :: path).map fun p => Reading.step p.1 p.2)

def names (path : ElementPath) : List String := path.map fun p => p.1.localName

end ElementPath

/-- How a mark of a field says what it marks; a mark that does not say has an empty type. -/
def Element.markType (mark : Element) : String := (mark.attribute? "w:fldCharType").getD ""

/-- A field mark by its path from an element around it. -/
structure MarkPlace where
  path : ElementPath
  type : String

namespace MarkPlace

/-- The place as seen from the parent of the element that it was seen from. -/
def below (step : Element × Nat) (m : MarkPlace) : MarkPlace := { m with path := step :: m.path }

end MarkPlace

namespace Element

/-- The marks that are selected in the child elements of a parent. -/
def marksUnder (select : Element → List MarkPlace) (parent : Element) : List MarkPlace :=
  parent.childElements.zipIdx.flatMap fun c => (select c.1).map (.below c)

/-- The marks that are selected in the child elements of an element with this name. -/
def marksUnderNamed (name : String) (select : Element → List MarkPlace) (e : Element) :
    List MarkPlace :=
  if e.localName = name then e.marksUnder select else []

def ownMark (e : Element) : List MarkPlace :=
  if e.localName = "fldChar" then [⟨[], e.markType⟩] else []

def marksOfRun : Element → List MarkPlace := marksUnderNamed "r" ownMark

end Element

section Membership

variable {select : Element → List MarkPlace} {names : List (List String)} {e : Element} {m : MarkPlace}

end Membership

section

variable {root : Element} {m : MarkPlace}

end

section Order

variable {select : Element → List MarkPlace}

end Order

end WordTex
