import WordTex.Dictionary
import WordTex.XmlTree

/-! # Core properties and relationships -/
namespace WordTex

/-- The core properties by their local names. -/
def corePropertiesOf (root : Element) : Dictionary String :=
  Dictionary.ofPairs (root.childElements.map fun e => (e.localName, e.textContent))

/-- A link from a part to another part, or to something outside of the package. -/
structure Relationship where
  id : String
  type : String
  target : String
  isExternal : Bool
deriving DecidableEq, Repr

namespace Relationship

def ofElement? (e : Element) : Option Relationship := do
  let id ← e.attribute? "Id"
  let target ← e.attribute? "Target"
  return ⟨id, (e.attribute? "Type").getD "", target, e.attribute? "TargetMode" == some "External"⟩

/-- The relationships of a part in document order. -/
def ofRoot (root : Element) : List Relationship :=
  (root.childElements.filter (·.localName == "Relationship")).filterMap ofElement?

/-- The targets by the ids of the relationships. -/
def targets (relationships : List Relationship) : Dictionary String :=
  Dictionary.ofPairs (relationships.map fun r => (r.id, r.target))

end Relationship

end WordTex
