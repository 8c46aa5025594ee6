import WordTex.DocumentTree
import WordTex.LatexText

/-! # Walks over the document tree -/
namespace WordTex

mutual

/-- The node and its descendants, parents first. -/
def Node.walk : Node → List Node
  | .text t => [.text t]
  | .group r ⟨children, labels⟩ => .group r ⟨children, labels⟩ :: walkAll children
  | .note k e ⟨children, labels⟩ => .note k e ⟨children, labels⟩ :: walkAll children
  | .reference code children => .reference code children :: walkAll children
  | .named name ⟨children, labels⟩ => .named name ⟨children, labels⟩ :: walkAll children
  | .unresolved k id => [.unresolved k id]
  | .document ⟨children, labels, m, f, e, r⟩ =>
    .document ⟨children, labels, m, f, e, r⟩ :: walkAll children

/-- The nodes of a list and their descendants in order. -/
def walkAll : List Node → List Node
  | [] => []
  | n :: ns => n.walk ++ walkAll ns

end

mutual

/-- The text of the node and its descendants. -/
def Node.plainText : Node → String
  | .text t => t.data
  | .group _ ⟨children, _⟩ => plainTextAll children
  | .note _ _ ⟨children, _⟩ => plainTextAll children
  | .reference _ children => plainTextAll children
  | .named _ ⟨children, _⟩ => plainTextAll children
  | .unresolved _ _ => ""
  | .document ⟨children, _, _, _, _, _⟩ => plainTextAll children

def plainTextAll : List Node → String
  | [] => ""
  | n :: ns => n.plainText ++ plainTextAll ns

end

def Container.plainText (c : Container) : String := plainTextAll c.children

/-- The labels of the container, then those inside it. -/
def Container.allLabels (c : Container) : List String :=
  c.labels ++ (walkAll c.children).flatMap Node.labels

namespace Document

def plainText (d : Document) : String := plainTextAll d.children

/-- The nodes of the body, parents first. -/
def walk (d : Document) : List Node := walkAll d.children

/-- Every label of the body, then those of the footnotes and of the endnotes. -/
def allLabels (d : Document) : List String :=
  d.labels ++ d.walk.flatMap Node.labels ++
    d.footnotes.flatMap (fun n => n.2.allLabels) ++ d.endnotes.flatMap (fun n => n.2.allLabels)

/-- The codes and displayed nodes of the cross-references of the body. -/
def references (d : Document) : List (String × List Node) :=
  d.walk.filterMap fun
    | .reference code children => some (code, children)
    | _ => none

/-- The codes of cross-references that no label of the document has the key of. -/
def danglingReferences (d : Document) : List String :=
  let keys := d.allLabels.map labelKey
  (d.references.map Prod.fst).filter fun code => !keys.contains (labelKey code)

/-- The note is the entry of the document's notes that it names. -/
def sharesEntry (d : Document) : Node → Bool
  | .note kind (some id) _ => (Dictionary.get? id (d.notes kind)).isSome
  | _ => false

end Document

end WordTex
