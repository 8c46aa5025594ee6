import WordTex.DocumentTree

/-! # Groups of siblings: runs of consecutive texts, and everything else one by one -/
namespace WordTex

inductive SiblingGroup (α : Type) where
  | texts (texts : List StyledText)
  | single (item : α)

namespace SiblingGroup

variable {α : Type}

/-- Joins the consecutive items that `text?` takes for texts. -/
def ofList (text? : α → Option StyledText) : List α → List (SiblingGroup α)
  | [] => []
  | x :: xs =>
    match text? x, ofList text? xs with
    | none, groups => .single x :: groups
    | some t, .texts ts :: groups => .texts (t :: ts) :: groups
    | some t, groups => .texts [t] :: groups

end SiblingGroup

/-- The text of a text node that is not a line break. -/
def Node.runText? : Node → Option StyledText
  | .text t => if t.isLineBreak then none else some t
  | _ => none

def groupNodes (nodes : List Node) : List (SiblingGroup Node) :=
  SiblingGroup.ofList Node.runText? nodes

end WordTex
