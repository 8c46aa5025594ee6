import WordTex.SiblingGroups
import WordTex.StyleNesting

/-! # Documents as LaTeX

Siblings are written group by group: consecutive texts share style commands, and two blocks next to
each other are separated by a blank line. -/
namespace WordTex

/-- What a sibling contributes: text that joins the run around it, or LaTeX of its own. -/
inductive Sibling where
  | run (text : StyledText)
  | block (tex : List Char)
  | inline (tex : List Char)
deriving DecidableEq, Repr

namespace Sibling

def runText? : Sibling → Option StyledText
  | run t => some t
  | _ => none

end Sibling

/-- The LaTeX of one group. -/
def groupTex (options : LatexOptions) : SiblingGroup Sibling → List Char
  | .texts ts => texOfTexts options ts
  | .single (.run t) => texOfTexts options [t]
  | .single (.block tex) => tex
  | .single (.inline tex) => tex

/-- What stands between two neighbouring groups. -/
def separator : SiblingGroup Sibling → SiblingGroup Sibling → List Char
  | .single (.block _), .single (.block _) => ['\n', '\n']
  | _, _ => []

/-- Groups one after the other with their separators. -/
def joinGroups (options : LatexOptions) : List (SiblingGroup Sibling) → List Char
  | [] => []
  | [g] => groupTex options g
  | g :: h :: groups => groupTex options g ++ separator g h ++ joinGroups options (h :: groups)

def joinSiblings (options : LatexOptions) (siblings : List Sibling) : List Char :=
  joinGroups options (SiblingGroup.ofList Sibling.runText? siblings)

/-- The bookmarks as labels, if they are wanted. -/
def labelsTex (options : LatexOptions) (labels : List String) : List Char :=
  if options.includeLabels then
    labels.flatMap fun l => "\\label\x7b".toList ++ (labelKey l).toList ++ ['\x7d']
  else []

/-- A command around a body. -/
def commandTex (name : String) (body : List Char) : List Char :=
  '\\' :: name.toList ++ '\x7b' :: body ++ ['\x7d']

/-- A container's body and labels in the form of its role. -/
def roleTex (role : Role) (body labels : List Char) : List Char :=
  match role with
  | .plain | .fieldResult => body ++ labels
  | .heading1 => commandTex "section" body ++ labels
  | .heading2 => commandTex "subsection" body ++ labels
  | .heading3 => commandTex "subsubsection" body ++ labels
  | .numberedExample =>
    "\\begin\x7bexe\x7d\n  \\ex ".toList ++ body ++ labels ++ "\n\\end\x7bexe\x7d".toList

/-- The notice for a note that does not exist. -/
def missingNoteTex (kind : NoteKind) (id : String) : List Char :=
  "\\textbf\x7b[missing ".toList ++ kind.toText.toList ++ ' ' :: (labelKey id).toList ++
    "]\x7d".toList

mutual

def Node.tex (options : LatexOptions) : Node → List Char
  | .text t => if t.isLineBreak then t.data.toList else texOfTexts options [t]
  | .group role ⟨children, labels⟩ =>
    roleTex role (joinSiblings options (siblings options children)) (labelsTex options labels)
  | .note kind _ ⟨children, labels⟩ =>
    commandTex kind.toText
      (trimLeft (joinSiblings options (siblings options children) ++ labelsTex options labels))
  | .reference code _ => commandTex options.referenceCommand (labelKey code).toList
  | .named name ⟨children, labels⟩ =>
    commandTex name (joinSiblings options (siblings options children)) ++ labelsTex options labels
  | .unresolved kind id => missingNoteTex kind id
  | .document ⟨children, labels, _, _, _, _⟩ =>
    joinSiblings options (siblings options children) ++ labelsTex options labels

/-- What each node of a list contributes. -/
def siblings (options : LatexOptions) : List Node → List Sibling
  | [] => []
  | n :: ns =>
    (match n.runText? with
      | some t => .run t
      | none => if n.isBlock then .block (n.tex options) else .inline (n.tex options)) ::
        siblings options ns

end

/-- The LaTeX of sibling nodes. -/
def nodesTex (options : LatexOptions) (nodes : List Node) : List Char :=
  joinSiblings options (siblings options nodes)

def Document.tex (options : LatexOptions) (d : Document) : List Char :=
  nodesTex options d.children ++ labelsTex options d.labels

namespace Node

def toLatex (options : LatexOptions) (n : Node) : String := .ofList (n.tex options)

end Node

namespace Document

def toLatex (options : LatexOptions) (d : Document) : String := .ofList (d.tex options)

end Document

/-- A list of texts as LaTeX. -/
def textsToLatex (options : LatexOptions) (texts : List StyledText) : String :=
  .ofList (texOfTexts options texts)

end WordTex
