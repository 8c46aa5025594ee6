import WordTex.StyleNesting
import Mathlib.Data.List.Basic

/-! # The tree that a layout of styled texts holds

The nodes of a layout name their children by position. Read from the first node on they are a tree,
and they stand in the order of a walk over it, parents first. While the tree grows, the open commands
are a path from its root to its last node; each of them has children that are finished, and all but
the innermost have the next open command as one more child at the end. -/
namespace WordTex

/-- Text that is not yet escaped, or a style command with its position in the list of nodes. -/
inductive StyleTree where
  | text (raw : List Char)
  | command (index : Nat) (flag : Style) (children : List StyleTree)

/-- A text in a tree, with the commands around it from the outermost on. -/
structure Leaf where
  raw : List Char
  path : List (Nat × Style)

namespace StyleTree

def piece : StyleTree → Piece
  | text raw => .text raw
  | command index _ _ => .command index

mutual

def tex (escape : List Char → List Char) : StyleTree → List Char
  | text raw => escape raw
  | command _ flag children => inCommand flag.command? (texAll escape children)

def texAll (escape : List Char → List Char) : List StyleTree → List Char
  | [] => []
  | t :: ts => t.tex escape ++ texAll escape ts

end

mutual

/-- The commands as nodes, parents first. -/
def nodes : StyleTree → List CommandNode
  | text _ => []
  | command _ flag children => ⟨flag, children.map piece⟩ :: nodesAll children

def nodesAll : List StyleTree → List CommandNode
  | [] => []
  | t :: ts => t.nodes ++ nodesAll ts

end

mutual

/-- The commands with their flags, parents first. -/
def commands : StyleTree → List (Nat × Style)
  | text _ => []
  | command index flag children => (index, flag) :: commandsAll children

def commandsAll : List StyleTree → List (Nat × Style)
  | [] => []
  | t :: ts => t.commands ++ commandsAll ts

end

mutual

/-- The texts from left to right, for a tree inside of the given commands. -/
def leaves (path : List (Nat × Style)) : StyleTree → List Leaf
  | text raw => [⟨raw, path⟩]
  | command index flag children => leavesAll (path ++ [(index, flag)]) children

def leavesAll (path : List (Nat × Style)) : List StyleTree → List Leaf
  | [] => []
  | t :: ts => t.leaves path ++ leavesAll path ts

end

mutual

/-- The positions are those of a walk that starts at the given one. -/
def Numbered (start : Nat) : StyleTree → Prop
  | text _ => True
  | command index _ children => index = start ∧ NumberedAll (start + 1) children

def NumberedAll (start : Nat) : List StyleTree → Prop
  | [] => True
  | t :: ts => t.Numbered start ∧ NumberedAll (start + t.nodes.length) ts

end

section

variable (ts us : List StyleTree)

theorem texAll_eq_flatMap (escape : List Char → List Char) :
    texAll escape ts = ts.flatMap (tex escape) := by
  induction ts with
  | nil => rfl
  | cons t ts ih => rw [texAll, ih, List.flatMap_cons]

@[simp] theorem nodesAll_append : nodesAll (ts ++ us) = nodesAll ts ++ nodesAll us := by
  induction ts with
  | nil => rfl
  | cons t ts ih => simp [nodesAll, ih]

@[simp] theorem commandsAll_append : commandsAll (ts ++ us) = commandsAll ts ++ commandsAll us := by
  induction ts with
  | nil => rfl
  | cons t ts ih => simp [commandsAll, ih]

@[simp] theorem leavesAll_append (path : List (Nat × Style)) :
    leavesAll path (ts ++ us) = leavesAll path ts ++ leavesAll path us := by
  induction ts with
  | nil => rfl
  | cons t ts ih => simp [leavesAll, ih]

theorem numberedAll_append (start : Nat) : NumberedAll start (ts ++ us) ↔
    NumberedAll start ts ∧ NumberedAll (start + (nodesAll ts).length) us := by
  induction ts generalizing start with
  | nil => simp [NumberedAll, nodesAll]
  | cons t ts ih => simp [NumberedAll, nodesAll, ih, and_assoc, Nat.add_assoc]

end

end StyleTree

/-- The tree of the command at an index. -/
def treeOfCommand (nodes : List CommandNode) (index : Nat) : StyleTree :=
  match nodes[index]? with
  | none => .command index .empty []
  | some node =>
    .command index node.flag <| node.children.map fun
      | .text raw => .text raw
      | .command child =>
        if _h : index < child ∧ child < nodes.length then treeOfCommand nodes child
        else .command child .empty []
termination_by nodes.length - index

/-- The LaTeX of a command is that of its tree. -/
theorem texOfCommand_eq (escape : List Char → List Char) (nodes : List CommandNode) (index : Nat) :
    texOfCommand escape nodes index = (treeOfCommand nodes index).tex escape := by
  have hempty : ∀ i, (StyleTree.command i .empty []).tex escape = [] := by
    intro i
    simp [StyleTree.tex, StyleTree.texAll, inCommand, show Style.empty.command? = none by decide]
  induction index using texOfCommand.induct nodes with
  | case1 index hnone => rw [texOfCommand, treeOfCommand, hnone, hempty]
  | case2 index node hnode ih =>
    rw [texOfCommand, treeOfCommand, hnode]
    simp only [StyleTree.tex, StyleTree.texAll_eq_flatMap, List.flatMap_map]
    congr 1
    refine List.flatMap_congr fun p _ => ?_
    cases p with
    | text raw => simp [StyleTree.tex]
    | command child =>
      dsimp only
      split
      · exact ih child ‹_›
      · exact (hempty child).symm

/-- The tree of a piece of the command at `parent`. -/
def treeOfPiece (nodes : List CommandNode) (parent : Nat) : Piece → StyleTree
  | .text raw => .text raw
  | .command child =>
    if parent < child ∧ child < nodes.length then treeOfCommand nodes child
    else .command child .empty []

theorem treeOfCommand_of_getElem? {nodes : List CommandNode} {index : Nat} {node : CommandNode}
    (h : nodes[index]? = some node) : treeOfCommand nodes index =
      .command index node.flag (node.children.map (treeOfPiece nodes index)) := by
  rw [treeOfCommand, h]
  simp only [StyleTree.command.injEq, true_and]
  refine List.map_congr_left fun p _ => ?_
  cases p with
  | text raw => rfl
  | command child => rfl

mutual

/-- A tree is found again where its nodes stand, after the position of its parent. -/
theorem treeOfPiece_piece (pre post : List CommandNode) (parent : Nat) (hparent : parent < pre.length) :
    ∀ t : StyleTree, t.Numbered pre.length →
      treeOfPiece (pre ++ (t.nodes ++ post)) parent t.piece = t
  | .text raw, _ => rfl
  | .command index flag children, ht => by
    obtain ⟨rfl, hchildren⟩ := ht
    have hget : (pre ++ ((StyleTree.command pre.length flag children).nodes ++ post))[pre.length]? =
        some ⟨flag, children.map StyleTree.piece⟩ := by
      simp [StyleTree.nodes]
    have hlt : pre.length <
        (pre ++ ((StyleTree.command pre.length flag children).nodes ++ post)).length := by
      simp [StyleTree.nodes]
    rw [StyleTree.piece, treeOfPiece, if_pos ⟨hparent, hlt⟩, treeOfCommand_of_getElem? hget]
    have hih := treeOfPiece_pieces (pre ++ [⟨flag, children.map StyleTree.piece⟩]) post
      pre.length (by simp) children (by simpa using hchildren)
    simpa [StyleTree.nodes] using hih

theorem treeOfPiece_pieces (pre post : List CommandNode) (parent : Nat) (hparent : parent < pre.length) :
    ∀ ts : List StyleTree, StyleTree.NumberedAll pre.length ts →
      (ts.map StyleTree.piece).map (treeOfPiece (pre ++ (StyleTree.nodesAll ts ++ post)) parent) = ts
  | [], _ => rfl
  | t :: ts, hts => by
    obtain ⟨ht, hts⟩ := hts
    have hhead := treeOfPiece_piece pre (StyleTree.nodesAll ts ++ post) parent hparent t ht
    have htail := treeOfPiece_pieces (pre ++ t.nodes) post parent (by simp; omega) ts
      (by simpa using hts)
    simp only [StyleTree.nodesAll, List.append_assoc] at htail ⊢
    rw [List.map_cons, List.map_cons, hhead, htail]

end

/-- The nodes of a tree that is numbered from 0 describe the tree. -/
theorem treeOfCommand_nodes {flag : Style} {children : List StyleTree}
    (h : StyleTree.Numbered 0 (.command 0 flag children)) :
    treeOfCommand (StyleTree.command 0 flag children).nodes 0 = .command 0 flag children := by
  have hchildren := treeOfPiece_pieces [⟨flag, children.map StyleTree.piece⟩] [] 0
    (by simp) children h.2
  have hget : (StyleTree.command 0 flag children).nodes[0]? =
      some ⟨flag, children.map StyleTree.piece⟩ := by
    simp [StyleTree.nodes]
  rw [treeOfCommand_of_getElem? hget]
  simpa [StyleTree.nodes] using hchildren

end WordTex
