import WordTex.StyledText
import WordTex.LatexText

/-! # Nested style commands for a list of styled texts

The spans of the texts are laid out in a tree of style commands, one flag each. The tree is kept as
a list of nodes that name their children by position. A command stays open as long as its flag and
those around it are in the style of the next core; white space is placed once it is known which
core follows. -/
namespace WordTex

/-- A child of a style command: another command, by its position, or text not yet escaped. -/
inductive Piece where
  | command (index : Nat)
  | text (raw : List Char)
deriving DecidableEq, Repr

/-- A style command: the flag it sets, which is empty for the root, and its children in order. -/
structure CommandNode where
  flag : Style
  children : List Piece
deriving DecidableEq, Repr

/-- A layout under construction: the nodes, the open commands with the styles they add up to
(innermost first, the root last), and white space waiting for the next core. -/
structure Nesting where
  nodes : List CommandNode
  stack : List (Style × Nat)
  waiting : List Char
deriving DecidableEq, Repr

namespace Nesting

/-- The root alone. -/
def start : Nesting := ⟨[⟨.empty, []⟩], [(.empty, 0)], []⟩

def addChild (p : Piece) (n : CommandNode) : CommandNode := { n with children := n.children ++ [p] }

/-- Adds a child to the innermost open command. -/
def add (s : Nesting) (p : Piece) : Nesting :=
  match s.stack with
  | [] => s
  | (_, index) :: _ => { s with nodes := s.nodes.modify index (addChild p) }

/-- Opens a command for one flag inside the innermost open command. -/
def openFlag (s : Nesting) (flag : Style) : Nesting :=
  match s.stack with
  | [] => s
  | (styles, _) :: _ =>
    let child := s.nodes.length
    let s' := s.add (.command child)
    { s' with nodes := s'.nodes ++ [⟨flag, []⟩], stack := (styles.union flag, child) :: s.stack }

/-- Closes commands until the styles of those still open are all in the given style. -/
def closeTo (s : Nesting) (styles : Style) : Nesting :=
  { s with stack := s.stack.dropWhile fun e => !styles.contains e.1 }

/-- The styles that the open commands add up to. -/
def current (s : Nesting) : Style := (s.stack.head?.map Prod.fst).getD .empty

/-- Puts the waiting white space into the innermost open command. -/
def placeWaiting (s : Nesting) : Nesting :=
  if s.waiting = [] then s else { s.add (.text s.waiting) with waiting := [] }

/-- White space waits. A core closes what it must, takes the white space before it, and opens the
flags it lacks from the lowest bit up. -/
def place (s : Nesting) : Span → Nesting
  | .blank t => { s with waiting := s.waiting ++ t }
  | .core t styles =>
    let s := (s.closeTo styles).placeWaiting
    ((styles.difference s.current).flags.foldl openFlag s).add (.text t)

/-- The layout of a list of texts. White space at the end stays inside the last core's commands. -/
def ofTexts (texts : List StyledText) : Nesting :=
  ((texts.flatMap StyledText.spans).foldl place start).placeWaiting

end Nesting

/-- Encloses a text in a command, if there is one. -/
def inCommand (command : Option String) (body : List Char) : List Char :=
  match command with
  | some name => '\\' :: name.toList ++ '\x7b' :: body ++ ['\x7d']
  | none => body

/-- The text of the command at an index. Children stand after their parent, so this ends. -/
def texOfCommand (escape : List Char → List Char) (nodes : List CommandNode) (index : Nat) :
    List Char :=
  match nodes[index]? with
  | none => []
  | some node =>
    inCommand node.flag.command? <| node.children.flatMap fun
      | .text raw => escape raw
      | .command child =>
        if _h : index < child ∧ child < nodes.length then texOfCommand escape nodes child else []
termination_by nodes.length - index

/-- A list of texts as LaTeX with as few style commands as their order allows. -/
def texOfTexts (options : LatexOptions) (texts : List StyledText) : List Char :=
  texOfCommand (escapeChars options) (Nesting.ofTexts texts).nodes 0

end WordTex
