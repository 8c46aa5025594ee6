import WordTex.Proofs.StyleTrees
import Mathlib.Data.List.TakeDrop

/-! # The open commands of a layout

While a layout grows, its nodes are those of the open commands, each with its finished children and,
but for the innermost, the next open command as its last child. What is added goes to the innermost,
and a command that closes becomes a finished child of the one around it. -/
namespace WordTex

/-- A command's position and flag, and the styles that it and the commands around it add up to. -/
structure Level where
  index : Nat
  flag : Style
  styles : Style
deriving DecidableEq, Repr

/-- What a command with this flag writes in front of its children. -/
def Style.opening (flag : Style) : List Char :=
  match flag.command? with
  | some name => '\\' :: (name.toList ++ ['\x7b'])
  | none => []

/-- What it writes behind them. -/
def Style.closing (flag : Style) : List Char := if flag.command?.isSome then ['\x7d'] else []

theorem Style.inCommand_command? (flag : Style) (body : List Char) :
    inCommand flag.command? body = flag.opening ++ (body ++ flag.closing) := by
  rw [opening, closing]
  cases flag.command? with
  | none => simp [inCommand]
  | some name => simp [inCommand]

/-- What is written when these levels are closed. -/
def Level.closings (levels : List Level) : List Char := levels.flatMap fun l => l.flag.closing

/-- A command that is not closed yet. -/
structure OpenCommand where
  level : Level
  finished : List StyleTree

namespace OpenCommand

open StyleTree

def tree (c : OpenCommand) : StyleTree := .command c.level.index c.level.flag c.finished

/-- The nodes of open commands, of which the innermost comes first; `last` are its last children. -/
def nodes : List OpenCommand → List Piece → List CommandNode
  | [], _ => []
  | c :: outer, last =>
    nodes outer [.command c.level.index] ++
      ⟨c.level.flag, c.finished.map piece ++ last⟩ :: nodesAll c.finished

def commands : List OpenCommand → List (Nat × Style)
  | [] => []
  | c :: outer => commands outer ++ (c.level.index, c.level.flag) :: commandsAll c.finished

/-- The open commands from the outermost on. -/
def path (levels : List Level) : List (Nat × Style) :=
  levels.reverse.map fun l => (l.index, l.flag)

def leaves : List OpenCommand → List Leaf
  | [] => []
  | c :: outer =>
    leaves outer ++ leavesAll (path ((c :: outer).map level)) c.finished

/-- What is written from the left up to the end of the innermost command, which is not closed. -/
def written (escape : List Char → List Char) : List OpenCommand → List Char
  | [] => []
  | c :: outer => written escape outer ++ (c.level.flag.opening ++ texAll escape c.finished)

def Numbered : List OpenCommand → Prop
  | [] => True
  | c :: outer => Numbered outer ∧ c.level.index = (nodes outer []).length ∧
      NumberedAll (c.level.index + 1) c.finished

/-- Adds a finished child to the innermost command. -/
def push (t : StyleTree) : List OpenCommand → List OpenCommand
  | [] => []
  | c :: outer => { c with finished := c.finished ++ [t] } :: outer

variable {c : OpenCommand} {outer z : List OpenCommand}

theorem length_nodes (z : List OpenCommand) (last last' : List Piece) :
    (nodes z last).length = (nodes z last').length := by
  cases z with
  | nil => rfl
  | cons c outer => simp [nodes]

@[simp] theorem map_level_push (t : StyleTree) (z : List OpenCommand) :
    (push t z).map level = z.map level := by
  cases z <;> rfl

/-- A child at the end of the innermost command may as well be a finished one. -/
theorem nodes_push (t : StyleTree) (z : List OpenCommand) (last : List Piece) (hz : z ≠ []) :
    nodes (push t z) last = nodes z (t.piece :: last) ++ t.nodes := by
  cases z with
  | nil => exact (hz rfl).elim
  | cons c outer => simp [push, nodes, nodesAll]

theorem commands_push (t : StyleTree) (z : List OpenCommand) (hz : z ≠ []) :
    commands (push t z) = commands z ++ t.commands := by
  cases z with
  | nil => exact (hz rfl).elim
  | cons c outer => simp [push, commands, commandsAll]

theorem leaves_push (t : StyleTree) (z : List OpenCommand) (hz : z ≠ []) :
    leaves (push t z) = leaves z ++ t.leaves (path (z.map level)) := by
  cases z with
  | nil => exact (hz rfl).elim
  | cons c outer => simp [push, leaves, leavesAll]

theorem written_push (escape : List Char → List Char) (t : StyleTree) (z : List OpenCommand)
    (hz : z ≠ []) : written escape (push t z) = written escape z ++ t.tex escape := by
  cases z with
  | nil => exact (hz rfl).elim
  | cons c outer => simp [push, written, texAll_eq_flatMap]

theorem numbered_push {t : StyleTree} (h : Numbered z)
    (ht : t.Numbered (nodes z []).length) : Numbered (push t z) := by
  cases z with
  | nil => exact h
  | cons c outer =>
    obtain ⟨houter, hindex, hfinished⟩ := h
    refine ⟨houter, hindex, ?_⟩
    rw [numberedAll_append]
    refine ⟨hfinished, ?_, trivial⟩
    have hlength : (nodes (c :: outer) []).length =
        c.level.index + 1 + (nodesAll c.finished).length := by
      simp only [nodes, List.length_append, List.length_cons, hindex, length_nodes outer _ []]
      omega
    rwa [hlength] at ht

/-- The innermost command becomes a finished child. -/
def close : List OpenCommand → List OpenCommand
  | [] => []
  | c :: outer => push c.tree outer

theorem nodes_close (c : OpenCommand) (houter : outer ≠ []) :
    nodes (close (c :: outer)) [] = nodes (c :: outer) [] := by
  rw [close, nodes_push _ _ _ houter]
  simp [tree, piece, StyleTree.nodes, nodes]

theorem commands_close (c : OpenCommand) (houter : outer ≠ []) :
    commands (close (c :: outer)) = commands (c :: outer) := by
  rw [close, commands_push _ _ houter]
  simp [tree, StyleTree.commands, commands]

theorem leaves_close (c : OpenCommand) (houter : outer ≠ []) :
    leaves (close (c :: outer)) = leaves (c :: outer) := by
  rw [close, leaves_push _ _ houter]
  simp [tree, StyleTree.leaves, leaves, path]

theorem written_close (escape : List Char → List Char) (c : OpenCommand) (houter : outer ≠ []) :
    written escape (close (c :: outer)) = written escape (c :: outer) ++ c.level.flag.closing := by
  rw [close, written_push _ _ _ houter]
  simp [tree, StyleTree.tex, Style.inCommand_command?, written]

theorem numbered_close (h : Numbered (c :: outer)) : Numbered (close (c :: outer)) :=
  numbered_push h.1 ⟨h.2.1, h.2.1 ▸ h.2.2⟩

@[simp] theorem map_level_close (c : OpenCommand) (outer : List OpenCommand) :
    (close (c :: outer)).map level = outer.map level :=
  map_level_push _ _

/-- Any number of open commands can be closed, as long as one is left. -/
theorem exists_close (h : Numbered z) {n : Nat} (hn : n < z.length) :
    ∃ z', Numbered z' ∧ z'.map level = (z.map level).drop n ∧ nodes z' [] = nodes z [] ∧
      leaves z' = leaves z ∧ commands z' = commands z ∧ ∀ escape,
        written escape z' = written escape z ++ Level.closings ((z.map level).take n) := by
  induction n with
  | zero => exact ⟨z, h, rfl, rfl, rfl, rfl, fun escape => by simp [Level.closings]⟩
  | succ n ih =>
    obtain ⟨z', hz', hlevels, hnodes, hleaves, hcommands, hwritten⟩ := ih (by omega)
    have hlength : z'.length = z.length - n := by
      simpa using congrArg List.length hlevels
    match z', hz', hlength with
    | [], _, hlength => simp at hlength; omega
    | [c], _, hlength => simp at hlength; omega
    | c :: d :: outer, hz', _ =>
      have houter : d :: outer ≠ [] := List.cons_ne_nil d outer
      refine ⟨close (c :: d :: outer), numbered_close hz', ?_, (nodes_close c houter).trans hnodes,
        (leaves_close c houter).trans hleaves, (commands_close c houter).trans hcommands, ?_⟩
      · rw [map_level_close, ← List.tail_drop, ← hlevels]
        rfl
      · intro escape
        have hnext : (z.map level)[n]? = some c.level := by
          rw [← List.head?_drop, ← hlevels]
          rfl
        rw [written_close escape c houter, hwritten, List.take_add_one, hnext]
        simp [Level.closings]

/-- A child is added at the position of the innermost command. -/
theorem nodes_modify (h : Numbered (c :: outer)) (last : List Piece) (p : Piece) :
    (nodes (c :: outer) last).modify c.level.index (Nesting.addChild p) =
      nodes (c :: outer) (last ++ [p]) := by
  have hindex : c.level.index = (nodes outer [.command c.level.index]).length :=
    h.2.1.trans (length_nodes outer _ _)
  rw [nodes, List.modify_eq_take_drop, List.take_left' hindex.symm, List.drop_left' hindex.symm]
  simp [nodes, Nesting.addChild]

mutual

theorem length_commands : ∀ t : StyleTree, t.commands.length = t.nodes.length
  | .text _ => rfl
  | .command index flag children => by
    simp [StyleTree.commands, StyleTree.nodes, length_commandsAll children]

theorem length_commandsAll : ∀ ts : List StyleTree,
    (commandsAll ts).length = (nodesAll ts).length
  | [] => rfl
  | t :: ts => by simp [commandsAll, nodesAll, length_commands t, length_commandsAll ts]

end

theorem length_commands_nodes (z : List OpenCommand) :
    (commands z).length = (nodes z []).length := by
  induction z with
  | nil => rfl
  | cons c outer ih => simp [commands, nodes, ih, length_commandsAll, length_nodes outer _ []]

end OpenCommand

/-- The outermost level, which is no command. -/
def Level.root : Level := ⟨0, .empty, .empty⟩

namespace Nesting

/-- The layout has these open levels, the innermost first, and a tree with these leaves and commands
from left to right. -/
def Shows (s : Nesting) (levels : List Level) (leaves : List Leaf) (commands : List (Nat × Style)) :
    Prop :=
  s.stack = levels.map (fun l => (l.styles, l.index)) ∧ levels.getLast? = some .root ∧
    ∃ z, OpenCommand.Numbered z ∧ z.map OpenCommand.level = levels ∧
      s.nodes = OpenCommand.nodes z [] ∧ OpenCommand.leaves z = leaves ∧
      OpenCommand.commands z = commands

/-- With these open levels, leaves and commands, this has been written from the left. -/
def Writes (s : Nesting) (escape : List Char → List Char) (levels : List Level) (leaves : List Leaf)
    (commands : List (Nat × Style)) (tex : List Char) : Prop :=
  s.stack = levels.map (fun l => (l.styles, l.index)) ∧ levels.getLast? = some .root ∧
    ∃ z, OpenCommand.Numbered z ∧ z.map OpenCommand.level = levels ∧
      s.nodes = OpenCommand.nodes z [] ∧ OpenCommand.leaves z = leaves ∧
      OpenCommand.commands z = commands ∧ OpenCommand.written escape z = tex

variable {s : Nesting} {escape : List Char → List Char} {levels : List Level} {leaves : List Leaf}
  {commands : List (Nat × Style)} {tex : List Char}

theorem Shows.exists_writes (h : s.Shows levels leaves commands) (escape : List Char → List Char) :
    ∃ tex, s.Writes escape levels leaves commands tex := by
  obtain ⟨hstack, hroot, z, hz, hlevels, hnodes, hleaves, hcommands⟩ := h
  exact ⟨_, hstack, hroot, z, hz, hlevels, hnodes, hleaves, hcommands, rfl⟩

namespace Writes

theorem shows (h : s.Writes escape levels leaves commands tex) : s.Shows levels leaves commands := by
  obtain ⟨hstack, hroot, z, hz, hlevels, hnodes, hleaves, hcommands, -⟩ := h
  exact ⟨hstack, hroot, z, hz, hlevels, hnodes, hleaves, hcommands⟩

theorem start : start.Writes escape [.root] [] [(0, .empty)] [] :=
  ⟨rfl, rfl, [⟨.root, []⟩], ⟨trivial, rfl, trivial⟩, rfl, rfl, rfl, rfl, rfl⟩

theorem length_commands (h : s.Writes escape levels leaves commands tex) :
    s.nodes.length = commands.length := by
  obtain ⟨-, -, z, -, -, hnodes, -, rfl, -⟩ := h
  rw [hnodes, OpenCommand.length_commands_nodes]

theorem addText (h : s.Writes escape levels leaves commands tex) (raw : List Char) :
    (s.add (.text raw)).Writes escape levels (leaves ++ [⟨raw, OpenCommand.path levels⟩]) commands
      (tex ++ escape raw) := by
  obtain ⟨hstack, hroot, z, hz, rfl, hnodes, rfl, rfl, rfl⟩ := h
  cases z with
  | nil => simp at hroot
  | cons c outer =>
    have hadd : s.add (.text raw) =
        { s with nodes := s.nodes.modify c.level.index (addChild (.text raw)) } := by
      simp [add, hstack]
    refine ⟨by rw [hadd, hstack], hroot, OpenCommand.push (.text raw) (c :: outer),
      OpenCommand.numbered_push hz trivial, OpenCommand.map_level_push _ _, ?_, ?_, ?_, ?_⟩
    · rw [hadd, hnodes, OpenCommand.nodes_modify hz,
        OpenCommand.nodes_push _ _ _ (List.cons_ne_nil c outer)]
      simp [StyleTree.piece, StyleTree.nodes]
    · simp [OpenCommand.leaves_push, StyleTree.leaves]
    · simp [OpenCommand.commands_push, StyleTree.commands]
    · simp [OpenCommand.written_push, StyleTree.tex]

theorem openFlag {l : Level} (h : s.Writes escape (l :: levels) leaves commands tex) (flag : Style) :
    (s.openFlag flag).Writes escape (⟨commands.length, flag, l.styles.union flag⟩ :: l :: levels) leaves
      (commands ++ [(commands.length, flag)]) (tex ++ flag.opening) := by
  have hlength := h.length_commands
  obtain ⟨hstack, hroot, z, hz, hlevels, hnodes, rfl, rfl, rfl⟩ := h
  cases z with
  | nil => simp at hlevels
  | cons c outer =>
    obtain ⟨rfl, rfl⟩ : c.level = l ∧ outer.map OpenCommand.level = levels := by
      simpa using hlevels
    have hopen : s.openFlag flag = ⟨s.nodes.modify c.level.index (addChild (.command s.nodes.length)) ++
        [⟨flag, []⟩], (c.level.styles.union flag, s.nodes.length) :: s.stack, s.waiting⟩ := by
      simp [Nesting.openFlag, add, hstack]
    refine ⟨by simp [hopen, hstack, hlength], by simpa using hroot,
      ⟨⟨s.nodes.length, flag, c.level.styles.union flag⟩, []⟩ :: c :: outer,
      ⟨hz, by rw [hnodes], trivial⟩, by simp [hlength], ?_, ?_, ?_, ?_⟩
    · have hmodify : s.nodes.modify c.level.index (addChild (.command s.nodes.length)) =
          OpenCommand.nodes (c :: outer) [.command s.nodes.length] := by
        rw [hnodes]
        exact OpenCommand.nodes_modify hz [] _
      rw [hopen]
      dsimp only
      rw [hmodify]
      simp [OpenCommand.nodes, StyleTree.nodesAll]
    · simp [OpenCommand.leaves, StyleTree.leavesAll]
    · simp [OpenCommand.commands, StyleTree.commandsAll, hlength]
    · simp [OpenCommand.written, StyleTree.texAll]

theorem drop (h : s.Writes escape levels leaves commands tex) {n : Nat} (hn : n < levels.length) :
    { s with stack := s.stack.drop n }.Writes escape (levels.drop n) leaves commands
      (tex ++ Level.closings (levels.take n)) := by
  obtain ⟨hstack, hroot, z, hz, rfl, hnodes, rfl, rfl, rfl⟩ := h
  obtain ⟨z', hz', hlevels, hnodes', hleaves, hcommands, hwritten⟩ :=
    OpenCommand.exists_close hz (n := n) (by simpa using hn)
  refine ⟨by simp [hstack], ?_, z', hz', hlevels, hnodes.trans hnodes'.symm, hleaves, hcommands,
    hwritten escape⟩
  rw [List.getLast?_drop, if_neg (by omega), hroot]

/-- The tree that the nodes hold, and what it writes when all its commands are closed. -/
theorem tree (h : s.Writes escape levels leaves commands tex) :
    (treeOfCommand s.nodes 0).nodes = s.nodes ∧ (treeOfCommand s.nodes 0).Numbered 0 ∧
      (treeOfCommand s.nodes 0).leaves [] = leaves ∧
      (treeOfCommand s.nodes 0).commands = commands ∧
      (treeOfCommand s.nodes 0).tex escape = tex ++ Level.closings levels := by
  have hne : levels ≠ [] := by
    rintro rfl
    simp [Writes] at h
  have hlast : levels.drop (levels.length - 1) = [.root] := by
    have hroot := h.2.1
    rw [List.getLast?_eq_some_getLast hne] at hroot
    rw [List.drop_length_sub_one hne, Option.some.inj hroot]
  have hclosings : Level.closings levels = Level.closings (levels.take (levels.length - 1)) := by
    have hcut := List.take_append_drop (levels.length - 1) levels
    rw [hlast] at hcut
    conv_lhs => rw [← hcut, Level.closings, List.flatMap_append]
    exact List.append_nil _
  have hclosed := h.drop (n := levels.length - 1)
    (Nat.sub_lt (List.length_pos_iff.mpr hne) Nat.one_pos)
  rw [hlast, ← hclosings] at hclosed
  obtain ⟨-, -, z, hz, hlevels, hnodes, rfl, rfl, hwritten⟩ := hclosed
  obtain ⟨⟨_, finished⟩, rfl, rfl⟩ := List.map_eq_singleton_iff.mp hlevels
  -- one open command is left, which is the root of the tree
  have hnumbered : StyleTree.Numbered 0 (.command 0 .empty finished) := ⟨rfl, hz.2.2⟩
  have htree : s.nodes = (StyleTree.command 0 .empty finished).nodes := by
    simpa [OpenCommand.nodes, StyleTree.nodes, Level.root] using hnodes
  rw [htree, treeOfCommand_nodes hnumbered, ← hwritten]
  refine ⟨rfl, hnumbered, ?_, ?_, ?_⟩
  · simp [StyleTree.leaves, OpenCommand.leaves, OpenCommand.path, Level.root]
  · simp [StyleTree.commands, OpenCommand.commands, Level.root]
  · simp [StyleTree.tex, OpenCommand.written, Level.root, Style.inCommand_command?,
      show Style.empty.closing = [] from rfl]

end Writes

namespace Shows

theorem start : start.Shows [.root] [] [(0, .empty)] := by
  have hwrites : Nesting.start.Writes id [.root] [] [(0, .empty)] [] := Writes.start
  exact hwrites.shows

theorem tree (h : s.Shows levels leaves commands) :
    (treeOfCommand s.nodes 0).nodes = s.nodes ∧ (treeOfCommand s.nodes 0).Numbered 0 ∧
      (treeOfCommand s.nodes 0).leaves [] = leaves ∧
      (treeOfCommand s.nodes 0).commands = commands := by
  obtain ⟨tex, hwrites⟩ := h.exists_writes id
  obtain ⟨hnodes, hnumbered, hleaves, hcommands, -⟩ := hwrites.tree
  exact ⟨hnodes, hnumbered, hleaves, hcommands⟩

end Shows

end Nesting

end WordTex
