import WordTex.Proofs.CommandTrees
import WordTex.Proofs.StyleFlags
import Mathlib.Data.List.Infix

/-! # The tree of commands while a layout grows

A layout adds children to the innermost open command, and a new command stands behind all others, so that
its commands are a tree at any time. The paths in it never change: which styles a command adds up to is
settled when it is opened, whatever is closed and opened later. -/
namespace WordTex

/-- The commands keep their flags and children, and may get more children behind these. -/
def Grows (nodes nodes' : List CommandNode) : Prop :=
  ∀ (index : Nat) (node : CommandNode), nodes[index]? = some node → ∃ node',
    nodes'[index]? = some node' ∧ node'.flag = node.flag ∧ node.children <+: node'.children

/-- The styles of an open command are the flags on the path to it. -/
def AddsUp (nodes : List CommandNode) (entry : Style × Nat) : Prop :=
  ∃ path, PathTo nodes entry.2 path ∧ entry.1 = Style.unionAll (path.map Prod.snd)

section

variable {nodes nodes' nodes'' : List CommandNode} {index : Nat}

theorem Grows.refl (nodes : List CommandNode) : Grows nodes nodes :=
  fun _ node h => ⟨node, h, rfl, List.prefix_rfl⟩

theorem Grows.trans (h : Grows nodes nodes') (h' : Grows nodes' nodes'') : Grows nodes nodes'' := by
  intro index node hnode
  obtain ⟨node', hnode', hflag, hchildren⟩ := h index node hnode
  obtain ⟨node'', hnode'', hflag', hchildren'⟩ := h' index node' hnode'
  exact ⟨node'', hnode'', hflag'.trans hflag, hchildren.trans hchildren'⟩

theorem Grows.pieceAt? (h : Grows nodes nodes') {place : Nat × Nat} {p : Piece}
    (hp : WordTex.pieceAt? nodes place = some p) : WordTex.pieceAt? nodes' place = some p := by
  obtain ⟨node, hnode, hchild⟩ := Option.bind_eq_some_iff.mp hp
  obtain ⟨node', hnode', -, more, hmore⟩ := h place.1 node hnode
  have hlt := (List.getElem?_eq_some_iff.mp hchild).1
  exact Option.bind_eq_some_iff.mpr
    ⟨node', hnode', by rw [← hmore, List.getElem?_append_left hlt, hchild]⟩

theorem PathTo.grows {path : List (Nat × Style)} (hpath : PathTo nodes index path)
    (h : Grows nodes nodes') : PathTo nodes' index path := by
  induction hpath with
  | root hnode =>
    obtain ⟨node', hnode', hflag, -⟩ := h 0 _ hnode
    rw [← hflag]
    exact .root hnode'
  | child _ hpiece hnode ih =>
    obtain ⟨node', hnode', hflag, -⟩ := h _ _ hnode
    rw [← hflag]
    exact .child ih (h.pieceAt? hpiece) hnode'

theorem AddsUp.grows {entry : Style × Nat} (hentry : AddsUp nodes entry) (h : Grows nodes nodes') :
    AddsUp nodes' entry := by
  obtain ⟨path, hpath, hstyles⟩ := hentry
  exact ⟨path, hpath.grows h, hstyles⟩

/-- A command that is opened inside of another adds its flag to the styles of that one. -/
theorem AddsUp.child {entry : Style × Nat} (hentry : AddsUp nodes entry) {k child : Nat}
    {node : CommandNode} (hpiece : pieceAt? nodes (entry.2, k) = some (.command child))
    (hnode : nodes[child]? = some node) : AddsUp nodes (entry.1.union node.flag, child) := by
  obtain ⟨path, hpath, hstyles⟩ := hentry
  refine ⟨_, .child hpath hpiece hnode, ?_⟩
  simp [Style.unionAll, List.foldl_append, hstyles]

theorem AddsUp.lt_length {entry : Style × Nat} (hentry : AddsUp nodes entry) :
    entry.2 < nodes.length := by
  obtain ⟨path, hpath, -⟩ := hentry
  exact hpath.lt_length

theorem grows_modify (nodes : List CommandNode) (index : Nat) (p : Piece) :
    Grows nodes (nodes.modify index (Nesting.addChild p)) := by
  intro i node hnode
  rw [List.getElem?_modify, hnode]
  by_cases hi : index = i
  · exact ⟨Nesting.addChild p node, by simp [hi], rfl, List.prefix_append _ _⟩
  · exact ⟨node, by simp [hi], rfl, List.prefix_rfl⟩

theorem grows_append (nodes more : List CommandNode) : Grows nodes (nodes ++ more) := by
  intro i node hnode
  have hlt := (List.getElem?_eq_some_iff.mp hnode).1
  exact ⟨node, by rw [List.getElem?_append_left hlt, hnode], rfl, List.prefix_rfl⟩

/-- The child that is added is the only one at a place that was free. -/
theorem pieceAt?_modify (hindex : index < nodes.length) (p : Piece) :
    ∃ k, ∀ place q, pieceAt? (nodes.modify index (Nesting.addChild p)) place = some q ↔
      place = (index, k) ∧ q = p ∨ pieceAt? nodes place = some q := by
  have hnode := List.getElem?_eq_getElem hindex
  refine ⟨nodes[index].children.length, fun ⟨i, k⟩ q => ?_⟩
  rw [pieceAt?, pieceAt?, List.getElem?_modify]
  by_cases hi : index = i
  · subst hi
    rw [hnode]
    rcases Nat.lt_trichotomy k nodes[index].children.length with hlt | rfl | hlt
    · simp [Nesting.addChild, List.getElem?_append_left hlt, hlt.ne]
    · simp [Nesting.addChild, eq_comm]
    · have hnone : (nodes[index].children ++ [p])[k]? = none := List.getElem?_eq_none (by simpa)
      simp [Nesting.addChild, hnone, hlt.ne', hlt.le]
  · simp [hi, Ne.symm hi]

/-- A new command has no children. -/
theorem pieceAt?_append_empty (nodes : List CommandNode) (flag : Style) (place : Nat × Nat) :
    pieceAt? (nodes ++ [⟨flag, []⟩]) place = pieceAt? nodes place := by
  rw [pieceAt?, pieceAt?]
  rcases Nat.lt_trichotomy place.1 nodes.length with hlt | heq | hlt
  · rw [List.getElem?_append_left hlt]
  · simp [heq]
  · rw [List.getElem?_eq_none (by simpa using Nat.succ_le_of_lt hlt), List.getElem?_eq_none hlt.le]

theorem IsCommandTree.addText (h : IsCommandTree nodes) (hindex : index < nodes.length)
    (raw : List Char) : IsCommandTree (nodes.modify index (Nesting.addChild (.text raw))) := by
  obtain ⟨k, hk⟩ := pieceAt?_modify hindex (.text raw)
  have hsame : ∀ place child, pieceAt? (nodes.modify index (Nesting.addChild (.text raw))) place =
      some (.command child) ↔ pieceAt? nodes place = some (.command child) := by
    simp [hk]
  refine ⟨by simpa using h.root, fun place child => ?_, fun child => ?_⟩
  · rw [hsame, List.length_modify]
    exact h.child place child
  · simp only [hsame, List.length_modify]
    exact h.parent child

theorem IsCommandTree.addCommand (h : IsCommandTree nodes) (hindex : index < nodes.length)
    (flag : Style) : IsCommandTree
      (nodes.modify index (Nesting.addChild (.command nodes.length)) ++ [⟨flag, []⟩]) := by
  obtain ⟨k, hk⟩ := pieceAt?_modify hindex (.command nodes.length)
  have hplaces : ∀ place child, pieceAt?
      (nodes.modify index (Nesting.addChild (.command nodes.length)) ++ [⟨flag, []⟩]) place =
        some (.command child) ↔
      place = (index, k) ∧ child = nodes.length ∨ pieceAt? nodes place = some (.command child) := by
    simp [pieceAt?_append_empty, hk]
  refine ⟨by simp, fun place child hplace => ?_, fun child hpos hlength => ?_⟩
  · rw [List.length_append, List.length_modify, List.length_singleton]
    rcases (hplaces place child).mp hplace with ⟨rfl, rfl⟩ | hplace
    · exact ⟨hindex, Nat.lt_succ_self _⟩
    · obtain ⟨hlt, hlength⟩ := h.child place child hplace
      exact ⟨hlt, Nat.lt_succ_of_lt hlength⟩
  · rw [List.length_append, List.length_modify, List.length_singleton] at hlength
    rcases Nat.lt_succ_iff_lt_or_eq.mp hlength with hold | rfl
    · -- a command that was there has its old place only
      obtain ⟨place, hplace, hunique⟩ := h.parent child hpos hold
      refine ⟨place, (hplaces place child).mpr (.inr hplace), fun place' hplace' => ?_⟩
      rcases (hplaces place' child).mp hplace' with ⟨-, hnew⟩ | hplace'
      · exact absurd hnew hold.ne
      · exact hunique place' hplace'
    · -- no old place can hold the new command
      refine ⟨(index, k), (hplaces _ _).mpr (.inl ⟨rfl, rfl⟩), fun place' hplace' => ?_⟩
      rcases (hplaces place' _).mp hplace' with ⟨hplace', -⟩ | hplace'
      · exact hplace'
      · exact absurd (h.child place' _ hplace').2 (Nat.lt_irrefl _)

end

namespace Nesting

variable {s s' s'' : Nesting}

/-- Its commands are a tree, in which the open ones have the styles that are on the stack. -/
structure IsSound (s : Nesting) : Prop where
  tree : IsCommandTree s.nodes
  stack : ∀ entry ∈ s.stack, AddsUp s.nodes entry

/-- A layout is sound and has grown out of another. -/
structure GrowsTo (s s' : Nesting) : Prop where
  sound : s'.IsSound
  grows : Grows s.nodes s'.nodes

theorem IsSound.growsTo (h : s.IsSound) : s.GrowsTo s := ⟨h, .refl s.nodes⟩

theorem GrowsTo.trans (h : s.GrowsTo s') (h' : s'.GrowsTo s'') : s.GrowsTo s'' :=
  ⟨h'.sound, h.grows.trans h'.grows⟩

/-- What each step keeps, a run keeps. -/
theorem IsSound.foldl {α : Type} {step : Nesting → α → Nesting}
    (hstep : ∀ (s : Nesting) (a : α), s.IsSound → s.GrowsTo (step s a)) (h : s.IsSound) (as : List α) :
    s.GrowsTo (as.foldl step s) := by
  induction as generalizing s with
  | nil => exact h.growsTo
  | cons a as ih => exact (hstep s a h).trans (ih (hstep s a h).sound)

theorem IsSound.start : Nesting.start.IsSound := by
  have hnone : ∀ place, pieceAt? Nesting.start.nodes place = none := by
    rintro ⟨i, k⟩
    cases i <;> simp [pieceAt?, Nesting.start]
  refine ⟨⟨Nat.zero_lt_one, fun place child h => ?_, fun child hpos hlt => ?_⟩, fun entry hentry => ?_⟩
  · simp [hnone] at h
  · exact absurd hpos (Nat.lt_one_iff.mp hlt ▸ Nat.lt_irrefl 0)
  · obtain rfl := List.mem_singleton.mp hentry
    exact ⟨_, .root rfl, rfl⟩

theorem IsSound.addText (h : s.IsSound) (raw : List Char) : s.GrowsTo (s.add (.text raw)) := by
  cases hstack : s.stack with
  | nil =>
    have hadd : s.add (.text raw) = s := by simp [add, hstack]
    rw [hadd]
    exact h.growsTo
  | cons entry outer =>
    have hadd : s.add (.text raw) =
        { s with nodes := s.nodes.modify entry.2 (addChild (.text raw)) } := by
      simp [add, hstack]
    have hgrows := grows_modify s.nodes entry.2 (.text raw)
    have hentry := h.stack entry (hstack ▸ List.mem_cons_self)
    rw [hadd]
    exact ⟨⟨h.tree.addText hentry.lt_length raw, fun e he => (h.stack e he).grows hgrows⟩, hgrows⟩

theorem IsSound.openFlag (h : s.IsSound) (flag : Style) : s.GrowsTo (s.openFlag flag) := by
  cases hstack : s.stack with
  | nil =>
    have hopen : s.openFlag flag = s := by simp [Nesting.openFlag, hstack]
    rw [hopen]
    exact h.growsTo
  | cons entry outer =>
    have hopen : s.openFlag flag =
        ⟨s.nodes.modify entry.2 (addChild (.command s.nodes.length)) ++ [⟨flag, []⟩],
          (entry.1.union flag, s.nodes.length) :: s.stack, s.waiting⟩ := by
      simp [Nesting.openFlag, add, hstack]
    have hgrows : Grows s.nodes
        (s.nodes.modify entry.2 (addChild (.command s.nodes.length)) ++ [⟨flag, []⟩]) :=
      (grows_modify _ _ _).trans (grows_append _ _)
    have hentry := h.stack entry (hstack ▸ List.mem_cons_self)
    obtain ⟨k, hk⟩ := pieceAt?_modify hentry.lt_length (.command s.nodes.length)
    have hnew : pieceAt?
        (s.nodes.modify entry.2 (addChild (.command s.nodes.length)) ++ [⟨flag, []⟩]) (entry.2, k) =
          some (.command s.nodes.length) := by
      rw [pieceAt?_append_empty]
      exact (hk _ _).mpr (.inl ⟨rfl, rfl⟩)
    have hnode : (s.nodes.modify entry.2 (addChild (.command s.nodes.length)) ++
        [⟨flag, []⟩])[s.nodes.length]? = some ⟨flag, []⟩ := by
      simp
    rw [hopen]
    refine ⟨⟨h.tree.addCommand hentry.lt_length flag, fun e he => ?_⟩, hgrows⟩
    rcases List.mem_cons.mp he with rfl | he
    · exact (hentry.grows hgrows).child hnew hnode
    · exact (h.stack e he).grows hgrows

theorem IsSound.closeTo (h : s.IsSound) (styles : Style) : s.GrowsTo (s.closeTo styles) :=
  ⟨⟨h.tree, fun e he => h.stack e ((List.dropWhile_sublist _).mem he)⟩, .refl s.nodes⟩

theorem IsSound.placeWaiting (h : s.IsSound) : s.GrowsTo s.placeWaiting := by
  rw [Nesting.placeWaiting]
  split
  · exact h.growsTo
  · obtain ⟨hsound, hgrows⟩ := h.addText s.waiting
    exact ⟨⟨hsound.tree, hsound.stack⟩, hgrows⟩

theorem IsSound.place (h : s.IsSound) (span : Span) : s.GrowsTo (s.place span) := by
  cases span with
  | blank t => exact ⟨⟨h.tree, h.stack⟩, .refl s.nodes⟩
  | core t styles =>
    have hclosed := h.closeTo styles
    have hplaced := hclosed.trans hclosed.sound.placeWaiting
    have hopened := hplaced.trans (hplaced.sound.foldl (fun _ flag h => h.openFlag flag)
      (styles.difference (s.closeTo styles).placeWaiting.current).flags)
    exact hopened.trans (hopened.sound.addText t)

/-- The layout after some of the spans is sound, and the whole layout grows out of it. -/
theorem growsTo_ofTexts {texts : List StyledText} {spans : List Span}
    (h : spans <+: texts.flatMap StyledText.spans) :
    (spans.foldl Nesting.place Nesting.start).IsSound ∧
      (spans.foldl Nesting.place Nesting.start).GrowsTo (ofTexts texts) := by
  obtain ⟨rest, hrest⟩ := h
  have hbefore := IsSound.start.foldl (fun _ span h => h.place span) spans
  have hafter := hbefore.sound.foldl (fun _ span h => h.place span) rest
  rw [ofTexts, ← hrest, List.foldl_append]
  exact ⟨hbefore.sound, hafter.trans hafter.sound.placeWaiting⟩

end Nesting

/-- The commands of a layout are a tree whose root stands first. One path leads to each of them, and the
styles of a command that is open after some of the spans are the flags on its path. So the commands are
written to the end, in one way, with no position outside of the list; this comes to each child once, and
so to each text and, with the root, to each command. -/
theorem writes_layout_of_texts (options : LatexOptions) (texts : List StyledText) :
    IsCommandTree (Nesting.ofTexts texts).nodes ∧
    (∀ index < (Nesting.ofTexts texts).nodes.length,
      ∃! path, PathTo (Nesting.ofTexts texts).nodes index path) ∧
    (∀ spans, spans <+: texts.flatMap StyledText.spans →
      ∀ entry ∈ (spans.foldl Nesting.place Nesting.start).stack,
        AddsUp (Nesting.ofTexts texts).nodes entry) ∧
    ∃ places,
      (∀ places' tex, WritesCommand (escapeChars options) (Nesting.ofTexts texts).nodes 0 places' tex ↔
        places' = places ∧ tex = texOfTexts options texts) ∧
      places.Nodup ∧
      (∀ place, place ∈ places ↔ (pieceAt? (Nesting.ofTexts texts).nodes place).isSome = true) ∧
      (0 :: places.filterMap (commandAt? (Nesting.ofTexts texts).nodes)).Perm
        (List.range (Nesting.ofTexts texts).nodes.length) := by
  have hsound : (Nesting.ofTexts texts).IsSound := (Nesting.growsTo_ofTexts List.nil_prefix).2.sound
  obtain ⟨places, node, body, hnode, hbody, htex⟩ :=
    hsound.tree.exists_writesCommand (escapeChars options) hsound.tree.root
  obtain ⟨hnodup, hmem⟩ := hbody.nodup_places hsound.tree
  refine ⟨hsound.tree, fun index => hsound.tree.existsUnique_path, fun spans hspans entry hentry => ?_,
    places, fun places' tex => ⟨?_, ?_⟩, hnodup, hmem, hsound.tree.perm_range hnodup hmem⟩
  · obtain ⟨hbefore, hgrows⟩ := Nesting.growsTo_ofTexts hspans
    exact (hbefore.stack entry hentry).grows hgrows.grows
  · rintro ⟨node', body', hnode', hbody', rfl⟩
    obtain rfl := Option.some.inj (hnode.symm.trans hnode')
    obtain ⟨rfl, rfl⟩ := hbody.unique hbody'
    exact ⟨rfl, htex.symm⟩
  · rintro ⟨rfl, rfl⟩
    exact ⟨node, body, hnode, hbody, htex⟩

/-- Emphasis that outlasts the bold type around it is opened a second time, in the root. -/
example : (Nesting.ofTexts [⟨"a", .bold⟩, ⟨"b", .union .bold .italic⟩, ⟨" c", .italic⟩]).nodes =
    [⟨.empty, [.command 1, .text [' '], .command 3]⟩, ⟨.bold, [.text ['a'], .command 2]⟩,
      ⟨.italic, [.text ['b']]⟩, ⟨.italic, [.text ['c']]⟩] := by
  decide +kernel

end WordTex
