import WordTex.StyleNesting
import Mathlib.Data.List.Nodup
import Mathlib.Data.Nat.Basic
import Mathlib.Order.Basic

/-! # Lists of style commands that are trees

Commands name their children by position, and writing follows the positions. When a child always stands
behind its command and every command but the first is a child at one place, writing ends, meets no
position outside of the list, and comes to each place once. -/
namespace WordTex

/-- The child at a place, which is the position of a command and the number of one of its children. -/
def pieceAt? (nodes : List CommandNode) (place : Nat × Nat) : Option Piece :=
  nodes[place.1]?.bind fun n => n.children[place.2]?

/-- The command at a place. -/
def commandAt? (nodes : List CommandNode) (place : Nat × Nat) : Option Nat :=
  match pieceAt? nodes place with
  | some (.command child) => some child
  | _ => none

/-- The commands are a tree with the first of them as its root. -/
structure IsCommandTree (nodes : List CommandNode) : Prop where
  root : 0 < nodes.length
  child : ∀ place child, pieceAt? nodes place = some (.command child) →
    place.1 < child ∧ child < nodes.length
  parent : ∀ child, 0 < child → child < nodes.length →
    ∃! place, pieceAt? nodes place = some (.command child)

/-- The commands on the way from the root to a position, with their flags. -/
inductive PathTo (nodes : List CommandNode) : Nat → List (Nat × Style) → Prop
  | root {node : CommandNode} : nodes[0]? = some node → PathTo nodes 0 [(0, node.flag)]
  | child {place : Nat × Nat} {path : List (Nat × Style)} {child : Nat} {node : CommandNode} :
      PathTo nodes place.1 path → pieceAt? nodes place = some (.command child) →
      nodes[child]? = some node → PathTo nodes child (path ++ [(child, node.flag)])

/-- Writing the children of a command from one of them on, which comes to these places and gives this
text. No position is checked before it is followed: only a command that is there can be written. -/
inductive WritesFrom (escape : List Char → List Char) (nodes : List CommandNode) :
    Nat → Nat → List (Nat × Nat) → List Char → Prop
  | done {index k : Nat} {node : CommandNode} :
      nodes[index]? = some node → node.children[k]? = none → WritesFrom escape nodes index k [] []
  | text {index k : Nat} {raw : List Char} {places : List (Nat × Nat)} {tex : List Char} :
      pieceAt? nodes (index, k) = some (.text raw) →
      WritesFrom escape nodes index (k + 1) places tex →
      WritesFrom escape nodes index k ((index, k) :: places) (escape raw ++ tex)
  | command {index k child : Nat} {node : CommandNode} {inner places : List (Nat × Nat)}
      {body tex : List Char} :
      pieceAt? nodes (index, k) = some (.command child) → nodes[child]? = some node →
      WritesFrom escape nodes child 0 inner body → WritesFrom escape nodes index (k + 1) places tex →
      WritesFrom escape nodes index k ((index, k) :: (inner ++ places))
        (inCommand node.flag.command? body ++ tex)

/-- Writing a whole command. -/
def WritesCommand (escape : List Char → List Char) (nodes : List CommandNode) (index : Nat)
    (places : List (Nat × Nat)) (tex : List Char) : Prop :=
  ∃ node body, nodes[index]? = some node ∧ WritesFrom escape nodes index 0 places body ∧
    tex = inCommand node.flag.command? body

variable {escape : List Char → List Char} {nodes : List CommandNode} {index k : Nat}
  {place : Nat × Nat} {places : List (Nat × Nat)} {tex : List Char}

theorem pieceAt?_of_getElem? {node : CommandNode} (h : nodes[index]? = some node) (k : Nat) :
    pieceAt? nodes (index, k) = node.children[k]? := by
  simp [pieceAt?, h]

theorem lt_length_of_pieceAt? {p : Piece} (h : pieceAt? nodes place = some p) :
    place.1 < nodes.length := by
  obtain ⟨node, hnode, -⟩ := Option.bind_eq_some_iff.mp h
  exact (List.getElem?_eq_some_iff.mp hnode).1

theorem commandAt?_eq_some_iff {child : Nat} :
    commandAt? nodes place = some child ↔ pieceAt? nodes place = some (.command child) := by
  rw [commandAt?]
  split <;> simp_all

theorem PathTo.lt_length {path : List (Nat × Style)} (h : PathTo nodes index path) :
    index < nodes.length := by
  cases h with
  | root hnode => exact (List.getElem?_eq_some_iff.mp hnode).1
  | child _ _ hnode => exact (List.getElem?_eq_some_iff.mp hnode).1

/-- One path leads from the root to each command. -/
theorem IsCommandTree.existsUnique_path (h : IsCommandTree nodes) (hindex : index < nodes.length) :
    ∃! path, PathTo nodes index path := by
  induction index using Nat.strongRecOn with
  | ind index ih =>
    have hnode := List.getElem?_eq_getElem hindex
    rcases Nat.eq_zero_or_pos index with rfl | hpos
    · refine ⟨_, .root hnode, fun path hpath => ?_⟩
      cases hpath with
      | root hnode' =>
        obtain rfl := Option.some.inj (hnode.symm.trans hnode')
        rfl
      | child _ hpiece _ => exact absurd (h.child _ _ hpiece).1 (Nat.not_lt_zero _)
    · obtain ⟨place, hpiece, hunique⟩ := h.parent index hpos hindex
      have hlt := (h.child _ _ hpiece).1
      obtain ⟨path, hpath, hpaths⟩ := ih place.1 hlt (hlt.trans hindex)
      refine ⟨_, .child hpath hpiece hnode, fun path' hpath' => ?_⟩
      cases hpath' with
      | root => exact absurd hpos (Nat.lt_irrefl 0)
      | child hpath' hpiece' hnode' =>
        obtain rfl := hunique _ hpiece'
        obtain rfl := hpaths _ hpath'
        obtain rfl := Option.some.inj (hnode.symm.trans hnode')
        rfl

/-- What a child writes. -/
def texOfPiece (escape : List Char → List Char) (nodes : List CommandNode) : Piece → List Char
  | .text raw => escape raw
  | .command child => texOfCommand escape nodes child

/-- In a tree the positions of children need no check. -/
theorem IsCommandTree.texOfCommand_eq (h : IsCommandTree nodes) {node : CommandNode}
    (hnode : nodes[index]? = some node) : texOfCommand escape nodes index =
      inCommand node.flag.command? (node.children.flatMap (texOfPiece escape nodes)) := by
  rw [texOfCommand, hnode]
  refine congrArg (inCommand node.flag.command?) (List.flatMap_congr fun p hp => ?_)
  cases p with
  | text raw => rfl
  | command child =>
    obtain ⟨k, hk⟩ := List.mem_iff_getElem?.mp hp
    exact dif_pos (h.child (index, k) child ((pieceAt?_of_getElem? hnode k).trans hk))

/-- The children of a command can be written when the commands among them can. -/
theorem exists_writesFrom (escape : List Char → List Char) {node : CommandNode}
    (hnode : nodes[index]? = some node)
    (hchild : ∀ k child, pieceAt? nodes (index, k) = some (.command child) →
      ∃ places, WritesCommand escape nodes child places (texOfCommand escape nodes child)) (k : Nat) :
    ∃ places, WritesFrom escape nodes index k places
      ((node.children.drop k).flatMap (texOfPiece escape nodes)) := by
  generalize hrest : node.children.drop k = rest
  induction rest generalizing k with
  | nil => exact ⟨[], .done hnode (List.getElem?_eq_none (List.drop_eq_nil_iff.mp hrest))⟩
  | cons p rest ih =>
    have hpiece : pieceAt? nodes (index, k) = some p := by
      rw [pieceAt?_of_getElem? hnode, ← List.head?_drop, hrest, List.head?_cons]
    have htail : node.children.drop (k + 1) = rest := by
      rw [← List.tail_drop, hrest, List.tail_cons]
    obtain ⟨places, hplaces⟩ := ih (k + 1) htail
    cases p with
    | text raw => exact ⟨_, .text hpiece hplaces⟩
    | command child =>
      obtain ⟨inner, childNode, body, hget, hbody, htex⟩ := hchild k child hpiece
      refine ⟨(index, k) :: (inner ++ places), ?_⟩
      rw [List.flatMap_cons, texOfPiece, htex]
      exact .command hpiece hget hbody hplaces

/-- Writing a command of a tree ends, and gives the text of the command. -/
theorem IsCommandTree.exists_writesCommand (h : IsCommandTree nodes)
    (escape : List Char → List Char) (hindex : index < nodes.length) :
    ∃ places, WritesCommand escape nodes index places (texOfCommand escape nodes index) := by
  induction index using texOfCommand.induct nodes with
  | case1 index hnone => exact absurd hindex (List.getElem?_eq_none_iff.mp hnone).not_gt
  | case2 index node hnode ih =>
    obtain ⟨places, hplaces⟩ := exists_writesFrom escape hnode (fun k child hpiece =>
      have hbounds := h.child _ _ hpiece
      ih child hbounds hbounds.2) 0
    exact ⟨places, node, _, hnode, hplaces, h.texOfCommand_eq hnode⟩

/-- There is only one way to write. -/
theorem WritesFrom.unique {places' : List (Nat × Nat)} {tex' : List Char}
    (h : WritesFrom escape nodes index k places tex)
    (h' : WritesFrom escape nodes index k places' tex') : places = places' ∧ tex = tex' := by
  induction h generalizing places' tex' with
  | done hnode hnone =>
    have hpiece := (pieceAt?_of_getElem? hnode _).trans hnone
    cases h' with
    | done => exact ⟨rfl, rfl⟩
    | text hpiece' => simp [hpiece] at hpiece'
    | command hpiece' => simp [hpiece] at hpiece'
  | text hpiece _ ih =>
    cases h' with
    | done hnode hnone => simp [pieceAt?_of_getElem? hnode, hnone] at hpiece
    | text hpiece' hrest' =>
      obtain ⟨rfl, rfl⟩ := ih hrest'
      obtain rfl : _ = _ := by simpa [hpiece] using hpiece'
      exact ⟨rfl, rfl⟩
    | command hpiece' => simp [hpiece] at hpiece'
  | command hpiece hnode _ _ ihinner ihrest =>
    cases h' with
    | done hnode hnone => simp [pieceAt?_of_getElem? hnode, hnone] at hpiece
    | text hpiece' => simp [hpiece] at hpiece'
    | command hpiece' hnode' hinner' hrest' =>
      obtain rfl : _ = _ := by simpa [hpiece] using hpiece'
      obtain rfl := Option.some.inj (hnode.symm.trans hnode')
      obtain ⟨rfl, rfl⟩ := ihinner hinner'
      obtain ⟨rfl, rfl⟩ := ihrest hrest'
      exact ⟨rfl, rfl⟩

theorem WritesFrom.of_mem (htree : IsCommandTree nodes) (h : WritesFrom escape nodes index k places tex)
    (hplace : place ∈ places) : index ≤ place.1 ∧ (pieceAt? nodes place).isSome = true := by
  induction h with
  | done => simp at hplace
  | text hpiece _ ih =>
    rcases List.mem_cons.mp hplace with rfl | hplace
    · exact ⟨le_rfl, by simp [hpiece]⟩
    · exact ih hplace
  | command hpiece _ _ _ ihinner ihrest =>
    rcases List.mem_cons.mp hplace with rfl | hplace
    · exact ⟨le_rfl, by simp [hpiece]⟩
    · rcases List.mem_append.mp hplace with hplace | hplace
      · obtain ⟨hle, hsome⟩ := ihinner hplace
        exact ⟨(htree.child _ _ hpiece).1.le.trans hle, hsome⟩
      · exact ihrest hplace

theorem WritesFrom.count_of_lt (htree : IsCommandTree nodes)
    (h : WritesFrom escape nodes index k places tex) (hlt : place.1 < index) :
    places.count place = 0 :=
  List.count_eq_zero.mpr fun hmem => hlt.not_ge (h.of_mem htree hmem).1

/-- The children of the command itself are met once from the given one on. -/
theorem WritesFrom.count_own (htree : IsCommandTree nodes)
    (h : WritesFrom escape nodes index k places tex) {q : Nat}
    (hq : (pieceAt? nodes (index, q)).isSome = true) :
    places.count (index, q) = if k ≤ q then 1 else 0 := by
  induction h with
  | done hnode hnone =>
    obtain ⟨p, hp⟩ := Option.isSome_iff_exists.mp (pieceAt?_of_getElem? hnode q ▸ hq)
    have hlt := (List.getElem?_eq_some_iff.mp hp).1
    have hle := List.getElem?_eq_none_iff.mp hnone
    rw [List.count_nil, if_neg (by omega)]
  | @text index k raw places tex hpiece hrest ih =>
    rw [List.count_cons, ih hq]
    simp only [beq_iff_eq, Prod.mk.injEq, true_and]
    split <;> split <;> split <;> omega
  | @command index k child node inner places body tex hpiece hnode hinner hrest ihinner ihrest =>
    have hzero : inner.count (index, q) = 0 :=
      hinner.count_of_lt htree (htree.child _ _ hpiece).1
    rw [List.count_cons, List.count_append, hzero, ihrest hq]
    simp only [beq_iff_eq, Prod.mk.injEq, true_and]
    split <;> split <;> split <;> omega

/-- The children of a command inside are met as often as the command. -/
theorem WritesFrom.count_child (htree : IsCommandTree nodes)
    (h : WritesFrom escape nodes index k places tex) {inside q : Nat}
    (hplace : pieceAt? nodes place = some (.command inside)) (hne : inside ≠ index)
    (hq : (pieceAt? nodes (inside, q)).isSome = true) :
    places.count (inside, q) = places.count place := by
  induction h with
  | done => simp
  | @text index k raw places tex hpiece hrest ih =>
    have hother : (index, k) ≠ place := by
      rintro rfl
      simp [hpiece] at hplace
    rw [List.count_cons_of_ne (by simp [hne.symm]), List.count_cons_of_ne hother, ih hne]
  | @command index k child node inner places body tex hpiece hnode hinner hrest ihinner ihrest =>
    obtain ⟨hlt, hlength⟩ := htree.child _ _ hpiece
    rw [List.count_cons_of_ne (by simp [hne.symm]), List.count_append, ihrest hne]
    rcases eq_or_ne inside child with rfl | hchild
    · -- the command is met here and nowhere else
      obtain rfl := (htree.parent inside (Nat.zero_lt_of_lt hlt) hlength).unique hplace hpiece
      rw [List.count_cons_self, List.count_append, hinner.count_own htree hq,
        hinner.count_of_lt htree hlt, if_pos (Nat.zero_le q)]
      omega
    · have hother : (index, k) ≠ place := by
        rintro rfl
        exact hchild (by simpa [hpiece] using hplace.symm)
      rw [List.count_cons_of_ne hother, List.count_append, ihinner hchild]

theorem WritesFrom.count_eq_one (htree : IsCommandTree nodes)
    (h : WritesFrom escape nodes 0 0 places tex) (hplace : (pieceAt? nodes place).isSome = true) :
    places.count place = 1 := by
  obtain ⟨index, q⟩ := place
  induction index using Nat.strongRecOn generalizing q with
  | ind index ih =>
    rcases Nat.eq_zero_or_pos index with rfl | hpos
    · rw [h.count_own htree hplace, if_pos (Nat.zero_le q)]
    · obtain ⟨p, hp⟩ := Option.isSome_iff_exists.mp hplace
      obtain ⟨⟨above, k⟩, habove, -⟩ := htree.parent index hpos (lt_length_of_pieceAt? hp)
      rw [h.count_child htree habove hpos.ne' hplace]
      exact ih above (htree.child _ _ habove).1 k (by simp [habove])

/-- Writing a tree comes to each place once. -/
theorem WritesFrom.nodup_places (htree : IsCommandTree nodes)
    (h : WritesFrom escape nodes 0 0 places tex) :
    places.Nodup ∧ ∀ place, place ∈ places ↔ (pieceAt? nodes place).isSome = true := by
  have hmem : ∀ place, place ∈ places ↔ (pieceAt? nodes place).isSome = true := fun place =>
    ⟨fun hplace => (h.of_mem htree hplace).2, fun hplace =>
      List.one_le_count_iff.mp (h.count_eq_one htree hplace).ge⟩
  refine ⟨List.nodup_iff_count_le_one.mpr fun place => ?_, hmem⟩
  by_cases hplace : place ∈ places
  · exact (h.count_eq_one htree ((hmem place).mp hplace)).le
  · exact (List.count_eq_zero.mpr hplace).trans_le (Nat.zero_le 1)

/-- With the root, the commands at these places are all there are, each of them once. -/
theorem IsCommandTree.perm_range (h : IsCommandTree nodes) (hnodup : places.Nodup)
    (hmem : ∀ place, place ∈ places ↔ (pieceAt? nodes place).isSome = true) :
    (0 :: places.filterMap (commandAt? nodes)).Perm (List.range nodes.length) := by
  have hcommands : ∀ child, child ∈ places.filterMap (commandAt? nodes) ↔
      0 < child ∧ child < nodes.length := by
    intro child
    simp only [List.mem_filterMap, commandAt?_eq_some_iff]
    constructor
    · rintro ⟨place, -, hpiece⟩
      obtain ⟨hlt, hlength⟩ := h.child _ _ hpiece
      exact ⟨Nat.zero_lt_of_lt hlt, hlength⟩
    · rintro ⟨hpos, hlength⟩
      obtain ⟨place, hpiece, -⟩ := h.parent child hpos hlength
      exact ⟨place, (hmem place).mpr (by simp [hpiece]), hpiece⟩
  have honce : (places.filterMap (commandAt? nodes)).Nodup := by
    refine hnodup.filterMap fun place place' child hplace hplace' => ?_
    rw [Option.mem_def, commandAt?_eq_some_iff] at hplace hplace'
    obtain ⟨hlt, hlength⟩ := h.child _ _ hplace
    exact (h.parent child (Nat.zero_lt_of_lt hlt) hlength).unique hplace hplace'
  refine (List.perm_ext_iff_of_nodup (List.nodup_cons.mpr ⟨fun hzero => ?_, honce⟩)
    List.nodup_range).mpr fun index => ?_
  · exact absurd ((hcommands 0).mp hzero).1 (Nat.lt_irrefl 0)
  · have hroot := h.root
    rw [List.mem_cons, hcommands, List.mem_range]
    omega

end WordTex
