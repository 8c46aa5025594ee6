import WordTex.Proofs.SiblingJoins
import Mathlib.Data.List.Chain

/-! # Maximal runs of texts

The texts of a list of nodes are joined as far as they go, and every other node stays by itself. There
is one grouping of this kind only, and a pass from the left that changes the last group finds it. -/
namespace WordTex

namespace SiblingGroup

/-- The nodes that a group was made of. -/
def nodes : SiblingGroup Node → List Node
  | texts ts => ts.map .text
  | single n => [n]

def isTexts {α : Type} : SiblingGroup α → Bool
  | texts _ => true
  | single _ => false

end SiblingGroup

/-- The groups are the nodes in their order. Runs are non-empty and hold texts other than line breaks,
nothing else joins a run, and no two runs are neighbours. -/
structure IsGrouping (nodes : List Node) (groups : List (SiblingGroup Node)) : Prop where
  whole : groups.flatMap SiblingGroup.nodes = nodes
  texts : ∀ ts, .texts ts ∈ groups → ts ≠ [] ∧ ∀ t ∈ ts, t.data ≠ "\n"
  single : ∀ n, .single n ∈ groups → ∀ t, n = .text t → t.data = "\n"
  maximal : groups.IsChain fun g h => ¬ (g.isTexts = true ∧ h.isTexts = true)

theorem Node.runText?_eq_none_iff {n : Node} :
    n.runText? = none ↔ ∀ t, n = .text t → t.data = "\n" := by
  cases n with
  | text t => simp [runText?, StyledText.isLineBreak]
  | _ => simp [runText?]

theorem Node.runText?_eq_some_iff {n : Node} {t : StyledText} :
    n.runText? = some t ↔ n = .text t ∧ t.data ≠ "\n" := by
  cases n with
  | text s =>
    by_cases hbreak : s.data = "\n"
    · simp only [runText?, StyledText.isLineBreak, hbreak, beq_self_eq_true, if_true, text.injEq,
        reduceCtorEq, false_iff, not_and, not_not]
      rintro rfl
      exact hbreak
    · simp only [runText?, StyledText.isLineBreak, beq_iff_eq, hbreak, if_false, Option.some.injEq,
        text.injEq, iff_self_and]
      rintro rfl
      exact hbreak
  | _ => simp [runText?]

/-- One more node joins the run at the end, if it can, or begins a group. -/
def addNode (groups : List (SiblingGroup Node)) (n : Node) : List (SiblingGroup Node) :=
  match n.runText?, groups.getLast? with
  | none, _ => groups ++ [.single n]
  | some t, some (.texts ts) => groups.dropLast ++ [.texts (ts ++ [t])]
  | some t, _ => groups ++ [.texts [t]]

namespace IsGrouping

variable {nodes : List Node} {groups : List (SiblingGroup Node)}

theorem nil : IsGrouping [] [] := ⟨rfl, by simp, by simp, List.isChain_nil⟩

/-- One more group, which is no run next to a run. -/
theorem concat (h : IsGrouping nodes groups) {g : SiblingGroup Node}
    (htexts : ∀ ts, g = .texts ts → ts ≠ [] ∧ ∀ t ∈ ts, t.data ≠ "\n")
    (hsingle : ∀ n, g = .single n → ∀ t, n = .text t → t.data = "\n")
    (hlast : ∀ f ∈ groups.getLast?, ¬ (f.isTexts = true ∧ g.isTexts = true)) :
    IsGrouping (nodes ++ g.nodes) (groups ++ [g]) where
  whole := by simp [h.whole]
  texts ts hts := by
    rcases List.mem_append.mp hts with hts | hts
    · exact h.texts ts hts
    · exact htexts ts (List.mem_singleton.mp hts).symm
  single n hn := by
    rcases List.mem_append.mp hn with hn | hn
    · exact h.single n hn
    · exact hsingle n (List.mem_singleton.mp hn).symm
  maximal := by
    refine List.isChain_append.mpr ⟨h.maximal, List.isChain_singleton g, fun f hf g' hg' => ?_⟩
    obtain rfl : g = g' := by simpa using hg'
    exact hlast f hf

/-- What is left of a grouping without its last group. -/
theorem of_concat {g : SiblingGroup Node} (h : IsGrouping nodes (groups ++ [g])) :
    IsGrouping (groups.flatMap SiblingGroup.nodes) groups where
  whole := rfl
  texts ts hts := h.texts ts (List.mem_append_left [g] hts)
  single n hn := h.single n (List.mem_append_left [g] hn)
  maximal := (List.isChain_append.mp h.maximal).1

theorem addNode (h : IsGrouping nodes groups) (n : Node) :
    IsGrouping (nodes ++ [n]) (addNode groups n) := by
  rw [WordTex.addNode]
  split
  case h_1 hn =>
    refine h.concat (g := .single n) (by simp) (fun m hm => ?_) (by simp [SiblingGroup.isTexts])
    obtain rfl := SiblingGroup.single.inj hm
    exact Node.runText?_eq_none_iff.mp hn
  case h_2 t ts ht hlast =>
    obtain ⟨rfl, hdata⟩ := Node.runText?_eq_some_iff.mp ht
    -- the run at the end is taken off and put back with the text at its end
    obtain ⟨front, rfl⟩ := List.getLast?_eq_some_iff.mp hlast
    have hts := h.texts ts (by simp)
    have hgap := (List.isChain_append.mp h.maximal).2.2
    have hmore := h.of_concat.concat (g := .texts (ts ++ [t]))
      (fun us hus => by
        obtain rfl := SiblingGroup.texts.inj hus
        refine ⟨by simp, fun u hu => ?_⟩
        rcases List.mem_append.mp hu with hu | hu
        · exact hts.2 u hu
        · exact List.mem_singleton.mp hu ▸ hdata)
      (by simp) (fun f hf => hgap f hf (.texts ts) (by simp))
    have hwhole := h.whole
    simp only [List.flatMap_append, List.flatMap_singleton, SiblingGroup.nodes] at hwhole
    rw [List.dropLast_concat, ← hwhole]
    simpa [SiblingGroup.nodes] using hmore
  case h_3 t ht hlast =>
    obtain ⟨rfl, hdata⟩ := Node.runText?_eq_some_iff.mp ht
    refine h.concat (g := .texts [t]) (fun us hus => ?_) (by simp) (fun f hf => ?_)
    · obtain rfl := SiblingGroup.texts.inj hus
      exact ⟨by simp, by simpa using hdata⟩
    · cases f with
      | texts ts => exact (hlast ts hf).elim
      | single m => simp [SiblingGroup.isTexts]

theorem foldl_addNode (h : IsGrouping nodes groups) (more : List Node) :
    IsGrouping (nodes ++ more) (more.foldl WordTex.addNode groups) := by
  induction more generalizing nodes groups with
  | nil => simpa using h
  | cons n more ih => simpa using ih (h.addNode n)

end IsGrouping

namespace SiblingGroup

variable {α : Type} {text? : α → Option StyledText} {x : α} {xs : List α} {t : StyledText}

/-- A text in front of a run joins it. -/
theorem ofList_cons_of_texts (hx : text? x = some t) {ts : List StyledText}
    {groups : List (SiblingGroup α)} (hxs : ofList text? xs = .texts ts :: groups) :
    ofList text? (x :: xs) = .texts (t :: ts) :: groups := by
  rw [ofList, hx, hxs]

/-- A text in front of anything else is a run by itself. -/
theorem ofList_cons_of_not_texts (hx : text? x = some t)
    (hxs : ∀ g ∈ (ofList text? xs).head?, g.isTexts = false) :
    ofList text? (x :: xs) = .texts [t] :: ofList text? xs := by
  rw [ofList, hx]
  cases hgroups : ofList text? xs with
  | nil => rfl
  | cons g groups =>
    have hg := hxs g (by simp [hgroups])
    cases g with
    | texts ts => simp [isTexts] at hg
    | single y => rfl

end SiblingGroup

/-- A run at the front goes as far as it can. -/
theorem groupNodes_texts_append {ts : List StyledText} {ns : List Node} (hne : ts ≠ [])
    (hts : ∀ t ∈ ts, t.data ≠ "\n") (hns : ∀ g ∈ (groupNodes ns).head?, g.isTexts = false) :
    groupNodes (ts.map .text ++ ns) = .texts ts :: groupNodes ns := by
  induction ts with
  | nil => exact (hne rfl).elim
  | cons t ts ih =>
    have ht : (Node.text t).runText? = some t :=
      Node.runText?_eq_some_iff.mpr ⟨rfl, hts t List.mem_cons_self⟩
    cases ts with
    | nil => exact SiblingGroup.ofList_cons_of_not_texts ht hns
    | cons u us =>
      have hrest := ih (List.cons_ne_nil u us) fun v hv => hts v (List.mem_cons_of_mem t hv)
      exact SiblingGroup.ofList_cons_of_texts ht hrest

theorem IsGrouping.eq_groupNodes {nodes : List Node} {groups : List (SiblingGroup Node)}
    (h : IsGrouping nodes groups) : groups = groupNodes nodes := by
  induction groups generalizing nodes with
  | nil =>
    obtain rfl : [] = nodes := h.whole
    rfl
  | cons g groups ih =>
    have hrest : IsGrouping (groups.flatMap SiblingGroup.nodes) groups :=
      ⟨rfl, fun ts hts => h.texts ts (List.mem_cons_of_mem g hts),
        fun n hn => h.single n (List.mem_cons_of_mem g hn), h.maximal.tail⟩
    have hgroups := ih hrest
    rw [← h.whole, List.flatMap_cons]
    cases g with
    | texts ts =>
      obtain ⟨hne, hts⟩ := h.texts ts List.mem_cons_self
      rw [SiblingGroup.nodes, groupNodes_texts_append hne hts, ← hgroups]
      intro g hg
      rw [← hgroups] at hg
      have hgap := (List.isChain_cons.mp h.maximal).1 g hg
      simpa [SiblingGroup.isTexts] using hgap
    | single n =>
      have hn : n.runText? = none :=
        Node.runText?_eq_none_iff.mpr (h.single n List.mem_cons_self)
      rw [SiblingGroup.nodes, List.singleton_append, groupNodes, SiblingGroup.ofList_cons_of_none hn]
      exact congrArg (List.cons _) hgroups

/-- The groups are those of a pass over the nodes that puts each into the last group or behind it. -/
theorem groupNodes_eq_foldl (nodes : List Node) : groupNodes nodes = nodes.foldl addNode [] :=
  (IsGrouping.nil.foldl_addNode nodes).eq_groupNodes.symm

/-- Every list of nodes has just one grouping into runs of texts, as long as they can be, and other
nodes one by one. -/
theorem isGrouping_iff (nodes : List Node) (groups : List (SiblingGroup Node)) :
    IsGrouping nodes groups ↔ groups = groupNodes nodes := by
  constructor
  · exact IsGrouping.eq_groupNodes
  · rintro rfl
    rw [groupNodes_eq_foldl]
    exact IsGrouping.nil.foldl_addNode nodes

/-- A line break and a note cut the texts around them apart. -/
example : (groupNodes [.text ⟨"a", .empty⟩, .text ⟨"b", .bold⟩, .text ⟨"\n", .empty⟩,
    .text ⟨"c", .empty⟩, .note .footnote none ⟨[], []⟩]).map SiblingGroup.isTexts =
      [true, false, true, false] := by
  decide

end WordTex
