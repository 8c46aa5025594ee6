import WordTex.Proofs.RenderedNodes

/-! # Lists of siblings put together

A list of nodes is written group by group, with something between neighbouring groups. What is known
of each group passes to the whole. -/
namespace WordTex

section

variable {α β γ κ : Type}

/-- The items one after the other, with what is between neighbours. -/
def joinWith (write : α → List β) (between : α → α → List β) : List α → List β
  | [] => []
  | [a] => write a
  | a :: b :: rest => write a ++ between a b ++ joinWith write between (b :: rest)

variable (write : α → List β) (between : α → α → List β)

theorem joinWith_append (front : List α) (a b : α) (rest : List α) :
    joinWith write between (front ++ a :: b :: rest) =
      joinWith write between (front ++ [a]) ++ between a b ++ joinWith write between (b :: rest) := by
  induction front with
  | nil => rfl
  | cons c front ih =>
    cases front with
    | nil => simp [joinWith]
    | cons d front =>
      rw [List.cons_append, List.cons_append, joinWith, ← List.cons_append, ih]
      simp [joinWith]

/-- What is between the last item of a list and the first of another. -/
def gapBetween (as bs : List α) : List β :=
  match as.getLast?, bs.head? with
  | some a, some b => between a b
  | _, _ => []

theorem joinWith_append_gap (as bs : List α) : joinWith write between (as ++ bs) =
    joinWith write between as ++ gapBetween between as bs ++ joinWith write between bs := by
  rcases List.eq_nil_or_concat as with rfl | ⟨front, a, rfl⟩
  · simp [gapBetween, joinWith]
  · cases bs with
    | nil => simp [gapBetween, joinWith]
    | cons b rest => simpa [gapBetween] using joinWith_append write between front a b rest

/-- If there is something only between two items with a property, there is something between two
lists only if they meet in such items. -/
theorem gapBetween_ite (p : α → Bool) (separator : List β) (as bs : List α) :
    gapBetween (fun a b => if p a && p b then separator else []) as bs =
      if as.getLast?.any p && bs.head?.any p then separator else [] := by
  rw [gapBetween]
  cases as.getLast? with
  | none => simp
  | some a => cases bs.head? <;> simp

theorem any_getLast?_cons {p : α → Bool} {a : α} (h : p a = false) {as : List α} :
    (a :: as).getLast?.any p = as.getLast?.any p := by
  cases as with
  | nil => simpa using h
  | cons b bs => rw [List.getLast?_cons_cons]

theorem joinWith_map (f : γ → α) (l : List γ) :
    joinWith write between (l.map f) =
      joinWith (fun c => write (f c)) (fun c d => between (f c) (f d)) l := by
  induction l using joinWith.induct with
  | case1 => rfl
  | case2 c => rfl
  | case3 c d rest ih => simpa [joinWith] using ih

/-- A map that respects concatenation may be applied to each item. -/
theorem map_joinWith {f : List β → List γ} (hnil : f [] = []) (happend : ∀ a b, f (a ++ b) = f a ++ f b)
    (l : List α) :
    f (joinWith write between l) =
      joinWith (fun a => f (write a)) (fun a b => f (between a b)) l := by
  induction l using joinWith.induct with
  | case1 => exact hnil
  | case2 a => rfl
  | case3 a b rest ih => rw [joinWith, happend, happend, ih, joinWith]

theorem joinWith_congr {write' : α → List β} {l : List α} (h : ∀ a ∈ l, write a = write' a) :
    joinWith write between l = joinWith write' between l := by
  induction l using joinWith.induct with
  | case1 => rfl
  | case2 a => exact h a List.mem_cons_self
  | case3 a b rest ih =>
    rw [joinWith, h a List.mem_cons_self, ih fun c hc => h c (List.mem_cons_of_mem a hc), joinWith]

theorem joinWith_eq_flatMap {l : List α} (hbetween : ∀ a ∈ l, ∀ b ∈ l, between a b = []) :
    joinWith write between l = l.flatMap write := by
  induction l using joinWith.induct with
  | case1 => rfl
  | case2 a => simp [joinWith]
  | case3 a b rest ih =>
    have hrest := ih fun c hc d hd =>
      hbetween c (List.mem_cons_of_mem a hc) d (List.mem_cons_of_mem a hd)
    rw [joinWith, hbetween a List.mem_cons_self b (by simp), List.append_nil, hrest]
    rfl

/-- A relation between texts and lists that holds of the items and passes to texts put together holds
of the whole, if what is between neighbours has nothing in the list. -/
theorem joinWith_induction {K : List β → List κ → Prop} (hnil : K [] [])
    (happend : ∀ {a b ks ls}, K a ks → K b ls → K (a ++ b) (ks ++ ls))
    (hbetween : ∀ a b, K (between a b) []) {f : α → List κ} {l : List α}
    (hwrite : ∀ a ∈ l, K (write a) (f a)) : K (joinWith write between l) (l.flatMap f) := by
  induction l using joinWith.induct with
  | case1 => exact hnil
  | case2 a => simpa [joinWith] using hwrite a List.mem_cons_self
  | case3 a b rest ih =>
    have hfirst := happend (hwrite a List.mem_cons_self) (hbetween a b)
    rw [List.append_nil] at hfirst
    exact happend hfirst (ih fun c hc => hwrite c (List.mem_cons_of_mem a hc))

end

namespace SiblingGroup

variable {α β κ : Type} {text? : α → Option StyledText} {x : α}

def map (f : α → β) : SiblingGroup α → SiblingGroup β
  | texts ts => texts ts
  | single x => single (f x)

theorem ofList_map (f : β → α) (xs : List β) :
    ofList text? (xs.map f) = (ofList (fun x => text? (f x)) xs).map (map f) := by
  induction xs with
  | nil => rfl
  | cons x xs ih =>
    rw [List.map_cons, ofList, ofList, ih]
    cases text? (f x) with
    | none => rfl
    | some t =>
      rcases ofList (fun x => text? (f x)) xs with _ | ⟨g, groups⟩
      · rfl
      · cases g <;> rfl

theorem ofList_cons_of_none (hx : text? x = none) (xs : List α) :
    ofList text? (x :: xs) = .single x :: ofList text? xs := by
  rw [ofList, hx]

/-- An item that joins no run begins a group, whatever is before it. -/
theorem ofList_append_cons (hx : text? x = none) (ys xs : List α) :
    ofList text? (ys ++ x :: xs) = ofList text? ys ++ .single x :: ofList text? xs := by
  induction ys with
  | nil => exact ofList_cons_of_none hx xs
  | cons y ys ih =>
    rw [List.cons_append, ofList, ofList, ih]
    cases text? y with
    | none => rfl
    | some t =>
      rcases ofList text? ys with _ | ⟨g, groups⟩
      · rfl
      · cases g <;> rfl

theorem ofList_cons_ne_nil (x : α) (xs : List α) : ofList text? (x :: xs) ≠ [] := by
  rw [ofList]
  split <;> simp

/-- Two lists are grouped each by itself, unless a run of texts goes from one into the other. -/
theorem ofList_append {xs ys : List α}
    (h : ∀ x ∈ xs.getLast?, ∀ y ∈ ys.head?, text? x = none ∨ text? y = none) :
    ofList text? (xs ++ ys) = ofList text? xs ++ ofList text? ys := by
  rcases List.eq_nil_or_concat xs with rfl | ⟨front, x, rfl⟩
  · rfl
  · cases ys with
    | nil => simp [ofList]
    | cons y rest =>
      rcases h x (by simp) y (by simp) with hx | hy
      · rw [List.concat_eq_append, List.append_assoc, List.singleton_append, ofList_append_cons hx,
          ofList_append_cons hx, List.append_assoc]
        rfl
      · rw [ofList_append_cons hy, ofList_cons_of_none hy]

/-- The group is a single item, and the item has the property. -/
def any (p : α → Bool) : SiblingGroup α → Bool
  | texts _ => false
  | single x => p x

section

variable {p : α → Bool} (hp : ∀ x, text? x ≠ none → p x = false)

include hp

theorem any_head?_ofList (xs : List α) : (ofList text? xs).head?.any (any p) = xs.head?.any p := by
  cases xs with
  | nil => rfl
  | cons x xs =>
    cases hx : text? x with
    | none =>
      rw [ofList_cons_of_none hx]
      rfl
    | some t =>
      have hnot := hp x (by simp [hx])
      rw [ofList, hx]
      rcases ofList text? xs with _ | ⟨g, groups⟩
      · simp [any, hnot]
      · cases g <;> simp [any, hnot]

/-- An item that joins a run does not have the property, so a run at the end counts for none of its
items. -/
theorem any_getLast?_ofList (xs : List α) :
    (ofList text? xs).getLast?.any (any p) = xs.getLast?.any p := by
  induction xs with
  | nil => rfl
  | cons x xs ih =>
    cases hx : text? x with
    | none =>
      rw [ofList_cons_of_none hx]
      cases xs with
      | nil => rfl
      | cons y ys =>
        obtain ⟨g, groups, hgroups⟩ := List.exists_cons_of_ne_nil (ofList_cons_ne_nil y ys)
        rw [List.getLast?_cons_cons, ← ih, hgroups, List.getLast?_cons_cons]
    | some t =>
      rw [any_getLast?_cons (hp x (by simp [hx])), ← ih, ofList, hx]
      rcases ofList text? xs with _ | ⟨g, groups⟩
      · rfl
      · cases g with
        | texts ts => simp only [any_getLast?_cons (p := any p) (a := texts _) rfl]
        | single y => exact any_getLast?_cons rfl

end

/-- What the items contribute, the texts of a run one by one. -/
def collect (ofText : StyledText → List κ) (ofItem : α → List κ) : SiblingGroup α → List κ
  | texts ts => ts.flatMap ofText
  | single x => ofItem x

/-- The groups contribute what the items do, if a text in a run does as it does by itself. -/
theorem flatMap_collect_ofList {ofText : StyledText → List κ} {ofItem : α → List κ} {xs : List α}
    (h : ∀ x ∈ xs, ∀ t, text? x = some t → ofItem x = ofText t) :
    (ofList text? xs).flatMap (collect ofText ofItem) = xs.flatMap ofItem := by
  induction xs with
  | nil => rfl
  | cons x xs ih =>
    have hrest := ih fun y hy => h y (List.mem_cons_of_mem x hy)
    rw [List.flatMap_cons, ← hrest, ofList]
    cases hx : text? x with
    | none => rfl
    | some t =>
      rw [h x List.mem_cons_self t hx]
      rcases ofList text? xs with _ | ⟨g, groups⟩
      · simp [collect]
      · cases g <;> simp [collect]

/-- What the items contribute that stand by themselves. -/
def contribution (f : α → List κ) : SiblingGroup α → List κ
  | texts _ => []
  | single x => f x

/-- If runs contribute nothing, the groups contribute what the items do. -/
theorem flatMap_ofList {f : α → List κ} {xs : List α} (h : ∀ x ∈ xs, text? x ≠ none → f x = []) :
    (ofList text? xs).flatMap (contribution f) = xs.flatMap f := by
  have hcollect : contribution f = collect (fun _ => []) f := by
    funext g
    cases g <;> simp [contribution, collect]
  rw [hcollect]
  exact flatMap_collect_ofList fun x hx t ht => h x hx (by simp [ht])

end SiblingGroup

/-- A group of nodes as LaTeX. -/
def nodeGroupTex (options : LatexOptions) : SiblingGroup Node → List Char
  | .texts ts => texOfTexts options ts
  | .single n => n.tex options

/-- Two blocks are separated by a blank line. -/
def nodeSeparator : SiblingGroup Node → SiblingGroup Node → List Char
  | .single m, .single n => if m.isBlock && n.isBlock then ['\n', '\n'] else []
  | _, _ => []

section

variable (options : LatexOptions)

theorem joinGroups_eq_joinWith (groups : List (SiblingGroup Sibling)) :
    joinGroups options groups = joinWith (groupTex options) separator groups := by
  induction groups using joinGroups.induct with
  | case1 => rfl
  | case2 g => rfl
  | case3 g h rest ih => rw [joinGroups, ih, joinWith]

theorem Node.runText?_sibling (n : Node) : (n.sibling options).runText? = n.runText? := by
  rw [sibling]
  cases n.runText? with
  | some t => rfl
  | none => cases n.isBlock <;> rfl

theorem Node.groupTex_sibling (n : Node) :
    groupTex options (.single (n.sibling options)) = n.tex options := by
  rw [sibling]
  cases hn : n.runText? with
  | none => cases n.isBlock <;> rfl
  | some t =>
    cases n with
    | text s =>
      rw [runText?] at hn
      split at hn
      · cases hn
      · rename_i hbreak
        obtain rfl := Option.some.inj hn
        rw [tex_text, if_neg hbreak]
        rfl
    | _ => simp [runText?] at hn

theorem Node.runText?_of_isBlock {n : Node} (h : n.isBlock = true) : n.runText? = none := by
  cases n <;> simp_all [isBlock, runText?]

theorem Node.exists_text_of_runText? {n : Node} (h : n.runText? ≠ none) :
    ∃ t, n = .text t ∧ t.isLineBreak = false := by
  cases n with
  | text t =>
    refine ⟨t, rfl, Bool.eq_false_iff.mpr fun hbreak => h ?_⟩
    rw [runText?, if_pos hbreak]
  | _ => simp [runText?] at h

theorem Node.sibling_of_isBlock {n : Node} (h : n.isBlock = true) :
    n.sibling options = .block (n.tex options) := by
  rw [sibling, runText?_of_isBlock h, h]
  rfl

theorem separator_sibling (m n : Node) :
    separator (.single (m.sibling options)) (.single (n.sibling options)) =
      nodeSeparator (.single m) (.single n) := by
  have hinline : ∀ n : Node, n.isBlock = false → ∀ tex, n.sibling options ≠ .block tex := by
    intro n hn tex
    rw [Node.sibling, hn]
    cases n.runText? <;> simp
  rw [nodeSeparator]
  cases hm : m.isBlock with
  | false =>
    rw [separator]
    · simp
    · simp only [SiblingGroup.single.injEq]
      exact fun a b ha _ => hinline m hm a ha
  | true =>
    rw [m.sibling_of_isBlock options hm]
    cases hn : n.isBlock with
    | false =>
      rw [separator]
      · simp
      · simp only [SiblingGroup.single.injEq]
        exact fun a b _ hb => hinline n hn b hb
    | true =>
      rw [n.sibling_of_isBlock options hn]
      rfl

/-- Nodes are written group by group. -/
theorem nodesTex_eq_joinWith (ns : List Node) :
    nodesTex options ns = joinWith (nodeGroupTex options) nodeSeparator (groupNodes ns) := by
  rw [nodesTex, joinSiblings, siblings_eq_map, SiblingGroup.ofList_map, joinGroups_eq_joinWith,
    joinWith_map, groupNodes]
  simp only [Node.runText?_sibling]
  congr 1
  · funext g
    cases g with
    | texts ts => rfl
    | single n => exact n.groupTex_sibling options
  · funext g h
    cases g with
    | texts ts => rfl
    | single m =>
      cases h with
      | texts ts =>
        simp only [SiblingGroup.map]
        cases m.sibling options <;> rfl
      | single n => exact separator_sibling options m n

theorem nodeSeparator_eq (g h : SiblingGroup Node) : nodeSeparator g h =
    if g.any Node.isBlock && h.any Node.isBlock then ['\n', '\n'] else [] := by
  cases g with
  | texts ts => rfl
  | single m =>
    cases h with
    | texts ts => simp [nodeSeparator, SiblingGroup.any]
    | single n => rfl

theorem Node.isBlock_of_runText? {n : Node} (h : n.runText? ≠ none) : n.isBlock = false := by
  cases hblock : n.isBlock with
  | false => rfl
  | true => exact (h (runText?_of_isBlock hblock)).elim

/-- What is written between two lists of nodes: a blank line, if they meet in two blocks. -/
def nodesSeparator (ns ms : List Node) : List Char :=
  if ns.getLast?.any Node.isBlock && ms.head?.any Node.isBlock then ['\n', '\n'] else []

theorem nodesTex_append_of_groupNodes {ns ms : List Node}
    (h : groupNodes (ns ++ ms) = groupNodes ns ++ groupNodes ms) : nodesTex options (ns ++ ms) =
      nodesTex options ns ++ nodesSeparator ns ms ++ nodesTex options ms := by
  have hgap : gapBetween nodeSeparator (groupNodes ns) (groupNodes ms) = nodesSeparator ns ms := by
    rw [funext fun g => funext (nodeSeparator_eq g), gapBetween_ite, groupNodes, groupNodes,
      SiblingGroup.any_getLast?_ofList fun _ => Node.isBlock_of_runText?,
      SiblingGroup.any_head?_ofList fun _ => Node.isBlock_of_runText?, nodesSeparator]
  simp only [nodesTex_eq_joinWith]
  rw [h, joinWith_append_gap, hgap]

/-- Blocks are separated by a blank line, also where lists of them are put together. -/
theorem nodesTex_append_of_isBlock {ns ms : List Node} (hns : ns ≠ []) (hms : ms ≠ [])
    (hns' : ∀ n ∈ ns, n.isBlock = true) (hms' : ∀ n ∈ ms, n.isBlock = true) :
    nodesTex options (ns ++ ms) = nodesTex options ns ++ ['\n', '\n'] ++ nodesTex options ms := by
  obtain ⟨n, front, rfl⟩ : ∃ n front, ns = front ++ [n] :=
    ⟨_, _, (List.dropLast_concat_getLast hns).symm⟩
  obtain ⟨m, ms, rfl⟩ := List.exists_cons_of_ne_nil hms
  have hlast : n.isBlock = true := hns' n (by simp)
  have hfirst : m.isBlock = true := hms' m (by simp)
  have hgroups : groupNodes (front ++ [n] ++ m :: ms) = groupNodes (front ++ [n]) ++ groupNodes (m :: ms) :=
    SiblingGroup.ofList_append (by simp [Node.runText?_of_isBlock hlast])
  rw [nodesTex_append_of_groupNodes options hgroups, nodesSeparator]
  simp [hlast, hfirst]

/-- Two lists of nodes one after the other are written as each of them is, with a blank line in between
if they meet in two blocks. The one exception is a run of texts that goes from the first list into the
second: its texts share commands. -/
theorem nodesTex_append {ns ms : List Node}
    (h : ∀ s t, ns.getLast? = some (.text s) → ms.head? = some (.text t) →
      s.isLineBreak = true ∨ t.isLineBreak = true) :
    nodesTex options (ns ++ ms) =
      nodesTex options ns ++
        (if ns.getLast?.any Node.isBlock && ms.head?.any Node.isBlock then ['\n', '\n'] else []) ++
        nodesTex options ms := by
  refine nodesTex_append_of_groupNodes options (SiblingGroup.ofList_append fun n hn m hm => ?_)
  by_cases hn' : n.runText? = none
  · exact .inl hn'
  · by_cases hm' : m.runText? = none
    · exact .inr hm'
    · obtain ⟨s, rfl, hs⟩ := Node.exists_text_of_runText? hn'
      obtain ⟨t, rfl, ht⟩ := Node.exists_text_of_runText? hm'
      rcases h s t hn hm with hbreak | hbreak
      · cases hs.symm.trans hbreak
      · cases ht.symm.trans hbreak

/-- A line break between two texts in bold, with a paragraph behind them, and another paragraph. -/
theorem nodesTex_append_of_lineBreak :
    let bold (data : String) : Node := .text ⟨data, .bold⟩
    let paragraph (data : String) : Node := .group .plain ⟨[bold data], []⟩
    let ns := [bold "a", bold "\n"]
    let ms := [bold "b", paragraph "c"]
    (∀ s t, ns.getLast? = some (.text s) → ms.head? = some (.text t) →
        s.isLineBreak = true ∨ t.isLineBreak = true) ∧
      nodesTex {} (ns ++ ms) = nodesTex {} ns ++ nodesTex {} ms ∧
      nodesTex {} (ns ++ ms ++ [paragraph "d"]) =
        "\\textbf\x7ba\x7d\n\\textbf\x7bb\x7d\\textbf\x7bc\x7d\n\n\\textbf\x7bd\x7d".toList := by
  intro bold paragraph ns ms
  have hmeet : ∀ s t, ns.getLast? = some (.text s) → ms.head? = some (.text t) →
      s.isLineBreak = true ∨ t.isLineBreak = true := by
    intro s t hs _
    obtain rfl := Node.text.inj (Option.some.inj hs)
    exact .inl rfl
  have happend := nodesTex_append {} hmeet
  refine ⟨hmeet, happend.trans (by simp [ns, ms, bold, Node.isBlock]), ?_⟩
  have hlast : nodesTex {} (ns ++ ms ++ [paragraph "d"]) =
      nodesTex {} (ns ++ ms) ++ _ ++ nodesTex {} [paragraph "d"] := nodesTex_append {} (by simp [paragraph])
  rw [hlast, happend]
  decide +kernel

end

end WordTex
