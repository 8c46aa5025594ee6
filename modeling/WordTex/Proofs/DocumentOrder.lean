import WordTex.Proofs.Dictionaries
import WordTex.Proofs.DocumentWalks
import WordTex.Proofs.OrderedPlaces

/-! # Document order

A walk lists the nodes at all places of a document tree in the order of the places. Text, labels and
cross-references are collected by recursions of their own, and yet from just these nodes. -/
namespace WordTex

/-- A dictionary that has its keys in order has its values in order. -/
theorem Dictionary.IsSorted.inOrder {α : Type} {d : Dictionary α} (h : d.IsSorted) :
    InOrder (fun k => get? k d) (d.map Prod.snd) := by
  refine ⟨d.keys, h, fun k => mem_keys_iff.trans Option.isSome_iff_exists.symm, ?_⟩
  induction d with
  | nil => rfl
  | cons e d ih =>
    obtain ⟨k, v⟩ := e
    obtain ⟨hfirst, hrest⟩ := List.pairwise_cons.mp h
    have hskip : ∀ k' ∈ keys d, get? k' ((k, v) :: d) = get? k' d :=
      fun k' hk' => if_neg (ne_of_gt (hfirst k' hk'))
    have hkey : get? k ((k, v) :: d) = some v := if_pos rfl
    rw [keys, List.map_cons, List.map_cons, hkey, List.map_cons, List.map_cons]
    exact congrArg (List.cons (some v)) ((List.map_congr_left hskip).trans (ih hrest))

/-- The node at a place below a node, whose own place is the empty one. -/
def Node.descend (n : Node) : List Nat → Option Node
  | [] => some n
  | i :: p => n.children[i]?.bind fun c => c.descend p

/-- The node at a place in a list of nodes. -/
def nodeAt? (ns : List Node) : List Nat → Option Node
  | [] => none
  | i :: p => ns[i]?.bind fun n => n.descend p

theorem inOrder_walkAll {ns : List Node} (h : ∀ n ∈ ns, InOrder n.descend n.walk) :
    InOrder (nodeAt? ns) (walkAll ns) := by
  induction ns with
  | nil => exact .nil fun p => by cases p <;> rfl
  | cons n ns ih =>
    exact (h n List.mem_cons_self).cons (ih fun m hm => h m (List.mem_cons_of_mem n hm)) rfl rfl
      (fun _ => rfl) fun _ _ => rfl

theorem Node.walk_eq_walkAll (n : Node) : n.walk = n :: walkAll n.children := by
  rw [walk_eq, walkAll_eq_flatMap]

theorem Node.inOrder_walk (n : Node) : InOrder n.descend n.walk := by
  induction n using Node.induction_children with
  | node n ih =>
    rw [n.walk_eq_walkAll]
    exact (inOrder_walkAll ih).node rfl rfl fun _ _ => rfl

namespace Node

def data? : Node → Option String
  | text t => some t.data
  | _ => none

def isReference : Node → Bool
  | reference _ _ => true
  | _ => false

/-- A node has its own text, if it is one, and that of its children. -/
theorem plainText_eq (n : Node) : n.plainText = n.data?.getD "" ++ plainTextAll n.children := by
  rcases n with t | ⟨r, ⟨cs, ls⟩⟩ | ⟨k, e, ⟨cs, ls⟩⟩ | ⟨code, cs⟩ | ⟨name, ⟨cs, ls⟩⟩ | ⟨k, id⟩ |
    ⟨cs, ls, m, f, e, r⟩
  case text => simp [plainText, data?, children, plainTextAll]
  case unresolved => simp [plainText, data?, children, plainTextAll]
  all_goals simp [plainText, data?, children]

end Node

/-- The data of the texts among the nodes. -/
def textsOf (visited : List Node) : String := String.join (visited.filterMap Node.data?)

theorem textsOf_append (ns ms : List Node) : textsOf (ns ++ ms) = textsOf ns ++ textsOf ms := by
  rw [textsOf, List.filterMap_append, String.join_append]
  rfl

theorem textsOf_cons (n : Node) (ns : List Node) : textsOf (n :: ns) = n.data?.getD "" ++ textsOf ns := by
  rw [textsOf, List.filterMap_cons]
  cases n.data? with
  | none => simp [textsOf]
  | some s => rw [String.join_cons]; rfl

theorem plainTextAll_of_walks {ns : List Node} (h : ∀ n ∈ ns, n.plainText = textsOf n.walk) :
    plainTextAll ns = textsOf (walkAll ns) := by
  induction ns with
  | nil => rfl
  | cons n ns ih =>
    rw [plainTextAll, walkAll, textsOf_append, h n List.mem_cons_self,
      ih fun m hm => h m (List.mem_cons_of_mem n hm)]

theorem Node.plainText_eq_textsOf (n : Node) : n.plainText = textsOf n.walk := by
  induction n using Node.induction_children with
  | node n ih => rw [n.plainText_eq, n.walk_eq_walkAll, textsOf_cons, plainTextAll_of_walks ih]

theorem plainTextAll_eq_textsOf (ns : List Node) : plainTextAll ns = textsOf (walkAll ns) :=
  plainTextAll_of_walks fun n _ => n.plainText_eq_textsOf

theorem eq_walk_iff {n : Node} {visited : List Node} : visited = n.walk ↔ InOrder n.descend visited :=
  ⟨fun h => h ▸ n.inOrder_walk, fun h => h.unique n.inOrder_walk⟩

theorem eq_walkAll_iff {ns visited : List Node} :
    visited = walkAll ns ↔ InOrder (nodeAt? ns) visited :=
  have hwalk : InOrder (nodeAt? ns) (walkAll ns) := inOrder_walkAll fun n _ => n.inOrder_walk
  ⟨fun h => h ▸ hwalk, fun h => h.unique hwalk⟩

/-- The container of a node has its children, its labels and its text. -/
theorem Node.of_container? {n : Node} {body : Container} (h : n.container? = some body) :
    n.children = body.children ∧ n.labels = body.labels ∧ n.plainText = body.plainText := by
  have hparts : n.children = body.children ∧ n.labels = body.labels ∧ n.data? = none := by
    cases n with
    | group r c =>
      obtain rfl : c = body := Option.some.inj h
      exact ⟨rfl, rfl, rfl⟩
    | note k e c =>
      obtain rfl : c = body := Option.some.inj h
      exact ⟨rfl, rfl, rfl⟩
    | named name c =>
      obtain rfl : c = body := Option.some.inj h
      exact ⟨rfl, rfl, rfl⟩
    | _ => simp [container?] at h
  obtain ⟨hchildren, hlabels, hdata⟩ := hparts
  refine ⟨hchildren, hlabels, ?_⟩
  rw [n.plainText_eq, hdata, hchildren, Container.plainText]
  simp

theorem Document.map_references (d : Document) :
    d.references.map (fun r => Node.reference r.1 r.2) = d.walk.filter Node.isReference := by
  rw [references]
  induction d.walk with
  | nil => rfl
  | cons n ns ih =>
    cases n with
    | reference code cs => exact congrArg (List.cons (Node.reference code cs)) ih
    | _ => exact ih

/-- Walks over nodes, containers and documents list what is at all places, in document order. Texts are
the data of the texts on the walk, cross-references are those on the walk, and labels are the document's
own, those of the nodes on the walk, and those of the footnotes and then of the endnotes, by key, each
note's own before those on a walk through it. -/
theorem traversals_agree (n : Node) (c : Container) (d : Document)
    (hfootnotes : Dictionary.IsSorted d.footnotes) (hendnotes : Dictionary.IsSorted d.endnotes) :
    ((∀ visited, visited = n.walk ↔ InOrder n.descend visited) ∧ n.plainText = textsOf n.walk ∧
      ∀ body, n.container? = some body →
        n.children = body.children ∧ n.labels = body.labels ∧ n.plainText = body.plainText) ∧
    ((∀ visited, visited = walkAll c.children ↔ InOrder (nodeAt? c.children) visited) ∧
      c.plainText = textsOf (walkAll c.children)) ∧
    (∀ visited, visited = d.walk ↔ InOrder (nodeAt? d.children) visited) ∧
    d.plainText = textsOf d.walk ∧
    d.references.map (fun r => Node.reference r.1 r.2) = d.walk.filter Node.isReference ∧
    ∃ footnotes endnotes, InOrder (fun k => Dictionary.get? k d.footnotes) footnotes ∧
      InOrder (fun k => Dictionary.get? k d.endnotes) endnotes ∧
      d.allLabels = d.labels ++ d.walk.flatMap Node.labels ++
        (footnotes ++ endnotes).flatMap fun note =>
          note.labels ++ (walkAll note.children).flatMap Node.labels := by
  refine ⟨⟨fun _ => eq_walk_iff, n.plainText_eq_textsOf, fun _ => Node.of_container?⟩,
    ⟨fun _ => eq_walkAll_iff, plainTextAll_eq_textsOf c.children⟩, fun _ => eq_walkAll_iff,
    plainTextAll_eq_textsOf d.children, d.map_references,
    d.footnotes.map Prod.snd, d.endnotes.map Prod.snd, hfootnotes.inOrder, hendnotes.inOrder, ?_⟩
  rw [Document.allLabels, List.flatMap_append, List.flatMap_map, List.flatMap_map, ← List.append_assoc]
  rfl

/-- A note that is cited twice, inside of an example and of an inner document. -/
def citingDocument : Document where
  children := [
    .group .numberedExample ⟨[.text ⟨"a", .italic⟩, .note .footnote (some "10") ⟨[.text ⟨"b", .empty⟩],
      ["n"]⟩], ["e"]⟩,
    .document ⟨[.named "emph" ⟨[.reference "e" [.text ⟨"(1)", .empty⟩], .note .footnote (some "10")
      ⟨[.text ⟨"b", .empty⟩], ["n"]⟩], ["m"]⟩], ["i"], [], [], [], []⟩]
  labels := ["d"]
  metadata := []
  footnotes := [("10", ⟨[.text ⟨"b", .empty⟩], ["n"]⟩), ("2", ⟨[.group .plain ⟨[], ["p"]⟩], ["o"]⟩)]
  endnotes := [("1", ⟨[], ["q"]⟩)]
  relationships := []

theorem traversals_agree_in_citingDocument :
    Dictionary.IsSorted citingDocument.footnotes ∧ Dictionary.IsSorted citingDocument.endnotes ∧
      InOrder (nodeAt? citingDocument.children) citingDocument.walk ∧
      citingDocument.walk.length = 10 ∧
      citingDocument.plainText = textsOf citingDocument.walk ∧ citingDocument.plainText = "ab(1)b" ∧
      citingDocument.references.length = 1 ∧
      citingDocument.allLabels = ["d", "e", "n", "i", "m", "n", "n", "o", "p", "q"] := by
  obtain ⟨-, -, hwalk, htext, -⟩ := traversals_agree (.document citingDocument) ⟨[], []⟩ citingDocument
    (by decide) (by decide)
  exact ⟨by decide, by decide, (hwalk citingDocument.walk).mp rfl, by decide, htext, by decide, by decide,
    by decide⟩

end WordTex
