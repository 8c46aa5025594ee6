import WordTex.DocumentWalk

/-! # Induction over document trees and the equations of walks -/
namespace WordTex

/-- A property of nodes that passes from the children of a node to the node holds everywhere. -/
@[elab_as_elim]
theorem Node.induction {motive : Node → Prop} (text : ∀ t, motive (.text t))
    (group : ∀ r c, (∀ n ∈ c.children, motive n) → motive (.group r c))
    (note : ∀ k e c, (∀ n ∈ c.children, motive n) → motive (.note k e c))
    (reference : ∀ code cs, (∀ n ∈ cs, motive n) → motive (.reference code cs))
    (named : ∀ name c, (∀ n ∈ c.children, motive n) → motive (.named name c))
    (unresolved : ∀ k id, motive (.unresolved k id))
    (document : ∀ d, (∀ n ∈ d.children, motive n) → motive (.document d)) (n : Node) : motive n :=
  Node.walk.induct motive (fun ns => ∀ n ∈ ns, motive n) text (fun r cs ls => group r ⟨cs, ls⟩)
    (fun k e cs ls => note k e ⟨cs, ls⟩) reference (fun name cs ls => named name ⟨cs, ls⟩) unresolved
    (fun cs ls m f e r => document ⟨cs, ls, m, f, e, r⟩) (by simp)
    (fun _ _ hn hns => List.forall_mem_cons.mpr ⟨hn, hns⟩) n

/-- A property that passes from the children of any node to the node holds everywhere. -/
@[elab_as_elim]
theorem Node.induction_children {motive : Node → Prop}
    (node : ∀ n, (∀ c ∈ n.children, motive c) → motive n) (n : Node) : motive n := by
  induction n using Node.induction with
  | text t => exact node (.text t) (by simp [children])
  | group r c ih => exact node (.group r c) ih
  | note k e c ih => exact node (.note k e c) ih
  | reference code cs ih => exact node (.reference code cs) ih
  | named name c ih => exact node (.named name c) ih
  | unresolved k id => exact node (.unresolved k id) (by simp [children])
  | document d ih => exact node (.document d) ih

theorem walkAll_eq_flatMap (ns : List Node) : walkAll ns = ns.flatMap Node.walk := by
  induction ns with
  | nil => rfl
  | cons n ns ih => rw [walkAll, ih, List.flatMap_cons]

namespace Node

/-- A walk visits the node and then walks over its children. -/
theorem walk_eq (n : Node) : n.walk = n :: n.children.flatMap walk := by
  rcases n with t | ⟨r, ⟨cs, ls⟩⟩ | ⟨k, e, ⟨cs, ls⟩⟩ | ⟨code, cs⟩ | ⟨name, ⟨cs, ls⟩⟩ | ⟨k, id⟩ |
    ⟨cs, ls, m, f, e, r⟩
  case text => rfl
  case unresolved => rfl
  all_goals rw [walk, walkAll_eq_flatMap]; rfl

theorem mem_walk_self (n : Node) : n ∈ n.walk := by
  rw [walk_eq]
  exact List.mem_cons_self

theorem mem_walk_of_mem_children {n c m : Node} (hc : c ∈ n.children) (hm : m ∈ c.walk) :
    m ∈ n.walk := by
  rw [walk_eq]
  exact List.mem_cons_of_mem n (List.mem_flatMap.mpr ⟨c, hc, hm⟩)

theorem forall_mem_walk {n : Node} {P : Node → Prop} (hn : P n)
    (hchildren : ∀ c ∈ n.children, ∀ m ∈ c.walk, P m) : ∀ m ∈ n.walk, P m := by
  intro m hm
  rw [walk_eq] at hm
  rcases List.mem_cons.mp hm with rfl | hm
  · exact hn
  · obtain ⟨c, hc, hmc⟩ := List.mem_flatMap.mp hm
    exact hchildren c hc m hmc

end Node

theorem Document.mem_walk_iff {d : Document} {m : Node} : m ∈ d.walk ↔ ∃ n ∈ d.children, m ∈ n.walk := by
  rw [walk, walkAll_eq_flatMap, List.mem_flatMap]

mutual

/-- The node and its descendants, parents first, without what is inside of notes. -/
def Node.bodyWalk : Node → List Node
  | .text t => [.text t]
  | .group r ⟨children, labels⟩ => .group r ⟨children, labels⟩ :: bodyWalkAll children
  | .note k e body => [.note k e body]
  | .reference code children => .reference code children :: bodyWalkAll children
  | .named name ⟨children, labels⟩ => .named name ⟨children, labels⟩ :: bodyWalkAll children
  | .unresolved k id => [.unresolved k id]
  | .document ⟨children, labels, m, f, e, r⟩ =>
    .document ⟨children, labels, m, f, e, r⟩ :: bodyWalkAll children

def bodyWalkAll : List Node → List Node
  | [] => []
  | n :: ns => n.bodyWalk ++ bodyWalkAll ns

end

theorem bodyWalkAll_eq_flatMap (ns : List Node) : bodyWalkAll ns = ns.flatMap Node.bodyWalk := by
  induction ns with
  | nil => rfl
  | cons n ns ih => rw [bodyWalkAll, ih, List.flatMap_cons]

/-- The children of a node that is no note. -/
def Node.bodyChildren : Node → List Node
  | .note _ _ _ => []
  | n => n.children

theorem Node.bodyWalk_eq (n : Node) : n.bodyWalk = n :: n.bodyChildren.flatMap bodyWalk := by
  rcases n with t | ⟨r, ⟨cs, ls⟩⟩ | ⟨k, e, c⟩ | ⟨code, cs⟩ | ⟨name, ⟨cs, ls⟩⟩ | ⟨k, id⟩ |
    ⟨cs, ls, m, f, e, r⟩
  case text => rfl
  case note => rfl
  case unresolved => rfl
  all_goals rw [bodyWalk, bodyWalkAll_eq_flatMap]; rfl

@[simp] theorem bodyWalkAll_append (ns ms : List Node) :
    bodyWalkAll (ns ++ ms) = bodyWalkAll ns ++ bodyWalkAll ms := by
  induction ns with
  | nil => rfl
  | cons n ns ih => rw [List.cons_append, bodyWalkAll, ih, bodyWalkAll, List.append_assoc]

end WordTex
