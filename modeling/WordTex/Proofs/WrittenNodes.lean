import WordTex.Proofs.DocumentWalks

/-! # The nodes that are written

Notes are written wherever they are cited. What a cross-reference displays is not written, only its
code. -/
namespace WordTex

mutual

/-- The nodes that are written for a node, in the order in which they end: children before the node
itself. -/
def Node.written : Node → List Node
  | .text t => [.text t]
  | .group r ⟨children, labels⟩ => writtenAll children ++ [.group r ⟨children, labels⟩]
  | .note k e ⟨children, labels⟩ => writtenAll children ++ [.note k e ⟨children, labels⟩]
  | .reference code children => [.reference code children]
  | .named name ⟨children, labels⟩ => writtenAll children ++ [.named name ⟨children, labels⟩]
  | .unresolved k id => [.unresolved k id]
  | .document ⟨children, labels, m, f, e, r⟩ =>
    writtenAll children ++ [.document ⟨children, labels, m, f, e, r⟩]

def writtenAll : List Node → List Node
  | [] => []
  | n :: ns => n.written ++ writtenAll ns

end

/-- The nodes that are written for the body of a document. -/
def Document.written (d : Document) : List Node := writtenAll d.children

theorem writtenAll_eq_flatMap (ns : List Node) : writtenAll ns = ns.flatMap Node.written := by
  induction ns with
  | nil => rfl
  | cons n ns ih => rw [writtenAll, ih, List.flatMap_cons]

namespace Node

theorem written_text (t : StyledText) : (text t).written = [text t] := by rw [written]

theorem written_group (r : Role) (c : Container) :
    (group r c).written = writtenAll c.children ++ [group r c] := by
  rcases c with ⟨cs, ls⟩
  rw [written]

theorem written_note (k : NoteKind) (e : Option String) (c : Container) :
    (note k e c).written = writtenAll c.children ++ [note k e c] := by
  rcases c with ⟨cs, ls⟩
  rw [written]

theorem written_reference (code : String) (cs : List Node) :
    (reference code cs).written = [reference code cs] := by rw [written]

theorem written_named (name : String) (c : Container) :
    (named name c).written = writtenAll c.children ++ [named name c] := by
  rcases c with ⟨cs, ls⟩
  rw [written]

theorem written_unresolved (k : NoteKind) (id : String) :
    (unresolved k id).written = [unresolved k id] := by rw [written]

theorem written_document (d : Document) :
    (document d).written = writtenAll d.children ++ [document d] := by
  rcases d with ⟨cs, ls, m, f, e, r⟩
  rw [written]

theorem of_mem_written {n m : Node} (h : m ∈ n.written) :
    m = n ∨ ∃ c ∈ n.children, m ∈ c.written := by
  have hbody : ∀ cs : List Node, m ∈ writtenAll cs ++ [n] → m = n ∨ ∃ c ∈ cs, m ∈ c.written := by
    intro cs hm
    simpa [writtenAll_eq_flatMap, or_comm] using hm
  cases n with
  | text t => exact .inl (List.mem_singleton.mp (written_text t ▸ h))
  | reference code cs => exact .inl (List.mem_singleton.mp (written_reference code cs ▸ h))
  | unresolved k id => exact .inl (List.mem_singleton.mp (written_unresolved k id ▸ h))
  | group r c => exact hbody c.children (written_group r c ▸ h)
  | note k e c => exact hbody c.children (written_note k e c ▸ h)
  | named name c => exact hbody c.children (written_named name c ▸ h)
  | document d => exact hbody d.children (written_document d ▸ h)

/-- What is written is met by a walk. -/
theorem mem_walk_of_mem_written {n m : Node} (h : m ∈ n.written) : m ∈ n.walk := by
  induction n using Node.induction_children with
  | node n ih =>
    rcases of_mem_written h with rfl | ⟨c, hc, hm⟩
    · exact mem_walk_self m
    · exact mem_walk_of_mem_children hc (ih c hc hm)

end Node

theorem Document.mem_walk_of_mem_written {d : Document} {m : Node} (h : m ∈ d.written) :
    m ∈ d.walk := by
  rw [written, writtenAll_eq_flatMap] at h
  obtain ⟨n, hn, hm⟩ := List.mem_flatMap.mp h
  exact mem_walk_iff.mpr ⟨n, hn, Node.mem_walk_of_mem_written hm⟩

end WordTex
