import WordTex.Proofs.Dictionaries
import WordTex.Proofs.DocumentWalks

/-! # Everything that a document stores

Besides its body a document stores notes, whether they are cited or not. A node may itself be a document,
so that there are notes inside of trees too. -/
namespace WordTex

/-- The children of a document and of its notes. -/
def Document.contents (d : Document) : List Node :=
  d.children ++ d.footnotes.flatMap (·.2.children) ++ d.endnotes.flatMap (·.2.children)

theorem Document.mem_contents_iff {d : Document} {m : Node} : m ∈ d.contents ↔
    m ∈ d.children ∨ ∃ kind, ∃ e ∈ d.notes kind, m ∈ e.2.children := by
  rw [contents, List.mem_append, List.mem_append, List.mem_flatMap, List.mem_flatMap, or_assoc]
  refine or_congr_right ⟨?_, ?_⟩
  · rintro (⟨e, he, hm⟩ | ⟨e, he, hm⟩)
    · exact ⟨.footnote, e, he, hm⟩
    · exact ⟨.endnote, e, he, hm⟩
  · rintro ⟨kind, e, he, hm⟩
    cases kind with
    | footnote => exact .inl ⟨e, he, hm⟩
    | endnote => exact .inr ⟨e, he, hm⟩

/-- The children of a node, and those of its notes if it is a document. -/
def Node.contents : Node → List Node
  | .document d => d.contents
  | n => n.children

mutual

/-- The node and everything that is stored in it, parents first. -/
def Node.stored : Node → List Node
  | .text t => [.text t]
  | .group role ⟨children, labels⟩ => .group role ⟨children, labels⟩ :: storedAll children
  | .note kind entry ⟨children, labels⟩ => .note kind entry ⟨children, labels⟩ :: storedAll children
  | .reference code children => .reference code children :: storedAll children
  | .named name ⟨children, labels⟩ => .named name ⟨children, labels⟩ :: storedAll children
  | .unresolved kind id => [.unresolved kind id]
  | .document ⟨children, labels, m, footnotes, endnotes, r⟩ =>
    .document ⟨children, labels, m, footnotes, endnotes, r⟩ ::
      (storedAll children ++ storedInNotes footnotes ++ storedInNotes endnotes)

def storedAll : List Node → List Node
  | [] => []
  | n :: ns => n.stored ++ storedAll ns

def storedInNotes : List (String × Container) → List Node
  | [] => []
  | (_, ⟨children, _⟩) :: rest => storedAll children ++ storedInNotes rest

end

/-- A property that passes from everything that is directly in a node to the node holds everywhere. -/
@[elab_as_elim]
theorem Node.storedInduction {motive : Node → Prop}
    (step : ∀ n, (∀ m ∈ n.contents, motive m) → motive n) (n : Node) : motive n :=
  Node.stored.induct motive (fun notes => ∀ m ∈ notes.flatMap (·.2.children), motive m)
    (fun ns => ∀ m ∈ ns, motive m) (fun t => step (.text t) (by simp [contents, children]))
    (fun role cs ls => step (.group role ⟨cs, ls⟩)) (fun kind e cs ls => step (.note kind e ⟨cs, ls⟩))
    (fun code cs => step (.reference code cs)) (fun name cs ls => step (.named name ⟨cs, ls⟩))
    (fun kind id => step (.unresolved kind id) (by simp [contents, children]))
    (fun cs ls m f e r hchildren hfootnotes hendnotes => step (.document ⟨cs, ls, m, f, e, r⟩)
      (List.forall_mem_append.mpr ⟨List.forall_mem_append.mpr ⟨hchildren, hfootnotes⟩, hendnotes⟩))
    (by simp) (fun _ _ hn hns => List.forall_mem_cons.mpr ⟨hn, hns⟩) (by simp)
    (fun _ _ _ _ hchildren hrest => by
      rw [List.flatMap_cons]
      exact List.forall_mem_append.mpr ⟨hchildren, hrest⟩) n

theorem storedAll_eq_flatMap (ns : List Node) : storedAll ns = ns.flatMap Node.stored := by
  induction ns with
  | nil => rfl
  | cons n ns ih => rw [storedAll, ih, List.flatMap_cons]

theorem storedInNotes_eq_flatMap (notes : List (String × Container)) :
    storedInNotes notes = (notes.flatMap (·.2.children)).flatMap Node.stored := by
  induction notes with
  | nil => rfl
  | cons e notes ih =>
    obtain ⟨id, ⟨children, labels⟩⟩ := e
    rw [storedInNotes, ih, storedAll_eq_flatMap, List.flatMap_cons, List.flatMap_append]

theorem Node.stored_eq (n : Node) : n.stored = n :: n.contents.flatMap stored := by
  rcases n with t | ⟨r, ⟨cs, ls⟩⟩ | ⟨k, e, ⟨cs, ls⟩⟩ | ⟨code, cs⟩ | ⟨name, ⟨cs, ls⟩⟩ | ⟨k, id⟩ |
    ⟨cs, ls, m, f, e, r⟩
  case text => rfl
  case unresolved => rfl
  case document =>
    rw [stored, storedAll_eq_flatMap, storedInNotes_eq_flatMap, storedInNotes_eq_flatMap, contents,
      Document.contents, List.flatMap_append, List.flatMap_append]
  all_goals rw [stored, storedAll_eq_flatMap]; rfl

/-- The node stands for a note that is missing. -/
def Node.isUnresolved : Node → Bool
  | .unresolved _ _ => true
  | _ => false

/-- Somewhere in the node a note is missing. -/
def Node.hasUnresolved (n : Node) : Bool := n.stored.any isUnresolved

theorem Node.hasUnresolved_eq (n : Node) :
    n.hasUnresolved = (n.isUnresolved || n.contents.any hasUnresolved) := by
  rw [hasUnresolved, stored_eq, List.any_cons, List.any_flatMap]
  rfl

def Container.hasUnresolved (c : Container) : Bool := c.children.any Node.hasUnresolved

def Document.hasUnresolved (d : Document) : Bool := d.contents.any Node.hasUnresolved

namespace Node

theorem hasUnresolved_group (role : Role) (c : Container) :
    (group role c).hasUnresolved = c.hasUnresolved := by
  rw [hasUnresolved_eq]
  rfl

theorem hasUnresolved_note (kind : NoteKind) (entry : Option String) (c : Container) :
    (note kind entry c).hasUnresolved = c.hasUnresolved := by
  rw [hasUnresolved_eq]
  rfl

theorem hasUnresolved_reference (code : String) (children : List Node) :
    (reference code children).hasUnresolved = children.any hasUnresolved := by
  rw [hasUnresolved_eq]
  rfl

theorem hasUnresolved_named (name : String) (c : Container) :
    (named name c).hasUnresolved = c.hasUnresolved := by
  rw [hasUnresolved_eq]
  rfl

theorem hasUnresolved_document (d : Document) : (document d).hasUnresolved = d.hasUnresolved := by
  rw [hasUnresolved_eq]
  rfl

end Node

/-- The entries of the document are in the order of their keys. -/
structure Document.IsSorted (d : Document) : Prop where
  metadata : Dictionary.IsSorted d.metadata
  footnotes : Dictionary.IsSorted d.footnotes
  endnotes : Dictionary.IsSorted d.endnotes
  relationships : Dictionary.IsSorted d.relationships

instance (d : Document) : Decidable d.IsSorted :=
  decidable_of_iff (Dictionary.IsSorted d.metadata ∧ Dictionary.IsSorted d.footnotes ∧
      Dictionary.IsSorted d.endnotes ∧ Dictionary.IsSorted d.relationships)
    ⟨fun ⟨hm, hf, he, hr⟩ => ⟨hm, hf, he, hr⟩, fun ⟨hm, hf, he, hr⟩ => ⟨hm, hf, he, hr⟩⟩

/-- So are those of a node, if it is a document. -/
def Node.IsSorted : Node → Prop
  | .document d => d.IsSorted
  | _ => True

instance : (n : Node) → Decidable n.IsSorted
  | .document d => inferInstanceAs (Decidable d.IsSorted)
  | .text _ | .group _ _ | .note _ _ _ | .reference _ _ | .named _ _ | .unresolved _ _ =>
    .isTrue trivial

/-- Every document in the node has its entries in the order of their keys. -/
def Node.AllSorted (n : Node) : Prop := ∀ m ∈ n.stored, m.IsSorted

def Container.AllSorted (c : Container) : Prop := ∀ n ∈ c.children, n.AllSorted

def Document.AllSorted (d : Document) : Prop := d.IsSorted ∧ ∀ n ∈ d.contents, n.AllSorted

instance (n : Node) : Decidable n.AllSorted :=
  inferInstanceAs (Decidable (∀ m ∈ n.stored, m.IsSorted))

instance (c : Container) : Decidable c.AllSorted :=
  inferInstanceAs (Decidable (∀ n ∈ c.children, n.AllSorted))

instance (d : Document) : Decidable d.AllSorted :=
  inferInstanceAs (Decidable (d.IsSorted ∧ ∀ n ∈ d.contents, n.AllSorted))

theorem Node.allSorted_iff (n : Node) :
    n.AllSorted ↔ n.IsSorted ∧ ∀ m ∈ n.contents, m.AllSorted := by
  rw [AllSorted, stored_eq, List.forall_mem_cons, List.forall_mem_flatMap]
  rfl

mutual

/-- The node with copies of its notes, none of which is an entry of a document. Entries say which notes
are one and the same, and have no part in what a node is equal to. -/
def Node.withoutEntries : Node → Node
  | .text t => .text t
  | .group role ⟨children, labels⟩ => .group role ⟨withoutEntriesAll children, labels⟩
  | .note kind _ ⟨children, labels⟩ => .note kind none ⟨withoutEntriesAll children, labels⟩
  | .reference code children => .reference code (withoutEntriesAll children)
  | .named name ⟨children, labels⟩ => .named name ⟨withoutEntriesAll children, labels⟩
  | .unresolved kind id => .unresolved kind id
  | .document ⟨children, labels, m, footnotes, endnotes, r⟩ =>
    .document ⟨withoutEntriesAll children, labels, m, withoutEntriesInNotes footnotes,
      withoutEntriesInNotes endnotes, r⟩

def withoutEntriesAll : List Node → List Node
  | [] => []
  | n :: ns => n.withoutEntries :: withoutEntriesAll ns

def withoutEntriesInNotes : List (String × Container) → List (String × Container)
  | [] => []
  | (id, ⟨children, labels⟩) :: rest =>
    (id, ⟨withoutEntriesAll children, labels⟩) :: withoutEntriesInNotes rest

end

def Container.withoutEntries (c : Container) : Container :=
  { c with children := c.children.map Node.withoutEntries }

def Document.withoutEntries (d : Document) : Document where
  children := d.children.map Node.withoutEntries
  labels := d.labels
  metadata := d.metadata
  footnotes := d.footnotes.map fun e => (e.1, e.2.withoutEntries)
  endnotes := d.endnotes.map fun e => (e.1, e.2.withoutEntries)
  relationships := d.relationships

theorem withoutEntriesAll_eq_map (ns : List Node) :
    withoutEntriesAll ns = ns.map Node.withoutEntries := by
  induction ns with
  | nil => rfl
  | cons n ns ih => rw [withoutEntriesAll, ih, List.map_cons]

theorem withoutEntriesInNotes_eq_map (notes : List (String × Container)) :
    withoutEntriesInNotes notes = notes.map fun e => (e.1, e.2.withoutEntries) := by
  induction notes with
  | nil => rfl
  | cons e notes ih =>
    obtain ⟨id, ⟨children, labels⟩⟩ := e
    rw [withoutEntriesInNotes, ih, withoutEntriesAll_eq_map, List.map_cons, Container.withoutEntries]

namespace Node

theorem withoutEntries_group (role : Role) (c : Container) :
    (group role c).withoutEntries = group role c.withoutEntries := by
  cases c
  rw [withoutEntries, withoutEntriesAll_eq_map, Container.withoutEntries]

theorem withoutEntries_note (kind : NoteKind) (entry : Option String) (c : Container) :
    (note kind entry c).withoutEntries = note kind none c.withoutEntries := by
  cases c
  rw [withoutEntries, withoutEntriesAll_eq_map, Container.withoutEntries]

theorem withoutEntries_named (name : String) (c : Container) :
    (named name c).withoutEntries = named name c.withoutEntries := by
  cases c
  rw [withoutEntries, withoutEntriesAll_eq_map, Container.withoutEntries]

theorem withoutEntries_document (d : Document) :
    (document d).withoutEntries = document d.withoutEntries := by
  cases d
  rw [withoutEntries, withoutEntriesAll_eq_map, withoutEntriesInNotes_eq_map,
    withoutEntriesInNotes_eq_map, Document.withoutEntries]

theorem withoutEntries_reference (code : String) (children : List Node) :
    (reference code children).withoutEntries =
      reference code (children.map withoutEntries) := by
  rw [withoutEntries, withoutEntriesAll_eq_map]

end Node

/-- The node is a note that is an entry of a document. -/
def Node.isEntry : Node → Bool
  | .note _ (some _) _ => true
  | _ => false

theorem map_eq_self {α : Type} {f : α → α} {l : List α} (h : ∀ x ∈ l, f x = x) : l.map f = l :=
  (List.map_congr_left h).trans (List.map_id l)

/-- Nothing but the entries is left out. -/
theorem Node.withoutEntries_eq_self {n : Node} (h : ∀ m ∈ n.stored, m.isEntry = false) :
    n.withoutEntries = n := by
  induction n using Node.storedInduction with
  | step n ih =>
    rw [stored_eq, List.forall_mem_cons, List.forall_mem_flatMap] at h
    have hcontents : ∀ m ∈ n.contents, m.withoutEntries = m := fun m hm => ih m hm (h.2 m hm)
    have hcontainer : ∀ c : Container, (∀ m ∈ c.children, m ∈ n.contents) → c.withoutEntries = c := by
      intro c hc
      have hchildren := map_eq_self fun m hm => hcontents m (hc m hm)
      rw [Container.withoutEntries, hchildren]
      cases c
      rfl
    cases n with
    | text t => rfl
    | unresolved kind id => rfl
    | group role c => rw [withoutEntries_group, hcontainer c fun m hm => hm]
    | note kind entry c =>
      cases entry with
      | none => rw [withoutEntries_note, hcontainer c fun m hm => hm]
      | some id => cases h.1
    | reference code children =>
      have hchildren : children.map withoutEntries = children := map_eq_self hcontents
      rw [withoutEntries_reference, hchildren]
    | named name c => rw [withoutEntries_named, hcontainer c fun m hm => hm]
    | document d =>
      have hnotes : ∀ kind, ∀ e ∈ d.notes kind, (e.1, e.2.withoutEntries) = e := by
        intro kind e he
        rw [hcontainer e.2 fun m hm => Document.mem_contents_iff.mpr (.inr ⟨kind, e, he, hm⟩)]
      have hchildren := map_eq_self fun m hm =>
        hcontents m (Document.mem_contents_iff.mpr (.inl hm))
      have hfootnotes : d.footnotes.map (fun e => (e.1, e.2.withoutEntries)) = d.footnotes :=
        map_eq_self (hnotes .footnote)
      have hendnotes : d.endnotes.map (fun e => (e.1, e.2.withoutEntries)) = d.endnotes :=
        map_eq_self (hnotes .endnote)
      rw [withoutEntries_document, Document.withoutEntries, hchildren, hfootnotes, hendnotes]
      cases d
      rfl

end WordTex
