import WordTex.Proofs.SiblingJoins
import WordTex.Proofs.StoredNodes

/-! # Rendering without labels

A document may be written without its labels. That is the same as writing it with all labels after they
were taken out of the tree: the option reaches every container at every depth, also through notes, and
nothing else depends on it. -/
namespace WordTex

mutual

/-- The node with every list of labels in it empty, also where nothing is written: in what
cross-references display and in the notes that documents store. -/
def Node.withoutLabels : Node → Node
  | .text t => .text t
  | .group role ⟨children, _⟩ => .group role ⟨withoutLabelsAll children, []⟩
  | .note kind entry ⟨children, _⟩ => .note kind entry ⟨withoutLabelsAll children, []⟩
  | .reference code children => .reference code (withoutLabelsAll children)
  | .named name ⟨children, _⟩ => .named name ⟨withoutLabelsAll children, []⟩
  | .unresolved kind id => .unresolved kind id
  | .document ⟨children, _, metadata, footnotes, endnotes, relationships⟩ =>
    .document ⟨withoutLabelsAll children, [], metadata, withoutLabelsInNotes footnotes,
      withoutLabelsInNotes endnotes, relationships⟩

def withoutLabelsAll : List Node → List Node
  | [] => []
  | n :: ns => n.withoutLabels :: withoutLabelsAll ns

def withoutLabelsInNotes : List (String × Container) → List (String × Container)
  | [] => []
  | (id, ⟨children, _⟩) :: rest => (id, ⟨withoutLabelsAll children, []⟩) :: withoutLabelsInNotes rest

end

def Container.withoutLabels (c : Container) : Container := ⟨c.children.map Node.withoutLabels, []⟩

def Document.withoutLabels (d : Document) : Document where
  children := d.children.map Node.withoutLabels
  labels := []
  metadata := d.metadata
  footnotes := d.footnotes.map fun e => (e.1, e.2.withoutLabels)
  endnotes := d.endnotes.map fun e => (e.1, e.2.withoutLabels)
  relationships := d.relationships

theorem withoutLabelsAll_eq_map (ns : List Node) : withoutLabelsAll ns = ns.map Node.withoutLabels := by
  induction ns with
  | nil => rfl
  | cons n ns ih => rw [withoutLabelsAll, ih, List.map_cons]

theorem withoutLabelsInNotes_eq_map (notes : List (String × Container)) :
    withoutLabelsInNotes notes = notes.map fun e => (e.1, e.2.withoutLabels) := by
  induction notes with
  | nil => rfl
  | cons e notes ih =>
    obtain ⟨id, ⟨children, labels⟩⟩ := e
    rw [withoutLabelsInNotes, ih, withoutLabelsAll_eq_map, List.map_cons, Container.withoutLabels]

namespace Node

theorem withoutLabels_group (role : Role) (c : Container) :
    (group role c).withoutLabels = group role c.withoutLabels := by
  cases c
  rw [withoutLabels, withoutLabelsAll_eq_map, Container.withoutLabels]

theorem withoutLabels_note (kind : NoteKind) (entry : Option String) (c : Container) :
    (note kind entry c).withoutLabels = note kind entry c.withoutLabels := by
  cases c
  rw [withoutLabels, withoutLabelsAll_eq_map, Container.withoutLabels]

theorem withoutLabels_reference (code : String) (children : List Node) :
    (reference code children).withoutLabels = reference code (children.map withoutLabels) := by
  rw [withoutLabels, withoutLabelsAll_eq_map]

theorem withoutLabels_named (name : String) (c : Container) :
    (named name c).withoutLabels = named name c.withoutLabels := by
  cases c
  rw [withoutLabels, withoutLabelsAll_eq_map, Container.withoutLabels]

theorem withoutLabels_document (d : Document) :
    (document d).withoutLabels = document d.withoutLabels := by
  cases d
  rw [withoutLabels, withoutLabelsAll_eq_map, withoutLabelsInNotes_eq_map,
    withoutLabelsInNotes_eq_map, Document.withoutLabels]

/-- A node without labels stands among its siblings as it did with them. -/
theorem runText?_withoutLabels (n : Node) : n.withoutLabels.runText? = n.runText? := by
  cases n with
  | group role c => rw [withoutLabels_group]; rfl
  | note kind entry c => rw [withoutLabels_note]; rfl
  | named name c => rw [withoutLabels_named]; rfl
  | document d => rw [withoutLabels_document]; rfl
  | _ => rfl

theorem isBlock_withoutLabels (n : Node) : n.withoutLabels.isBlock = n.isBlock := by
  cases n with
  | group role c => rw [withoutLabels_group]; rfl
  | note kind entry c => rw [withoutLabels_note]; rfl
  | named name c => rw [withoutLabels_named]; rfl
  | document d => rw [withoutLabels_document]; rfl
  | _ => rfl

end Node

/-- The choices with labels or without them, and otherwise as they were. -/
def LatexOptions.withLabels (options : LatexOptions) (included : Bool) : LatexOptions :=
  { options with includeLabels := included }

variable (options : LatexOptions)

theorem labelsTex_excluded (labels : List String) :
    labelsTex (options.withLabels false) labels = labelsTex (options.withLabels true) [] := by
  simp [labelsTex, LatexOptions.withLabels]

theorem nodeSeparator_withoutLabels (g h : SiblingGroup Node) :
    nodeSeparator (g.map Node.withoutLabels) (h.map Node.withoutLabels) = nodeSeparator g h := by
  cases g with
  | texts ts => rfl
  | single m =>
    cases h with
    | texts ts => rfl
    | single n =>
      simp only [SiblingGroup.map, nodeSeparator, Node.isBlock_withoutLabels]

/-- Siblings are grouped and separated alike, so they are written alike if each of them is. -/
theorem nodesTex_withoutLabels {ns : List Node}
    (h : ∀ n ∈ ns, n.tex (options.withLabels false) = n.withoutLabels.tex (options.withLabels true)) :
    nodesTex (options.withLabels false) ns =
      nodesTex (options.withLabels true) (ns.map Node.withoutLabels) := by
  have hgroups : groupNodes (ns.map Node.withoutLabels) =
      (groupNodes ns).map (SiblingGroup.map Node.withoutLabels) := by
    simp only [groupNodes, SiblingGroup.ofList_map, Node.runText?_withoutLabels]
  rw [nodesTex_eq_joinWith, nodesTex_eq_joinWith, hgroups, joinWith_map]
  simp only [nodeSeparator_withoutLabels]
  refine joinWith_congr _ _ fun g hg => ?_
  cases g with
  -- runs of texts have no labels
  | texts ts => rfl
  | single n => exact h n (SiblingGroup.mem_of_single_mem_ofList hg)

/-- A node written without labels is the node without labels, written with them. -/
theorem tex_withoutLabels (n : Node) :
    n.tex { options with includeLabels := false } =
      n.withoutLabels.tex { options with includeLabels := true } := by
  change n.tex (options.withLabels false) = n.withoutLabels.tex (options.withLabels true)
  induction n using Node.induction with
  | text t => rw [Node.withoutLabels, Node.tex_text, Node.tex_text]; rfl
  | group role c ih =>
    rw [Node.withoutLabels_group, Node.tex_group, Node.tex_group, nodesTex_withoutLabels options ih,
      labelsTex_excluded]
    rfl
  | note kind entry c ih =>
    rw [Node.withoutLabels_note, Node.tex_note, Node.tex_note, nodesTex_withoutLabels options ih,
      labelsTex_excluded]
    rfl
  | reference code cs _ =>
    rw [Node.withoutLabels_reference, Node.tex_reference, Node.tex_reference]
    rfl
  | named name c ih =>
    rw [Node.withoutLabels_named, Node.tex_named, Node.tex_named, nodesTex_withoutLabels options ih,
      labelsTex_excluded]
    rfl
  | unresolved kind id => rw [Node.withoutLabels, Node.tex_unresolved, Node.tex_unresolved]
  | document d ih =>
    rw [Node.withoutLabels_document, Node.tex_document, Node.tex_document, Document.tex, Document.tex,
      nodesTex_withoutLabels options ih, labelsTex_excluded]
    rfl

end WordTex
