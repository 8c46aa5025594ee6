import WordTex.DocumentReading
import WordTex.Proofs.DocumentWalks
import WordTex.Proofs.FieldNodes
import WordTex.Proofs.ParagraphEvents

/-! # Bodies, notes and documents that can be read

The paragraphs of a body are read one by one, each from the same state. What holds of texts and
citations, and passes from the children of fields and paragraphs to these, holds of all that is
read. -/
namespace WordTex

open Reading ReadingState

/-- The paragraphs that a body is read as, with this style around them. -/
def bodyNodes (notes : Notes) (style : Style) (body : Element) : List Node :=
  (body.childElements.filter (·.localName == "p")).map (paragraphNode notes [] style)

/-- The state between paragraphs: no field is open, and the rest is as in another state. -/
structure ReadingState.Rests (s s' : ReadingState) : Prop where
  fields : s'.fields = []
  styles : s'.styles = s.styles
  part : s'.part = s.part
  path : s'.path = s.path

variable {notes : Notes} {s s' : ReadingState} {ns : List Node}

theorem runs_readBlock {body child : Element} {index : Nat} (hfields : s.fields = [])
    (h : Runs (readBlock notes body child index) s ns s') :
    ns = (if child.localName == "p" then [paragraphNode notes [] s.currentStyle child] else []) ∧
      s.Rests s' := by
  rw [readBlock] at h
  split at h <;> rename_i hname
  · obtain ⟨n, t, hread, hpure⟩ := runs_bind.mp h
    obtain ⟨rfl, rfl⟩ := runs_pure.mp hpure
    obtain ⟨t, hparagraph, rfl⟩ := runs_within.mp hread
    obtain ⟨rfl, hclosed, hstyles, hpart, hpath⟩ := runs_readParagraph hparagraph
    refine ⟨?_, hclosed, hstyles, hpart, by rw [hpath, List.tail_cons]⟩
    rw [if_pos (by simpa using hname), hfields]
    rfl
  · rw [if_neg (by simpa using hname)]
    split at h
    · obtain ⟨rfl, rfl⟩ := runs_pure.mp h
      exact ⟨rfl, hfields, rfl, rfl, rfl⟩
    · obtain ⟨u, t, hnote, hpure⟩ := runs_bind.mp h
      obtain rfl := runs_modify.mp hnote
      obtain ⟨rfl, rfl⟩ := runs_pure.mp hpure
      exact ⟨rfl, hfields, rfl, rfl, rfl⟩

theorem runs_bodyBlocks {body : Element} {children : List Element} {index : Nat}
    {nss : List (List Node)} (hfields : s.fields = [])
    (h : Runs ((children.zipIdx index).mapM fun (child, i) => readBlock notes body child i) s nss s') :
    nss.flatten = (children.filter (·.localName == "p")).map
        (paragraphNode notes [] s.currentStyle) ∧ s.Rests s' := by
  induction children generalizing s index nss with
  | nil =>
    obtain ⟨rfl, rfl⟩ := runs_mapM_nil.mp h
    exact ⟨rfl, hfields, rfl, rfl, rfl⟩
  | cons c cs ih =>
    rw [List.zipIdx_cons] at h
    obtain ⟨ns, t, nss', hchild, hrest, rfl⟩ := runs_mapM_cons.mp h
    obtain ⟨rfl, ht⟩ := runs_readBlock hfields hchild
    obtain ⟨hnodes, hs'⟩ := ih ht.fields hrest
    refine ⟨?_, hs'.fields, hs'.styles.trans ht.styles, hs'.part.trans ht.part,
      hs'.path.trans ht.path⟩
    rw [List.flatten_cons, hnodes, currentStyle_of_styles_eq ht.styles]
    cases hp : c.localName == "p" <;> simp [hp]

/-- A body that can be read is read paragraph by paragraph. -/
theorem runs_readBody {body : Element} (hfields : s.fields = [])
    (h : Runs (readBody notes body) s ns s') :
    ns = bodyNodes notes s.currentStyle body ∧ s.Rests s' := by
  obtain ⟨nss, t, hblocks, hpure⟩ := runs_bind.mp h
  obtain ⟨rfl, rfl⟩ := runs_pure.mp hpure
  exact runs_bodyBlocks hfields hblocks

/-- The property passes from nodes to the fields around them. -/
structure InheritedByFields (Q : Node → Prop) : Prop where
  text : ∀ t, Q (.text t)
  unresolved : ∀ kind id, Q (.unresolved kind id)
  field : ∀ ns : List Node, (∀ n ∈ ns, Q n) → Q (.group .fieldResult ⟨ns, []⟩)
  reference : ∀ code ns, (∀ n ∈ ns, Q n) → Q (.reference code ns)

/-- The property passes from nodes to the fields and paragraphs around them. -/
structure Inherited (Q : Node → Prop) : Prop extends InheritedByFields Q where
  paragraph : ∀ role ns labels, role.isParagraph = true → (∀ n ∈ ns, Q n) →
    Q (.group role ⟨ns, labels⟩)

/-- A property of fields passes to all that is met on a walk. -/
theorem InheritedByFields.walk {P : Node → Prop} (text : ∀ t, P (.text t))
    (unresolved : ∀ kind id, P (.unresolved kind id))
    (field : ∀ ns, P (.group .fieldResult ⟨ns, []⟩)) (reference : ∀ code ns, P (.reference code ns)) :
    InheritedByFields fun n => ∀ m ∈ n.walk, P m where
  text t := Node.forall_mem_walk (text t) (by simp [Node.children])
  unresolved kind id := Node.forall_mem_walk (unresolved kind id) (by simp [Node.children])
  field ns h := Node.forall_mem_walk (field ns) h
  reference code ns h := Node.forall_mem_walk (reference code ns) h

theorem Inherited.walk {P : Node → Prop} (text : ∀ t, P (.text t))
    (unresolved : ∀ kind id, P (.unresolved kind id)) (group : ∀ role c, P (.group role c))
    (reference : ∀ code ns, P (.reference code ns)) : Inherited fun n => ∀ m ∈ n.walk, P m where
  toInheritedByFields := .walk text unresolved (fun ns => group _ ⟨ns, []⟩) reference
  paragraph role ns labels _ h := Node.forall_mem_walk (group role ⟨ns, labels⟩) h

/-- The property holds of the notes where they are cited. -/
def Notes.Have (notes : Notes) (Q : Node → Prop) : Prop :=
  ∀ kind id body, notes.get? kind id = some body → Q (.note kind (some id) body)

namespace InheritedByFields

variable {Q : Node → Prop}

theorem fieldNode (hQ : InheritedByFields Q) (closed : Bool) (instruction : String) {ns : List Node}
    (h : ∀ n ∈ ns, Q n) : Q (fieldNode closed instruction ns) := by
  simp only [WordTex.fieldNode]
  split
  · exact hQ.reference _ ns h
  · exact hQ.field ns h

mutual

theorem nodes (hQ : InheritedByFields Q) : ∀ p : FieldPart, (∀ n, .node n ∈ p.events → Q n) →
    ∀ n ∈ p.nodes, Q n
  | .node n, h => by
    intro m hm
    obtain rfl := List.mem_singleton.mp hm
    exact h m List.mem_cons_self
  | .instruction text, _ => by simp [FieldPart.nodes]
  | .separator, _ => by simp [FieldPart.nodes]
  | .strayEnd, _ => by simp [FieldPart.nodes]
  | .field closed ps, h => by
    intro m hm
    obtain rfl := List.mem_singleton.mp hm
    refine hQ.fieldNode closed _ (hQ.nodesAll ps fun n hn => h n ?_)
    simp [FieldPart.events, hn]

theorem nodesAll (hQ : InheritedByFields Q) : ∀ ps : List FieldPart,
    (∀ n, .node n ∈ FieldPart.eventsAll ps → Q n) → ∀ n ∈ FieldPart.nodesAll ps, Q n
  | [], _ => by simp [FieldPart.nodesAll]
  | p :: ps, h => by
    intro n hn
    rcases List.mem_append.mp hn with hn | hn
    · exact hQ.nodes p (fun m hm => h m (List.mem_append_left _ hm)) n hn
    · exact hQ.nodesAll ps (fun m hm => h m (List.mem_append_right _ hm)) n hn

end

theorem event (hQ : InheritedByFields Q) (hnotes : notes.Have Q) (style : Style) (child : Element) :
    ∀ e ∈ runChildEvents notes style child, ∀ n, e = .node n → Q n := by
  have hcitation : ∀ kind id, Q (notes.citation kind id) := by
    intro kind id
    rw [Notes.citation]
    cases hbody : notes.get? kind id with
    | none => exact hQ.unresolved kind id
    | some body => exact hnotes kind id body hbody
  rw [runChildEvents]
  cases child.runItem with
  | text data => simp [hQ.text]
  | symbol font code => simp [hQ.text]
  | note kind id => simp [hcitation]
  | fieldMark type => cases hm : FieldMark.ofType? type <;> simp [hm]
  | _ => simp

theorem paragraphChildren (hQ : InheritedByFields Q) (hnotes : notes.Have Q) (style : Style)
    (paragraph : Element) : ∀ n ∈ (paragraphNode notes [] style paragraph).children, Q n := by
  rw [paragraphNode, Node.children, FieldEvent.deliver_eq]
  refine hQ.nodesAll _ fun m hm => ?_
  rw [FieldPart.eventsAll_ofEvents] at hm
  exact forall_mem_paragraphEvents (hQ.event hnotes) style paragraph _ hm m rfl

end InheritedByFields

theorem Inherited.bodyNodes {Q : Node → Prop} (hQ : Inherited Q) (hnotes : notes.Have Q)
    (style : Style) (body : Element) : ∀ n ∈ bodyNodes notes style body, Q n := by
  intro n hn
  obtain ⟨paragraph, -, rfl⟩ := List.mem_map.mp hn
  exact hQ.paragraph _ _ _ (isParagraph_foldl_roleAfter rfl _)
    (hQ.paragraphChildren hnotes style paragraph)

end WordTex
