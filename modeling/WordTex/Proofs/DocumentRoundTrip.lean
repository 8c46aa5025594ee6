import WordTex.Proofs.JsonRoundTrip
import WordTex.Proofs.RestoredRecords

/-! # Documents are restored from their JSON

What is written for a document is read as the same document, apart from which notes are entries of it.
Only where a note is missing nothing can be read. -/
namespace WordTex

namespace Json

theorem depth_lt_of_mem_items {v : Json} {items : List Json} (h : v ∈ items) :
    v.depth < (array items).depth := by
  rw [depth, Nat.lt_succ_iff]
  induction items with
  | nil => cases h
  | cons w items ih =>
    rw [depthOfItems]
    rcases List.mem_cons.mp h with rfl | h
    · exact Nat.le_max_left _ _
    · exact Nat.le_trans (ih h) (Nat.le_max_right _ _)

theorem depth_lt_of_mem_members {k : String} {v : Json} {members : List (String × Json)}
    (h : (k, v) ∈ members) : v.depth < (object members).depth := by
  rw [depth, Nat.lt_succ_iff]
  induction members with
  | nil => cases h
  | cons m members ih =>
    obtain ⟨k', w⟩ := m
    rw [depthOfMembers]
    rcases List.mem_cons.mp h with h | h
    · cases h
      exact Nat.le_max_left _ _
    · exact Nat.le_trans (ih h) (Nat.le_max_right _ _)

end Json

theorem depth_lt_nodesToJson {n : Node} {ns : List Node} (h : n ∈ ns) :
    n.toJson.depth < (Json.array (nodesToJson ns)).depth := by
  rw [nodesToJson_eq_map]
  exact Json.depth_lt_of_mem_items (List.mem_map_of_mem h)

theorem children_mem_containerMembers (c : Container) :
    ("children", Json.array (nodesToJson c.children)) ∈ containerMembers c := by
  rw [containerMembers_eq]
  exact List.mem_cons_self

theorem children_mem_documentMembers (d : Document) :
    ("children", Json.array (nodesToJson d.children)) ∈ documentMembers d := by
  rw [documentMembers_eq]
  exact List.mem_cons_self

theorem notes_mem_documentMembers (d : Document) (kind : NoteKind) :
    ∃ name, (name, Json.object (notesToJson (d.notes kind))) ∈ documentMembers d := by
  rw [documentMembers_eq]
  cases kind with
  | footnote => exact ⟨"footnotes", by simp [Document.notes]⟩
  | endnote => exact ⟨"endnotes", by simp [Document.notes]⟩

/-- What stands in a note of a document is at least four levels below. -/
theorem depth_children_lt {d : Document} {kind : NoteKind} {e : String × Container}
    (he : e ∈ d.notes kind) {members : List (String × Json)}
    (h : ∀ m ∈ documentMembers d, m ∈ members) :
    (Json.array (nodesToJson e.2.children)).depth + 2 < (Json.object members).depth := by
  obtain ⟨name, hname⟩ := notes_mem_documentMembers d kind
  have hnotes := Json.depth_lt_of_mem_members (h _ hname)
  have hmem : (e.1, e.2.toJson) ∈ notesToJson (d.notes kind) := by
    rw [notesToJson_eq_map]
    exact List.mem_map_of_mem he
  have hnote := Json.depth_lt_of_mem_members hmem
  have hchildren : (Json.array (nodesToJson e.2.children)).depth < e.2.toJson.depth :=
    Json.depth_lt_of_mem_members (children_mem_containerMembers e.2)
  omega

/-- What is directly in a node is nested less deeply than the node. -/
theorem Node.depth_lt_of_mem_contents {n m : Node} (hm : m ∈ n.contents) :
    m.toJson.depth < n.toJson.depth := by
  have hcontainer : ∀ (c : Container) (members : List (String × Json)), m ∈ c.children →
      (∀ e ∈ containerMembers c, e ∈ members) → m.toJson.depth < (Json.object members).depth := by
    intro c members hm h
    exact Nat.lt_trans (depth_lt_nodesToJson hm)
      (Json.depth_lt_of_mem_members (h _ (children_mem_containerMembers c)))
  cases n with
  | text t => cases hm
  | unresolved kind id => cases hm
  | group role c =>
    rw [toJson]
    exact hcontainer c _ hm fun e he => List.mem_cons_of_mem _ he
  | note kind entry c =>
    rw [toJson]
    exact hcontainer c _ hm fun e he => List.mem_cons_of_mem _ he
  | reference code children =>
    rw [toJson]
    have hchildren : m.toJson.depth < (Json.array (nodesToJson children)).depth :=
      depth_lt_nodesToJson hm
    exact Nat.lt_trans hchildren (Json.depth_lt_of_mem_members (k := "children") (by simp))
  | named name c =>
    rw [toJson]
    exact Nat.lt_trans (hcontainer c _ hm fun e he => he)
      (Json.depth_lt_of_mem_members (k := "container") (by simp))
  | document d =>
    rw [toJson]
    rcases Document.mem_contents_iff.mp hm with hm | ⟨kind, e, he, hm⟩
    · exact Nat.lt_trans (depth_lt_nodesToJson hm)
        (Json.depth_lt_of_mem_members (List.mem_cons_of_mem _ (children_mem_documentMembers d)))
    · have hinner := depth_lt_nodesToJson hm
      have hnote := depth_children_lt he fun m hm => List.mem_cons_of_mem (tagMember .document) hm
      omega

/-- A node is restored, if everything directly in it is. -/
theorem nodeOfJson?_succ {levels : Nat} {n : Node} (hsorted : n.IsSorted) (byPosition : Bool)
    (h : ∀ m ∈ n.contents,
      nodeOfJson? levels true m.toJson = restored m.hasUnresolved m.withoutEntries) :
    nodeOfJson? (levels + 1) byPosition n.toJson = restored n.hasUnresolved n.withoutEntries := by
  have hcontainer : ∀ c : Container, (∀ m ∈ c.children, m ∈ n.contents) →
      containerOfJson? (nodesOfJson? (nodeOfJson? levels true)) (.object (containerMembers c)) =
        restored c.hasUnresolved c.withoutEntries :=
    fun c hc => containerOfJson?_toJson (nodesOfJson?_nodesToJson fun m hm => h m (hc m hm))
  cases n with
  | text t =>
    have htext : StyledText.ofJson? (.object (textMembers t)) = some t := t.ofJson?_toJson
    rw [Node.toJson, nodeOfJson?, tagged?_object _ _ (by simp [textMembers])]
    simp only [Option.bind_eq_bind, Option.bind_some, htext]
    rfl
  | unresolved kind id => rfl
  | group role c =>
    rw [Node.toJson, nodeOfJson?, tagged?_object _ _ (by simp [containerMembers_eq]),
      Node.hasUnresolved_group, Node.withoutEntries_group]
    simp only [Option.bind_eq_bind, Option.bind_some, hcontainer c fun m hm => hm]
    cases c.hasUnresolved <;> rfl
  | note kind entry c =>
    rw [Node.toJson, nodeOfJson?, tagged?_object _ _ (by simp [containerMembers_eq]),
      Node.hasUnresolved_note, Node.withoutEntries_note]
    simp only [Option.bind_eq_bind, Option.bind_some, hcontainer c fun m hm => hm]
    cases c.hasUnresolved <;> rfl
  | reference code children =>
    have hreference : referenceOfJson? (nodesOfJson? (nodeOfJson? levels true))
        (.object [("code", .string code), ("children", .array (nodesToJson children))]) =
          restored (children.any Node.hasUnresolved) (code, children.map Node.withoutEntries) :=
      referenceOfJson?_referenceToJson (nodesOfJson?_nodesToJson h)
    rw [Node.toJson, nodeOfJson?, tagged?_object _ _ (by simp), Node.hasUnresolved_reference,
      Node.withoutEntries_reference]
    simp only [Option.bind_eq_bind, Option.bind_some, hreference]
    cases children.any Node.hasUnresolved <;> rfl
  | named name c =>
    have hfields : Json.fields? ["name", "container"]
        (.object [("name", .string name), ("container", .object (containerMembers c))]) =
          some [.string name, .object (containerMembers c)] := Json.fields?_object rfl (by decide)
    rw [Node.toJson, nodeOfJson?, tagged?_object _ _ (by simp), Node.hasUnresolved_named,
      Node.withoutEntries_named]
    simp only [Option.bind_eq_bind, Option.bind_some, hfields, Json.string?,
      hcontainer c fun m hm => hm]
    cases c.hasUnresolved <;> rfl
  | document d =>
    have hdocument : documentOfJson? (nodesOfJson? (nodeOfJson? levels true))
        (containerOfJson? (nodesOfJson? (nodeOfJson? levels true))) (.object (documentMembers d)) =
          restored d.hasUnresolved d.withoutEntries :=
      documentOfJson?_toJson hsorted
        (nodesOfJson?_nodesToJson fun m hm => h m (Document.mem_contents_iff.mpr (.inl hm)))
        fun kind e he => hcontainer e.2 fun m hm =>
          Document.mem_contents_iff.mpr (.inr ⟨kind, e, he, hm⟩)
    rw [Node.toJson, nodeOfJson?, tagged?_object _ _ (by simp [documentMembers_eq]),
      Node.hasUnresolved_document, Node.withoutEntries_document]
    simp only [Option.bind_eq_bind, Option.bind_some, hdocument]
    cases d.hasUnresolved <;> rfl

theorem Node.depth_toJson_pos (n : Node) : 0 < n.toJson.depth := by
  cases n <;> exact Nat.succ_pos _

/-- A node is restored by a reader that goes deep enough. -/
theorem nodeOfJson?_toJson (n : Node) (hsorted : n.AllSorted) {levels : Nat} (byPosition : Bool)
    (hlevels : n.toJson.depth ≤ levels) :
    nodeOfJson? levels byPosition n.toJson = restored n.hasUnresolved n.withoutEntries := by
  induction n using Node.storedInduction generalizing levels byPosition with
  | step n ih =>
    obtain ⟨hown, hcontents⟩ := n.allSorted_iff.mp hsorted
    have hpos := n.depth_toJson_pos
    obtain ⟨levels, rfl⟩ := Nat.exists_eq_add_of_lt (Nat.lt_of_lt_of_le hpos hlevels)
    refine nodeOfJson?_succ hown byPosition fun m hm => ih m hm (hcontents m hm) true ?_
    have hdepth := Node.depth_lt_of_mem_contents hm
    omega

theorem Node.ofJson?_toJson {n : Node} (hsorted : n.AllSorted) :
    ofJson? n.toJson = restored n.hasUnresolved n.withoutEntries :=
  nodeOfJson?_toJson n hsorted false (Nat.le_refl _)

theorem childrenOfJson?_nodesToJson {ns : List Node} (hsorted : ∀ n ∈ ns, n.AllSorted) :
    childrenOfJson? (.array (nodesToJson ns)) =
      restored (ns.any Node.hasUnresolved) (ns.map Node.withoutEntries) :=
  nodesOfJson?_nodesToJson fun n hn => Node.ofJson?_toJson (hsorted n hn)

theorem isTextual_nodesToJson {ns : List Node} (h : ∀ n ∈ ns, n.toJson.isTextual) :
    (Json.array (nodesToJson ns)).isTextual := by
  rw [Json.isTextual_array_iff, nodesToJson_eq_map]
  exact List.forall_mem_map.mpr h

theorem isTextual_stringsToJson (ss : List String) : (stringsToJson ss).isTextual := by
  rw [stringsToJson, Json.isTextual_array_iff]
  exact List.forall_mem_map.mpr fun s _ => rfl

theorem isTextual_stringMapToJson (d : Dictionary String) : (stringMapToJson d).isTextual := by
  rw [stringMapToJson, Json.isTextual_object_iff]
  exact List.forall_mem_map.mpr fun e _ => rfl

theorem isTextual_containerMembers {c : Container} (h : ∀ n ∈ c.children, n.toJson.isTextual) :
    ∀ m ∈ containerMembers c, m.2.isTextual := by
  simp [containerMembers_eq, isTextual_nodesToJson h, isTextual_stringsToJson]

theorem isTextual_documentMembers {d : Document} (h : ∀ n ∈ d.contents, n.toJson.isTextual) :
    ∀ m ∈ documentMembers d, m.2.isTextual := by
  have hnotes : ∀ kind, (Json.object (notesToJson (d.notes kind))).isTextual := by
    intro kind
    rw [Json.isTextual_object_iff, notesToJson_eq_map]
    refine List.forall_mem_map.mpr fun e he => ?_
    rw [Container.toJson, Json.isTextual_object_iff]
    exact isTextual_containerMembers fun n hn =>
      h n (Document.mem_contents_iff.mpr (.inr ⟨kind, e, he, hn⟩))
  have hchildren := isTextual_nodesToJson fun n hn => h n (Document.mem_contents_iff.mpr (.inl hn))
  have hfootnotes := hnotes .footnote
  have hendnotes := hnotes .endnote
  simp only [Document.notes] at hfootnotes hendnotes
  simp [documentMembers_eq, hchildren, hfootnotes, hendnotes, isTextual_stringsToJson,
    isTextual_stringMapToJson]

/-- Only strings, arrays and objects are written for a node. -/
theorem Node.isTextual_toJson (n : Node) : n.toJson.isTextual := by
  induction n using Node.storedInduction with
  | step n ih =>
    cases n with
    | text t => rfl
    | unresolved kind id => rfl
    | group role c =>
      rw [toJson, Json.isTextual_object_iff]
      exact List.forall_mem_cons.mpr ⟨rfl, isTextual_containerMembers ih⟩
    | note kind entry c =>
      rw [toJson, Json.isTextual_object_iff]
      exact List.forall_mem_cons.mpr ⟨rfl, isTextual_containerMembers ih⟩
    | reference code children =>
      have hchildren : (Json.array (nodesToJson children)).isTextual := isTextual_nodesToJson ih
      rw [toJson, Json.isTextual_object_iff]
      exact List.forall_mem_cons.mpr
        ⟨rfl, List.forall_mem_cons.mpr ⟨rfl, List.forall_mem_singleton.mpr hchildren⟩⟩
    | named name c =>
      have hcontainer : (Json.object (containerMembers c)).isTextual := by
        rw [Json.isTextual_object_iff]
        exact isTextual_containerMembers ih
      rw [toJson, Json.isTextual_object_iff]
      exact List.forall_mem_cons.mpr
        ⟨rfl, List.forall_mem_cons.mpr ⟨rfl, List.forall_mem_singleton.mpr hcontainer⟩⟩
    | document d =>
      rw [toJson, Json.isTextual_object_iff]
      exact List.forall_mem_cons.mpr ⟨rfl, isTextual_documentMembers ih⟩

theorem Container.isTextual_toJson (c : Container) : c.toJson.isTextual := by
  rw [toJson, Json.isTextual_object_iff]
  exact isTextual_containerMembers fun n _ => n.isTextual_toJson

theorem Document.isTextual_toJson (d : Document) : d.toJson.isTextual := by
  rw [toJson, Json.isTextual_object_iff]
  exact isTextual_documentMembers fun n _ => n.isTextual_toJson

theorem isTextual_referenceToJson (code : String) (children : List Node) :
    (referenceToJson code children).isTextual := by
  have hchildren := isTextual_nodesToJson fun (n : Node) (_ : n ∈ children) => n.isTextual_toJson
  rw [referenceToJson, Json.isTextual_object_iff]
  exact List.forall_mem_cons.mpr ⟨rfl, List.forall_mem_singleton.mpr hchildren⟩

theorem withinLevels_of_isTextual {α : Type} {levels : Nat} {read? : Json → Option α} {j : Json}
    (hj : j.isTextual) (hlevels : j.depth ≤ levels) : withinLevels levels read? j = read? j := by
  rw [withinLevels, if_pos]
  simp [Json.fits, hlevels, Json.isSound_of_isTextual j hj]

/-- The children of a node or of a record that is not nested too deeply. -/
theorem withinLevels_nodesToJson {levels : Nat} {ns : List Node} (hsorted : ∀ n ∈ ns, n.AllSorted)
    (hlevels : (Json.array (nodesToJson ns)).depth ≤ levels) :
    withinLevels levels childrenOfJson? (.array (nodesToJson ns)) =
      restored (ns.any Node.hasUnresolved) (ns.map Node.withoutEntries) := by
  have htextual := isTextual_nodesToJson fun (n : Node) (_ : n ∈ ns) => n.isTextual_toJson
  rw [withinLevels_of_isTextual htextual hlevels, childrenOfJson?_nodesToJson hsorted]

theorem StyledText.ofJsonText?_toText (t : StyledText) : ofJsonText? t.toJson.toText = some t := by
  rw [ofJsonText?, Json.ofText?_toText (v := t.toJson) rfl, Option.bind_some, ofJson?_toJson]

theorem Node.ofJsonText?_toText {n : Node} (hsorted : n.AllSorted)
    (hlevels : n.toJson.depth ≤ maxLevels) :
    ofJsonText? n.toJson.toText = restored n.hasUnresolved n.withoutEntries := by
  rw [ofJsonText?, Json.ofText?_toText n.isTextual_toJson, Option.bind_some,
    withinLevels_of_isTextual n.isTextual_toJson hlevels, ofJson?_toJson hsorted]

theorem Container.ofJsonText?_toText {c : Container} (hsorted : c.AllSorted)
    (hlevels : c.toJson.depth ≤ maxLevels) :
    ofJsonText? c.toJson.toText = restored c.hasUnresolved c.withoutEntries := by
  have hchildren : (Json.array (nodesToJson c.children)).depth < c.toJson.depth :=
    Json.depth_lt_of_mem_members (children_mem_containerMembers c)
  rw [ofJsonText?, Json.ofText?_toText c.isTextual_toJson, Option.bind_some]
  exact containerOfJson?_toJson (withinLevels_nodesToJson hsorted (by omega))

theorem referenceOfJsonText?_toText {code : String} {children : List Node}
    (hsorted : ∀ n ∈ children, n.AllSorted)
    (hlevels : (referenceToJson code children).depth ≤ maxLevels) :
    referenceOfJsonText? (referenceToJson code children).toText =
      restored (children.any Node.hasUnresolved) (code, children.map Node.withoutEntries) := by
  have hchildren : (Json.array (nodesToJson children)).depth < (referenceToJson code children).depth :=
    Json.depth_lt_of_mem_members (k := "children") (by simp)
  rw [referenceOfJsonText?, Json.ofText?_toText (isTextual_referenceToJson code children),
    Option.bind_some]
  exact referenceOfJson?_referenceToJson (withinLevels_nodesToJson hsorted (by omega))

theorem Document.ofJsonText?_toText {d : Document} (hsorted : d.AllSorted)
    (hlevels : d.toJson.depth ≤ maxLevels) :
    ofJsonText? d.toJson.toText = restored d.hasUnresolved d.withoutEntries := by
  have hchildren : (Json.array (nodesToJson d.children)).depth < d.toJson.depth :=
    Json.depth_lt_of_mem_members (children_mem_documentMembers d)
  rw [ofJsonText?, Json.ofText?_toText d.isTextual_toJson, Option.bind_some]
  refine documentOfJson?_toJson hsorted.1 (withinLevels_nodesToJson ?_ (by omega)) fun kind e he =>
    containerOfJson?_toJson (withinLevels_nodesToJson ?_ ?_)
  · exact fun n hn => hsorted.2 n (mem_contents_iff.mpr (.inl hn))
  · exact fun n hn => hsorted.2 n (mem_contents_iff.mpr (.inr ⟨kind, e, he, hn⟩))
  · have hnote : (Json.array (nodesToJson e.2.children)).depth + 2 < d.toJson.depth :=
      depth_children_lt he fun m hm => hm
    omega

/-- What is written for a text, a node, a container, a cross-reference or a document is read as the same
again, with copies of the notes, and cannot be read where a note is missing somewhere in it. Documents
keep their entries in the order of their keys, and there is a bound on the nesting of what is read. -/
theorem restored_from_text :
    (∀ t : StyledText, StyledText.ofJsonText? t.toJson.toText = some t) ∧
      (∀ n : Node, n.AllSorted → n.toJson.depth ≤ maxLevels →
        Node.ofJsonText? n.toJson.toText = if n.hasUnresolved then none else some n.withoutEntries) ∧
      (∀ c : Container, c.AllSorted → c.toJson.depth ≤ maxLevels →
        Container.ofJsonText? c.toJson.toText =
          if c.hasUnresolved then none else some c.withoutEntries) ∧
      (∀ (code : String) (children : List Node), (∀ n ∈ children, n.AllSorted) →
        (referenceToJson code children).depth ≤ maxLevels →
          referenceOfJsonText? (referenceToJson code children).toText =
            if children.any Node.hasUnresolved then none
            else some (code, children.map Node.withoutEntries)) ∧
      ∀ d : Document, d.AllSorted → d.toJson.depth ≤ maxLevels →
        Document.ofJsonText? d.toJson.toText =
          if d.hasUnresolved then none else some d.withoutEntries :=
  ⟨StyledText.ofJsonText?_toText, fun _ => Node.ofJsonText?_toText,
    fun _ => Container.ofJsonText?_toText, fun _ _ => referenceOfJsonText?_toText,
    fun _ => Document.ofJsonText?_toText⟩

/-- A document with a note that it stores and cites, and with another document in it, in which the
result of a cross-reference is given. -/
def nestedDocument (result : Node) : Document where
  children := [
    .group .heading1
      ⟨[.text ⟨"a\"\u0001", ⟨0xE1⟩⟩, .note .footnote (some "1") ⟨[], ["b"]⟩], ["c"]⟩,
    .named "emph"
      ⟨[.document ⟨[.reference "c" [result]], [], [("title", "d")], [], [("2", ⟨[], []⟩)], []⟩], []⟩]
  labels := []
  metadata := [("creator", "e"), ("title", "f")]
  footnotes := [("1", ⟨[], ["b"]⟩)]
  endnotes := []
  relationships := []

/-- With a text as the result the document is restored, wherever it stands; with a missing note it is
not. -/
theorem restored_nestedDocument :
    (nestedDocument (.text ⟨"g", .empty⟩)).AllSorted ∧
      (nestedDocument (.text ⟨"g", .empty⟩)).toJson.depth ≤ maxLevels ∧
      Document.ofJsonText? (nestedDocument (.text ⟨"g", .empty⟩)).toJson.toText =
        some (nestedDocument (.text ⟨"g", .empty⟩)).withoutEntries ∧
      Node.ofJsonText? (Node.document (nestedDocument (.text ⟨"g", .empty⟩))).toJson.toText =
        some (Node.document (nestedDocument (.text ⟨"g", .empty⟩))).withoutEntries ∧
      Container.ofJsonText?
          (Container.ofChildren [.document (nestedDocument (.text ⟨"g", .empty⟩))]).toJson.toText =
        some (Container.ofChildren [.document (nestedDocument (.text ⟨"g", .empty⟩))]).withoutEntries ∧
      referenceOfJsonText?
          (referenceToJson "h" [.document (nestedDocument (.text ⟨"g", .empty⟩))]).toText =
        some ("h", [(Node.document (nestedDocument (.text ⟨"g", .empty⟩))).withoutEntries]) ∧
      Document.ofJsonText? (nestedDocument (.unresolved .endnote "3")).toJson.toText = none := by
  obtain ⟨-, hnode, hcontainer, hreference, hdocument⟩ := restored_from_text
  refine ⟨by decide, by decide, ?_, ?_, ?_, ?_, ?_⟩
  · exact hdocument (nestedDocument (.text ⟨"g", .empty⟩)) (by decide) (by decide)
  · exact hnode (.document (nestedDocument (.text ⟨"g", .empty⟩))) (by decide) (by decide)
  · exact hcontainer (.ofChildren [.document (nestedDocument (.text ⟨"g", .empty⟩))]) (by decide)
      (by decide)
  · exact hreference "h" [.document (nestedDocument (.text ⟨"g", .empty⟩))] (by decide) (by decide)
  · exact hdocument (nestedDocument (.unresolved .endnote "3")) (by decide) (by decide)

end WordTex
