import WordTex.DocumentFromJson
import WordTex.Proofs.StoredNodes
import WordTex.Proofs.WrittenStyles

/-! # Records are restored from their JSON

A record is restored, if its fields are. What is written for a container or for a document is such a
record, given that the nodes in it are restored; nodes in which a note is missing are lost. -/
namespace WordTex

/-- A value that is restored, if nothing of it was lost. -/
def restored {α : Type} (lost : Bool) (a : α) : Option α := if lost then none else some a

/-- A list is restored, if each of its items is. -/
theorem mapM_map_restored {α β γ : Type} {write : α → β} {read : β → Option γ} {l : List α}
    {lost : α → Bool} {g : α → γ} (h : ∀ x ∈ l, read (write x) = restored (lost x) (g x)) :
    (l.map write).mapM read = restored (l.any lost) (l.map g) := by
  induction l with
  | nil => rfl
  | cons x l ih =>
    rw [List.map_cons, List.mapM_cons, h x List.mem_cons_self,
      ih fun y hy => h y (List.mem_cons_of_mem x hy), List.any_cons, List.map_cons]
    cases lost x <;> cases l.any lost <;> rfl

namespace Json

/-- Of members with different names, one has the name of each. -/
theorem filter_name_eq {members : List (String × Json)} (h : (members.map Prod.fst).Nodup)
    {m : String × Json} (hm : m ∈ members) : members.filter (·.1 == m.1) = [m] := by
  induction members with
  | nil => cases hm
  | cons e members ih =>
    rw [List.map_cons, List.nodup_cons] at h
    rcases List.mem_cons.mp hm with rfl | hm
    · rw [List.filter_cons_of_pos (by simp)]
      refine congrArg _ (List.filter_eq_nil_iff.mpr fun e he hname => h.1 ?_)
      exact (beq_iff_eq.mp hname) ▸ List.mem_map_of_mem he
    · have hne : e.1 ≠ m.1 := fun he => h.1 (he ▸ List.mem_map_of_mem hm)
      rw [List.filter_cons_of_neg (by simpa using hne), ih h.2 hm]

/-- The fields of an object with no other members. -/
theorem fields?_object {names : List String} {members : List (String × Json)}
    (hnames : members.map Prod.fst = names) (h : names.Nodup) :
    fields? names (.object members) = some (members.map Prod.snd) := by
  subst hnames
  rw [fields?]
  exact mapM_map_eq_some fun m hm => by rw [filter_name_eq h hm]

theorem strings?_stringsToJson (ss : List String) : (stringsToJson ss).strings? = some ss := by
  have hitems : (ss.map string).mapM string? = some (ss.map id) := mapM_map_eq_some fun _ _ => rfl
  rw [stringsToJson, strings?, hitems, List.map_id]

theorem dictionary?_stringMapToJson {d : Dictionary String} (h : d.IsSorted) :
    (stringMapToJson d).dictionary? string? = some d := by
  have hmembers : (d.map fun e => (e.1, string e.2)).mapM
      (fun m => (string? m.2).map (m.1, ·)) = some (d.map id) := mapM_map_eq_some fun _ _ => rfl
  rw [stringMapToJson, dictionary?, hmembers, Option.map_some, List.map_id,
    Dictionary.ofPairs_of_isSorted h]

end Json

theorem StyledText.ofJson?_toJson (t : StyledText) : ofJson? t.toJson = some t := by
  have hfields : t.toJson.fields? ["data", "styles"] =
      some [.string t.data, .string t.styles.toText] := Json.fields?_object rfl (by decide)
  simp [ofJson?, hfields, Json.string?, Style.ofText?_toText]

theorem NodeForm.ofTag?_tag (byPosition : Bool) (f : NodeForm) :
    ofTag? byPosition (.string f.tag) = some f := by
  have hall : ∀ f ∈ all, ofTag? byPosition (.string f.tag) = some f := by
    simp only [ofTag?]
    decide
  cases f with
  | group role => cases role <;> exact hall _ (by decide)
  | note kind => cases kind <;> exact hall _ (by decide)
  | _ => exact hall _ (by decide)

theorem tagged?_object (byPosition : Bool) (f : NodeForm) {members : List (String × Json)}
    (h : ∀ m ∈ members, m.1 ≠ "kind") :
    tagged? byPosition (.object (tagMember f :: members)) = some (f, .object members) := by
  have htag : members.filter (·.1 == "kind") = [] :=
    List.filter_eq_nil_iff.mpr fun m hm => by simpa using h m hm
  have hrecord : members.filter (·.1 != "kind") = members :=
    List.filter_eq_self.mpr fun m hm => by simpa using h m hm
  simp [tagged?, tagMember, htag, hrecord, NodeForm.ofTag?_tag]

theorem nodesToJson_eq_map (ns : List Node) : nodesToJson ns = ns.map Node.toJson := by
  induction ns with
  | nil => rfl
  | cons n ns ih => rw [nodesToJson, ih, List.map_cons]

theorem notesToJson_eq_map (notes : List (String × Container)) :
    notesToJson notes = notes.map fun e => (e.1, e.2.toJson) := by
  induction notes with
  | nil => rfl
  | cons e notes ih =>
    obtain ⟨id, c⟩ := e
    rw [notesToJson, ih, List.map_cons, Container.toJson]

theorem containerMembers_eq (c : Container) : containerMembers c =
    [("children", .array (nodesToJson c.children)), ("labels", stringsToJson c.labels)] := by
  cases c
  rw [containerMembers]

theorem documentMembers_eq (d : Document) : documentMembers d =
    [("children", .array (nodesToJson d.children)), ("labels", stringsToJson d.labels),
      ("metadata", stringMapToJson d.metadata), ("footnotes", .object (notesToJson d.footnotes)),
      ("endnotes", .object (notesToJson d.endnotes)),
      ("relationships", stringMapToJson d.relationships)] := by
  cases d
  rw [documentMembers]

section

variable {node? : Json → Option Node} {nodes? : Json → Option (List Node)}
  {container? : Json → Option Container}

theorem nodesOfJson?_nodesToJson {ns : List Node}
    (h : ∀ n ∈ ns, node? n.toJson = restored n.hasUnresolved n.withoutEntries) :
    nodesOfJson? node? (.array (nodesToJson ns)) =
      restored (ns.any Node.hasUnresolved) (ns.map Node.withoutEntries) := by
  rw [nodesToJson_eq_map]
  exact mapM_map_restored h

theorem containerOfJson?_toJson {c : Container}
    (h : nodes? (.array (nodesToJson c.children)) =
      restored c.hasUnresolved (c.children.map Node.withoutEntries)) :
    containerOfJson? nodes? c.toJson = restored c.hasUnresolved c.withoutEntries := by
  have hfields : c.toJson.fields? ["children", "labels"] =
      some [.array (nodesToJson c.children), stringsToJson c.labels] := by
    rw [Container.toJson, containerMembers_eq]
    exact Json.fields?_object rfl (by decide)
  simp only [containerOfJson?, hfields, Option.bind_eq_bind, Option.bind_some, h,
    Json.strings?_stringsToJson]
  cases c.hasUnresolved <;> rfl

theorem referenceOfJson?_referenceToJson {code : String} {children : List Node}
    (h : nodes? (.array (nodesToJson children)) =
      restored (children.any Node.hasUnresolved) (children.map Node.withoutEntries)) :
    referenceOfJson? nodes? (referenceToJson code children) =
      restored (children.any Node.hasUnresolved) (code, children.map Node.withoutEntries) := by
  have hfields : (referenceToJson code children).fields? ["code", "children"] =
      some [.string code, .array (nodesToJson children)] := Json.fields?_object rfl (by decide)
  simp only [referenceOfJson?, hfields, Option.bind_eq_bind, Option.bind_some, h, Json.string?]
  cases children.any Node.hasUnresolved <;> rfl

theorem dictionary?_notesToJson {notes : NoteMap} (hsorted : Dictionary.IsSorted notes)
    (h : ∀ e ∈ notes, container? e.2.toJson = restored e.2.hasUnresolved e.2.withoutEntries) :
    (Json.object (notesToJson notes)).dictionary? container? =
      restored (notes.any fun e => e.2.hasUnresolved)
        (notes.map fun e => (e.1, e.2.withoutEntries)) := by
  have hmembers : (notesToJson notes).mapM (fun m => (container? m.2).map (m.1, ·)) =
      restored (notes.any fun e => e.2.hasUnresolved)
        (notes.map fun e => (e.1, e.2.withoutEntries)) := by
    rw [notesToJson_eq_map]
    refine mapM_map_restored fun e he => ?_
    rw [h e he]
    cases e.2.hasUnresolved <;> rfl
  have hkeys : Dictionary.IsSorted (notes.map fun e => (e.1, e.2.withoutEntries)) := by
    rw [Dictionary.IsSorted, Dictionary.keys, List.map_map]
    exact hsorted
  rw [Json.dictionary?, hmembers]
  cases notes.any fun e => e.2.hasUnresolved
  · exact congrArg some (Dictionary.ofPairs_of_isSorted hkeys)
  · rfl

theorem Document.hasUnresolved_eq (d : Document) :
    d.hasUnresolved = (d.children.any Node.hasUnresolved ||
      d.footnotes.any (fun e => e.2.hasUnresolved) || d.endnotes.any fun e => e.2.hasUnresolved) := by
  rw [hasUnresolved, contents, List.any_append, List.any_append, List.any_flatMap, List.any_flatMap]
  rfl

theorem documentOfJson?_toJson {d : Document} (hsorted : d.IsSorted)
    (hchildren : nodes? (.array (nodesToJson d.children)) =
      restored (d.children.any Node.hasUnresolved) (d.children.map Node.withoutEntries))
    (hnotes : ∀ kind, ∀ e ∈ d.notes kind,
      container? e.2.toJson = restored e.2.hasUnresolved e.2.withoutEntries) :
    documentOfJson? nodes? container? d.toJson = restored d.hasUnresolved d.withoutEntries := by
  have hfootnotes := dictionary?_notesToJson hsorted.footnotes (hnotes .footnote)
  have hendnotes := dictionary?_notesToJson hsorted.endnotes (hnotes .endnote)
  have hmetadata := Json.dictionary?_stringMapToJson hsorted.metadata
  have hrelationships := Json.dictionary?_stringMapToJson hsorted.relationships
  have hfields : d.toJson.fields?
      ["children", "labels", "metadata", "footnotes", "endnotes", "relationships"] =
      some [.array (nodesToJson d.children), stringsToJson d.labels, stringMapToJson d.metadata,
        .object (notesToJson d.footnotes), .object (notesToJson d.endnotes),
        stringMapToJson d.relationships] := by
    rw [Document.toJson, documentMembers_eq]
    exact Json.fields?_object rfl (by decide)
  simp only [documentOfJson?, hfields, Option.bind_eq_bind, Option.bind_some, hchildren, hfootnotes,
    hendnotes, hmetadata, hrelationships, Json.strings?_stringsToJson, d.hasUnresolved_eq]
  cases d.children.any Node.hasUnresolved <;> cases d.footnotes.any fun e => e.2.hasUnresolved <;>
    cases d.endnotes.any fun e => e.2.hasUnresolved <;> rfl

end

end WordTex
