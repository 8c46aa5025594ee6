import Mathlib.Data.List.Pairwise
import WordTex.Proofs.ReadablePackages

/-! # Notes do not influence each other

Each note of a part is read from a state of its own. Under an id there is what the last child with that
id is read as, whatever stands around it: other notes, notes with the same id before it, and what
these leave open. -/
namespace WordTex

open DocumentReading Reading

namespace Element

/-- Alone and with no notes at hand, the element is read as these nodes. -/
def ReadsAs (child : Element) (ns : List Node) : Prop :=
  ∀ part log, ∃ s', (readBody .empty child).run.run (.start part log) = (.ok ns, s')

/-- The last child that has this id. -/
def lastWithId? (root : Element) (id : String) : Option Element :=
  root.childElements.reverse.find? fun child => child.attribute? "w:id" == some id

/-- The ids of the children, of those that have one. -/
def childIds (root : Element) : List String := root.childElements.filterMap (·.attribute? "w:id")

variable {root root' child : Element} {id : String}

theorem readsAs_iff {ns : List Node} :
    child.ReadsAs ns ↔ child.HasKnownMarks ∧ ns = bodyNodes .empty .empty child := by
  constructor
  · intro h
    obtain ⟨s', hrun⟩ := h "" []
    exact ⟨(succeedsIff_readBody .empty child _).mp ⟨ns, s', hrun⟩, (runs_readBody rfl hrun).1⟩
  · rintro ⟨hknown, rfl⟩ part log
    obtain ⟨ns, s', hrun⟩ := (succeedsIff_readBody .empty child (.start part log)).mpr hknown
    obtain ⟨rfl, -⟩ := runs_readBody rfl hrun
    exact ⟨s', hrun⟩

theorem mem_childIds :
    id ∈ root.childIds ↔ ∃ child ∈ root.childElements, child.attribute? "w:id" = some id :=
  List.mem_filterMap

theorem mem_of_lastWithId? (h : root.lastWithId? id = some child) :
    child ∈ root.childElements ∧ child.attribute? "w:id" = some id := by
  have hid := List.find?_some h
  exact ⟨List.mem_reverse.mp (List.mem_of_find?_eq_some h), beq_iff_eq.mp hid⟩

theorem lastWithId?_eq_some_iff (hids : root.childIds.Nodup) : root.lastWithId? id = some child ↔
    child ∈ root.childElements ∧ child.attribute? "w:id" = some id := by
  refine ⟨mem_of_lastWithId?, fun ⟨hchild, hid⟩ => ?_⟩
  have hsome : (root.lastWithId? id).isSome :=
    List.find?_isSome.mpr ⟨child, List.mem_reverse.mpr hchild, beq_iff_eq.mpr hid⟩
  obtain ⟨last, hlast⟩ := Option.isSome_iff_exists.mp hsome
  obtain ⟨hmem, hlastId⟩ := mem_of_lastWithId? hlast
  have hdistinct := List.pairwise_filterMap.mp hids
  have hsymm : Std.Symm fun a b : Element => ∀ k, a.attribute? "w:id" = some k →
      ∀ l, b.attribute? "w:id" = some l → k ≠ l :=
    ⟨fun a b h k hk l hl => (h l hl k hk).symm⟩
  by_contra hne
  have hother : child ≠ last := fun h => hne (h ▸ hlast)
  exact hdistinct.forall hchild hmem hother id hid id hlastId rfl

/-- If no two children have the same id, the order of the children does not matter. -/
theorem lastWithId?_of_perm (hperm : root'.childElements.Perm root.childElements)
    (hids : root.childIds.Nodup) (id : String) : root'.lastWithId? id = root.lastWithId? id := by
  have hids' : root'.childIds.Nodup := (hperm.filterMap _).nodup_iff.mpr hids
  refine Option.ext fun child => ?_
  rw [lastWithId?_eq_some_iff hids, lastWithId?_eq_some_iff hids', hperm.mem_iff]

end Element

theorem find?_noteElements (root : Element) (id : String) :
    root.noteElements.reverse.find? (·.1 == id) = (root.lastWithId? id).map (id, ·) := by
  have hentry : ∀ child : Element, ((child.attribute? "w:id").map (·, child)).any (·.1 == id) =
      (child.attribute? "w:id" == some id) := by
    intro child
    cases child.attribute? "w:id" <;> rfl
  rw [Element.noteElements, ← List.filterMap_reverse, List.find?_filterMap]
  simp only [hentry]
  change (root.lastWithId? id).bind _ = _
  cases hlast : root.lastWithId? id with
  | none => rfl
  | some child => simp [(Element.mem_of_lastWithId? hlast).2]

theorem get?_notesOf (root : Element) (id : String) :
    Dictionary.get? id (notesOf root) = (root.lastWithId? id).map noteBody := by
  rw [notesOf, Dictionary.get?_ofPairs, ← List.map_reverse, List.find?_map, Option.map_map]
  change (root.noteElements.reverse.find? (·.1 == id)).map _ = _
  rw [find?_noteElements, Option.map_map]
  rfl

theorem mem_keys_notesOf {root : Element} {id : String} :
    id ∈ (notesOf root).keys ↔ id ∈ root.childIds := by
  rw [notesOf, Dictionary.mem_keys_ofPairs, Element.mem_childIds]
  simp [Element.noteElements, and_comm]

section

variable {root : Element} {part : String} {log log' : List Notice} {notes : NoteMap}

/-- A part with the same last child for an id has the same note under it, if what is new in it can be
read. -/
theorem exists_readNotes_of_lastWithId? {root' : Element} {id : String}
    (h : (readNotes part root).run.run log = (.ok notes, log'))
    (hlast : root'.lastWithId? id = root.lastWithId? id)
    (hnew : ∀ child ∈ root'.childElements, child ∈ root.childElements ∨
      child.attribute? "w:id" = none ∨ ∃ ns, child.ReadsAs ns) (part' : String) (log₁ : List Notice) :
    ∃ notes' log₂, (readNotes part' root').run.run log₁ = (.ok notes', log₂) ∧
      Dictionary.get? id notes' = Dictionary.get? id notes := by
  have hknown : root.HasKnownNoteMarks := (succeedsIff_readNotes part root log).mp ⟨notes, log', h⟩
  have hknown' : root'.HasKnownNoteMarks := by
    intro child hchild hid
    rcases hnew child hchild with hold | hnone | ⟨ns, hreads⟩
    · exact hknown child hold hid
    · rw [hnone] at hid
      cases hid
    · exact (Element.readsAs_iff.mp hreads).1
  obtain ⟨notes', log₂, hrun⟩ := (succeedsIff_readNotes part' root' log₁).mpr hknown'
  refine ⟨notes', log₂, hrun, ?_⟩
  rw [runs_readNotes hrun, runs_readNotes h, get?_notesOf, get?_notesOf, hlast]

/-- The notes of a part are those of the last child for each id, each read as if it were alone. Neither
the order of children with ids of their own nor what else the part has makes a difference. -/
theorem notes_of_last_children (h : (readNotes part root).run.run log = (.ok notes, log')) :
    (∀ id, id ∈ notes.keys ↔ ∃ child ∈ root.childElements, child.attribute? "w:id" = some id) ∧
    (∀ id child, root.lastWithId? id = some child →
      ∃ ns, child.ReadsAs ns ∧ Dictionary.get? id notes = some ⟨ns, []⟩) ∧
    (∀ root' : Element, root'.childElements.Perm root.childElements → root.childIds.Nodup →
      ∀ part' log₁, ∃ notes' log₂, (readNotes part' root').run.run log₁ = (.ok notes', log₂) ∧
        ∀ id, Dictionary.get? id notes' = Dictionary.get? id notes) ∧
    ∀ (root' : Element) (id : String), root'.lastWithId? id = root.lastWithId? id →
      (∀ child ∈ root'.childElements, child ∈ root.childElements ∨
        child.attribute? "w:id" = none ∨ ∃ ns, child.ReadsAs ns) →
      ∀ part' log₁, ∃ notes' log₂, (readNotes part' root').run.run log₁ = (.ok notes', log₂) ∧
        Dictionary.get? id notes' = Dictionary.get? id notes := by
  have hknown : root.HasKnownNoteMarks := (succeedsIff_readNotes part root log).mp ⟨notes, log', h⟩
  refine ⟨fun id => ?_, fun id child hlast => ?_, fun root' hperm hids part' log₁ => ?_,
    fun root' id hlast hnew => exists_readNotes_of_lastWithId? h hlast hnew⟩
  · rw [runs_readNotes h, mem_keys_notesOf, Element.mem_childIds]
  · obtain ⟨hchild, hid⟩ := Element.mem_of_lastWithId? hlast
    refine ⟨bodyNodes .empty .empty child, Element.readsAs_iff.mpr ⟨?_, rfl⟩, ?_⟩
    · exact hknown child hchild (Option.isSome_iff_exists.mpr ⟨id, hid⟩)
    · rw [runs_readNotes h, get?_notesOf, hlast]
      rfl
  · have hold : ∀ child ∈ root'.childElements, child ∈ root.childElements ∨
        child.attribute? "w:id" = none ∨ ∃ ns, child.ReadsAs ns :=
      fun child hchild => .inl (hperm.mem_iff.mp hchild)
    have hsame := fun id => exists_readNotes_of_lastWithId? h
      (Element.lastWithId?_of_perm hperm hids id) hold part' log₁
    obtain ⟨notes', log₂, hrun, -⟩ := hsame ""
    refine ⟨notes', log₂, hrun, fun id => ?_⟩
    obtain ⟨notes'', log₃, hrun', hget⟩ := hsame id
    rw [← hget, runs_readNotes hrun, runs_readNotes hrun']

end

/-- A note with this id and this run in its one paragraph. -/
def noteElement (id : String) (run : List Element) : Element :=
  ⟨"w:footnote", [("w:id", id)], [.element ⟨"w:p", [], [.element ⟨"w:r", [], run.map .element⟩]⟩]⟩

def letterNote : Element := noteElement "1" [⟨"w:t", [], [.text "a"]⟩]

/-- The field that begins in the note does not end. -/
def openFieldNote : Element :=
  noteElement "2" [⟨"w:fldChar", [("w:fldCharType", "begin")], []⟩, ⟨"w:t", [], [.text "b"]⟩]

/-- Two notes have one id, and one child has none. -/
def repeatedIdsRoot : Element :=
  ⟨"w:footnotes", [], [.element (noteElement "1" []), .element openFieldNote,
    .element ⟨"w:footnote", [], []⟩, .element letterNote]⟩

theorem notes_of_repeatedIdsRoot :
    ∃ notes log', (readNotes "n" repeatedIdsRoot).run.run [] = (.ok notes, log') ∧
      "2" ∈ notes.keys ∧ "3" ∉ notes.keys ∧
      (∃ ns, letterNote.ReadsAs ns ∧ Dictionary.get? "1" notes = some ⟨ns, []⟩) ∧
      ∃ notes' log₂, (readNotes "n" ⟨"w:footnotes", [], [.element letterNote]⟩).run.run [] =
        (.ok notes', log₂) ∧ Dictionary.get? "1" notes' = Dictionary.get? "1" notes := by
  have hknown : repeatedIdsRoot.HasKnownNoteMarks := by
    rw [Element.HasKnownNoteMarks]
    decide +kernel
  obtain ⟨notes, log', h⟩ := (succeedsIff_readNotes "n" repeatedIdsRoot []).mpr hknown
  obtain ⟨hkeys, hnote, -, hother⟩ := notes_of_last_children h
  refine ⟨notes, log', h, (hkeys "2").mpr ⟨openFieldNote, ?_, rfl⟩, fun hthree => ?_,
    hnote "1" letterNote rfl,
    hother ⟨"w:footnotes", [], [.element letterNote]⟩ "1" rfl (fun child hchild => .inl ?_) "n" []⟩
  · exact List.mem_cons_of_mem _ List.mem_cons_self
  · have hnone : "3" ∉ repeatedIdsRoot.childIds := by decide +kernel
    exact hnone (Element.mem_childIds.mpr ((hkeys "3").mp hthree))
  · obtain rfl := List.mem_singleton.mp hchild
    exact List.mem_of_getLast? rfl

end WordTex
