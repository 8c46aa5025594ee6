import WordTex.Proofs.ElementTrees
import WordTex.Proofs.ReadLabels
import WordTex.Proofs.WrittenArguments
import Mathlib.Data.List.Flatten
import Mathlib.Data.List.Pairwise

/-! # Labels are unique

If no two bookmarks of a document have the same key, then the labels of a note are written as often as the
note is cited, and every other label at most once. -/
namespace WordTex

open DocumentReading

namespace Element

/-- The names of the bookmarks that start inside of an element. -/
def bookmarkNames (e : Element) : List String :=
  (e.descendants.filter (·.localName == "bookmarkStart")).filterMap (·.attribute? "w:name")

theorem label?_eq (e : Element) :
    label? e = if e.localName == "bookmarkStart" then e.attribute? "w:name" else none := by
  by_cases h : e.localName = "bookmarkStart"
  · have hname : Bookmark.name ∘ Bookmark.mk ((e.attribute? "w:id").getD "") = id := rfl
    rw [if_pos (by simpa using h)]
    simp [label?, paragraphItem, h, Bookmark.ofElement?, hname]
  · have hitem : ∀ b, e.paragraphItem ≠ .bookmark b := by
      intro b
      rw [paragraphItem]
      split <;> simp_all
    rw [if_neg (by simpa using h), label?]
    split
    · exact (hitem _ ‹_›).elim
    · rfl

theorem bookmarkNames_eq (e : Element) : e.bookmarkNames = e.descendants.filterMap label? := by
  rw [bookmarkNames, List.filterMap_filter]
  simp only [label?_eq]

theorem childElements_sublist (e : Element) : e.childElements.Sublist e.descendants := by
  rw [descendants_eq]
  induction e.childElements with
  | nil => exact .slnil
  | cons c cs ih =>
    rw [List.flatMap_cons, List.cons_append]
    exact (ih.trans (List.sublist_append_right _ _)).cons_cons c

/-- The bookmarks of the paragraphs of a body are among those that start inside of it. -/
theorem bodyLabels_sublist (body : Element) : (bodyLabels body).Sublist body.bookmarkNames := by
  rw [bookmarkNames_eq, descendants_eq, List.filterMap_flatMap, bodyLabels]
  refine (List.filter_sublist.flatMap _).trans (List.Sublist.flatMap_right _ fun p _ => ?_)
  exact ((childElements_sublist p).trans (List.sublist_cons_self p _)).filterMap label?

end Element

namespace PartSource

/-- The body of the document, if there is one. -/
def body? (source : PartSource) : Option Element :=
  ((source.root? documentPart).bind DocumentReading.body?).map Prod.fst

def noteElementsOfPart (source : PartSource) (part : String) : List (String × Element) :=
  ((source.root? part).map Element.noteElements).getD []

/-- The notes of a package, each with its kind and its id. -/
def noteElements (source : PartSource) : List (NoteKind × String × Element) :=
  (source.noteElementsOfPart footnotesPart).map (NoteKind.footnote, ·) ++
    (source.noteElementsOfPart endnotesPart).map (NoteKind.endnote, ·)

/-- The names of the bookmarks that start in the body and in the notes. -/
def bookmarkNames (source : PartSource) : List String :=
  (source.body?.map Element.bookmarkNames).getD [] ++
    source.noteElements.flatMap fun n => n.2.2.bookmarkNames

theorem exists_of_mem_notesOfPart {source : PartSource} {part id : String} {c : Container}
    (h : (id, c) ∈ source.notesOfPart part) :
    ∃ child, (id, child) ∈ source.noteElementsOfPart part ∧ c = noteBody child := by
  rw [notesOfPart] at h
  rw [noteElementsOfPart]
  cases hroot : source.root? part with
  | none =>
    rw [hroot] at h
    cases h
  | some root =>
    rw [hroot] at h
    obtain ⟨n, hn, hc⟩ := List.mem_map.mp (Dictionary.mem_ofPairs h)
    obtain ⟨rfl, rfl⟩ := Prod.mk.inj hc
    exact ⟨n.2, hn, rfl⟩

/-- Each of the notes is read from an element of its kind and id. -/
theorem exists_noteElement {source : PartSource} {kind : NoteKind} {id : String} {c : Container}
    (h : source.notes.get? kind id = some c) :
    ∃ child, (kind, id, child) ∈ source.noteElements ∧ c = noteBody child := by
  cases kind with
  | footnote =>
    obtain ⟨child, hchild, hc⟩ := exists_of_mem_notesOfPart (Dictionary.mem_of_get? h)
    exact ⟨child, List.mem_append_left _ (List.mem_map_of_mem hchild), hc⟩
  | endnote =>
    obtain ⟨child, hchild, hc⟩ := exists_of_mem_notesOfPart (Dictionary.mem_of_get? h)
    exact ⟨child, List.mem_append_right _ (List.mem_map_of_mem hchild), hc⟩

end PartSource

/-- The node cites the note of this kind with this id. -/
def Node.cites (kind : NoteKind) (id : String) : Node → Bool
  | .note k (some i) _ => k = kind ∧ i = id
  | _ => false

theorem Node.exists_of_cites {kind : NoteKind} {id : String} {m : Node}
    (h : m.cites kind id = true) : ∃ c, m = .note kind (some id) c := by
  cases m with
  | note k entry c =>
    cases entry with
    | none => simp [cites] at h
    | some i =>
      obtain ⟨rfl, rfl⟩ : k = kind ∧ i = id := by simpa [cites] using h
      exact ⟨c, rfl⟩
  | _ => simp [cites] at h

/-- The keys of the bookmarks that start inside of an element. -/
def Element.bookmarkKeys (e : Element) : List String := e.bookmarkNames.map labelKey

/-- No two bookmarks have the same key, neither in one place nor in two. -/
structure PartSource.HasDistinctKeys (source : PartSource) : Prop where
  body : ∀ b ∈ source.body?, b.bookmarkKeys.Nodup
  note : ∀ n ∈ source.noteElements, n.2.2.bookmarkKeys.Nodup
  apart : ∀ n ∈ source.noteElements, ∀ m ∈ source.noteElements,
    ∀ key ∈ n.2.2.bookmarkKeys, key ∈ m.2.2.bookmarkKeys → n = m
  body_apart : ∀ b ∈ source.body?, ∀ key ∈ b.bookmarkKeys,
    ∀ n ∈ source.noteElements, key ∉ n.2.2.bookmarkKeys

variable {source : PartSource}

theorem PartSource.HasDistinctKeys.of_nodup (h : (source.bookmarkNames.map labelKey).Nodup) :
    source.HasDistinctKeys := by
  rw [bookmarkNames, List.map_append, List.map_flatMap, List.nodup_append'] at h
  obtain ⟨hbody, hnotes, hdisjoint⟩ := h
  obtain ⟨hnote, hapart⟩ := List.nodup_flatMap.mp hnotes
  refine ⟨?_, hnote, ?_, ?_⟩
  · intro b hb
    rw [Option.mem_def.mp hb] at hbody
    exact hbody
  · intro n hn m hm key hkey hkey'
    by_contra hne
    have hsymm : Std.Symm (Function.onFun List.Disjoint
        fun n : NoteKind × String × Element => n.2.2.bookmarkNames.map labelKey) :=
      ⟨fun _ _ h => List.disjoint_symm h⟩
    exact hapart.forall hn hm hne hkey hkey'
  · intro b hb key hkey n hn hkey'
    rw [Option.mem_def.mp hb] at hdisjoint
    exact hdisjoint hkey (List.mem_flatMap.mpr ⟨n, hn, hkey'⟩)

/-- A list in which the items with a property have one place for a key, and the others none. -/
theorem count_flatMap_of_indicator {α : Type} {f : α → List String} {p : α → Bool} {key : String}
    {l : List α} (h : ∀ x ∈ l, (f x).count key = if p x then 1 else 0) :
    (l.flatMap f).count key = l.countP p := by
  induction l with
  | nil => rfl
  | cons x l ih =>
    rw [List.flatMap_cons, List.count_append, h x List.mem_cons_self,
      ih fun y hy => h y (List.mem_cons_of_mem x hy), List.countP_cons, Nat.add_comm]

/-- The labels of a note that is cited, by the element that it is read from. -/
theorem exists_noteElement_of_noteLabels {m : Node} (hm : m.IsCitation source.notes) {key : String}
    (hkey : key ∈ m.noteLabels.map labelKey) :
    ∃ kind id child, m = .note kind (some id) (noteBody child) ∧
      source.notes.get? kind id = some (noteBody child) ∧
      (kind, id, child) ∈ source.noteElements ∧ key ∈ child.bookmarkKeys := by
  cases m with
  | note kind entry c =>
    obtain ⟨id, rfl, hget⟩ := hm
    obtain ⟨child, hchild, rfl⟩ := PartSource.exists_noteElement hget
    refine ⟨kind, id, child, rfl, hget, hchild, ?_⟩
    rw [Node.noteLabels, allLabels_noteBody] at hkey
    exact ((Element.bodyLabels_sublist child).map labelKey).subset hkey
  | _ => simp [Node.noteLabels] at hkey

/-- A label of a note is written once for each node that cites the note. -/
theorem count_noteLabels (h : source.HasDistinctKeys) {kind : NoteKind} {id : String} {child : Element}
    (hget : source.notes.get? kind id = some (noteBody child))
    (hchild : (kind, id, child) ∈ source.noteElements) {key : String}
    (hkey : key ∈ (bodyLabels child).map labelKey) {m : Node} (hm : m.IsCitation source.notes) :
    (m.noteLabels.map labelKey).count key = if m.cites kind id then 1 else 0 := by
  have hsublist := (Element.bodyLabels_sublist child).map labelKey
  cases hcites : m.cites kind id with
  | true =>
    obtain ⟨c, rfl⟩ := Node.exists_of_cites hcites
    obtain ⟨id', hid, hget'⟩ := hm
    cases hid
    -- an id has one note, so this one is read from the same element
    obtain rfl : noteBody child = c := Option.some.inj (hget.symm.trans hget')
    rw [Node.noteLabels, allLabels_noteBody]
    exact List.count_eq_one_of_mem (hsublist.nodup (h.note _ hchild)) hkey
  | false =>
    refine List.count_eq_zero.mpr fun hkey' => ?_
    obtain ⟨kind', id', child', rfl, -, hchild', hkey'⟩ := exists_noteElement_of_noteLabels hm hkey'
    have hsame := h.apart _ hchild _ hchild' key (hsublist.subset hkey) hkey'
    cases hsame
    simp [Node.cites] at hcites

variable {root : Element} {parts : DocumentParts}

/-- The keys of the labels that are written for a document: those of its notes, wherever these are, and
those of its paragraphs. -/
def labelKeys (root : Element) (parts : DocumentParts) : List String :=
  ((documentOf root parts).written.flatMap fun m => m.noteLabels.map labelKey) ++
    (documentLabels root).map labelKey

theorem perm_labelKeys (root : Element) (hnotes : parts.notes.FromElements) :
    (((documentOf root parts).written.flatMap Node.labels ++ (documentOf root parts).labels).map
        labelKey).Perm (labelKeys root parts) := by
  have hlabels : (documentOf root parts).labels = [] := rfl
  rw [labelKeys, hlabels, List.append_nil, ← List.map_flatMap, ← List.map_append]
  exact (perm_written_labels_documentOf hnotes).map labelKey

theorem documentLabels_sublist (hroot : source.root? documentPart = some root) :
    ((documentLabels root).map labelKey).Sublist
      ((source.body?.map Element.bookmarkKeys).getD []) := by
  rw [documentLabels, PartSource.body?, hroot, Option.bind_some]
  cases body? root with
  | none => exact .slnil
  | some b => exact (Element.bodyLabels_sublist b.1).map labelKey

/-- A note that is written is one of the package. -/
theorem isCitation_of_mem_written (hparts : parts.notes = source.notes) {m : Node}
    (hm : m ∈ (documentOf root parts).written) : m.IsCitation source.notes := by
  have hnotes : parts.notes.FromElements := hparts ▸ source.fromElements_notes
  exact hparts ▸ isCitation_of_mem_walk hnotes (Document.mem_walk_of_mem_written hm)

section Distinct

variable (h : source.HasDistinctKeys) (hroot : source.root? documentPart = some root)
  (hparts : parts.notes = source.notes)
include h hroot

theorem nodup_documentLabels : ((documentLabels root).map labelKey).Nodup := by
  refine (documentLabels_sublist hroot).nodup ?_
  cases hsource : source.body? with
  | none => exact .nil
  | some b => exact h.body b hsource

theorem not_mem_documentLabels {n : NoteKind × String × Element} (hn : n ∈ source.noteElements)
    {key : String} (hkey : key ∈ n.2.2.bookmarkKeys) : key ∉ (documentLabels root).map labelKey := by
  intro hkey'
  have hmem := (documentLabels_sublist hroot).subset hkey'
  cases hsource : source.body? with
  | none => simp [hsource] at hmem
  | some b =>
    rw [hsource] at hmem
    exact h.body_apart b hsource key hmem n hn hkey

include hparts

/-- The key of a note is written once for each place that cites the note, and no paragraph has it. -/
theorem count_labelKeys_of_note {kind : NoteKind} {id : String} {c : Container}
    (hget : source.notes.get? kind id = some c) {key : String} (hkey : key ∈ c.allLabels.map labelKey) :
    (labelKeys root parts).count key = (documentOf root parts).written.countP (Node.cites kind id) := by
  obtain ⟨child, hchild, rfl⟩ := PartSource.exists_noteElement hget
  rw [allLabels_noteBody] at hkey
  have hbody : key ∉ (documentLabels root).map labelKey :=
    not_mem_documentLabels h hroot hchild (((Element.bodyLabels_sublist child).map labelKey).subset hkey)
  rw [labelKeys, List.count_append, List.count_eq_zero.mpr hbody, Nat.add_zero]
  exact count_flatMap_of_indicator fun m hm =>
    count_noteLabels h hget hchild hkey (isCitation_of_mem_written hparts hm)

/-- A key that no note has is at most that of one paragraph. -/
theorem count_labelKeys_le_one {key : String}
    (hkey : ∀ kind id c, source.notes.get? kind id = some c → key ∉ c.allLabels.map labelKey) :
    (labelKeys root parts).count key ≤ 1 := by
  have hnone : key ∉ (documentOf root parts).written.flatMap fun m => m.noteLabels.map labelKey := by
    intro hmem
    obtain ⟨m, hm, hmem⟩ := List.mem_flatMap.mp hmem
    have hcitation := isCitation_of_mem_written hparts hm
    obtain ⟨kind, id, child, rfl, hget, -, -⟩ := exists_noteElement_of_noteLabels hcitation hmem
    exact hkey kind id _ hget hmem
  rw [labelKeys, List.count_append, List.count_eq_zero.mpr hnone, Nat.zero_add]
  exact List.nodup_iff_count_le_one.mp (nodup_documentLabels h hroot) key

end Distinct

/-- If no two bookmarks have the same key, the label of a note is written exactly as often as the note
is, and any other label at most once. -/
theorem label_count_eq_citations {log log' : List Notice} {d : Document}
    (h : (ofSource source).run.run log = (.ok d, log'))
    (hnames : (source.bookmarkNames.map labelKey).Nodup) :
    (∀ kind id c, Dictionary.get? id (d.notes kind) = some c → ∀ key ∈ c.allLabels.map labelKey,
      (argumentsOf "label" (d.tex {})).count key = d.written.countP (Node.cites kind id)) ∧
    ∀ key, (∀ kind id c, Dictionary.get? id (d.notes kind) = some c → key ∉ c.allLabels.map labelKey) →
      (argumentsOf "label" (d.tex {})).count key ≤ 1 := by
  have hdistinct := PartSource.HasDistinctKeys.of_nodup hnames
  rw [Document.argumentsOf_label (isOther_of_ofSource "label" h)]
  obtain ⟨root, parts, hroot, hparts, rfl⟩ := runs_ofSource h
  have hperm := perm_labelKeys root (hparts ▸ source.fromElements_notes)
  simp only [hperm.count_eq, get?_notes_documentOf, hparts]
  constructor
  · intro kind id c hget key hkey
    exact count_labelKeys_of_note hdistinct hroot hparts hget hkey
  · intro key hkey
    exact count_labelKeys_le_one hdistinct hroot hparts hkey

/-- A footnote with a bookmark that is cited twice. -/
def twiceCitedPackage : PartSource :=
  .ofTexts
    [(documentPart, "<document><body><p><bookmarkStart w:name=\"a\"/><r><footnoteReference w:id=\"1\"/>" ++
        "<footnoteReference w:id=\"1\"/></r></p></body></document>"),
      (footnotesPart, "<footnotes><footnote w:id=\"1\"><p><bookmarkStart w:name=\"b\"/></p>" ++
        "</footnote></footnotes>")]

theorem nodup_twiceCitedPackage : (twiceCitedPackage.bookmarkNames.map labelKey).Nodup := by
  have hkeys : twiceCitedPackage.bookmarkNames.map labelKey = ["a", "b"] := by decide +kernel
  rw [hkeys]
  decide

theorem exists_document_twiceCitedPackage :
    ∃ d log, (ofSource twiceCitedPackage).run.run [] = (.ok d, log) ∧
      (argumentsOf "label" (d.tex {}),
        (Dictionary.get? "1" (d.notes .footnote)).map fun c => c.allLabels.map labelKey,
        (d.footnotes ++ d.endnotes).all fun n => n.2.allLabels.map labelKey = ["b"]) =
      (["b", "b", "a"], some ["b"], true) :=
  exists_document_of_map (by decide +kernel)

theorem label_count_of_twiceCitedPackage :
    ∃ d log, (ofSource twiceCitedPackage).run.run [] = (.ok d, log) ∧
      (twiceCitedPackage.bookmarkNames.map labelKey).Nodup ∧
      argumentsOf "label" (d.tex {}) = ["b", "b", "a"] ∧
      (argumentsOf "label" (d.tex {})).count "b" = d.written.countP (Node.cites .footnote "1") ∧
      (argumentsOf "label" (d.tex {})).count "a" ≤ 1 := by
  obtain ⟨d, log, hrun, hfacts⟩ := exists_document_twiceCitedPackage
  obtain ⟨htex, hfacts⟩ := Prod.mk.inj hfacts
  obtain ⟨hnote, hall⟩ := Prod.mk.inj hfacts
  obtain ⟨c, hget, hkeys⟩ := Option.map_eq_some_iff.mp hnote
  obtain ⟨hcited, hother⟩ := label_count_eq_citations hrun nodup_twiceCitedPackage
  have hb : "b" ∈ c.allLabels.map labelKey := by rw [hkeys]; exact List.mem_singleton_self _
  refine ⟨d, log, hrun, nodup_twiceCitedPackage, htex, hcited .footnote "1" c hget "b" hb, ?_⟩
  refine hother "a" fun kind id c' hget' ha => ?_
  have hmem : (id, c') ∈ d.footnotes ++ d.endnotes := by
    cases kind with
    | footnote => exact List.mem_append_left _ (Dictionary.mem_of_get? hget')
    | endnote => exact List.mem_append_right _ (Dictionary.mem_of_get? hget')
  have hkeys' : c'.allLabels.map labelKey = ["b"] := of_decide_eq_true (List.all_eq_true.mp hall _ hmem)
  rw [hkeys'] at ha
  exact absurd ha (by decide)

/-- A note that is cited twice is written twice, with its labels. -/
theorem label_written_twice :
    ¬ ∀ (source : PartSource) (log : List Notice) (d : Document) (log' : List Notice),
      (ofSource source).run.run log = (.ok d, log') →
      (source.bookmarkNames.map labelKey).Nodup → (argumentsOf "label" (d.tex {})).Nodup := by
  intro hall
  obtain ⟨d, log, hrun, hfacts⟩ := exists_document_twiceCitedPackage
  have hnodup := hall _ _ d log hrun nodup_twiceCitedPackage
  rw [(Prod.mk.inj hfacts).1] at hnodup
  exact absurd hnodup (by decide)

end WordTex
