import WordTex.Proofs.CitedNotes
import WordTex.Proofs.PassedElements
import WordTex.Proofs.ReadingSuccess
import WordTex.Proofs.UnclosedFields

/-! # The warnings and errors of a paragraph

A paragraph tells of the elements in its runs, in order, and at its end of the fields that are still
open. So each warning and each error has its place in the text, and nothing that is wrong goes without
one. -/
namespace WordTex

open Reading ReadingState

/-- The note that a warning misses. -/
def Notice.unknownNote? : Notice → Option (NoteKind × String)
  | unknownNote kind id _ => some (kind, id)
  | _ => none

/-- The note that a node stands for. -/
def Node.unresolved? : Node → Option (NoteKind × String)
  | .unresolved kind id => some (kind, id)
  | _ => none

section

variable (notes : Notes) (part : String)

/-- The citations among these for which there is no note. -/
def Notes.missing (citations : List (NoteKind × String)) : List (NoteKind × String) :=
  citations.filter fun c => (notes.get? c.1 c.2).isNone

theorem unknownNotes_report? (opened : Nat) (e : PlacedElement) :
    (e.report? notes part opened).toList.filterMap Notice.unknownNote? =
      notes.missing e.element.citation?.toList := by
  rw [← Element.citation?_runItem, PlacedElement.report?]
  cases e.element.runItem with
  | note kind id =>
    cases hbody : notes.get? kind id <;>
      simp [hbody, RunItem.citation?, Notice.unknownNote?, Notes.missing]
  | instruction text => cases opened <;> rfl
  | fieldMark type =>
    cases hmark : FieldMark.ofType? type with
    | none => simp [hmark, RunItem.citation?, Notes.missing]
    | some mark => cases mark <;> cases opened <;> simp only [hmark] <;> rfl
  | _ => rfl

theorem unknownNotes_reportsFrom (opened : Nat) (es : List PlacedElement) :
    (reportsFrom notes part opened es).filterMap Notice.unknownNote? =
      notes.missing ((es.map PlacedElement.element).filterMap Element.citation?) := by
  induction es generalizing opened with
  | nil => rfl
  | cons e es ih =>
    have hcited : ((e :: es).map PlacedElement.element).filterMap Element.citation? =
        e.element.citation?.toList ++ (es.map PlacedElement.element).filterMap Element.citation? := by
      cases hcitation : e.element.citation? <;> simp [hcitation]
    rw [reportsFrom_cons, List.filterMap_append, ih, unknownNotes_report?, hcited, Notes.missing,
      Notes.missing, Notes.missing, List.filter_append]

theorem unresolved_paragraphNode (style : Style) (paragraph : Element) :
    (paragraphNode notes [] style paragraph).bodyWalk.filterMap Node.unresolved? =
      notes.missing (paragraph.runChildren.filterMap Element.citation?) := by
  have hcites : ∀ n : Node, n.unresolved? = if n.citesNote then n.unresolved? else none := by
    intro n
    cases n <;> rfl
  have hcitation : ∀ c : NoteKind × String, (notes.citation c.1 c.2).unresolved? =
      if (notes.get? c.1 c.2).isNone then some c else none := by
    intro c
    rw [Notes.citation]
    cases notes.get? c.1 c.2 <;> rfl
  have hwalk : (paragraphNode notes [] style paragraph).bodyWalk.filterMap Node.unresolved? =
      ((paragraphNode notes [] style paragraph).bodyWalk.filter Node.citesNote).filterMap
        Node.unresolved? := by
    rw [List.filterMap_filter]
    exact List.filterMap_congr fun n _ => hcites n
  rw [hwalk, citations_paragraphNode, List.filterMap_map, Notes.missing, ← List.filterMap_eq_filter]
  exact List.filterMap_congr fun c _ => (hcitation c).trans (by simp [Option.guard])

end

open FieldPart

/-- The warnings of fields that are left open, by their instructions. -/
def leftOpenNotices (place : Place) (instructions : List String) : List Notice :=
  instructions.map fun text => .fieldLeftOpen (String.trim text) place

theorem filter_leftOpenNotices (place : Place) (instructions : List String) :
    (leftOpenNotices place instructions).filter Notice.isSerious =
      leftOpenNotices place instructions := by
  refine List.filter_eq_self.mpr fun n hn => ?_
  obtain ⟨text, -, rfl⟩ := List.mem_map.mp hn
  rfl

section

variable {notes : Notes} {paragraph : Element} {s s' : ReadingState} {n : Node}

/-- The reader passes the elements in the runs, and then warns of the fields that are still open. -/
theorem exists_passes_of_readParagraph (h : Runs (readParagraph notes paragraph) s n s') :
    ∃ u, s.Passes notes u (paragraph.placedRunChildren s.path) ∧
      u.fields =
        (FieldEvent.feed s.fields (paragraphEvents notes s.currentStyle paragraph.childElements)).1 ∧
      s'.notices =
        (leftOpenNotices s.place (u.fields.map OpenField.instruction)).reverse ++ u.notices := by
  obtain ⟨t, hinner, rfl⟩ := runs_inScope.mp h
  obtain ⟨d, u, hchildren, hclose⟩ := runs_bind.mp hinner
  obtain ⟨rest, v, hrest, hpure⟩ := runs_bind.mp hclose
  obtain ⟨-, rfl⟩ := runs_pure.mp hpure
  obtain ⟨-, rfl⟩ := Prod.mk.inj (runs_modifyGet.mp hrest)
  have hpasses := passes_paragraphChildren hchildren
  obtain ⟨ns, -, hdelivers⟩ := runs_paragraphChildren (List.cons_ne_nil _ _) hchildren
  have hfields := congrArg Prod.fst hdelivers.fields
  rw [currentStyle_newScope] at hfields
  have hplace : u.place = s.place := by
    rw [place, place, pathText, pathText, hpasses.part, hpasses.path]
  refine ⟨u, ⟨hpasses.notices, hpasses.opened, hpasses.part, hpasses.path⟩, hfields.symm, ?_⟩
  rw [← hplace, leftOpenNotices, List.map_map]
  rfl

/-- The warnings and errors of a paragraph that is read with no field open are what is reported of the
elements in its runs, in order, and then one warning for each field that is left open, the innermost
first. The notes that they miss are those that the nodes of the paragraph stand for. -/
theorem notices_of_readParagraph (hfields : s.fields = [])
    (h : (readParagraph notes paragraph).run.run s = (.ok n, s')) :
    ∃ (new late : List Notice) (parts : List FieldPart), s'.notices = new.reverse ++ s.notices ∧
      new.filter Notice.isSerious = paragraph.runReports notes s.part s.path ++ late ∧
      (paragraph.runReports notes s.part s.path).filterMap Notice.unknownNote? =
        n.bodyWalk.filterMap Node.unresolved? ∧
      (MatchedAll true true parts ∧
        eventsAll parts = paragraphEvents notes s.currentStyle paragraph.childElements ∧
        ∀ parts', MatchedAll true true parts' →
          eventsAll parts' = paragraphEvents notes s.currentStyle paragraph.childElements →
          parts' = parts) ∧
      late = leftOpenNotices s.place (openInstructions parts).reverse ∧
      late.length = openFields paragraph.runChildren := by
  obtain ⟨hnode, -⟩ := runs_readParagraph h
  obtain ⟨u, hpasses, hu, hnotices⟩ := exists_passes_of_readParagraph h
  obtain ⟨new, hnew, hreports⟩ := hpasses.notices
  have hopened := hpasses.opened
  rw [hfields] at hnode hreports hu hopened
  have hlate := congrArg (List.map OpenField.instruction) hu
  rw [FieldEvent.instructions_feed] at hlate
  refine ⟨new ++ leftOpenNotices s.place (u.fields.map OpenField.instruction),
    leftOpenNotices s.place (u.fields.map OpenField.instruction),
    ofEvents (paragraphEvents notes s.currentStyle paragraph.childElements), ?_, ?_, ?_,
    ⟨matchedAll_ofEvents _, eventsAll_ofEvents _, fun parts' hmatched hevents => ?_⟩, ?_, ?_⟩
  · rw [hnotices, hnew, List.reverse_append, List.append_assoc]
  · rw [List.filter_append, filter_leftOpenNotices, hreports, Element.runReports_eq]
    rfl
  · rw [Element.runReports_eq, unknownNotes_reportsFrom, Element.map_element_placedRunChildren,
      hnode, unresolved_paragraphNode]
  · rw [← hevents, ofEvents_eventsAll hmatched]
  · rw [hlate]
  · rw [leftOpenNotices, List.length_map, List.length_map, hopened, openFields,
      ← Element.map_element_placedRunChildren s.path, List.foldl_map]
    rfl

end

/-- Marks and an instruction without a field, and two fields that stay open; the outer one has a
citation in it. -/
def reportedParagraph : Element :=
  let mark (type : String) : XmlContent := .element ⟨"w:fldChar", [("w:fldCharType", type)], []⟩
  let instruction (text : String) : XmlContent := .element ⟨"w:instrText", [], [.text text]⟩
  ⟨"w:p", [], [.element ⟨"w:r", [], [mark "separate", instruction "a", mark "end", mark "begin",
    instruction " b ", .element ⟨"w:footnoteReference", [("w:id", "1")], []⟩, mark "begin",
    instruction "c"]⟩]⟩

theorem notices_of_reportedParagraph :
    ∃ (n : Node) (s' : ReadingState) (new late : List Notice),
      (readParagraph .empty reportedParagraph).run.run (.start "a" []) = (.ok n, s') ∧
      (ReadingState.start "a" []).fields = [] ∧ s'.notices = new.reverse ++ [] ∧
      new.filter Notice.isSerious = reportedParagraph.runReports .empty "a" [] ++ late ∧
      reportedParagraph.runReports .empty "a" [] =
        [.separatorOutsideField ⟨"a", "w:r[1]/w:fldChar[1]"⟩,
          .instructionOutsideField "a" ⟨"a", "w:r[1]"⟩,
          .endOutsideField ⟨"a", "w:r[1]/w:fldChar[3]"⟩,
          .unknownNote .footnote "1" ⟨"a", "w:r[1]"⟩] ∧
      late.length = 2 := by
  obtain ⟨n, s', h⟩ := (succeedsIff_readParagraph .empty reportedParagraph (.start "a" [])).mpr
    (by decide +kernel)
  obtain ⟨new, late, parts, hnotices, hserious, -, -, -, hlength⟩ := notices_of_readParagraph rfl h
  exact ⟨n, s', new, late, h, rfl, hnotices, hserious, by decide +kernel,
    hlength.trans (by decide +kernel)⟩

end WordTex
