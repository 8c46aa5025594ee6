import WordTex.Proofs.CollectedNodes
import WordTex.Proofs.EventStyles
import WordTex.Proofs.ReadingSuccess

/-! # The styles of texts

A text has the styles of the properties that stand in front of it: those of its paragraph before its run
and those of its run before the text itself. Fields, other runs and other paragraphs have no part in
it. -/
namespace WordTex

open Reading ReadingState

/-- The text that a child of a run stands for by itself. -/
def Element.ownText? (child : Element) : Option String :=
  match child.localName with
  | "t" => some child.textContent
  | "tab" => some "\t"
  | "br" => some "\n"
  | "sym" => some (symbolText (child.attribute? "w:font") ((child.attribute? "w:char").getD ""))
  | _ => none

/-- A text where it stands in a paragraph: with the children of the paragraph before its run, or before
the hyperlink that its run is in, and with the children of the run before it. -/
structure TextPlace where
  paragraphFront : List Element
  runFront : List Element
  data : String

/-- The union of the styles that the properties in front of a text set. -/
def TextPlace.styles (place : TextPlace) : Style :=
  .unionAll (((place.paragraphFront.filter (·.localName == "pPr")) ++
    place.runFront.filter (·.localName == "rPr")).map Element.propertyStyles)

/-- The places of the texts in a paragraph, in order. -/
def Element.textPlaces (paragraph : Element) : List TextPlace :=
  paragraph.childElements.zipIdx.flatMap fun (child, i) =>
    child.runsOfChild.flatMap fun run =>
      run.childElements.zipIdx.filterMap fun (e, j) =>
        e.ownText?.map (⟨paragraph.childElements.take i, run.childElements.take j, ·⟩)

def Node.styledText? : Node → Option StyledText
  | .text t => some t
  | _ => none

/-- The texts in a node in order, without those in notes. -/
def Node.bodyTexts (n : Node) : List StyledText := n.bodyWalk.filterMap Node.styledText?

/-- Properties set the styles of a text, and nothing else in front of it. -/
theorem TextPlace.styles_eq (place : TextPlace) : place.styles =
    (Style.unionAll (place.paragraphFront.map paragraphChildStyle)).union
      (.unionAll (place.runFront.map runChildStyle)) := by
  rw [styles, List.map_append, Style.unionAll_append,
    Style.unionAll_map_of_filter paragraphChildStyle_eq, Style.unionAll_map_of_filter runChildStyle_eq]

theorem collectsFromFields_bodyTexts : CollectsFromFields Node.bodyTexts :=
  .bodyWalk (fun _ => rfl) fun _ _ => rfl

variable (notes : Notes)

/-- The text of an item of a run. -/
def RunItem.ownText? : RunItem → Option String
  | text data => some data
  | symbol font code => some (symbolText font code)
  | _ => none

theorem Element.ownText?_runItem (child : Element) : child.runItem.ownText? = child.ownText? := by
  rw [Element.runItem, Element.ownText?]
  split <;> simp_all [RunItem.ownText?]

/-- A child of a run brings at most one text, in the style that it is read with. -/
theorem bodyTexts_runChildEvents (style : Style) (child : Element) :
    (runChildEvents notes style child).flatMap (FieldEvent.collect Node.bodyTexts) =
      (child.ownText?.map (⟨·, style⟩)).toList := by
  rw [← Element.ownText?_runItem]
  rw [runChildEvents]
  cases child.runItem with
  | note kind id =>
    cases hbody : notes.get? kind id <;>
      simp [RunItem.ownText?, Notes.citation, hbody, FieldEvent.collect, Node.bodyTexts, Node.bodyWalk,
        Node.styledText?]
  | fieldMark type =>
    cases hmark : FieldMark.ofType? type <;> simp [RunItem.ownText?, hmark, FieldEvent.collect]
  | _ =>
    simp [RunItem.ownText?, FieldEvent.collect, Node.bodyTexts, Node.bodyWalk, Node.styledText?]

theorem bodyTexts_runEvents (style : Style) (children : List Element) :
    (runEvents notes style children).flatMap (FieldEvent.collect Node.bodyTexts) =
      children.zipIdx.filterMap fun (e, j) => e.ownText?.map
        (⟨·, style.union (.unionAll ((children.take j).map runChildStyle))⟩) := by
  rw [runEvents_eq_flatMap, List.flatMap_assoc, List.filterMap_eq_flatMap_toList]
  exact List.flatMap_congr fun _ _ => bodyTexts_runChildEvents notes _ _

/-- The texts of a paragraph's events are at their places, with the styles of the properties in front
of them. -/
theorem bodyTexts_paragraphEvents (style : Style) (paragraph : Element) :
    (paragraphEvents notes style paragraph.childElements).flatMap (FieldEvent.collect Node.bodyTexts) =
      paragraph.textPlaces.map fun place => ⟨place.data, style.union place.styles⟩ := by
  rw [paragraphEvents_eq_flatMap, List.flatMap_assoc, Element.textPlaces, List.map_flatMap]
  refine List.flatMap_congr fun (child, i) _ => ?_
  dsimp only
  rw [paragraphChildEvents_eq_flatMap, List.flatMap_assoc, List.map_flatMap]
  refine List.flatMap_congr fun run _ => ?_
  rw [bodyTexts_runEvents, List.map_filterMap]
  simp only [TextPlace.styles_eq, Style.union_assoc, Option.map_map, Function.comp_def]

/-- What was in open fields before the paragraph comes first. -/
theorem bodyTexts_paragraphNode (fields : List OpenField) (style : Style) (paragraph : Element) :
    (paragraphNode notes fields style paragraph).bodyTexts =
      OpenField.collectAll Node.bodyTexts fields ++
        paragraph.textPlaces.map fun place => ⟨place.data, style.union place.styles⟩ := by
  rw [← bodyTexts_paragraphEvents notes style paragraph, ← collectsFromFields_bodyTexts.deliver,
    paragraphNode, Node.bodyTexts, Node.bodyWalk, List.filterMap_cons_none rfl, bodyWalkAll_eq_flatMap,
    List.filterMap_flatMap]
  rfl

/-- The texts in a paragraph that was read are those at its places, in order. Each has the styles of
the state that the paragraph is read from and of the properties in front of the text. The body of a
document and the notes are read as parts, and so is every paragraph in them: there a text has the styles
of the properties in front of it, and no others. -/
theorem bodyTexts_of_readers (e : Element) :
    (∀ s n s', (readParagraph notes e).run.run s = (.ok n, s') →
      n.bodyTexts = OpenField.collectAll Node.bodyTexts s.fields ++
        e.textPlaces.map fun place => ⟨place.data, s.currentStyle.union place.styles⟩) ∧
    ∀ part root index log ns log', (DocumentReading.ofPart part
        (within root 0 (within e index (readBody notes e)))).run.run log = (.ok ns, log') →
      ns.map Node.bodyTexts = (e.childElements.filter (·.localName == "p")).map fun paragraph =>
        paragraph.textPlaces.map fun place => ⟨place.data, place.styles⟩ := by
  refine ⟨fun s n s' hread => ?_, fun part root index log ns log' hread => ?_⟩
  · obtain ⟨rfl, -⟩ := runs_readParagraph hread
    exact bodyTexts_paragraphNode notes s.fields s.currentStyle e
  · rw [runs_partBody hread, bodyNodes, List.map_map]
    refine List.map_congr_left fun paragraph _ => ?_
    rw [Function.comp_apply, bodyTexts_paragraphNode]
    simp [OpenField.collectAll]

/-- A bold paragraph with a field that opens in an italic run and goes on in a hyperlink. The second
run is underlined from its middle on. The properties behind the hyperlink set no style of a text, and
the next paragraph starts anew, although the field is still open. -/
def restyledBody : Element :=
  let element (name : String) (contents : List XmlContent) : XmlContent := .element ⟨name, [], contents⟩
  let flag (name value : String) : XmlContent := .element ⟨name, [("w:val", value)], []⟩
  let text (data : String) : XmlContent := element "w:t" [.text data]
  let mark : XmlContent := .element ⟨"w:fldChar", [("w:fldCharType", "begin")], []⟩
  ⟨"w:body", [],
    [element "w:p" [element "w:pPr" [flag "w:b" "1"],
        element "w:r" [element "w:rPr" [flag "w:i" "1"], text "a", mark, text "b"],
        element "w:hyperlink" [element "w:r" [text "c", element "w:rPr" [flag "w:u" "single"], text "d"]],
        element "w:pPr" [flag "w:vertAlign" "subscript"]],
      element "w:p" [element "w:r" [text "e"]]]⟩

theorem bodyTexts_of_restyledBody :
    ∃ ns log, (DocumentReading.ofPart documentPart
        (within ⟨"w:document", [], [.element restyledBody]⟩ 0
          (within restyledBody 0 (readBody .empty restyledBody)))).run.run [] = (.ok ns, log) ∧
      ns.map Node.bodyTexts =
        [[⟨"a", Style.bold.union .italic⟩, ⟨"b", Style.bold.union .italic⟩, ⟨"c", .bold⟩,
          ⟨"d", Style.bold.union .underline⟩], [⟨"e", .empty⟩]] := by
  have hsucceeds := succeedsIff_within restyledBody 0 (succeedsIff_readBody .empty restyledBody)
  obtain ⟨ns, log, hread⟩ := (DocumentReading.succeedsIff_ofPart documentPart
    (succeedsIff_within ⟨"w:document", [], [.element restyledBody]⟩ 0 hsucceeds) []).mpr
      (by decide +kernel)
  refine ⟨ns, log, hread, ?_⟩
  rw [(bodyTexts_of_readers .empty restyledBody).2 documentPart _ 0 [] ns log hread]
  decide +kernel

end WordTex
