import WordTex.Proofs.CollectedNodes
import WordTex.Proofs.ParagraphEvents

/-! # The text of a paragraph

Text that is read goes to the innermost open field, and fields are handed on when they close. At any
time the text handed on so far and the text of the open fields, from the outermost on, are what has
been read. -/
namespace WordTex

/-- The text of a citation: that of the note, if there is one. -/
def Notes.text (notes : Notes) (kind : NoteKind) (id : String) : String :=
  ((notes.get? kind id).map Container.plainText).getD ""

namespace Element

/-- The text that a child of a run shows. -/
def shownText (notes : Notes) (child : Element) : String :=
  match child.localName with
  | "t" => child.textContent
  | "tab" => "\t"
  | "br" => "\n"
  | "sym" => symbolText (child.attribute? "w:font") ((child.attribute? "w:char").getD "")
  | "footnoteReference" => notes.text .footnote ((child.attribute? "w:id").getD "")
  | "endnoteReference" => notes.text .endnote ((child.attribute? "w:id").getD "")
  | _ => ""

end Element

/-- The text that the runs of a paragraph show. -/
def paragraphText (notes : Notes) (paragraph : Element) : String :=
  String.join (paragraph.runChildren.map (Element.shownText notes))

def FieldEvent.text : FieldEvent → String
  | node n => n.plainText
  | _ => ""

def textOfEvents (es : List FieldEvent) : String := String.join (es.map FieldEvent.text)

variable (notes : Notes)

theorem Notes.plainText_citation (kind : NoteKind) (id : String) :
    (notes.citation kind id).plainText = notes.text kind id := by
  rw [citation, text]
  cases notes.get? kind id with
  | none => simp [Node.plainText]
  | some body => 
    obtain ⟨children, labels⟩ := body
    simp [Node.plainText, Container.plainText]

/-- The text that a child of a run contributes, by what it is read as. -/
def RunItem.shownText (notes : Notes) : RunItem → String
  | text data => data
  | symbol font code => symbolText font code
  | note kind id => notes.text kind id
  | _ => ""

theorem Element.shownText_runItem (child : Element) :
    child.runItem.shownText notes = child.shownText notes := by
  rw [Element.runItem, Element.shownText]
  split <;> simp_all [RunItem.shownText]

theorem textOfEvents_runChildEvents (style : Style) (child : Element) :
    textOfEvents (runChildEvents notes style child) = child.shownText notes := by
  rw [← Element.shownText_runItem]
  rw [runChildEvents]
  cases child.runItem with
  | note kind id => simp [textOfEvents, FieldEvent.text, RunItem.shownText, notes.plainText_citation]
  | fieldMark type =>
    cases hmark : FieldMark.ofType? type <;>
      simp [textOfEvents, FieldEvent.text, RunItem.shownText, hmark]
  | _ => simp [textOfEvents, FieldEvent.text, RunItem.shownText, Node.plainText]

theorem textOfEvents_paragraphEvents (style : Style) (paragraph : Element) :
    textOfEvents (paragraphEvents notes style paragraph.childElements) =
      paragraphText notes paragraph := by
  have hchild : ∀ style child, (runChildEvents notes style child).flatMap (·.text.toList) =
      (child.shownText notes).toList := by
    intro style child
    rw [← textOfEvents_runChildEvents notes style child]
    simp [textOfEvents, List.flatMap_map]
  have hall := flatMap_paragraphEvents hchild style paragraph
  rw [← String.toList_inj]
  simpa [textOfEvents, paragraphText, List.flatMap_map] using hall

/-- The text of open fields, of which the innermost comes first in the list and last in the text. -/
def textOfFields : List OpenField → String
  | [] => ""
  | f :: outer => textOfFields outer ++ plainTextAll f.children

theorem plainTextAll_append (ns ms : List Node) :
    plainTextAll (ns ++ ms) = plainTextAll ns ++ plainTextAll ms := by
  induction ns with
  | nil => simp [plainTextAll]
  | cons n ns ih => rw [List.cons_append, plainTextAll, ih, plainTextAll, String.append_assoc]

theorem toList_plainTextAll (ns : List Node) :
    (plainTextAll ns).toList = ns.flatMap fun n => n.plainText.toList := by
  induction ns with
  | nil => rfl
  | cons n ns ih => rw [plainTextAll, String.toList_append, ih, List.flatMap_cons]

/-- Whatever its instruction, a field shows what was read inside of it. -/
theorem collectsFromFields_plainText : CollectsFromFields fun n => n.plainText.toList where
  field ns := by rw [Node.plainText, toList_plainTextAll]
  reference code ns := by rw [Node.plainText, toList_plainTextAll]

theorem toList_textOfFields (fields : List OpenField) :
    (textOfFields fields).toList = OpenField.collectAll (fun n => n.plainText.toList) fields := by
  induction fields with
  | nil => rfl
  | cons f outer ih =>
    rw [textOfFields, String.toList_append, ih, toList_plainTextAll]
    simp [OpenField.collectAll]

theorem toList_textOfEvents (es : List FieldEvent) : (textOfEvents es).toList =
    es.flatMap (FieldEvent.collect fun n => n.plainText.toList) := by
  rw [textOfEvents, String.toList_join, List.flatMap_map]
  refine List.flatMap_congr fun e _ => ?_
  cases e <;> rfl

theorem OpenField.plainText_closeAll (fields : List OpenField) :
    plainTextAll (closeAll fields) = textOfFields fields := by
  rw [← String.toList_inj, toList_plainTextAll, toList_textOfFields,
    collectsFromFields_plainText.closeAll]

/-- The text handed on and the text of the open fields are what has been read. -/
theorem FieldEvent.text_feed (es : List FieldEvent) (fields : List OpenField) :
    plainTextAll (feed fields es).2 ++ textOfFields (feed fields es).1 =
      textOfFields fields ++ textOfEvents es := by
  rw [← String.toList_inj, String.toList_append, String.toList_append, toList_plainTextAll,
    toList_textOfFields, toList_textOfFields, toList_textOfEvents, collectsFromFields_plainText.feed]

/-- The text of a paragraph that can be read is what its runs show, in order. Fields add nothing to
it, and take away nothing. -/
theorem plainText_of_readParagraph {notes : Notes} {paragraph : Element} {s s' : ReadingState}
    {n : Node} (hfields : s.fields = [])
    (h : (Reading.readParagraph notes paragraph).run.run s = (.ok n, s')) :
    n.plainText = paragraphText notes paragraph := by
  obtain ⟨rfl, -⟩ := runs_readParagraph h
  rw [hfields, paragraphNode, Node.plainText, FieldEvent.deliver, plainTextAll_append,
    OpenField.plainText_closeAll, FieldEvent.text_feed, textOfEvents_paragraphEvents, textOfFields,
    String.empty_append]

theorem plainText_of_nestedFieldsParagraph :
    ∃ n s', (Reading.readParagraph .empty nestedFieldsParagraph).run.run (.start "a" []) =
        (.ok n, s') ∧ (ReadingState.start "a" []).fields = [] ∧ n.plainText = "(3)\t" := by
  obtain ⟨n, s', h⟩ := exists_readParagraph_nestedFieldsParagraph
  refine ⟨n, s', h, rfl, ?_⟩
  rw [plainText_of_readParagraph rfl h]
  decide +kernel

end WordTex
