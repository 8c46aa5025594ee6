import WordTex.RunProperties
import WordTex.OpenField

/-! # The children of paragraphs and runs, by what they contribute -/
namespace WordTex

/-- A bookmark. The paragraph that it starts in is taken for its target. -/
structure Bookmark where
  id : String
  name : String
deriving DecidableEq, Repr

namespace Bookmark

/-- A bookmark without a name marks nothing. -/
def ofElement? (e : Element) : Option Bookmark :=
  (e.attribute? "w:name").map (⟨(e.attribute? "w:id").getD "", ·⟩)

/-- Bookmarks that the word processor made have names with an underscore in front. -/
def isHidden (b : Bookmark) : Bool := b.name.toList.head? == some '_'

end Bookmark

/-- The role of paragraphs with this style. -/
def Role.ofStyleId? : String → Option Role
  | "ListNumber" => some .numberedExample
  | "Example" => some .numberedExample
  | "Heading1" => some .heading1
  | "Heading2" => some .heading2
  | "Heading3" => some .heading3
  | _ => none

/-- The id of the style that a block of paragraph properties names at any depth. -/
def Element.styleId? (block : Element) : Option String :=
  (block.descendant? "pStyle").bind Element.value?

inductive ParagraphItem where
  | properties
  | run
  | hyperlink
  | bookmark (bookmark : Option Bookmark)
  /-- A bookmark's end or the mark of a proofing error. -/
  | silent
  | other
deriving DecidableEq, Repr

def Element.paragraphItem (e : Element) : ParagraphItem :=
  match e.localName with
  | "pPr" => .properties
  | "r" => .run
  | "hyperlink" => .hyperlink
  | "bookmarkStart" => .bookmark (Bookmark.ofElement? e)
  | "bookmarkEnd" => .silent
  | "proofErr" => .silent
  | _ => .other

inductive RunItem where
  | properties
  | text (data : String)
  | symbol (font : Option String) (code : String)
  | note (kind : NoteKind) (id : String)
  | instruction (text : String)
  | fieldMark (type : String)
  /-- Marks of the layout, which the text does not show. -/
  | silent
  | other
deriving DecidableEq, Repr

def Element.runItem (e : Element) : RunItem :=
  match e.localName with
  | "rPr" => .properties
  | "t" => .text e.textContent
  | "tab" => .text "\t"
  | "br" => .text "\n"
  | "sym" => .symbol (e.attribute? "w:font") ((e.attribute? "w:char").getD "")
  | "footnoteReference" => .note .footnote ((e.attribute? "w:id").getD "")
  | "endnoteReference" => .note .endnote ((e.attribute? "w:id").getD "")
  | "instrText" => .instruction e.textContent
  | "fldChar" => .fieldMark ((e.attribute? "w:fldCharType").getD "")
  | "separator" => .silent
  | "continuationSeparator" => .silent
  | "footnoteRef" => .silent
  | "endnoteRef" => .silent
  | "lastRenderedPageBreak" => .silent
  | "softHyphen" => .silent
  | _ => .other

end WordTex
