import WordTex.CharacterStyle

/-! # Styled texts and the spans they are cut into -/
namespace WordTex

/-- A run of text with the union of the styles that apply to it. -/
structure StyledText where
  data : String
  styles : Style
deriving DecidableEq, Repr

namespace StyledText

def plain (data : String) : StyledText := ⟨data, .empty⟩

/-- A hard line break is a text of one line feed. -/
def isLineBreak (t : StyledText) : Bool := t.data == "\n"

end StyledText

/-- A part of a styled text that is laid out as one: white space, which takes no style, or a core. -/
inductive Span where
  | blank (text : List Char)
  | core (text : List Char) (styles : Style)
deriving DecidableEq, Repr

namespace Span

def text : Span → List Char
  | blank t => t
  | core t _ => t

end Span

/-- The white space around a text is detached from its core; empty parts are left out. -/
def StyledText.spans (t : StyledText) : List Span :=
  let e := edges t.data.toList
  (if e.leading = [] then [] else [.blank e.leading]) ++
    (if e.core = [] then [] else [.core e.core t.styles]) ++
    (if e.trailing = [] then [] else [.blank e.trailing])

end WordTex
