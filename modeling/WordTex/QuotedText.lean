import WordTex.NongraphicCharacters
import WordTex.DigitText

/-! # Texts in double quotes, with escapes

The escapes make every character visible, so that a message shows a text exactly. -/
namespace WordTex

/-- An escape by number. -/
def numberEscape (c : Char) : List Char :=
  '\\' :: 'u' :: '\x7b' :: (hexText c.toNat).toList ++ ['\x7d']

/-- How a character is written inside quotes. -/
def quotedChar (c : Char) : List Char :=
  if c = '\x00' then ['\\', '0']
  else if c = '\t' then ['\\', 't']
  else if c = '\n' then ['\\', 'n']
  else if c = '\r' then ['\\', 'r']
  else if c = '\x22' ∨ c = '\\' then ['\\', c]
  else if isGraphic c then [c]
  else numberEscape c

def quoted (text : String) : String :=
  .ofList ('\x22' :: text.toList.flatMap quotedChar ++ ['\x22'])

/-- A value that may be absent. -/
def quotedOption : Option String → String
  | some text => "Some(" ++ quoted text ++ ")"
  | none => "None"

end WordTex
