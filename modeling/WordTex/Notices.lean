import WordTex.QuotedText
import WordTex.DocumentTree

/-! # What the reader notices in a document

A notice never stops the reading. Warnings and errors tell of content that is lost or left without
its meaning, the other levels of markup that has no part in the result. -/
namespace WordTex

/-- An element of a part, by its path from the root. -/
structure Place where
  part : String
  path : String
deriving DecidableEq, Repr

inductive NoticeLevel where
  | error
  | warn
  | info
  | debug
deriving DecidableEq, Repr

def NoticeLevel.toText : NoticeLevel → String
  | error => "ERROR"
  | warn => "WARN"
  | info => "INFO"
  | debug => "DEBUG"

inductive Notice where
  | noteWithoutId (part element : String)
  | missingBody (part root : String)
  | blockSkipped (part parent tag : String)
  | paragraphStyleIgnored (style : String)
  | paragraphChildIgnored (tag : String)
  | hyperlinkChildIgnored (tag : String)
  | runChildIgnored (tag : String)
  | propertyIgnored (block tag : String) (value : Option String)
  | symbolWithoutText (code : String) (font : Option String)
  | unknownNote (kind : NoteKind) (id : String) (place : Place)
  | instructionOutsideField (instruction : String) (place : Place)
  | separatorOutsideField (place : Place)
  | endOutsideField (place : Place)
  | fieldLeftOpen (instruction : String) (place : Place)
  | lateInstruction (instruction : String)
  | hyperlinkInstruction (url : String)
  | listInstruction (series : String)
  | otherInstruction (name : String)
  | danglingReference (code : String)
deriving DecidableEq, Repr

namespace Notice

def level : Notice → NoticeLevel
  | instructionOutsideField .. | endOutsideField .. => .error
  | noteWithoutId .. | missingBody .. | blockSkipped .. | unknownNote .. |
    separatorOutsideField .. | fieldLeftOpen .. | danglingReference .. => .warn
  | symbolWithoutText .. | hyperlinkInstruction .. | listInstruction .. => .info
  | paragraphStyleIgnored .. | paragraphChildIgnored .. | hyperlinkChildIgnored .. |
    runChildIgnored .. | propertyIgnored .. | lateInstruction .. | otherInstruction .. => .debug

def message : Notice → String
  | noteWithoutId part element => part ++ ": " ++ element ++ " without w:id skipped"
  | missingBody part root => part ++ ": " ++ root ++ " has no body"
  | blockSkipped part parent tag => part ++ ": " ++ parent ++ " > " ++ tag ++ " skipped"
  | paragraphStyleIgnored style => "Ignoring pPr > pStyle " ++ quoted style
  | paragraphChildIgnored tag => "p > " ++ tag ++ " ignored"
  | hyperlinkChildIgnored tag => "hyperlink > " ++ tag ++ " ignored"
  | runChildIgnored tag => "r > " ++ tag ++ " ignored"
  | propertyIgnored block tag value =>
    "Ignoring " ++ block ++ " > " ++ tag ++ "[val=" ++ quotedOption value ++ "]"
  | symbolWithoutText code font =>
    "r > sym " ++ quoted code ++ " in font " ++ quotedOption font ++ " has no equivalent"
  | unknownNote kind id place =>
    place.part ++ ": " ++ kind.toText ++ " reference to unknown id " ++ quoted id ++ " at " ++
      place.path
  | instructionOutsideField instruction place =>
    place.part ++ ": instrText " ++ quoted instruction ++ " without an open field at " ++ place.path
  | separatorOutsideField place =>
    place.part ++ ": field separator without an open field at " ++ place.path
  | endOutsideField place =>
    place.part ++ ": reached field end without an open field at " ++ place.path
  | fieldLeftOpen instruction place =>
    place.part ++ ": field \"" ++ instruction ++ "\" still open at end of paragraph " ++ place.path
  | lateInstruction instruction => "instrText after field separator ignored: " ++ quoted instruction
  | hyperlinkInstruction url => "Ignoring HYPERLINK field instruction: " ++ quoted url
  | listInstruction series => "Ignoring LISTNUM field instruction: " ++ quoted series
  | otherInstruction name => "Field instruction " ++ quoted name ++ " is not a reference"
  | danglingReference code => "Cross-reference to " ++ quoted code ++ " has no matching bookmark"

/-- The level and the message. -/
def toText (n : Notice) : String := n.level.toText ++ " " ++ n.message

end Notice

end WordTex
