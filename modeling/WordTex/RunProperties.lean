import WordTex.CharacterStyle
import WordTex.Notices
import WordTex.XmlTree

/-! # Formatting properties -/
namespace WordTex

/-- A toggle without a value is on. -/
def isOn (value : Option String) : Bool :=
  value != some "0" && value != some "false" && value != some "off"

/-- The style that a property sets, from its local name and its value. -/
def propertyStyle? (tag : String) (value : Option String) : Option Style :=
  match tag with
  | "i" => if isOn value then some .italic else none
  | "b" => if isOn value then some .bold else none
  | "u" => if value = some "single" then some .underline else none
  | "vertAlign" =>
    if value = some "subscript" then some .subscript
    else if value = some "superscript" then some .superscript
    else none
  | "position" =>
    if value = some "-4" then some .subscript
    else if value = some "6" then some .superscript
    else none
  | _ => none

namespace Element

/-- The value of an element whose only matter is a value. -/
def value? (e : Element) : Option String := e.attribute? "w:val"

def propertyStyle? (e : Element) : Option Style := WordTex.propertyStyle? e.localName e.value?

/-- The union of the styles that the children of a block of properties set. -/
def propertyStyles (block : Element) : Style :=
  Style.unionAll (block.childElements.filterMap propertyStyle?)

/-- The properties of a block that set no style. -/
def propertyNotices (block : Element) : List Notice :=
  (block.childElements.filter (·.propertyStyle?.isNone)).map fun e =>
    .propertyIgnored block.name e.localName e.value?

end Element

end WordTex
