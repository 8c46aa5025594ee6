import WordTex.DigitText
import WordTex.DecimalRange

/-! # JSON values and their shortest text

Members keep their order, and a name may occur more than once. A number is kept as it was written. -/
namespace WordTex

/-- Of a string with half of a surrogate pair, and of an object with such a name, only that it is one
is kept: it is `undecodable`. -/
inductive Json where
  | null
  | bool (value : Bool)
  | number (literal : List Char)
  | string (text : String)
  | array (items : List Json)
  | object (members : List (String × Json))
  | undecodable

namespace Json

instance : Inhabited Json := ⟨null⟩

/-- The escape of a character that cannot stand for itself in a string. -/
def escapeChar? (c : Char) : Option (List Char) :=
  if c = '\x22' then some ['\\', '\x22']
  else if c = '\\' then some ['\\', '\\']
  else if c = '\x08' then some ['\\', 'b']
  else if c = '\x0c' then some ['\\', 'f']
  else if c = '\n' then some ['\\', 'n']
  else if c = '\r' then some ['\\', 'r']
  else if c = '\t' then some ['\\', 't']
  else if c.toNat < 16 then some ("\\u000".toList ++ (hexText c.toNat).toList)
  else if c.toNat < 32 then some ("\\u00".toList ++ (hexText c.toNat).toList)
  else none

def writeString (s : String) : List Char :=
  '\x22' :: s.toList.flatMap (fun c => (escapeChar? c).getD [c]) ++ ['\x22']

mutual

/-- The text of a value without any white space between its tokens. A surrogate alone stands for
everything undecodable. -/
def write : Json → List Char
  | .null => "null".toList
  | .bool true => "true".toList
  | .bool false => "false".toList
  | .number literal => literal
  | .string s => writeString s
  | .array items => '[' :: writeItems items ++ [']']
  | .object members => '\x7b' :: writeMembers members ++ ['\x7d']
  | .undecodable => '\x22' :: "\\ud800".toList ++ ['\x22']

def writeItems : List Json → List Char
  | [] => []
  | [v] => v.write
  | v :: w :: vs => v.write ++ ',' :: writeItems (w :: vs)

def writeMembers : List (String × Json) → List Char
  | [] => []
  | [(k, v)] => writeString k ++ ':' :: v.write
  | (k, v) :: m :: ms => writeString k ++ ':' :: v.write ++ ',' :: writeMembers (m :: ms)

end

def toText (j : Json) : String := .ofList j.write

mutual

/-- How many arrays and objects stand one inside the other. -/
def depth : Json → Nat
  | .array items => depthOfItems items + 1
  | .object members => depthOfMembers members + 1
  | _ => 0

def depthOfItems : List Json → Nat
  | [] => 0
  | v :: vs => max v.depth (depthOfItems vs)

def depthOfMembers : List (String × Json) → Nat
  | [] => 0
  | (_, v) :: ms => max v.depth (depthOfMembers ms)

end

mutual

/-- Every string in the value is text, and every number is in range. -/
def isSound : Json → Bool
  | .number literal => (Decimal.ofLiteral literal).inRange
  | .array items => areSound items
  | .object members => membersSound members
  | .undecodable => false
  | _ => true

def areSound : List Json → Bool
  | [] => true
  | v :: vs => v.isSound && areSound vs

def membersSound : List (String × Json) → Bool
  | [] => true
  | (_, v) :: ms => v.isSound && membersSound ms

end

/-- A value that can be taken in as a whole: it is sound, and its nesting stays within bounds. -/
def fits (levels : Nat) (j : Json) : Bool := j.depth ≤ levels && j.isSound

end Json

end WordTex
