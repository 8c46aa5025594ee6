import WordTex.JsonValue
import WordTex.TextCuts

/-! # Reading JSON text

A text is read as a whole even where a string in it has no meaning, because such a string may stand
in a value that nothing asks for. -/
namespace WordTex
namespace Json

/-- Four hexadecimal digits and the text after them. -/
def hexUnit? : List Char → Option (Nat × List Char)
  | a :: b :: c :: d :: rest => (number? 16 [a, b, c, d]).map (·, rest)
  | _ => none

def isHighSurrogate (n : Nat) : Bool := 0xD800 ≤ n && n ≤ 0xDBFF

def isLowSurrogate (n : Nat) : Bool := 0xDC00 ≤ n && n ≤ 0xDFFF

/-- The character of an escape by number, and the text after it. One beyond the basic plane takes two
units. Each unit of such a pair stands for nothing without the other. -/
def unicodeEscape? (s : List Char) : Option (Option Char × List Char) := do
  let (n, rest) ← hexUnit? s
  if isHighSurrogate n then
    match (after? ['\\', 'u'] rest).bind hexUnit? with
    | some (m, after) =>
      if isLowSurrogate m then
        return (some (Char.ofNat (0x10000 + (n - 0xD800) * 0x400 + (m - 0xDC00))), after)
      else return (none, rest)
    | none => return (none, rest)
  else return (if isLowSurrogate n then none else some (Char.ofNat n), rest)

/-- The character of an escape by letter. -/
def letterEscape? (c : Char) : Option Char :=
  if c = '\x22' || c = '\\' || c = '/' then some c
  else if c = 'b' then some '\x08'
  else if c = 'f' then some '\x0c'
  else if c = 'n' then some '\n'
  else if c = 'r' then some '\r'
  else if c = 't' then some '\t'
  else none

/-- The first character of a string's inside, if it stands for one, and the text after it. -/
def stringChar? : List Char → Option (Option Char × List Char)
  | '\\' :: 'u' :: rest => unicodeEscape? rest
  | '\\' :: c :: rest => (letterEscape? c).map (some ·, rest)
  | '\\' :: [] => none
  | c :: rest => if c.toNat < 0x20 then none else some (some c, rest)
  | [] => none

/-- The inside of a string up to its closing quote, if all of it stands for characters, and the text
after that. -/
def readInside : Nat → List Char → Option (Option (List Char) × List Char)
  | _, '\x22' :: rest => some (some [], rest)
  | fuel + 1, s => do
    let (c, rest) ← stringChar? s
    let (cs, rest) ← readInside fuel rest
    return (c.bind fun c => cs.map (c :: ·), rest)
  | 0, _ => none

/-- A string whose opening quote has been read. -/
def readString (s : List Char) : Option (Option String × List Char) :=
  (readInside s.length s).map fun r => (r.1.map .ofList, r.2)

/-- The digits that a text starts with, if there is one, and the text after them. -/
def readDigits (s : List Char) : Option (List Char × List Char) :=
  let digits := s.takeWhile Char.isDigit
  if digits = [] then none else some (digits, s.dropWhile Char.isDigit)

/-- The fraction of a number, which may be absent. -/
def readFraction : List Char → Option (List Char × List Char)
  | '.' :: s => (readDigits s).map fun r => ('.' :: r.1, r.2)
  | s => some ([], s)

/-- The exponent of a number, which may be absent. -/
def readExponent : List Char → Option (List Char × List Char)
  | c :: s =>
    if c = 'e' || c = 'E' then
      match s with
      | '+' :: s => (readDigits s).map fun r => (c :: '+' :: r.1, r.2)
      | '-' :: s => (readDigits s).map fun r => (c :: '-' :: r.1, r.2)
      | s => (readDigits s).map fun r => (c :: r.1, r.2)
    else some ([], c :: s)
  | [] => some ([], [])

/-- The whole part of a number, without needless zeros in front. -/
def readWhole : List Char → Option (List Char × List Char)
  | '0' :: s => some (['0'], s)
  | s => readDigits s

/-- A number without its sign. -/
def readUnsigned (s : List Char) : Option (List Char × List Char) := do
  let (whole, s) ← readWhole s
  let (fraction, s) ← readFraction s
  let (exponent, s) ← readExponent s
  return (whole ++ fraction ++ exponent, s)

def readNumber : List Char → Option (List Char × List Char)
  | '-' :: s => (readUnsigned s).map fun r => ('-' :: r.1, r.2)
  | s => readUnsigned s

def stringOrUndecodable (text : Option String) : Json := (text.map .string).getD .undecodable

def objectOrUndecodable (members : Option (List (String × Json))) : Json :=
  (members.map .object).getD .undecodable

mutual

/-- A value, and the text after it. The fuel bounds the tokens of the value. -/
def readValue : Nat → List Char → Option (Json × List Char)
  | 0, _ => none
  | fuel + 1, s =>
    match skipAsciiSpace s with
    | '\x22' :: s => (readString s).map fun r => (stringOrUndecodable r.1, r.2)
    | '[' :: s =>
      match skipAsciiSpace s with
      | ']' :: s => some (.array [], s)
      | s => (readItems fuel s).map fun r => (.array r.1, r.2)
    | '\x7b' :: s =>
      match skipAsciiSpace s with
      | '\x7d' :: s => some (.object [], s)
      | s => (readMembers fuel s).map fun r => (objectOrUndecodable r.1, r.2)
    | 'n' :: s => (after? "ull".toList s).map (Json.null, ·)
    | 't' :: s => (after? "rue".toList s).map (Json.bool true, ·)
    | 'f' :: s => (after? "alse".toList s).map (Json.bool false, ·)
    | s => (readNumber s).map fun r => (.number r.1, r.2)

/-- One item or more up to the closing bracket. -/
def readItems : Nat → List Char → Option (List Json × List Char)
  | 0, _ => none
  | fuel + 1, s => do
    let (v, s) ← readValue fuel s
    match skipAsciiSpace s with
    | ']' :: s => return ([v], s)
    | ',' :: s =>
      let (vs, s) ← readItems fuel s
      return (v :: vs, s)
    | _ => none

/-- One member or more up to the closing brace, if their names are all text. -/
def readMembers : Nat → List Char → Option (Option (List (String × Json)) × List Char)
  | 0, _ => none
  | fuel + 1, s =>
    match skipAsciiSpace s with
    | '\x22' :: s => do
      let (k, s) ← readString s
      match skipAsciiSpace s with
      | ':' :: s =>
        let (v, s) ← readValue fuel s
        match skipAsciiSpace s with
        | '\x7d' :: s => return (k.map fun k => [(k, v)], s)
        | ',' :: s =>
          let (ms, s) ← readMembers fuel s
          return (k.bind fun k => ms.map ((k, v) :: ·), s)
        | _ => none
      | _ => none
    | _ => none

end

/-- A text is one value with nothing but white space around it. -/
def ofText? (text : String) : Option Json :=
  let s := text.toList
  match readValue (s.length + 1) s with
  | some (v, rest) => if skipAsciiSpace rest = [] then some v else none
  | none => none

end Json
end WordTex
