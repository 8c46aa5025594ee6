import WordTex.WhiteSpace
import WordTex.DigitText
import WordTex.TextCuts

/-! # Character styles

A style is a set of flags kept in one byte. Five bits have names; the others carry no meaning of
their own, are kept, and act as one further flag after the named ones. -/
namespace WordTex

/-- A set of style flags, one bit each. -/
structure Style where
  bits : BitVec 8
deriving DecidableEq, Repr

namespace Style

def empty : Style := ⟨0⟩

instance : Inhabited Style := ⟨empty⟩

def bold : Style := ⟨1⟩

def italic : Style := ⟨2⟩

def underline : Style := ⟨4⟩

def subscript : Style := ⟨8⟩

def superscript : Style := ⟨16⟩

/-- The flags of either style. -/
def union (a b : Style) : Style := ⟨a.bits ||| b.bits⟩

/-- The flags of `a` that `b` lacks. -/
def difference (a b : Style) : Style := ⟨a.bits &&& ~~~b.bits⟩

/-- Every flag of `b` is in `a`. -/
def contains (a b : Style) : Bool := a.bits &&& b.bits == b.bits

/-- The named flags with their names, from the lowest bit to the highest. -/
def named : List (Style × String) :=
  [(bold, "BOLD"), (italic, "ITALIC"), (underline, "UNDERLINE"),
    (subscript, "SUBSCRIPT"), (superscript, "SUPERSCRIPT")]

/-- What is left of a style without its named flags. -/
def unnamed (s : Style) : Style :=
  s.difference (named.foldl (fun t f => t.union f.1) empty)

/-- The flags of a style: the named ones from the lowest bit up, then the rest as one. -/
def flags (s : Style) : List Style :=
  (named.map Prod.fst).filter s.contains ++ if s.unnamed = empty then [] else [s.unnamed]

/-- The union of a list of styles. -/
def unionAll (ss : List Style) : Style := ss.foldl union empty

/-- The command that sets a single flag; a set of several flags has none. -/
def command? (s : Style) : Option String :=
  if s = bold then some "textbf"
  else if s = italic then some "textit"
  else if s = underline then some "underline"
  else if s = subscript then some "textsubscript"
  else if s = superscript then some "textsuperscript"
  else none

/-- The written form: the names joined by bars, with unnamed bits last as one hexadecimal number. -/
def toText (s : Style) : String :=
  let names := (named.filter (fun f => s.contains f.1)).map Prod.snd
  let rest := if s.unnamed = empty then [] else ["0x" ++ hexText s.unnamed.bits.toNat]
  " | ".intercalate (names ++ rest)

/-- One piece of a written style: a name, or `0x` and a number of at most eight bits. -/
def ofPiece? : List Char → Option Style
  | '0' :: 'x' :: digits => (boundedNumber? 16 256 digits).map fun n => ⟨BitVec.ofNat 8 n⟩
  | name => (named.find? fun f => f.2.toList == name).map Prod.fst

/-- A blank text is the empty style; any other is pieces between bars, none of them blank. -/
def ofText? (text : String) : Option Style :=
  if IsBlankText text.toList then some empty
  else ((splitOnChar '|' text.toList).mapM fun p => ofPiece? (WordTex.trim p)).map unionAll

end Style

end WordTex
