import WordTex.WhiteSpace

/-! # Pairs of straight quotes

A straight quote opens a pair at the start of the text or after a space or an opening bracket. It
closes before the end of the text, a space, punctuation or a closing bracket. The span between
begins and ends with a character that is not white space and has at most 200 characters other than
the quote between those two. Its last character may itself be a quote, and that reading is
preferred. -/
namespace WordTex
namespace QuotePairs

/-- A quoting style: the straight quote, and what its opening and closing occurrences become. -/
structure Marks where
  straight : Char
  opening : List Char
  closing : List Char
deriving DecidableEq, Repr

def single : Marks := ⟨'\x27', ['\x60'], ['\x27']⟩

def double : Marks := ⟨'\x22', ['\x60', '\x60'], ['\x27', '\x27']⟩

/-- What may stand before an opening quote that is not at the start of the text. -/
def opensAfter (c : Char) : Bool := c == '(' || c == '[' || c == ' '

/-- What may follow a closing quote that is not at the end of the text. -/
def closesBefore (c : Char) : Bool :=
  c == '.' || c == ',' || c == ';' || c == '?' || c == ')' || c == ']' || c == ' '

/-- A quote followed by this text may be a closing one. -/
def mayClose : List Char → Bool
  | [] => true
  | c :: _ => closesBefore c

/-- The greatest number of characters between the first and the last of a span. -/
def maxInner : Nat := 200

/-- The length of the quoted span that starts this text, if the text continues with its closing
quote. -/
def spanLength? (q : Char) : List Char → Option Nat
  | [] => none
  | c :: cs =>
    if isBlank c then none
    else
      let inner := cs.takeWhile (· ≠ q)
      match cs.dropWhile (· ≠ q) with
      | [] => none
      | _ :: rest =>
        let quoteIsLast := match rest with
          | d :: after => d == q && 1 ≤ inner.length && inner.length ≤ maxInner && mayClose after
          | [] => false
        if quoteIsLast then some (inner.length + 2)
        else if 2 ≤ inner.length && inner.length ≤ maxInner + 1 &&
            !(inner.getLast?.any isBlank) && mayClose rest then some (inner.length + 1)
        else none

/-- The span in its new marks, and the character after the closing quote, which may not open another
pair. -/
def convertedSpan (m : Marks) (n : Nat) (text : List Char) : List Char :=
  m.opening ++ text.take n ++ m.closing ++ (text.drop (n + 1)).take 1

/-- Replaces the quotes of each pair from left to right; pairs do not overlap. The flag says that
nothing has been read yet. -/
def convertFrom (m : Marks) (atStart : Bool) : List Char → List Char
  | [] => []
  | c :: cs =>
    match if atStart && c == m.straight then spanLength? m.straight cs else none with
    | some n => convertedSpan m n cs ++ convertFrom m false (cs.drop (n + 2))
    | none =>
      match cs with
      | [] => [c]
      | d :: ds =>
        match if opensAfter c && d == m.straight then spanLength? m.straight ds else none with
        | some n => c :: convertedSpan m n ds ++ convertFrom m false (ds.drop (n + 2))
        | none => c :: convertFrom m false (d :: ds)
termination_by text => text.length
decreasing_by
  all_goals simp only [List.length_drop, List.length_cons]
  all_goals omega

def convert (m : Marks) (text : List Char) : List Char := convertFrom m true text

/-- Single quotes are paired first, then double quotes in the result. -/
def convertAll (text : List Char) : List Char := convert double (convert single text)

end QuotePairs
end WordTex
