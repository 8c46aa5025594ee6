/-! # Substitution of fixed patterns, in one pass from left to right -/
namespace WordTex

/-- A pattern and the text that takes its place. -/
structure Substitution where
  pattern : List Char
  value : List Char
deriving DecidableEq, Repr

namespace Substitution

/-- The first entry of the table whose pattern starts the text. -/
def first? (table : List Substitution) (text : List Char) : Option Substitution :=
  table.find? fun s => s.pattern.isPrefixOf text

/-- Each character that starts a match is replaced together with the rest of the match; the
replacement is not read again. -/
def apply (table : List Substitution) : List Char → List Char
  | [] => []
  | c :: cs =>
    match first? table (c :: cs) with
    | some s => s.value ++ apply table (cs.drop (s.pattern.length - 1))
    | none => c :: apply table cs
termination_by text => text.length
decreasing_by
  · simp only [List.length_drop, List.length_cons]
    omega
  · simp

end Substitution

end WordTex
