import WordTex.CharacterTable
import WordTex.FillInBlank
import WordTex.QuotePairs

/-! # Plain text as LaTeX -/
namespace WordTex

/-- The choices left to the user of the renderer. -/
structure LatexOptions where
  /-- The command of a cross-reference, without its backslash. -/
  referenceCommand : String := "Cref"
  /-- Bookmark names are written as labels. -/
  includeLabels : Bool := true
  /-- The width in points of one underscore of a fill-in blank. -/
  underscoreWidth : Nat := 3
  /-- Pairs of straight quotes become TeX quotes. -/
  smartQuotes : Bool := true
deriving DecidableEq, Repr

instance : Inhabited LatexOptions := ⟨{}⟩

/-- Replaces the characters of the table. -/
def replaceCharacters (text : List Char) : List Char :=
  Substitution.apply CharacterTable.all text

theorem replaceCharacters_nil : replaceCharacters [] = [] := by
  rw [replaceCharacters, Substitution.apply]

/-- Text as LaTeX, by three passes: the character table, fill-in blanks, quote pairs. -/
def escapeChars (options : LatexOptions) (text : List Char) : List Char :=
  let tex := fillInBlanks options.underscoreWidth (replaceCharacters text)
  if options.smartQuotes then QuotePairs.convertAll tex else tex

def escapeText (options : LatexOptions) (text : String) : String :=
  .ofList (escapeChars options text.toList)

/-- A character that is kept in the key of a label. -/
def isKeyChar (c : Char) : Bool := c.isAlphanum || c == '-'

/-- The key of a bookmark in labels and references: its ASCII letters, digits and hyphens. -/
def labelKey (bookmark : String) : String := .ofList (bookmark.toList.filter isKeyChar)

end WordTex
