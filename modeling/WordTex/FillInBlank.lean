/-! # Fill-in blanks: runs of underscores drawn as one rule -/
namespace WordTex

/-- An underlined empty space of a width in points. -/
def blankRule (points : Nat) : List Char :=
  ("\\underline\x7b\\hspace\x7b" ++ toString points ++ "pt\x7d\x7d").toList

/-- Each maximal run of `n` underscores becomes a rule of `n` times the width of one. -/
def fillInBlanks (width : Nat) : List Char → List Char
  | [] => []
  | c :: cs =>
    if c = '_' then
      blankRule (((cs.takeWhile (· = '_')).length + 1) * width) ++
        fillInBlanks width (cs.dropWhile (· = '_'))
    else c :: fillInBlanks width cs
termination_by text => text.length
decreasing_by
  · have := (List.dropWhile_sublist (· = '_') (l := cs)).length_le
    simp only [List.length_cons]
    omega
  · simp

end WordTex
