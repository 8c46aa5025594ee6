import WordTex.Substitution

/-! # The table of characters that LaTeX spells differently

No pattern of the table starts another one, so the order of the entries has no effect. -/
namespace WordTex
namespace CharacterTable

/-- A control word between dollar signs. -/
def inMath (name : String) : List Char := '$' :: '\\' :: name.toList ++ ['$']

/-- Characters that are special to TeX, and the comparison signs. -/
def specials : List Substitution :=
  [⟨['\\'], "\\backslash\x7b\x7d".toList⟩, ⟨['\x7b'], "\\\x7b".toList⟩,
    ⟨['\x7d'], "\\\x7d".toList⟩, ⟨['$'], "\\$".toList⟩, ⟨['#'], "\\#".toList⟩,
    ⟨['<'], "\\textless\x7b\x7d".toList⟩, ⟨['>'], "\\textgreater\x7b\x7d".toList⟩,
    ⟨['&'], "\\&".toList⟩, ⟨['%'], "\\%".toList⟩]

/-- Letters with an accent. -/
def accentedLetters : List Substitution :=
  [⟨['á'], "\\'a".toList⟩, ⟨['é'], "\\'e".toList⟩, ⟨['í'], "\\'i".toList⟩, ⟨['ó'], "\\'o".toList⟩,
    ⟨['ú'], "\\'u".toList⟩, ⟨['ő'], "\\H\x7bo\x7d".toList⟩, ⟨['ű'], "\\H\x7bu\x7d".toList⟩,
    ⟨['ò'], "\\`\x7bo\x7d".toList⟩, ⟨['ö'], "\\\"o".toList⟩, ⟨['ü'], "\\\"u".toList⟩,
    ⟨['ô'], "\\^\x7bo\x7d".toList⟩, ⟨['ŏ'], "\\u\x7bo\x7d".toList⟩,
    ⟨['č'], "\\v\x7bc\x7d".toList⟩, ⟨['ø'], "\\o".toList⟩, ⟨['Ø'], "\\O".toList⟩]

/-- Accents that follow their letter in the source and precede the next one in TeX. -/
def combiningAccents : List Substitution :=
  [⟨['\u0308'], "\\\"".toList⟩, ⟨['\u0301'], "\\'".toList⟩]

/-- Mathematical signs, Greek letters and arrows. -/
def mathematics : List Substitution :=
  [⟨['∧'], inMath "wedge"⟩, ⟨['∨'], inMath "vee"⟩, ⟨['∀'], inMath "forall"⟩,
    ⟨['∃'], inMath "exists"⟩, ⟨['\u00ac'], inMath "neg"⟩, ⟨['≠'], inMath "neq"⟩,
    ⟨['≤'], inMath "leq"⟩, ⟨['∈'], inMath "in"⟩, ⟨['∅'], inMath "emptyset"⟩,
    ⟨['\u2212'], "$-$".toList⟩, ⟨['⊑'], inMath "sqsubseteq"⟩, ⟨['⊃'], inMath "supset"⟩,
    ⟨['⊂'], inMath "subset"⟩, ⟨['≡'], inMath "equiv"⟩, ⟨['⊆'], inMath "subseteq"⟩,
    ⟨['⊇'], inMath "supseteq"⟩, ⟨['≥'], inMath "ge"⟩, ⟨['\u00d7'], inMath "times"⟩,
    ⟨['∪'], inMath "cup"⟩, ⟨['α'], inMath "alpha"⟩, ⟨['λ'], inMath "lambda"⟩,
    ⟨['δ'], inMath "delta"⟩, ⟨['ε'], inMath "epsilon"⟩, ⟨['ι'], inMath "iota"⟩,
    ⟨['Π'], inMath "Pi"⟩, ⟨['π'], inMath "pi"⟩, ⟨['ϕ'], inMath "phi"⟩, ⟨['θ'], inMath "theta"⟩,
    ⟨['Θ'], inMath "Theta"⟩, ⟨['β'], inMath "beta"⟩, ⟨['\u00b5'], inMath "mu"⟩,
    ⟨['\u03bc'], inMath "mu"⟩, ⟨['τ'], inMath "tau"⟩, ⟨['\u25ca'], inMath "lozenge"⟩,
    ⟨['⇐'], inMath "Leftarrow"⟩, ⟨['⇔'], inMath "Leftrightarrow"⟩, ⟨['⇒'], inMath "Rightarrow"⟩,
    ⟨['→'], inMath "to"⟩, ⟨['∞'], inMath "infty"⟩, ⟨['\u2610'], inMath "square"⟩]

/-- Private use characters that stand for glyphs of the Symbol font. -/
def symbolFontForms : List Substitution :=
  [⟨['\uf022'], inMath "forall"⟩, ⟨['\uf024'], inMath "exists"⟩, ⟨['\uf03c'], "$<$".toList⟩,
    ⟨['\uf0ce'], inMath "in"⟩, ⟨['\uf0c7'], inMath "cap"⟩, ⟨['\uf061'], inMath "alpha"⟩,
    ⟨['\uf06c'], inMath "lambda"⟩, ⟨['\uf066'], inMath "phi"⟩, ⟨['\uf062'], inMath "beta"⟩,
    ⟨['\uf020'], " ".toList⟩, ⟨['\uf070'], inMath "pi"⟩, ⟨['\uf02c'], ",".toList⟩,
    ⟨['\uf07b'], "\\\x7b".toList⟩, ⟨['\uf07c'], "|".toList⟩, ⟨['\uf03e'], "$>$".toList⟩]

/-- Typographic quotes, dashes, the ellipsis and a ligature. -/
def punctuation : List Substitution :=
  [⟨['\u2018'], "`".toList⟩, ⟨['\u2019'], "'".toList⟩, ⟨['\u201c'], "``".toList⟩,
    ⟨['\u201d'], "''".toList⟩, ⟨['\u2026'], "\\dots\x7b\x7d".toList⟩, ⟨['\u2014'], "---".toList⟩,
    ⟨['\u2013'], "--".toList⟩, ⟨['\ufb01'], "fi".toList⟩]

/-- The tab stop, the no-break space and the left-to-right mark. -/
def spacing : List Substitution :=
  [⟨['\t'], "\\tab\x7b\x7d".toList⟩, ⟨['\u00a0'], "~".toList⟩, ⟨['\u200e'], "".toList⟩]

/-- Arrows and double bars typed with ASCII characters. -/
def asciiSequences : List Substitution :=
  [⟨['=', '=', '>'], inMath "Rightarrow"⟩, ⟨['=', '>'], inMath "Rightarrow"⟩,
    ⟨['|', '|'], "\\textbardbl\x7b\x7d".toList⟩]

/-- The whole table. -/
def all : List Substitution :=
  specials ++ accentedLetters ++ combiningAccents ++ mathematics ++ symbolFontForms ++
    punctuation ++ spacing ++ asciiSequences

end CharacterTable
end WordTex
