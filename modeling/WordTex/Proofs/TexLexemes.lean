import WordTex.LatexText
import Mathlib.Data.List.Infix

/-! # How TeX reads the characters of a text

A backslash takes the character that follows it; every other character stands by itself. A text is
lexically safe if the characters that are special to TeX keep their places under this reading. A
reader with one state per character, which can be run, is the sufficient condition used in the
proofs: texts that leave its state alone can be put next to each other. -/
namespace WordTex

/-- A character as TeX reads it. -/
inductive Lexeme where
  /-- Taken by the backslash before it. -/
  | taken (c : Char)
  | bare (c : Char)
deriving DecidableEq, Repr

def Lexeme.char : Lexeme → Char
  | taken c => c
  | bare c => c

/-- A backslash at the end of a text has nothing to take. -/
def lexemes : List Char → List Lexeme
  | [] => []
  | ['\\'] => [.bare '\\']
  | '\\' :: c :: s => .taken c :: lexemes s
  | c :: s => .bare c :: lexemes s

/-- As many braces are closed as are opened, and no prefix closes more than it opens. -/
structure BracesBalanced (ls : List Lexeme) : Prop where
  total : ls.count (.bare '\x7d') = ls.count (.bare '\x7b')
  prefixes : ∀ p, p <+: ls → p.count (.bare '\x7d') ≤ p.count (.bare '\x7b')

/-- What may stand between two dollar signs. -/
def Lexeme.InMath (l : Lexeme) : Prop :=
  l ≠ .bare '$' ∧ l.char ≠ '\x7b' ∧ l.char ≠ '\x7d' ∧ l.char ≠ '\n'

/-- The dollar signs that stand by themselves are pairs around such lexemes. -/
inductive MathPaired : List Lexeme → Prop where
  | nil : MathPaired []
  | outside {l : Lexeme} {ls : List Lexeme} (hl : l ≠ .bare '$') (hls : MathPaired ls) :
      MathPaired (l :: ls)
  | pair {inner ls : List Lexeme} (hinner : ∀ l ∈ inner, l.InMath) (hls : MathPaired ls) :
      MathPaired (.bare '$' :: (inner ++ .bare '$' :: ls))

/-- No character of the text has a meaning to TeX that its surroundings do not give it. -/
structure LexicallySafe (tex : List Char) : Prop where
  noUnderscore : '_' ∉ tex
  specialsTaken : ∀ c ∈ ['#', '%', '&'], .bare c ∉ lexemes tex
  braces : BracesBalanced (lexemes tex)
  math : MathPaired (lexemes tex)

/-- Where a reader stands: how many braces are open, whether it is between dollar signs, and whether
the character before was a backslash by itself. -/
structure TexState where
  depth : Nat
  inMath : Bool
  taking : Bool
deriving DecidableEq, Repr

/-- The characters that formulas are written with. -/
def isMathChar (c : Char) : Bool := c.isAlpha || c == '-' || c == '<' || c == '>'

/-- The characters that stand by themselves in a text before its blanks are drawn. -/
def isUnruledChar (c : Char) : Bool := c != '#' && c != '%' && c != '&'

/-- The characters that stand by themselves in finished text. -/
def isPlainChar (c : Char) : Bool := isUnruledChar c && c != '_'

namespace TexState

/-- Between braces and outside of formulas. -/
def inText (depth : Nat) : TexState := ⟨depth, false, false⟩

/-- One character, if it is in its place. `plain` tells which characters are ordinary text. -/
def next (plain : Char → Bool) (s : TexState) (c : Char) : Option TexState :=
  if s.taking then
    if (if s.inMath then isMathChar c else c != '_') then some { s with taking := false } else none
  else if c = '\\' then some { s with taking := true }
  else if c = '$' then some { s with inMath := !s.inMath }
  else if s.inMath then if isMathChar c then some s else none
  else if c = '\x7b' then some { s with depth := s.depth + 1 }
  else if c = '\x7d' then if s.depth = 0 then none else some { s with depth := s.depth - 1 }
  else if plain c then some s
  else none

def read (plain : Char → Bool) (s : TexState) (tex : List Char) : Option TexState :=
  tex.foldlM (next plain) s

variable {plain : Char → Bool}

@[simp] theorem read_nil (s : TexState) : s.read plain [] = some s := rfl

@[simp] theorem read_cons (s : TexState) (c : Char) (tex : List Char) :
    s.read plain (c :: tex) = (s.next plain c).bind (read plain · tex) := rfl

theorem read_append (s : TexState) (a b : List Char) :
    s.read plain (a ++ b) = (s.read plain a).bind (read plain · b) :=
  List.foldlM_append ..

/-- The characters that change the state by themselves. -/
def isDelimiter (c : Char) : Bool := c == '\\' || c == '$' || c == '\x7b' || c == '\x7d'

/-- What one character that is in its place can do. -/
inductive Step (plain : Char → Bool) : TexState → Char → TexState → Prop where
  | takenInText {d : Nat} {c : Char} (hc : c ≠ '_') : Step plain ⟨d, false, true⟩ c ⟨d, false, false⟩
  | takenInMath {d : Nat} {c : Char} (hc : isMathChar c) :
      Step plain ⟨d, true, true⟩ c ⟨d, true, false⟩
  | backslash {d : Nat} {m : Bool} : Step plain ⟨d, m, false⟩ '\\' ⟨d, m, true⟩
  | dollar {d : Nat} {m : Bool} : Step plain ⟨d, m, false⟩ '$' ⟨d, !m, false⟩
  | math {d : Nat} {c : Char} (hc : isMathChar c) : Step plain ⟨d, true, false⟩ c ⟨d, true, false⟩
  | opens {d : Nat} : Step plain ⟨d, false, false⟩ '\x7b' ⟨d + 1, false, false⟩
  | closes {d : Nat} : Step plain ⟨d + 1, false, false⟩ '\x7d' ⟨d, false, false⟩
  | plain {d : Nat} {c : Char} (hd : isDelimiter c = false) (hc : plain c) :
      Step plain ⟨d, false, false⟩ c ⟨d, false, false⟩

theorem step_of_next {s t : TexState} {c : Char} (h : s.next plain c = some t) :
    Step plain s c t := by
  obtain ⟨d, m, taking⟩ := s
  cases taking with
  | true =>
    cases m with
    | true =>
      obtain ⟨hc, rfl⟩ : isMathChar c = true ∧ _ = t := by simpa [next] using h
      exact .takenInMath hc
    | false =>
      obtain ⟨hc, rfl⟩ : c ≠ '_' ∧ _ = t := by simpa [next] using h
      exact .takenInText hc
  | false =>
    by_cases hb : c = '\\'
    · obtain rfl : _ = t := by simpa [next, hb] using h
      exact hb ▸ .backslash
    by_cases hd : c = '$'
    · obtain rfl : _ = t := by simpa [next, hd] using h
      exact hd ▸ .dollar
    cases m with
    | true =>
      obtain ⟨hc, rfl⟩ : isMathChar c = true ∧ _ = t := by simpa [next, hb, hd] using h
      exact .math hc
    | false =>
      by_cases ho : c = '\x7b'
      · obtain rfl : _ = t := by simpa [next, ho] using h
        exact ho ▸ .opens
      by_cases hc : c = '\x7d'
      · cases d with
        | zero => simp [next, hc] at h
        | succ d =>
          obtain rfl : _ = t := by simpa [next, hc] using h
          exact hc ▸ .closes
      · obtain ⟨hp, rfl⟩ : plain c = true ∧ _ = t := by simpa [next, hb, hd, ho, hc] using h
        exact .plain (by simp [isDelimiter, hb, hd, ho, hc]) hp

/-- The same place inside of further braces. -/
def deeper (k : Nat) (s : TexState) : TexState := { s with depth := s.depth + k }

theorem next_deeper {s t : TexState} {c : Char} (k : Nat) (h : s.next plain c = some t) :
    (s.deeper k).next plain c = some (t.deeper k) := by
  cases step_of_next h with
  | takenInText hc => simp [next, deeper, hc]
  | takenInMath hc => simp [next, deeper, hc]
  | backslash => simp [next, deeper]
  | dollar => simp [next, deeper]
  | math hc =>
    have hb : c ≠ '\\' := by rintro rfl; revert hc; decide
    have hd : c ≠ '$' := by rintro rfl; revert hc; decide
    simp [next, deeper, hc, hb, hd]
  | @opens d => simp [next, deeper, Nat.add_right_comm d 1 k]
  | @closes d => simp [next, deeper, Nat.add_right_comm d 1 k]
  | plain hd hc =>
    simp only [isDelimiter, Bool.or_eq_false_iff, beq_eq_false_iff_ne] at hd
    simp [next, deeper, hd, hc]

theorem read_deeper {s t : TexState} {tex : List Char} (k : Nat) (h : s.read plain tex = some t) :
    (s.deeper k).read plain tex = some (t.deeper k) := by
  induction tex generalizing s with
  | nil =>
    obtain rfl : s = t := by simpa using h
    rfl
  | cons c tex ih =>
    rw [read_cons] at h
    obtain ⟨u, hu, h⟩ := Option.bind_eq_some_iff.mp h
    rw [read_cons, next_deeper k hu, Option.bind_some, ih h]

theorem next_taken {d : Nat} {c : Char} (hc : c ≠ '_') :
    next plain ⟨d, false, true⟩ c = some (inText d) := by
  simp [next, inText, hc]

theorem next_plain {d : Nat} {c : Char} (hd : isDelimiter c = false) (hc : plain c = true) :
    (inText d).next plain c = some (inText d) := by
  simp only [isDelimiter, Bool.or_eq_false_iff, beq_eq_false_iff_ne] at hd
  simp [next, inText, hd, hc]

/-- A run of the reader over lexemes, between states that are not after a backslash. -/
inductive Run (plain : Char → Bool) : TexState → List Lexeme → TexState → Prop where
  | nil {s : TexState} : Run plain s [] s
  | takenInText {d : Nat} {c : Char} {ls : List Lexeme} {t : TexState} (hc : c ≠ '_')
      (hls : Run plain ⟨d, false, false⟩ ls t) : Run plain ⟨d, false, false⟩ (.taken c :: ls) t
  | takenInMath {d : Nat} {c : Char} {ls : List Lexeme} {t : TexState} (hc : isMathChar c)
      (hls : Run plain ⟨d, true, false⟩ ls t) : Run plain ⟨d, true, false⟩ (.taken c :: ls) t
  | dollar {d : Nat} {m : Bool} {ls : List Lexeme} {t : TexState}
      (hls : Run plain ⟨d, !m, false⟩ ls t) : Run plain ⟨d, m, false⟩ (.bare '$' :: ls) t
  | math {d : Nat} {c : Char} {ls : List Lexeme} {t : TexState} (hc : isMathChar c)
      (hls : Run plain ⟨d, true, false⟩ ls t) : Run plain ⟨d, true, false⟩ (.bare c :: ls) t
  | opens {d : Nat} {ls : List Lexeme} {t : TexState} (hls : Run plain ⟨d + 1, false, false⟩ ls t) :
      Run plain ⟨d, false, false⟩ (.bare '\x7b' :: ls) t
  | closes {d : Nat} {ls : List Lexeme} {t : TexState} (hls : Run plain ⟨d, false, false⟩ ls t) :
      Run plain ⟨d + 1, false, false⟩ (.bare '\x7d' :: ls) t
  | plain {d : Nat} {c : Char} {ls : List Lexeme} {t : TexState} (hd : isDelimiter c = false)
      (hc : plain c) (hls : Run plain ⟨d, false, false⟩ ls t) :
      Run plain ⟨d, false, false⟩ (.bare c :: ls) t

theorem run_of_read {s t : TexState} {tex : List Char} (hs : s.taking = false)
    (ht : t.taking = false) (h : s.read plain tex = some t) : Run plain s (lexemes tex) t := by
  induction tex using lexemes.induct generalizing s with
  | case1 =>
    obtain rfl : s = t := by simpa using h
    exact .nil
  | case2 =>
    obtain rfl : _ = t := by simpa [next, hs] using h
    simp at ht
  | case3 c tex ih =>
    obtain ⟨d, m, _⟩ := s
    obtain rfl : _ = false := hs
    have hb : next plain ⟨d, m, false⟩ '\\' = some ⟨d, m, true⟩ := by simp [next]
    rw [read_cons, hb, Option.bind_some, read_cons] at h
    obtain ⟨u, hu, h⟩ := Option.bind_eq_some_iff.mp h
    cases step_of_next hu with
    | takenInText hc => exact .takenInText hc (ih rfl h)
    | takenInMath hc => exact .takenInMath hc (ih rfl h)
  | case4 c tex hc₁ hc₂ ih =>
    have hl : lexemes (c :: tex) = .bare c :: lexemes tex := by
      rw [lexemes] <;> assumption
    rw [hl]
    rw [read_cons] at h
    obtain ⟨u, hu, h⟩ := Option.bind_eq_some_iff.mp h
    cases step_of_next hu with
    | takenInText hc => simp at hs
    | takenInMath hc => simp at hs
    | backslash =>
      -- a backslash with a character after it is the case before
      cases tex with
      | nil => exact (hc₁ rfl rfl).elim
      | cons e es => exact (hc₂ e es rfl rfl).elim
    | dollar => exact .dollar (ih rfl h)
    | math hc => exact .math hc (ih rfl h)
    | opens => exact .opens (ih rfl h)
    | closes => exact .closes (ih rfl h)
    | plain hd hc => exact .plain hd hc (ih rfl h)

theorem isMathChar_underscore : isMathChar '_' = false := by decide

theorem not_mem_underscore_of_read (hplain : plain '_' = false) {s t : TexState} {tex : List Char}
    (h : s.read plain tex = some t) : '_' ∉ tex := by
  induction tex generalizing s with
  | nil => simp
  | cons c tex ih =>
    rw [read_cons] at h
    obtain ⟨u, hu, h⟩ := Option.bind_eq_some_iff.mp h
    refine List.not_mem_cons_of_ne_of_not_mem ?_ (ih h)
    rintro rfl
    cases step_of_next hu with
    | takenInText hc => exact hc rfl
    | takenInMath hc => simp [isMathChar_underscore] at hc
    | math hc => simp [isMathChar_underscore] at hc
    | plain hd hc => simp [hplain] at hc

theorem not_mem_bare_of_run {c : Char} (hc : isMathChar c = false) (hd : isDelimiter c = false)
    (hplain : plain c = false) {s t : TexState} {ls : List Lexeme} (h : Run plain s ls t) :
    .bare c ∉ ls := by
  induction h with
  | nil => simp
  | takenInText _ _ ih => simpa using ih
  | takenInMath _ _ ih => simpa using ih
  | dollar _ ih => exact List.not_mem_cons_of_ne_of_not_mem (by rintro ⟨⟩; simp [isDelimiter] at hd) ih
  | math hm _ ih => exact List.not_mem_cons_of_ne_of_not_mem (by rintro ⟨⟩; simp [hm] at hc) ih
  | opens _ ih => exact List.not_mem_cons_of_ne_of_not_mem (by rintro ⟨⟩; simp [isDelimiter] at hd) ih
  | closes _ ih => exact List.not_mem_cons_of_ne_of_not_mem (by rintro ⟨⟩; simp [isDelimiter] at hd) ih
  | plain _ hp _ ih => exact List.not_mem_cons_of_ne_of_not_mem (by rintro ⟨⟩; simp [hplain] at hp) ih

private theorem exists_run_of_prefix_cons {s s' : TexState} {l : Lexeme} {ls p : List Lexeme}
    (hl : ∀ {q u}, Run plain s' q u → Run plain s (l :: q) u)
    (hls : ∀ {q}, q <+: ls → ∃ u, Run plain s' q u) (hp : p <+: l :: ls) :
    ∃ u, Run plain s p u := by
  rcases List.prefix_cons_iff.mp hp with rfl | ⟨q, rfl, hq⟩
  · exact ⟨s, .nil⟩
  · obtain ⟨u, hu⟩ := hls hq
    exact ⟨u, hl hu⟩

theorem exists_run_of_prefix {s t : TexState} {ls p : List Lexeme} (h : Run plain s ls t)
    (hp : p <+: ls) : ∃ u, Run plain s p u := by
  induction h generalizing p with
  | @nil s =>
    obtain rfl := List.prefix_nil.mp hp
    exact ⟨s, .nil⟩
  | takenInText hc _ ih => exact exists_run_of_prefix_cons (.takenInText hc) ih hp
  | takenInMath hc _ ih => exact exists_run_of_prefix_cons (.takenInMath hc) ih hp
  | dollar _ ih => exact exists_run_of_prefix_cons .dollar ih hp
  | math hc _ ih => exact exists_run_of_prefix_cons (.math hc) ih hp
  | opens _ ih => exact exists_run_of_prefix_cons .opens ih hp
  | closes _ ih => exact exists_run_of_prefix_cons .closes ih hp
  | plain hd hc _ ih => exact exists_run_of_prefix_cons (.plain hd hc) ih hp

/-- The depth changes by the braces read. -/
theorem count_braces_of_run {s t : TexState} {ls : List Lexeme} (h : Run plain s ls t) :
    ls.count (.bare '\x7d') + t.depth = ls.count (.bare '\x7b') + s.depth := by
  induction h with
  | nil => rfl
  | takenInText _ _ ih => simpa [List.count_cons] using ih
  | takenInMath _ _ ih => simpa [List.count_cons] using ih
  | dollar _ ih => simpa [List.count_cons] using ih
  | @math _ c _ _ hc _ ih =>
    have ho : c ≠ '\x7b' := by rintro rfl; revert hc; decide
    have hcl : c ≠ '\x7d' := by rintro rfl; revert hc; decide
    simpa [List.count_cons, ho, hcl] using ih
  | opens _ ih =>
    simp only [List.count_cons] at ih ⊢
    simp at ih ⊢
    omega
  | closes _ ih =>
    simp only [List.count_cons] at ih ⊢
    simp at ih ⊢
    omega
  | plain hd _ _ ih =>
    simp only [isDelimiter, Bool.or_eq_false_iff, beq_eq_false_iff_ne] at hd
    simpa [List.count_cons, hd.2, hd.1.2] using ih

theorem bracesBalanced_of_run {t : TexState} {ls : List Lexeme} (h : Run plain (inText 0) ls t)
    (ht : t.depth = 0) : BracesBalanced ls where
  total := by
    have := count_braces_of_run h
    simpa [ht, inText] using this
  prefixes := by
    intro p hp
    obtain ⟨u, hu⟩ := exists_run_of_prefix h hp
    have := count_braces_of_run hu
    simp only [inText, Nat.add_zero] at this
    omega

theorem inMath_of_isMathChar {l : Lexeme} (h : isMathChar l.char = true) : l.InMath := by
  refine ⟨?_, ?_, ?_, ?_⟩
  · rintro rfl
    revert h
    decide
  all_goals
    intro hl
    rw [hl] at h
    revert h
    decide

/-- From inside a formula the text goes on to the dollar sign that ends it. -/
def MathEnds (ls : List Lexeme) : Prop :=
  ∃ inner rest, ls = inner ++ .bare '$' :: rest ∧ (∀ l ∈ inner, l.InMath) ∧ MathPaired rest

theorem MathEnds.cons {l : Lexeme} {ls : List Lexeme} (hl : l.InMath) (h : MathEnds ls) :
    MathEnds (l :: ls) := by
  obtain ⟨inner, rest, rfl, hinner, hrest⟩ := h
  exact ⟨l :: inner, rest, rfl, List.forall_mem_cons.mpr ⟨hl, hinner⟩, hrest⟩

theorem math_of_run {s t : TexState} {ls : List Lexeme} (h : Run plain s ls t)
    (ht : t.inMath = false) : if s.inMath then MathEnds ls else MathPaired ls := by
  induction h with
  | nil => simpa [ht] using MathPaired.nil
  | takenInText _ _ ih => exact .outside (by simp) (ih ht)
  | takenInMath hc _ ih => exact .cons (inMath_of_isMathChar hc) (ih ht)
  | @dollar _ m _ _ _ ih =>
    cases m with
    | true => exact ⟨[], _, rfl, by simp, ih ht⟩
    | false =>
      obtain ⟨inner, rest, rfl, hinner, hrest⟩ := ih ht
      exact .pair hinner hrest
  | math hc _ ih => exact .cons (inMath_of_isMathChar hc) (ih ht)
  | opens _ ih => exact .outside (by simp) (ih ht)
  | closes _ ih => exact .outside (by simp) (ih ht)
  | plain hd _ _ ih =>
    simp only [isDelimiter, Bool.or_eq_false_iff, beq_eq_false_iff_ne] at hd
    exact .outside (by simp [hd.1.1.2]) (ih ht)

end TexState

/-- A text that the reader reads from any depth without a change of its state. -/
def SafeText (plain : Char → Bool) (tex : List Char) : Prop :=
  ∀ depth, (TexState.inText depth).read plain tex = some (.inText depth)

theorem lexicallySafe_of_safeText {tex : List Char} (h : SafeText isPlainChar tex) :
    LexicallySafe tex := by
  have hrun := TexState.run_of_read rfl rfl (h 0)
  refine ⟨TexState.not_mem_underscore_of_read (by decide) (h 0), ?_,
    TexState.bracesBalanced_of_run hrun rfl, TexState.math_of_run hrun rfl⟩
  intro c hc
  simp only [List.mem_cons, List.not_mem_nil, or_false] at hc
  rcases hc with rfl | rfl | rfl <;>
    exact TexState.not_mem_bare_of_run (by decide) (by decide) (by decide) hrun

/-- Letters, digits and hyphens are ordinary text. -/
theorem plain_of_isKeyChar {c : Char} (h : isKeyChar c = true) :
    TexState.isDelimiter c = false ∧ isPlainChar c = true := by
  have hne : ∀ d, isKeyChar d = false → c ≠ d := by
    rintro d hd rfl
    simp [h] at hd
  simp [TexState.isDelimiter, isPlainChar, isUnruledChar, hne '\\' (by decide), hne '$' (by decide),
    hne '\x7b' (by decide), hne '\x7d' (by decide), hne '#' (by decide), hne '%' (by decide),
    hne '&' (by decide), hne '_' (by decide)]

namespace SafeText

variable {plain : Char → Bool} {a b : List Char}

/-- Reading at the outermost level is enough. -/
theorem of_read (h : (TexState.inText 0).read plain a = some (.inText 0)) : SafeText plain a := by
  intro depth
  simpa [TexState.deeper, TexState.inText] using TexState.read_deeper depth h

theorem nil : SafeText plain [] := fun _ => rfl

theorem append (ha : SafeText plain a) (hb : SafeText plain b) : SafeText plain (a ++ b) := by
  intro depth
  rw [TexState.read_append, ha depth, Option.bind_some, hb depth]

theorem flatMap {α : Type} {f : α → List Char} {xs : List α} (h : ∀ x ∈ xs, SafeText plain (f x)) :
    SafeText plain (xs.flatMap f) := by
  induction xs with
  | nil => exact nil
  | cons x xs ih =>
    rw [List.flatMap_cons]
    exact (h x List.mem_cons_self).append (ih fun y hy => h y (List.mem_cons_of_mem x hy))

/-- Ordinary characters that do not change the state. -/
theorem of_all (h : ∀ c ∈ a, TexState.isDelimiter c = false ∧ plain c = true) :
    SafeText plain a := by
  intro depth
  induction a with
  | nil => rfl
  | cons c a ih =>
    obtain ⟨hd, hp⟩ := h c List.mem_cons_self
    rw [TexState.read_cons, TexState.next_plain hd hp]
    exact ih fun e he => h e (List.mem_cons_of_mem c he)

/-- A backslash and what it takes, in front of a text. -/
theorem taken {c : Char} (hc : c ≠ '_') (h : SafeText plain a) : SafeText plain ('\\' :: c :: a) := by
  intro depth
  have hb : (TexState.inText depth).next plain '\\' = some ⟨depth, false, true⟩ := by
    simp [TexState.inText, TexState.next]
  rw [TexState.read_cons, hb, Option.bind_some, TexState.read_cons, TexState.next_taken hc,
    Option.bind_some, h depth]

/-- Braces around a text. -/
theorem braced (h : SafeText plain a) : SafeText plain ('\x7b' :: a ++ ['\x7d']) := by
  intro depth
  have ho : (TexState.inText depth).next plain '\x7b' = some (.inText (depth + 1)) := by
    simp [TexState.inText, TexState.next]
  have hc : (TexState.inText (depth + 1)).next plain '\x7d' = some (.inText depth) := by
    simp [TexState.inText, TexState.next]
  rw [List.cons_append, TexState.read_cons, ho, Option.bind_some, TexState.read_append,
    h (depth + 1), Option.bind_some, TexState.read_cons, hc]
  rfl

end SafeText

end WordTex
