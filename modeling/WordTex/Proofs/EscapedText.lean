import WordTex.Proofs.TexLexemes
import Mathlib.Data.List.TakeWhile

/-! # Escaped text

The passes after the character table change a text character by character: blanks replace
underscores, and straight quotes become other quotes. Neither disturbs a reader of the text. -/
namespace WordTex

/-- The second text is the first with each character replaced by one of its forms. -/
inductive Rewrites (form : Char → List Char → Prop) : List Char → List Char → Prop where
  | nil : Rewrites form [] []
  | cons {c : Char} {u s t : List Char} (hc : form c u) (hs : Rewrites form s t) :
      Rewrites form (c :: s) (u ++ t)

namespace Rewrites

variable {form : Char → List Char → Prop} {s t a b : List Char}

theorem append (h : Rewrites form s t) (h' : Rewrites form a b) :
    Rewrites form (s ++ a) (t ++ b) := by
  induction h with
  | nil => exact h'
  | cons hc _ ih =>
    rw [List.cons_append, List.append_assoc]
    exact .cons hc ih

theorem keep {c : Char} (hc : form c [c]) (h : Rewrites form s t) :
    Rewrites form (c :: s) (c :: t) := .cons hc h

theorem refl (hform : ∀ c, form c [c]) (s : List Char) : Rewrites form s s := by
  induction s with
  | nil => exact .nil
  | cons c s ih => exact .keep (hform c) ih

/-- Characters that may be dropped. -/
theorem drop (h : ∀ c ∈ a, form c []) (hs : Rewrites form s t) : Rewrites form (a ++ s) t := by
  induction a with
  | nil => exact hs
  | cons c a ih =>
    exact .cons (h c List.mem_cons_self) (ih fun e he => h e (List.mem_cons_of_mem c he))

/-- A reader that reads each form as another reads the character reads the texts alike. -/
theorem foldlM {σ : Type} {f g : σ → Char → Option σ}
    (hform : ∀ {x y : σ} {c u}, form c u → f x c = some y → u.foldlM g x = some y)
    (h : Rewrites form s t) {x y : σ} (hx : s.foldlM f x = some y) : t.foldlM g x = some y := by
  induction h generalizing x with
  | nil => exact hx
  | cons hc _ ih =>
    rw [List.foldlM_cons] at hx
    obtain ⟨z, hz, hx⟩ := Option.bind_eq_some_iff.mp hx
    rw [List.foldlM_append, hform hc hz]
    exact ih hx

theorem read {p q : Char → Bool}
    (hform : ∀ {x y : TexState} {c u}, form c u → x.next p c = some y → x.read q u = some y)
    (h : Rewrites form s t) {x y : TexState} (hx : x.read p s = some y) : x.read q t = some y :=
  h.foldlM (f := TexState.next p) (g := TexState.next q) hform hx

/-- Characters that no form brings or removes. -/
theorem filter_eq {p : Char → Bool} (hform : ∀ {c u}, form c u → u.filter p = [c].filter p)
    (h : Rewrites form s t) : t.filter p = s.filter p := by
  induction h with
  | nil => rfl
  | @cons c u s t hc _ ih =>
    rw [List.filter_append, hform hc, ih, ← List.filter_append, List.singleton_append]

end Rewrites

namespace Substitution

/-- A character that is not replaced does not have an entry of its own. -/
theorem pattern_ne_of_first?_eq_none {table : List Substitution} {c : Char} {cs : List Char}
    (h : first? table (c :: cs) = none) {e : Substitution} (he : e ∈ table) : e.pattern ≠ [c] := by
  intro hp
  have := List.find?_eq_none.mp h e he
  simp [hp] at this

theorem mem_of_first? {table : List Substitution} {text : List Char} {e : Substitution}
    (h : first? table text = some e) : e ∈ table ∧ e.pattern <+: text :=
  ⟨List.mem_of_find?_eq_some h, by simpa using List.find?_some h⟩

/-- The scan goes on behind the pattern. -/
theorem pattern_append_drop {table : List Substitution} {c : Char} {cs : List Char} {e : Substitution}
    (h : first? table (c :: cs) = some e) (hne : e.pattern ≠ []) :
    e.pattern ++ cs.drop (e.pattern.length - 1) = c :: cs := by
  obtain ⟨rest, hrest⟩ := (mem_of_first? h).2
  obtain ⟨d, ds, hd⟩ := List.exists_cons_of_ne_nil hne
  rw [hd, List.cons_append] at hrest ⊢
  obtain ⟨rfl, rfl⟩ := List.cons.inj hrest
  simp

/-- What holds of the values and of the characters without an entry, and passes to texts put together,
holds of the result. -/
theorem apply_induction {K : List Char → Prop} {table : List Substitution} (hnil : K [])
    (happend : ∀ {a b}, K a → K b → K (a ++ b)) (hvalue : ∀ e ∈ table, K e.value)
    (hkept : ∀ c, (∀ e ∈ table, e.pattern ≠ [c]) → K [c]) (text : List Char) :
    K (apply table text) := by
  fun_induction apply table text with
  | case1 => exact hnil
  | case2 c cs e he ih => exact happend (hvalue e (List.mem_of_find?_eq_some he)) ih
  | case3 c cs h ih =>
    exact happend (a := [c]) (hkept c fun e he => pattern_ne_of_first?_eq_none h he) ih

theorem safeText_apply {plain : Char → Bool} {table : List Substitution}
    (hvalue : ∀ e ∈ table, SafeText plain e.value)
    (hspecial : ∀ c, TexState.isDelimiter c = true ∨ plain c = false → ∃ e ∈ table, e.pattern = [c])
    (text : List Char) : SafeText plain (apply table text) := by
  refine apply_induction .nil (fun ha hb => ha.append hb) hvalue (fun c hc => ?_) text
  have hplain : TexState.isDelimiter c = false ∧ plain c = true := by
    rw [← Bool.not_eq_true, ← Bool.not_eq_false (plain c), ← not_or]
    intro hs
    obtain ⟨e, he, hp⟩ := hspecial c hs
    exact hc e he hp
  exact .of_all (by simpa using hplain)

end Substitution

theorem CharacterTable.safeText_value : ∀ e ∈ all, SafeText isUnruledChar e.value := by
  have h : ∀ e ∈ all, (TexState.inText 0).read isUnruledChar e.value = some (.inText 0) := by
    decide +kernel
  exact fun e he => .of_read (h e he)

theorem CharacterTable.exists_pattern {c : Char}
    (hc : TexState.isDelimiter c = true ∨ isUnruledChar c = false) : ∃ e ∈ all, e.pattern = [c] := by
  have hall : ['\\', '$', '\x7b', '\x7d', '#', '%', '&'].all
      (fun c => all.any fun e => e.pattern == [c]) = true := by
    decide +kernel
  have hmem : c ∈ ['\\', '$', '\x7b', '\x7d', '#', '%', '&'] := by
    simp only [TexState.isDelimiter, isUnruledChar, Bool.or_eq_true, beq_iff_eq,
      Bool.and_eq_false_iff, bne_eq_false_iff_eq] at hc
    simp only [List.mem_cons, List.not_mem_nil, or_false]
    tauto
  simpa using List.all_eq_true.mp hall c hmem

theorem safeText_replaceCharacters (text : List Char) :
    SafeText isUnruledChar (replaceCharacters text) :=
  Substitution.safeText_apply CharacterTable.safeText_value
    (fun _ => CharacterTable.exists_pattern) text

/-- A run of underscores becomes one rule; all else is kept. -/
def RuleForm (c : Char) (u : List Char) : Prop :=
  if c = '_' then u = [] ∨ ∃ points, u = blankRule points else u = [c]

theorem rewrites_fillInBlanks (width : Nat) (text : List Char) :
    Rewrites RuleForm text (fillInBlanks width text) := by
  fun_induction fillInBlanks width text with
  | case1 => exact .nil
  | case2 cs ih =>
    have hrun : ∀ c ∈ cs.takeWhile (· = '_'), RuleForm c [] := by
      intro c hc
      have : c = '_' := by simpa using (List.mem_takeWhile_imp hc)
      simp [RuleForm, this]
    have hrest := Rewrites.drop hrun ih
    rw [List.takeWhile_append_dropWhile] at hrest
    exact .cons (by simp [RuleForm]) hrest
  | case3 c cs hc ih => exact .keep (by simp [RuleForm, hc]) ih

/-- A rule has its commands, a unit and digits in it. -/
theorem not_mem_blankRule {c : Char} (hdigit : c.isDigit = false)
    (hc : c ∉ "\\underline\x7b\\hspace\x7bpt\x7d\x7d".toList) (points : Nat) : c ∉ blankRule points := by
  have hdigits : c ∉ Nat.toDigits 10 points := fun h => by
    simp [Nat.isDigit_of_mem_toDigits (by decide) (by decide) h] at hdigit
  simp [blankRule, hdigits] at hc ⊢
  tauto

/-- Behind the two commands of a rule there is no other one. -/
theorem exists_blankRule_eq (points : Nat) :
    ∃ rest, '\\' ∉ rest ∧ blankRule points = "\\underline\x7b\\hspace\x7b".toList ++ rest := by
  have hdigits : '\\' ∉ Nat.toDigits 10 points := fun h =>
    absurd (Nat.isDigit_of_mem_toDigits (by decide) (by decide) h) (by decide)
  exact ⟨(toString points).toList ++ "pt\x7d\x7d".toList, by simp [hdigits], by simp [blankRule]⟩

theorem safeText_blankRule (points : Nat) : SafeText isPlainChar (blankRule points) := by
  have hdigits : ∀ c ∈ (toString points).toList, isKeyChar c = true := by
    intro c hc
    rw [Nat.toString_eq_ofList_toDigits, String.toList_ofList] at hc
    have := Nat.isDigit_of_mem_toDigits (by decide) (by decide) hc
    simp [isKeyChar, Char.isAlphanum, this]
  have hwidth : SafeText isPlainChar ((toString points).toList ++ "pt".toList) :=
    .append (.of_all fun c hc => plain_of_isKeyChar (hdigits c hc)) (.of_read (by decide))
  have hspace : SafeText isPlainChar ("\\hspace".toList ++
      '\x7b' :: ((toString points).toList ++ "pt".toList) ++ ['\x7d']) := by
    simpa using SafeText.append (a := "\\hspace".toList) (.of_read (by decide)) hwidth.braced
  simpa [blankRule] using SafeText.append (a := "\\underline".toList) (.of_read (by decide))
    hspace.braced

theorem read_of_ruleForm {x y : TexState} {c : Char} {u : List Char} (hc : RuleForm c u)
    (h : x.next isUnruledChar c = some y) : x.read isPlainChar u = some y := by
  by_cases hr : c = '_'
  · -- an underscore is in its place only as ordinary text, so it leaves the state alone
    subst hr
    have hxy : ∃ d, x = .inText d ∧ y = .inText d := by
      cases TexState.step_of_next h with
      | takenInText hc => exact (hc rfl).elim
      | takenInMath hc => simp [isMathChar] at hc
      | math hc => simp [isMathChar] at hc
      | plain => exact ⟨_, rfl, rfl⟩
    obtain ⟨d, rfl, rfl⟩ := hxy
    obtain rfl | ⟨points, rfl⟩ : u = [] ∨ ∃ points, u = blankRule points := by
      simpa [RuleForm] using hc
    · rfl
    · exact safeText_blankRule points d
  · obtain rfl : u = [c] := by simpa [RuleForm, hr] using hc
    have hnext : x.next isPlainChar c = some y := by
      cases TexState.step_of_next h <;> simp_all [TexState.next, isPlainChar]
    rw [TexState.read_cons, hnext]
    rfl

namespace QuotePairs

/-- What may stand between the quotes of a pair. -/
inductive IsSpan (q : Char) : List Char → Prop where
  | mk {first last : Char} {inner : List Char} (hfirst : isBlank first = false)
      (hinner : 1 ≤ inner.length ∧ inner.length ≤ maxInner) (hlast : last = q ∨ isBlank last = false) :
      IsSpan q (first :: (inner ++ [last]))

theorem IsSpan.of_cons {q first : Char} {rest : List Char} (hfirst : isBlank first = false)
    (hlength : 2 ≤ rest.length ∧ rest.length ≤ maxInner + 1)
    (hlast : rest.getLast?.any isBlank = false) : IsSpan q (first :: rest) := by
  rcases List.eq_nil_or_concat' rest with rfl | ⟨inner, last, rfl⟩
  · simp at hlength
  · rw [List.length_append, List.length_singleton] at hlength
    exact .mk hfirst (by omega) (.inr (by simpa using hlast))

theorem split_of_spanLength? {q : Char} {text : List Char} {n : Nat}
    (h : spanLength? q text = some n) :
    ∃ span rest, text = span ++ q :: rest ∧ span.length = n ∧ IsSpan q span ∧ mayClose rest = true := by
  cases text with
  | nil => simp [spanLength?] at h
  | cons c cs =>
    have hcut := List.takeWhile_append_dropWhile (p := (· ≠ q)) (l := cs)
    have hhead := List.head?_dropWhile_not (· ≠ q) cs
    simp only [spanLength?] at h
    split at h
    · simp at h
    rename_i hc
    have hfirst : isBlank c = false := by simpa using hc
    split at h
    · simp at h
    rename_i x rest hdrop
    rw [hdrop] at hcut
    obtain rfl : x = q := by
      rw [hdrop] at hhead
      simpa using hhead
    -- the span without the quote that ends its text, whether that quote belongs to it or not
    have hshort : c :: cs = (c :: cs.takeWhile (· ≠ x)) ++ x :: rest := by
      rw [List.cons_append, hcut]
    cases rest with
    | nil =>
      simp only [Bool.false_eq_true, ↓reduceIte] at h
      split at h
      · rename_i hspan
        simp only [Bool.and_eq_true, decide_eq_true_eq, Bool.not_eq_true'] at hspan
        exact ⟨_, [], hshort, by simpa using Option.some.inj h, .of_cons hfirst hspan.1.1 hspan.1.2, rfl⟩
      · simp at h
    | cons d after =>
      dsimp only at h
      split at h
      · rename_i hlast
        simp only [Bool.and_eq_true, beq_iff_eq, decide_eq_true_eq] at hlast
        obtain rfl : d = x := hlast.1.1.1
        refine ⟨c :: (cs.takeWhile (· ≠ d) ++ [d]), after, ?_, by simpa using Option.some.inj h,
          .mk hfirst ⟨hlast.1.1.2, hlast.1.2⟩ (.inl rfl), hlast.2⟩
        rw [hshort]
        simp
      split at h
      · rename_i hspan
        simp only [Bool.and_eq_true, decide_eq_true_eq, Bool.not_eq_true'] at hspan
        exact ⟨_, d :: after, hshort, by simpa using Option.some.inj h,
          .of_cons hfirst hspan.1.1 hspan.1.2, hspan.2⟩
      · simp at h

/-- A quote becomes one of its pair or is kept; all else is kept. -/
def QuoteForm (m : Marks) (c : Char) (u : List Char) : Prop :=
  u = [c] ∨ c = m.straight ∧ (u = m.opening ∨ u = m.closing)

/-- The second text is the first with some of its quotes opened or closed, between the character before
it, if there is one, and the text after it. -/
inductive Respells (m : Marks) : Option Char → List Char → List Char → List Char → Prop where
  | nil {before : Option Char} {after : List Char} : Respells m before after [] []
  | keep {before : Option Char} {c : Char} {s t after : List Char}
      (h : Respells m (some c) after s t) : Respells m before after (c :: s) (c :: t)
  | opening {before : Option Char} {s t after : List Char} (hb : ∀ c ∈ before, opensAfter c = true)
      (h : Respells m (some m.straight) after s t) :
      Respells m before after (m.straight :: s) (m.opening ++ t)
  | closing {before : Option Char} {s t after : List Char} (ha : mayClose (s ++ after) = true)
      (h : Respells m (some m.straight) after s t) :
      Respells m before after (m.straight :: s) (m.closing ++ t)

namespace Respells

variable {m : Marks} {before : Option Char} {after a b s t : List Char}

theorem refl (s : List Char) : Respells m before after s s := by
  induction s generalizing before with
  | nil => exact .nil
  | cons c s ih => exact .keep ih

theorem getLast?_cons_or (c : Char) (s : List Char) (before : Option Char) :
    (c :: s).getLast?.or before = s.getLast?.or (some c) := by
  rw [List.getLast?_cons]
  cases s.getLast? <;> rfl

theorem append {u : List Char} (ha : Respells m before (b ++ after) a t)
    (hb : Respells m (a.getLast?.or before) after b u) : Respells m before after (a ++ b) (t ++ u) := by
  generalize hafter : b ++ after = following at ha
  induction ha with
  | nil => simpa using hb
  | keep _ ih =>
    rw [getLast?_cons_or] at hb
    exact .keep (ih hb hafter)
  | opening hbefore _ ih =>
    rw [getLast?_cons_or] at hb
    rw [List.append_assoc]
    exact .opening hbefore (ih hb hafter)
  | @closing _ s _ _ hclose _ ih =>
    rw [getLast?_cons_or] at hb
    rw [← hafter, ← List.append_assoc] at hclose
    rw [List.append_assoc]
    exact .closing hclose (ih hb hafter)

/-- Without their surroundings. -/
theorem rewrites (h : Respells m before after s t) : Rewrites (QuoteForm m) s t := by
  induction h with
  | nil => exact .nil
  | keep _ ih => exact .keep (.inl rfl) ih
  | opening _ _ ih => exact .cons (.inr ⟨rfl, .inl rfl⟩) ih
  | closing _ _ ih => exact .cons (.inr ⟨rfl, .inr rfl⟩) ih

end Respells

theorem respells_convertedSpan {m : Marks} {text t : List Char} {n : Nat} {before : Option Char}
    (hn : spanLength? m.straight text = some n) (hbefore : ∀ c ∈ before, opensAfter c = true)
    (h : ∀ b, Respells m b [] (text.drop (n + 2)) t) :
    Respells m before [] (m.straight :: text) (convertedSpan m n text ++ t) := by
  obtain ⟨span, rest, rfl, rfl, -, hrest⟩ := split_of_spanLength? hn
  have hnext : Respells m (some m.straight) [] rest (rest.take 1 ++ t) := by
    have hdrop (b : Option Char) : Respells m b [] (rest.drop 1) t := by simpa using h b
    have : Respells m (some m.straight) [] (rest.take 1 ++ rest.drop 1) (rest.take 1 ++ t) :=
      (Respells.refl _).append (hdrop _)
    rwa [List.take_append_drop] at this
  have hclose (b : Option Char) : Respells m b [] (m.straight :: rest) (m.closing ++ (rest.take 1 ++ t)) :=
    .closing (by simpa using hrest) hnext
  have hspan : Respells m (some m.straight) [] (span ++ m.straight :: rest)
      (span ++ (m.closing ++ (rest.take 1 ++ t))) := (Respells.refl span).append (hclose _)
  simpa [convertedSpan] using Respells.opening hbefore hspan

section Opening

variable {m : Marks} {opens : Bool} {c : Char} {cs : List Char}

/-- The scan has found a pair that opens with this character. -/
theorem opened_eq_some_iff {n : Nat} :
    (if opens && c == m.straight then spanLength? m.straight cs else none) = some n ↔
      (opens = true ∧ c = m.straight) ∧ spanLength? m.straight cs = some n := by
  simp [and_assoc]

theorem opened_eq_none_iff :
    (if opens && c == m.straight then spanLength? m.straight cs else none) = none ↔
      (opens = true → c = m.straight → spanLength? m.straight cs = none) := by
  rw [ite_eq_right_iff, Bool.and_eq_true, beq_iff_eq, and_imp]

end Opening

theorem respells_convertFrom (m : Marks) (atStart : Bool) (text : List Char) {before : Option Char}
    (hbefore : atStart = true → before = none) :
    Respells m before [] text (convertFrom m atStart text) := by
  fun_induction convertFrom m atStart text generalizing before with
  | case1 => exact .nil
  | case2 atStart c cs n hn ih =>
    obtain ⟨⟨hstart, rfl⟩, hspan⟩ := opened_eq_some_iff.mp hn
    exact respells_convertedSpan hspan (by simp [hbefore hstart]) fun b => ih (by simp)
  | case3 atStart c => exact .keep .nil
  | case4 atStart c d ds n hn _ ih =>
    obtain ⟨⟨hc, rfl⟩, hspan⟩ := opened_eq_some_iff.mp hn
    exact .keep (respells_convertedSpan hspan (by simp [hc]) fun b => ih (by simp))
  | case5 atStart c d ds _ _ ih => exact .keep (ih (by simp))

theorem rewrites_convertFrom (m : Marks) (atStart : Bool) (text : List Char) :
    Rewrites (QuoteForm m) text (convertFrom m atStart text) :=
  (respells_convertFrom m atStart text fun _ => rfl).rewrites

theorem filter_convertFrom {m : Marks} {p : Char → Bool}
    (hp : (m.straight :: (m.opening ++ m.closing)).any p = false) (atStart : Bool) (text : List Char) :
    (convertFrom m atStart text).filter p = text.filter p := by
  refine (rewrites_convertFrom m atStart text).filter_eq fun {c u} hu => ?_
  have hnone {s : List Char} (hs : s ⊆ m.straight :: (m.opening ++ m.closing)) : s.filter p = [] :=
    List.filter_eq_nil_iff.mpr fun c hc => List.any_eq_false.mp hp c (hs hc)
  rcases hu with rfl | ⟨rfl, rfl | rfl⟩
  · rfl
  · rw [hnone (by simp), hnone (by simp)]
  · rw [hnone (by simp), hnone (by simp)]

/-- A reader takes one or more TeX quotes as it takes a straight one. -/
theorem read_of_next_straight {x y : TexState} {c : Char} {u : List Char} (hu : u ≠ [])
    (hq : ∀ e ∈ u, e = '\x60' ∨ e = '\x27') (hc : c = '\x27' ∨ c = '\x22')
    (h : x.next isPlainChar c = some y) : x.read isPlainChar u = some y := by
  have hplain : ∀ e ∈ u, TexState.isDelimiter e = false ∧ isPlainChar e = true := by
    intro e he
    rcases hq e he with rfl | rfl <;> decide
  cases TexState.step_of_next h with
  | takenInText =>
    cases u with
    | nil => exact (hu rfl).elim
    | cons e u =>
      have he : e ≠ '_' := by rcases hq e List.mem_cons_self with rfl | rfl <;> decide
      rw [TexState.read_cons, TexState.next_taken he]
      exact SafeText.of_all (fun d hd => hplain d (List.mem_cons_of_mem e hd)) _
  | plain => exact SafeText.of_all hplain _
  | takenInMath hm => rcases hc with rfl | rfl <;> simp [isMathChar] at hm
  | math hm => rcases hc with rfl | rfl <;> simp [isMathChar] at hm
  | backslash => simp at hc
  | dollar => simp at hc
  | opens => simp at hc
  | closes => simp at hc

theorem safeText_convert {m : Marks} (hm : m = single ∨ m = double) {text : List Char}
    (h : SafeText isPlainChar text) : SafeText isPlainChar (convert m text) := by
  have hform : ∀ {x y : TexState} {c u}, QuoteForm m c u → x.next isPlainChar c = some y →
      x.read isPlainChar u = some y := by
    intro x y c u hu hx
    rcases hu with rfl | ⟨rfl, hu⟩
    · rw [TexState.read_cons, hx]
      rfl
    · refine read_of_next_straight ?_ ?_ ?_ hx <;>
        rcases hm with rfl | rfl <;> rcases hu with rfl | rfl <;> simp [single, double]
  exact fun depth => (rewrites_convertFrom m true text).read hform (h depth)

end QuotePairs

theorem safeText_escapeChars (options : LatexOptions) (text : List Char) :
    SafeText isPlainChar (escapeChars options text) := by
  have hruled : SafeText isPlainChar (fillInBlanks options.underscoreWidth (replaceCharacters text)) :=
    fun depth => (rewrites_fillInBlanks _ _).read read_of_ruleForm
      (safeText_replaceCharacters text depth)
  rw [escapeChars]
  split
  · exact QuotePairs.safeText_convert (.inr rfl) (QuotePairs.safeText_convert (.inl rfl) hruled)
  · exact hruled

end WordTex
