import WordTex.TextCuts
import WordTex.Proofs.EscapedText

/-! # Texts with quoted segments

A text in which every quote belongs to a pair that qualifies is converted as a whole, unless a single
space stands between two of its pairs. The space is read with the first of them and cannot open the
second one. -/
namespace WordTex
namespace QuotePairs

section Scan

variable {m : Marks} {c : Char} {cs text rest : List Char}

theorem convertFrom_pair {n : Nat} (h : spanLength? m.straight cs = some n) :
    convertFrom m true (m.straight :: cs) =
      convertedSpan m n cs ++ convertFrom m false (cs.drop (n + 2)) := by
  rw [convertFrom.eq_def]
  simp [h]

/-- Where no pair opens, it does not matter whether one could. -/
theorem convertFrom_of_no_pair (h : c = m.straight → spanLength? m.straight cs = none) (opens : Bool) :
    convertFrom m opens (c :: cs) = convertFrom m false (c :: cs) := by
  rw [convertFrom.eq_def, convertFrom.eq_def m false]
  dsimp only
  rw [opened_eq_none_iff.mpr fun _ => h]
  simp

/-- A character that opens no pair is kept, and it may stand before an opening quote. -/
theorem convertFrom_kept {opens : Bool}
    (h : opens = true → c = m.straight → spanLength? m.straight cs = none) :
    convertFrom m opens (c :: cs) = c :: convertFrom m (opensAfter c) cs := by
  rw [convertFrom.eq_def]
  dsimp only
  rw [opened_eq_none_iff.mpr h]
  cases cs with
  | nil => simp [convertFrom]
  | cons d ds =>
    dsimp only
    cases hspan : (if (opensAfter c && d == m.straight) = true then spanLength? m.straight ds else none) with
    | some n =>
      obtain ⟨⟨hopens, rfl⟩, hn⟩ := opened_eq_some_iff.mp hspan
      rw [hopens, convertFrom_pair hn]
      rfl
    | none =>
      dsimp only
      cases hopens : opensAfter c with
      | false => rfl
      | true => rw [convertFrom_of_no_pair (opened_eq_none_iff.mp hspan hopens) true]

/-- Text without the quote is kept; its last character decides whether the next quote may open. -/
theorem convertFrom_append (h : m.straight ∉ text) (opens : Bool) (rest : List Char) :
    convertFrom m opens (text ++ rest) =
      text ++ convertFrom m (text.getLast?.elim opens opensAfter) rest := by
  induction text generalizing opens with
  | nil => rfl
  | cons c text ih =>
    rw [List.mem_cons, not_or] at h
    have hlast : (c :: text).getLast?.elim opens opensAfter =
        text.getLast?.elim (opensAfter c) opensAfter := by
      rw [List.getLast?_cons]
      cases text.getLast? <;> rfl
    rw [List.cons_append, convertFrom_kept fun _ hc => absurd hc.symm h.1, ih h.2, hlast, List.cons_append]

theorem convert_of_not_mem (h : m.straight ∉ text) : convert m text = text := by
  have := convertFrom_append h true []
  simpa [convert, convertFrom] using this

theorem spanLength?_append {span : List Char} (hquote : m.straight ∉ span)
    (hlength : 3 ≤ span.length ∧ span.length ≤ maxInner + 2)
    (hfirst : span.head?.any isBlank = false) (hlast : span.getLast?.any isBlank = false)
    (hcloses : closesBefore m.straight = false) (hrest : mayClose rest = true) :
    spanLength? m.straight (span ++ m.straight :: rest) = some span.length := by
  cases span with
  | nil => simp at hlength
  | cons c inner =>
    rw [List.mem_cons, not_or] at hquote
    have hinner : ∀ d ∈ inner, decide (d ≠ m.straight) = true := by
      rintro d hd
      simp only [ne_eq, decide_eq_true_eq]
      rintro rfl
      exact hquote.2 hd
    have hstop : ∀ d ∈ (m.straight :: rest).head?, decide (d ≠ m.straight) = false := by simp
    have htake := takeWhile_append_of_head? hinner hstop
    have hdrop := dropWhile_append_of_head? hinner hstop
    rw [List.length_cons] at hlength
    rw [List.head?_cons, Option.any_some] at hfirst
    have hend : inner.getLast?.any isBlank = false := by
      rcases List.eq_nil_or_concat' inner with rfl | ⟨init, last, rfl⟩
      · rfl
      · rw [← List.cons_append, List.getLast?_concat] at hlast
        rwa [List.getLast?_concat]
    have hbounds : (decide (2 ≤ inner.length) && decide (inner.length ≤ maxInner + 1)) = true := by
      simp only [Bool.and_eq_true, decide_eq_true_eq]
      omega
    simp only [List.cons_append, spanLength?, hfirst, htake, hdrop, hbounds, hend, hrest]
    cases rest with
    | nil => rfl
    | cons d after =>
      -- behind the closing quote there is not another one
      have hd : d ≠ m.straight := by
        rintro rfl
        simp [mayClose, hcloses] at hrest
      simp [hd]

end Scan

/-- A part of a text: without pairs, or a pair of quotes with what is between them. -/
inductive Segment where
  | plain (text : List Char)
  | quoted (span : List Char)
deriving DecidableEq, Repr

/-- The text of a segment with these quotes. -/
def Segment.write (opening closing : List Char) : Segment → List Char
  | .plain text => text
  | .quoted span => opening ++ span ++ closing

/-- The text as it is typed. -/
def Marks.typed (m : Marks) (ss : List Segment) : List Char :=
  ss.flatMap (Segment.write [m.straight] [m.straight])

/-- The text with all its quotes converted. -/
def Marks.converted (m : Marks) (ss : List Segment) : List Char :=
  ss.flatMap (Segment.write m.opening m.closing)

/-- There is no straight quote of either kind. -/
def IsUnquoted (text : List Char) : Prop := '\x27' ∉ text ∧ '\x22' ∉ text

instance (text : List Char) : Decidable (IsUnquoted text) := inferInstanceAs (Decidable (_ ∧ _))

/-- A span that qualifies: 3 to 200 characters, none a straight quote, with no white space at either
end. -/
structure IsQuotation (span : List Char) : Prop where
  three_le : 3 ≤ span.length
  length_le : span.length ≤ 200
  unquoted : IsUnquoted span
  first : span.head?.any isBlank = false
  last : span.getLast?.any isBlank = false

/-- Each pair opens at the start of the text or behind a space or an opening bracket, and it closes at the
end or before a space, punctuation or a closing bracket. The first argument is the character in front. -/
inductive IsWellQuoted (m : Marks) : Option Char → List Segment → Prop where
  | nil {before : Option Char} : IsWellQuoted m before []
  | plain {before : Option Char} {text : List Char} {ss : List Segment} (htext : IsUnquoted text)
      (h : IsWellQuoted m (text.getLast?.or before) ss) : IsWellQuoted m before (.plain text :: ss)
  | quoted {before : Option Char} {span : List Char} {ss : List Segment} (hspan : IsQuotation span)
      (hopens : before.all opensAfter = true) (hcloses : mayClose (m.typed ss) = true)
      (h : IsWellQuoted m (some m.straight) ss) : IsWellQuoted m before (.quoted span :: ss)

/-- Between the closing quote of a pair and the opening quote of the next there is just one space. -/
def sharesSpace (m : Marks) : List Segment → Bool
  | [] => false
  | .plain _ :: ss => sharesSpace m ss
  | .quoted _ :: ss => [' ', m.straight].isPrefixOf (m.typed ss) || sharesSpace m ss

section Writing

variable {m : Marks} {ss : List Segment} {text span : List Char}

@[simp] theorem typed_nil : m.typed [] = [] := rfl

@[simp] theorem typed_plain : m.typed (.plain text :: ss) = text ++ m.typed ss := rfl

@[simp] theorem typed_quoted :
    m.typed (.quoted span :: ss) = m.straight :: (span ++ m.straight :: m.typed ss) := by
  simp [Marks.typed, Segment.write]

@[simp] theorem converted_nil : m.converted [] = [] := rfl

@[simp] theorem converted_plain : m.converted (.plain text :: ss) = text ++ m.converted ss := rfl

@[simp] theorem converted_quoted :
    m.converted (.quoted span :: ss) = m.opening ++ (span ++ (m.closing ++ m.converted ss)) := by
  simp [Marks.converted, Segment.write]

end Writing

/-- What the marks of the two kinds of quotes have in common. -/
structure Marks.IsStraight (m : Marks) : Prop where
  mem : m.straight = '\x27' ∨ m.straight = '\x22'
  opening : ∃ marks, m.opening = '\x60' :: marks

theorem Marks.isStraight {m : Marks} (hm : m = single ∨ m = double) : m.IsStraight := by
  rcases hm with rfl | rfl
  · exact ⟨.inl rfl, [], rfl⟩
  · exact ⟨.inr rfl, ['\x60'], rfl⟩

namespace Marks.IsStraight

variable {m : Marks} (hm : m.IsStraight)
include hm

theorem not_mem {text : List Char} (h : IsUnquoted text) : m.straight ∉ text := by
  rcases hm.mem with hq | hq <;> rw [hq]
  · exact h.1
  · exact h.2

theorem closesBefore_eq : closesBefore m.straight = false := by
  rcases hm.mem with hq | hq <;> rw [hq] <;> rfl

theorem opensAfter_eq : opensAfter m.straight = false := by
  rcases hm.mem with hq | hq <;> rw [hq] <;> rfl

end Marks.IsStraight

section Conversion

variable {m : Marks} {before : Option Char} {ss : List Segment}

/-- What is read with a closing quote makes a difference only if it is the space before the next pair. -/
theorem take_append_convertFrom {rest : List Char} (hcloses : mayClose rest = true)
    (h : [' ', m.straight].isPrefixOf rest = false) :
    rest.take 1 ++ convertFrom m false (rest.drop 1) = convertFrom m false rest := by
  cases rest with
  | nil => rfl
  | cons c cs =>
    rw [convertFrom_kept (by simp)]
    refine congrArg (c :: ·) ?_
    show convertFrom m false cs = convertFrom m (opensAfter c) cs
    cases hopens : opensAfter c with
    | false => rfl
    | true =>
      obtain rfl : c = ' ' := by
        simp only [mayClose, closesBefore, opensAfter, Bool.or_eq_true, beq_iff_eq] at hcloses hopens
        rcases hopens with (rfl | rfl) | rfl
        · simp at hcloses
        · simp at hcloses
        · rfl
      cases cs with
      | nil => simp [convertFrom]
      | cons d ds =>
        have hd : d ≠ m.straight := by
          rintro rfl
          simp at h
        exact (convertFrom_of_no_pair (fun hq => absurd hq hd) true).symm

/-- The first quote of the text opens a pair. -/
theorem IsWellQuoted.exists_converted_eq (hm : m.IsStraight) (h : IsWellQuoted m before ss)
    {front rest : List Char} (hfront : m.straight ∉ front) (htyped : m.typed ss = front ++ m.straight :: rest) :
    ∃ rest', m.converted ss = front ++ m.opening ++ rest' := by
  induction h generalizing front with
  | nil => simp at htyped
  | @plain _ text ss htext _ ih =>
    have hquote := hm.not_mem htext
    rw [typed_plain] at htyped
    rcases List.append_eq_append_iff.mp htyped with ⟨s, rfl, hs⟩ | ⟨s, rfl, hs⟩
    · obtain ⟨rest', hrest'⟩ := ih (by simp_all) hs
      exact ⟨rest', by simp [hrest']⟩
    · cases s with
      | nil =>
        obtain ⟨rest', hrest'⟩ := @ih [] (by simp) (by simpa using hs.symm)
        exact ⟨rest', by simp [hrest']⟩
      | cons c s =>
        obtain ⟨rfl, -⟩ := List.cons.inj hs
        simp at hquote
  | @quoted _ span ss _ _ _ _ _ =>
    cases front with
    | nil => exact ⟨_, by rw [converted_quoted]; rfl⟩
    | cons c front =>
      rw [typed_quoted, List.cons_append] at htyped
      obtain ⟨rfl, -⟩ := List.cons.inj htyped
      simp at hfront

/-- All quotes are converted exactly if no two pairs share a space. -/
theorem IsWellQuoted.convertFrom_typed_iff (hm : m.IsStraight) (h : IsWellQuoted m before ss) :
    convertFrom m (before.all opensAfter) (m.typed ss) = m.converted ss ↔ sharesSpace m ss = false := by
  induction h with
  | nil => simp [convertFrom, sharesSpace]
  | @plain before text ss htext _ ih =>
    have hopens : text.getLast?.elim (before.all opensAfter) opensAfter =
        (text.getLast?.or before).all opensAfter := by
      cases text.getLast? <;> rfl
    rw [typed_plain, converted_plain, convertFrom_append (hm.not_mem htext), hopens,
      List.append_cancel_left_eq, ih, sharesSpace]
  | @quoted before span ss hspan hopens hcloses h ih =>
    have hlength := spanLength?_append (hm.not_mem hspan.unquoted)
      ⟨hspan.three_le, Nat.le_add_right_of_le hspan.length_le⟩ hspan.first hspan.last
      hm.closesBefore_eq hcloses
    have hpair : convertFrom m true (m.typed (.quoted span :: ss)) = m.opening ++ (span ++ (m.closing ++
        ((m.typed ss).take 1 ++ convertFrom m false ((m.typed ss).drop 1)))) := by
      rw [typed_quoted, convertFrom_pair hlength]
      simp [convertedSpan]
    rw [hopens, hpair, converted_quoted, List.append_cancel_left_eq, List.append_cancel_left_eq,
      List.append_cancel_left_eq, sharesSpace]
    cases hshared : [' ', m.straight].isPrefixOf (m.typed ss) with
    | false =>
      rw [take_append_convertFrom hcloses hshared, Bool.false_or, ← ih]
      simp [hm.opensAfter_eq]
    | true =>
      obtain ⟨rest, hrest⟩ := List.isPrefixOf_iff_prefix.mp hshared
      have hspace : m.straight ∉ [' '] := by
        rcases hm.mem with hq | hq <;> simp [hq]
      obtain ⟨rest', hrest'⟩ := h.exists_converted_eq hm hspace hrest.symm
      obtain ⟨marks, hmarks⟩ := hm.opening
      have hkept : convertFrom m false (m.straight :: rest) =
          m.straight :: convertFrom m (opensAfter m.straight) rest := convertFrom_kept (by simp)
      -- the second quote stays as it is, where it should be converted
      have hne : m.straight ≠ '\x60' := by
        rcases hm.mem with hq | hq <;> rw [hq] <;> decide
      simp [← hrest, hrest', hkept, hmarks, hne]

theorem IsWellQuoted.not_mem_typed (h : IsWellQuoted m before ss) {q : Char}
    (hq : q = '\x27' ∨ q = '\x22') (hne : q ≠ m.straight) : q ∉ m.typed ss := by
  have hunquoted {text : List Char} (htext : IsUnquoted text) : q ∉ text := by
    rcases hq with rfl | rfl
    · exact htext.1
    · exact htext.2
  induction h with
  | nil => simp
  | plain htext _ ih => simp [hunquoted htext, ih]
  | quoted hspan _ _ _ ih => simp [hunquoted hspan.unquoted, hne, ih]

/-- The quotes of the other kind are not there, so their pass changes nothing. -/
theorem IsWellQuoted.convertAll_typed (hm : m = single ∨ m = double) (h : IsWellQuoted m before ss) :
    convertAll (m.typed ss) = convert m (m.typed ss) := by
  rcases hm with rfl | rfl
  · have hnot : '\x22' ∉ convert single (single.typed ss) := by
      intro hmem
      have hfilter := List.mem_filter.mpr ⟨hmem, beq_self_eq_true '\x22'⟩
      rw [convert, filter_convertFrom (by decide), List.mem_filter] at hfilter
      exact h.not_mem_typed (.inr rfl) (by decide) hfilter.1
    rw [convertAll, convert_of_not_mem (m := double) hnot]
  · rw [convertAll, convert_of_not_mem (m := single) (h.not_mem_typed (.inl rfl) (by decide))]

end Conversion

/-- Of a text whose quotes all qualify, all are converted and nothing else is changed, unless a space is
all that stands between two pairs. -/
theorem convertAll_typed_iff {m : Marks} (hm : m = single ∨ m = double) {ss : List Segment}
    (h : IsWellQuoted m none ss) :
    convertAll (m.typed ss) = m.converted ss ↔ sharesSpace m ss = false := by
  rw [h.convertAll_typed hm, convert]
  exact h.convertFrom_typed_iff (Marks.isStraight hm)

/-- Three pairs: one before two spaces, one in brackets, one that holds a bracket and ends the text. -/
theorem convertAll_typed_of_threePairs :
    let ss : List Segment := [.quoted "abc".toList, .plain "  (".toList, .quoted "d, e".toList,
      .plain "), ".toList, .quoted "f (g".toList]
    (double = single ∨ double = double) ∧ IsWellQuoted double none ss ∧
      (convertAll (double.typed ss) = double.converted ss ↔ sharesSpace double ss = false) ∧
      double.typed ss = "\x22abc\x22  (\x22d, e\x22), \x22f (g\x22".toList ∧
      double.converted ss = "``abc\x27\x27  (``d, e\x27\x27), ``f (g\x27\x27".toList ∧
      sharesSpace double ss = false := by
  intro ss
  have h : IsWellQuoted double none ss :=
    .quoted ⟨by decide, by decide, by decide, by decide, by decide⟩ (by decide) (by decide) <|
    .plain (by decide) <|
    .quoted ⟨by decide, by decide, by decide, by decide, by decide⟩ (by decide) (by decide) <|
    .plain (by decide) <|
    .quoted ⟨by decide, by decide, by decide, by decide, by decide⟩ (by decide) (by decide) .nil
  exact ⟨.inr rfl, h, convertAll_typed_iff (.inr rfl) h, by decide, by decide, by decide⟩

/-- The space between two pairs is read with the first one, and the second one is left as it is. -/
theorem not_all_pairs_converted : ¬ ∀ (m : Marks) (ss : List Segment), m = single ∨ m = double →
    IsWellQuoted m none ss → convertAll (m.typed ss) = m.converted ss := by
  intro h
  have hquoted : IsWellQuoted single none
      [.quoted "abc".toList, .plain [' '], .quoted "def".toList] :=
    .quoted ⟨by decide, by decide, by decide, by decide, by decide⟩ (by decide) (by decide) <|
    .plain (by decide) <|
    .quoted ⟨by decide, by decide, by decide, by decide, by decide⟩ (by decide) (by decide) .nil
  exact absurd (h single _ (.inl rfl) hquoted) (by decide +kernel)

end QuotePairs
end WordTex
