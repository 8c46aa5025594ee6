import WordTex.Proofs.SourcePieces
import Mathlib.Data.List.DropRight
import Mathlib.Data.List.Find
import Mathlib.Data.List.Pairwise

/-! # Texts after substitution

No pattern of the character table starts another one, so at each place at most one entry matches and the
order of the table has no effect. A text may be cut in two wherever no match goes across the cut. -/
namespace WordTex

namespace Substitution

variable {table other : List Substitution}

/-- No pattern starts the pattern of another entry. -/
def PrefixFree (table : List Substitution) : Prop :=
  ∀ s ∈ table, ∀ t ∈ table, s.pattern <+: t.pattern → s = t

namespace PrefixFree

variable {text : List Char}

/-- At most one pattern starts a text. -/
theorem eq_of_prefix (h : PrefixFree table) {s t : Substitution} (hs : s ∈ table) (ht : t ∈ table)
    (hst : s.pattern <+: text) (htt : t.pattern <+: text) : s = t := by
  rcases List.prefix_or_prefix_of_prefix hst htt with hp | hp
  · exact h s hs t ht hp
  · exact (h t ht s hs hp).symm

theorem first?_of_perm (h : PrefixFree table) (hperm : other.Perm table) (text : List Char) :
    first? other text = first? table text := by
  refine (List.find?_eq_find?_of_perm hperm.symm ?_).symm
  rintro s ⟨hs, hst⟩ t ⟨ht, htt⟩
  exact h.eq_of_prefix hs ht (by simpa using hst) (by simpa using htt)

theorem first?_pattern_append (h : PrefixFree table) {e : Substitution} (he : e ∈ table) :
    first? table (e.pattern ++ text) = some e := by
  cases hfirst : first? table (e.pattern ++ text) with
  | none =>
    have := List.find?_eq_none.mp hfirst e he
    simp at this
  | some d =>
    obtain ⟨hd, hprefix⟩ := mem_of_first? hfirst
    rw [h.eq_of_prefix hd he hprefix (List.prefix_append _ _)]

/-- A pattern at the front of the text is replaced. -/
theorem apply_pattern_append (h : PrefixFree table) {e : Substitution} (he : e ∈ table)
    (hpattern : e.pattern ≠ []) (text : List Char) :
    apply table (e.pattern ++ text) = e.value ++ apply table text := by
  have hfirst : first? table (e.pattern ++ text) = some e := h.first?_pattern_append he
  obtain ⟨c, cs, hcs⟩ := List.exists_cons_of_ne_nil hpattern
  rw [hcs, List.cons_append] at hfirst ⊢
  rw [apply, hfirst]
  simp [hcs]

end PrefixFree

theorem apply_congr (h : ∀ text, first? table text = first? other text) (text : List Char) :
    apply table text = apply other text := by
  fun_induction apply table text with
  | case1 => rw [apply]
  | case2 c cs e he ih =>
    rw [h] at he
    rw [apply, he, ih]
  | case3 c cs hnone ih =>
    rw [h] at hnone
    rw [apply, hnone, ih]

/-- Somewhere in the table there is a pattern that begins in the first text and ends in the second. -/
def Spans (table : List Substitution) (a b : List Char) : Prop :=
  ∃ e ∈ table, ∃ x y, e.pattern = x ++ y ∧ x ≠ [] ∧ y ≠ [] ∧ x <:+ a ∧ y <+: b

theorem Spans.of_suffix {s a b : List Char} (hs : s <:+ a) (h : Spans table s b) : Spans table a b := by
  obtain ⟨e, he, x, y, hpattern, hx, hy, hxs, hyb⟩ := h
  exact ⟨e, he, x, y, hpattern, hx, hy, hxs.trans hs, hyb⟩

theorem first?_append {s b : List Char} (hs : s ≠ []) (h : ¬ Spans table s b) :
    first? table (s ++ b) = first? table s := by
  refine List.find?_congr fun e he => ?_
  rw [Bool.eq_iff_iff, List.isPrefixOf_iff_prefix, List.isPrefixOf_iff_prefix]
  refine ⟨fun hp => ?_, fun hp => hp.trans (List.prefix_append s b)⟩
  by_contra hnot
  rcases List.prefix_or_prefix_of_prefix hp (List.prefix_append s b) with hp' | ⟨y, hy⟩
  · exact hnot hp'
  · have hyb : y <+: b := by rwa [← hy, List.prefix_append_right_inj] at hp
    have hne : y ≠ [] := by
      rintro rfl
      exact hnot (by simp [← hy])
    exact h ⟨e, he, s, y, hy.symm, hs, hne, List.suffix_rfl, hyb⟩

theorem apply_append {a b : List Char} (h : ¬ Spans table a b) :
    apply table (a ++ b) = apply table a ++ apply table b := by
  fun_induction apply table a with
  | case1 => rfl
  | case2 c cs e he ih =>
    have hfirst := first?_append (List.cons_ne_nil c cs) h
    rw [he, List.cons_append] at hfirst
    have hlength : e.pattern.length - 1 ≤ cs.length := by
      have := (mem_of_first? he).2.length_le
      rw [List.length_cons] at this
      omega
    have hrest := ih fun hs => h (hs.of_suffix ((List.drop_suffix _ cs).trans (List.suffix_cons c cs)))
    rw [List.cons_append, apply, hfirst]
    dsimp only
    rw [List.drop_append_of_le_length hlength, hrest, List.append_assoc]
  | case3 c cs hnone ih =>
    have hfirst := first?_append (List.cons_ne_nil c cs) h
    rw [hnone, List.cons_append] at hfirst
    rw [List.cons_append, apply, hfirst]
    dsimp only
    rw [ih fun hs => h (hs.of_suffix (List.suffix_cons c cs)), List.cons_append]

end Substitution

namespace CharacterTable

/-- Neither of two patterns starts the other, which mostly their first characters show. -/
def Apart (s t : Substitution) : Prop :=
  s.pattern.head? ≠ t.pattern.head? ∨ ¬ s.pattern <+: t.pattern ∧ ¬ t.pattern <+: s.pattern

instance : DecidableRel Apart := fun _ _ => inferInstanceAs (Decidable (_ ∨ _))

instance : Std.Symm Apart := ⟨fun _ _ => Or.imp Ne.symm And.symm⟩

theorem prefixFree : Substitution.PrefixFree all := by
  have hpairs : all.Pairwise Apart := by decide +kernel
  intro s hs t ht hst
  by_contra hne
  rcases hpairs.forall hs ht hne with hhead | ⟨hnot, -⟩
  · obtain ⟨c, cs, hcs⟩ := List.exists_cons_of_ne_nil (pattern_ne_nil s hs)
    obtain ⟨rest, hrest⟩ := hst
    simp [← hrest, hcs] at hhead
  · exact hnot hst

/-- All ways to cut a pattern in two. -/
def patternCuts : List (List Char × List Char) :=
  [(['='], ['=', '>']), (['=', '='], ['>']), (['='], ['>']), (['|'], ['|'])]

theorem mem_patternCuts {e : Substitution} (he : e ∈ all) {x y : List Char} (h : e.pattern = x ++ y)
    (hx : x ≠ []) (hy : y ≠ []) : (x, y) ∈ patternCuts := by
  have hall : ∀ e ∈ all, ∀ i ∈ List.range e.pattern.length,
      i = 0 ∨ (e.pattern.take i, e.pattern.drop i) ∈ patternCuts := by
    decide +kernel
  have hi : x.length ∈ List.range e.pattern.length := by
    have := List.length_pos_iff.mpr hy
    simp [h]
    omega
  have hcut := (hall e he x.length hi).resolve_left (by simpa using hx)
  simpa [h] using hcut

end CharacterTable

/-- The order of the character table has no effect. -/
theorem apply_of_perm {table : List Substitution} (h : table.Perm CharacterTable.all) (raw : List Char) :
    Substitution.apply table raw = replaceCharacters raw :=
  Substitution.apply_congr (CharacterTable.prefixFree.first?_of_perm h) raw

theorem apply_of_reversed_table :
    CharacterTable.all.reverse.Perm CharacterTable.all ∧
      Substitution.apply CharacterTable.all.reverse "\\p ==> q => \x7br ||| s\x7d".toList =
        replaceCharacters "\\p ==> q => \x7br ||| s\x7d".toList :=
  ⟨List.reverse_perm _, apply_of_perm (List.reverse_perm _) _⟩

/-- The longest run of bars that ends a text. -/
def finalBars (text : List Char) : List Char := text.rtakeWhile (· = '|')

/-- What the second text begins with belongs to what the first one ends with: to a double arrow of two
or three characters, or to a bar that has no partner yet. -/
def Joins (a b : List Char) : Prop :=
  ['='] <:+ a ∧ ['>'] <+: b ∨ ['='] <:+ a ∧ ['=', '>'] <+: b ∨
    (finalBars a).length % 2 = 1 ∧ ['|'] <+: b

instance (a b : List Char) : Decidable (Joins a b) := inferInstanceAs (Decidable (_ ∨ _ ∨ _))

theorem finalBars_concat (a : List Char) (c : Char) :
    finalBars (a ++ [c]) = if c = '|' then finalBars a ++ ['|'] else [] := by
  simp only [finalBars, List.rtakeWhile_concat, decide_eq_true_eq]
  split
  · rename_i hc
    rw [hc]
  · rfl

theorem exists_append_finalBars (a : List Char) : ∃ u, a = u ++ finalBars a ∧ finalBars u = [] :=
  ⟨a.rdropWhile (· = '|'), List.rdropWhile_append_rtakeWhile.symm,
    List.rtakeWhile_eq_nil_iff.mpr (List.rdropWhile_last_not _ a)⟩

theorem finalBars_eq_replicate (a : List Char) :
    finalBars a = List.replicate (finalBars a).length '|' :=
  List.eq_replicate_iff.mpr ⟨rfl, fun _ hc => by simpa using List.mem_rtakeWhile_imp hc⟩

theorem not_spans_of_not_joins {a b : List Char} (h : ¬ Joins a b)
    (hbars : finalBars a = [] ∨ ¬ ['|'] <+: b) : ¬ Substitution.Spans CharacterTable.all a b := by
  rintro ⟨e, he, x, y, hpattern, hx, hy, hxa, hyb⟩
  have hcut := CharacterTable.mem_patternCuts he hpattern hx hy
  simp only [CharacterTable.patternCuts, List.mem_cons, Prod.mk.injEq, List.not_mem_nil, or_false] at hcut
  rcases hcut with ⟨rfl, rfl⟩ | ⟨rfl, rfl⟩ | ⟨rfl, rfl⟩ | ⟨rfl, rfl⟩
  · exact h (.inr (.inl ⟨hxa, hyb⟩))
  · exact h (.inl ⟨(List.suffix_cons '=' ['=']).trans hxa, hyb⟩)
  · exact h (.inl ⟨hxa, hyb⟩)
  · obtain ⟨v, rfl⟩ := hxa
    simp [finalBars_concat, hyb] at hbars

theorem replaceCharacters_pattern_append {e : Substitution} (he : e ∈ CharacterTable.all)
    (text : List Char) : replaceCharacters (e.pattern ++ text) = e.value ++ replaceCharacters text :=
  CharacterTable.prefixFree.apply_pattern_append he (CharacterTable.pattern_ne_nil e he) text

namespace CharacterTable

def doubleArrow : Substitution := ⟨['=', '>'], inMath "Rightarrow"⟩

def longDoubleArrow : Substitution := ⟨['=', '=', '>'], inMath "Rightarrow"⟩

def doubleBar : Substitution := ⟨['|', '|'], "\\textbardbl\x7b\x7d".toList⟩

theorem doubleArrow_mem : doubleArrow ∈ all := by decide +kernel

theorem longDoubleArrow_mem : longDoubleArrow ∈ all := by decide +kernel

theorem doubleBar_mem : doubleBar ∈ all := by decide +kernel

end CharacterTable

/-- Bars in pairs do not take one of the text behind them. -/
theorem replaceCharacters_bars_append (k : Nat) (text : List Char) :
    replaceCharacters (List.replicate (2 * k) '|' ++ text) =
      (List.replicate k CharacterTable.doubleBar.value).flatten ++ replaceCharacters text := by
  induction k with
  | zero => rfl
  | succ k ih =>
    have hcut : List.replicate (2 * (k + 1)) '|' ++ text =
        CharacterTable.doubleBar.pattern ++ (List.replicate (2 * k) '|' ++ text) := by
      rw [Nat.mul_succ, Nat.add_comm, List.replicate_add, List.append_assoc]
      rfl
    rw [hcut, replaceCharacters_pattern_append CharacterTable.doubleBar_mem, ih, List.replicate_succ,
      List.flatten_cons, List.append_assoc]

theorem replaceCharacters_append_bars {u w : List Char} (hu : finalBars u = [])
    (hw : ∀ c ∈ w.head?, c = '|') :
    replaceCharacters (u ++ w) = replaceCharacters u ++ replaceCharacters w := by
  refine Substitution.apply_append (not_spans_of_not_joins ?_ (.inl hu))
  rintro (⟨-, v, rfl⟩ | ⟨-, v, rfl⟩ | ⟨hodd, -⟩)
  · simp at hw
  · simp at hw
  · simp [hu] at hodd

theorem replaceCharacters_append {a b : List Char} (h : ¬ Joins a b) :
    replaceCharacters (a ++ b) = replaceCharacters a ++ replaceCharacters b := by
  by_cases hbars : finalBars a = [] ∨ ¬ ['|'] <+: b
  · exact Substitution.apply_append (not_spans_of_not_joins h hbars)
  obtain ⟨-, v, rfl⟩ : finalBars a ≠ [] ∧ ['|'] <+: b := by
    simpa only [not_or, not_not] using hbars
  -- the bars at the end of `a` are pairs, and no match goes from the text before them into them
  obtain ⟨k, hk⟩ : ∃ k, (finalBars a).length = 2 * k := by
    have heven : (finalBars a).length % 2 ≠ 1 := fun hodd => h (.inr (.inr ⟨hodd, v, rfl⟩))
    exact ⟨(finalBars a).length / 2, by omega⟩
  obtain ⟨u, ha, hu⟩ := exists_append_finalBars a
  rw [finalBars_eq_replicate, hk] at ha
  have hsplit (w : List Char) (hw : ∀ c ∈ w.head?, c = '|') : replaceCharacters (a ++ w) =
      replaceCharacters u ++ ((List.replicate k CharacterTable.doubleBar.value).flatten ++
        replaceCharacters w) := by
    have hbar : ∀ c ∈ (List.replicate (2 * k) '|' ++ w).head?, c = '|' := by
      cases k with
      | zero => simpa using hw
      | succ k => simp [Nat.mul_succ, List.replicate_succ]
    rw [ha, List.append_assoc, replaceCharacters_append_bars hu hbar, replaceCharacters_bars_append]
  have hfirst := hsplit [] (by simp)
  rw [List.append_nil] at hfirst
  rw [hfirst, hsplit (['|'] ++ v) (by simp)]
  simp [replaceCharacters, Substitution.apply]

/-- A match across the cut shows: the whole has a replacement where the parts go on as they are. -/
theorem replaceCharacters_append_ne {e : Substitution} (he : e ∈ CharacterTable.all) {u x y b : List Char}
    (hpattern : e.pattern = x ++ y) (hkept : replaceCharacters x = x)
    (hdiffer : ∃ c ∈ e.value.head?, ∃ d ∈ x.head?, c ≠ d) (hwhole : ¬ Joins u (e.pattern ++ b))
    (hpart : ¬ Joins u x) :
    replaceCharacters (u ++ x ++ (y ++ b)) ≠ replaceCharacters (u ++ x) ++ replaceCharacters (y ++ b) := by
  obtain ⟨c, hc, d, hd, hne⟩ := hdiffer
  intro h
  have hcut : u ++ x ++ (y ++ b) = u ++ (e.pattern ++ b) := by simp [hpattern]
  rw [hcut, replaceCharacters_append hwhole, replaceCharacters_append hpart, hkept,
    replaceCharacters_pattern_append he, List.append_assoc, List.append_cancel_left_eq] at h
  have hhead := congrArg List.head? h
  rw [List.head?_append, List.head?_append, Option.mem_def.mp hc, Option.mem_def.mp hd] at hhead
  exact hne (Option.some.inj hhead)

theorem replaceCharacters_append_ne_of_joins {a b : List Char} (h : Joins a b) :
    replaceCharacters (a ++ b) ≠ replaceCharacters a ++ replaceCharacters b := by
  rcases h with ⟨⟨v, rfl⟩, w, rfl⟩ | ⟨⟨v, rfl⟩, w, rfl⟩ | ⟨hodd, w, rfl⟩
  · by_cases hv : ['='] <:+ v
    · obtain ⟨u, rfl⟩ := hv
      rw [List.append_assoc u]
      exact replaceCharacters_append_ne CharacterTable.longDoubleArrow_mem rfl (by decide +kernel)
        ⟨'$', rfl, '=', rfl, by decide⟩ (by simp [Joins, CharacterTable.longDoubleArrow]) (by simp [Joins])
    · exact replaceCharacters_append_ne CharacterTable.doubleArrow_mem rfl (by decide +kernel)
        ⟨'$', rfl, '=', rfl, by decide⟩ (by simp [Joins, CharacterTable.doubleArrow, hv]) (by simp [Joins])
  · exact replaceCharacters_append_ne CharacterTable.longDoubleArrow_mem rfl (by decide +kernel)
      ⟨'$', rfl, '=', rfl, by decide⟩ (by simp [Joins, CharacterTable.longDoubleArrow]) (by simp [Joins])
  · obtain ⟨u, rfl, hu⟩ : ∃ u, a = u ++ ['|'] ∧ (finalBars u).length % 2 = 0 := by
      rcases List.eq_nil_or_concat' a with rfl | ⟨u, c, rfl⟩
      · simp [finalBars] at hodd
      · rw [finalBars_concat] at hodd
        split at hodd
        · rename_i hc
          rw [List.length_append, List.length_singleton] at hodd
          exact ⟨u, by rw [hc], by omega⟩
        · simp at hodd
    exact replaceCharacters_append_ne CharacterTable.doubleBar_mem rfl (by decide +kernel)
      ⟨'\\', rfl, '|', rfl, by decide⟩ (by simp [Joins, CharacterTable.doubleBar, hu]) (by simp [Joins, hu])

/-- Two texts are replaced each on its own unless the second begins with the rest of a pattern. -/
theorem replaceCharacters_append_iff (a b : List Char) :
    replaceCharacters (a ++ b) = replaceCharacters a ++ replaceCharacters b ↔ ¬ Joins a b :=
  ⟨fun h hjoins => replaceCharacters_append_ne_of_joins hjoins h, replaceCharacters_append⟩

/-- Two bars are a pair, so the third one is free to be cut off; a fourth one belongs to it. -/
example : ¬ Joins "p ||".toList "| q".toList ∧ Joins "p |||".toList "| q".toList := by decide

end WordTex
