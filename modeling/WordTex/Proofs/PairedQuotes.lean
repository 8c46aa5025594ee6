import WordTex.Proofs.EscapedText

/-! # Paired quotes

The quotes of a text that become others are those of pairs, which do not overlap. All else is kept in its
place. Single quotes are paired first, without a change to the length of the text, so the places of
double quotes are those of the given text as well. -/
namespace WordTex
namespace QuotePairs

/-- The places of the two quotes of a pair. -/
structure Pair where
  opening : Nat
  closing : Nat
deriving DecidableEq, Repr

namespace Pair

/-- The pair in a text with more characters in front. -/
def shift (n : Nat) (p : Pair) : Pair := ⟨p.opening + n, p.closing + n⟩

/-- How many characters the pair encloses. -/
def width (p : Pair) : Nat := p.closing - p.opening - 1

/-- At the two places there are quotes, with 3 to 202 characters between them of which the first and the
last are not white space. -/
structure IsIn (q : Char) (text : List Char) (p : Pair) : Prop where
  opening : text[p.opening]? = some q
  closing : text[p.closing]? = some q
  three_le : 3 ≤ p.width
  width_le : p.width ≤ 202
  first : ∃ c ∈ text[p.opening + 1]?, isBlank c = false
  last : ∃ c ∈ text[p.closing - 1]?, isBlank c = false

end Pair

/-- Pairs of a text from left to right, each closed before the next one opens. -/
structure ArePairs (q : Char) (text : List Char) (ps : List Pair) : Prop where
  isIn : ∀ p ∈ ps, p.IsIn q text
  disjoint : ps.Pairwise fun p p' => p.closing < p'.opening

/-- What becomes of the character at a place of the text. -/
def Marks.respell (m : Marks) (ps : List Pair) (i : Nat) (c : Char) : List Char :=
  if i ∈ ps.map Pair.opening then m.opening
  else if i ∈ ps.map Pair.closing then m.closing
  else [c]

/-- Both kinds of quotes: the closing one of a single pair is kept as it is. -/
def respellAll (singles doubles : List Pair) (i : Nat) (c : Char) : List Char :=
  if i ∈ singles.map Pair.opening then single.opening
  else double.respell doubles i c

section Places

variable {m : Marks} {ps : List Pair} {i n : Nat} {c : Char}

theorem respell_of_not_mem (hopening : ∀ p ∈ ps, p.opening ≠ i) (hclosing : ∀ p ∈ ps, p.closing ≠ i) :
    m.respell ps i c = [c] := by
  rw [Marks.respell, if_neg (by simpa using hopening), if_neg (by simpa using hclosing)]

theorem respell_shift : m.respell (ps.map (Pair.shift n)) (i + n) c = m.respell ps i c := by
  simp [Marks.respell, Pair.shift]

theorem respell_shift_of_lt (h : i < n) : m.respell (ps.map (Pair.shift n)) i c = [c] := by
  refine respell_of_not_mem ?_ ?_ <;>
  · simp only [List.forall_mem_map, Pair.shift]
    intro p _
    omega

/-- The places of a pair at the start of the text and of the pairs behind it. -/
def pairThen (n : Nat) (ps : List Pair) : List Pair := ⟨0, n + 1⟩ :: ps.map (Pair.shift (n + 2))

theorem respell_pairThen_opening : m.respell (pairThen n ps) 0 c = m.opening := by
  simp [Marks.respell, pairThen]

theorem respell_pairThen_span (h : i < n) : m.respell (pairThen n ps) (i + 1) c = [c] := by
  refine respell_of_not_mem ?_ ?_ <;>
  · simp only [pairThen, List.forall_mem_cons, List.forall_mem_map, Pair.shift]
    refine ⟨by omega, fun p _ => by omega⟩

theorem respell_pairThen_closing : m.respell (pairThen n ps) (n + 1) c = m.closing := by
  have hopening : n + 1 ∉ (pairThen n ps).map Pair.opening := by
    simp only [pairThen, List.map_cons, List.mem_cons, List.map_map, List.mem_map, Function.comp_apply,
      Pair.shift]
    rintro (h | ⟨p, _, h⟩) <;> omega
  rw [Marks.respell, if_neg hopening, if_pos (by simp [pairThen])]

theorem respell_pairThen_after : m.respell (pairThen n ps) (i + (n + 2)) c = m.respell ps i c := by
  have hne : i + (n + 2) ≠ n + 1 := by omega
  have hshift : m.respell (ps.map (Pair.shift (n + 2))) (i + (n + 2)) c = m.respell ps i c :=
    respell_shift
  rw [← hshift]
  simp [Marks.respell, pairThen, hne]

end Places

theorem flatten_mapIdx {s : List Char} {f : Nat → Char → List Char} {g : Nat → Char → Char}
    (h : ∀ i, ∀ c ∈ s[i]?, f i c = [g i c]) : (s.mapIdx f).flatten = s.mapIdx g := by
  induction s generalizing f g with
  | nil => rfl
  | cons c s ih =>
    have htail := ih (f := fun i => f (i + 1)) (g := fun i => g (i + 1)) fun i d hd => h (i + 1) d hd
    rw [List.mapIdx_cons, List.mapIdx_cons, List.flatten_cons, h 0 c rfl, htail, List.singleton_append]

theorem flatten_mapIdx_of_kept {s : List Char} {f : Nat → Char → List Char}
    (h : ∀ i < s.length, ∀ c, f i c = [c]) : (s.mapIdx f).flatten = s := by
  have hkept : ∀ i, ∀ c ∈ s[i]?, f i c = [c] := fun i c hc =>
    h i (List.getElem?_eq_some_iff.mp hc).choose c
  rw [flatten_mapIdx hkept]
  exact List.ext_getElem? fun i => by simp

/-- The second text is the first with the quotes of these pairs respelled. -/
structure IsPairing (m : Marks) (text tex : List Char) (ps : List Pair) : Prop extends
    ArePairs m.straight text ps where
  tex_eq : tex = (text.mapIdx (m.respell ps)).flatten

theorem Pair.IsIn.shift {q : Char} {text : List Char} {p : Pair} (h : p.IsIn q text) (s : List Char) :
    (p.shift s.length).IsIn q (s ++ text) := by
  have hget (i : Nat) : (s ++ text)[i + s.length]? = text[i]? := by
    rw [List.getElem?_append_right (Nat.le_add_left _ _), Nat.add_sub_cancel]
  have hwidth : (p.shift s.length).width = p.width := by
    simp only [width, Pair.shift]
    omega
  have hlt : 1 ≤ p.closing := by
    have := h.three_le
    rw [width] at this
    omega
  refine ⟨(hget _).trans h.opening, (hget _).trans h.closing, hwidth ▸ h.three_le,
    hwidth ▸ h.width_le, ?_, ?_⟩
  · rw [show (p.shift s.length).opening + 1 = p.opening + 1 + s.length by simp [Pair.shift]; omega, hget]
    exact h.first
  · rw [show (p.shift s.length).closing - 1 = p.closing - 1 + s.length by simp [Pair.shift]; omega, hget]
    exact h.last

theorem Pair.isIn_of_isSpan {q : Char} {span rest : List Char} (hq : isBlank q = false)
    (h : IsSpan q span) : IsIn q (q :: (span ++ q :: rest)) ⟨0, span.length + 1⟩ := by
  cases h with
  | @mk first last inner hfirst hinner hlast =>
    have hlast : isBlank last = false := by
      rcases hlast with rfl | hlast
      · exact hq
      · exact hlast
    have hwidth : (Pair.mk 0 ((first :: (inner ++ [last])).length + 1)).width = inner.length + 2 := by
      simp [width]
    refine ⟨rfl, by simp, ?_, ?_, ⟨first, rfl, hfirst⟩, ⟨last, by simp, hlast⟩⟩
    · omega
    · rw [maxInner] at hinner
      omega

theorem flatten_mapIdx_pairThen (m : Marks) (ps : List Pair) (span text : List Char) :
    ((m.straight :: (span ++ m.straight :: text)).mapIdx
        (m.respell (pairThen span.length ps))).flatten =
      m.opening ++ (span ++ (m.closing ++ (text.mapIdx (m.respell ps)).flatten)) := by
  have hkept := flatten_mapIdx_of_kept (s := span)
    (f := fun i => m.respell (pairThen span.length ps) (i + 1)) fun i hi c => respell_pairThen_span hi
  have hclosing : m.respell (pairThen span.length ps) (0 + span.length + 1) m.straight = m.closing := by
    rw [Nat.zero_add]
    exact respell_pairThen_closing
  have hafter : (fun i => m.respell (pairThen span.length ps) (i + 1 + span.length + 1)) =
      m.respell ps := by
    funext i c
    rw [show i + 1 + span.length + 1 = i + (span.length + 2) by omega]
    exact respell_pairThen_after
  rw [List.mapIdx_cons, List.mapIdx_append, List.mapIdx_cons, List.flatten_cons, List.flatten_append,
    List.flatten_cons, hkept, respell_pairThen_opening, hclosing, hafter]

namespace IsPairing

variable {m : Marks} {text tex : List Char} {ps : List Pair}

theorem nil : IsPairing m [] [] [] := ⟨⟨by simp, .nil⟩, rfl⟩

theorem disjoint_shift (h : ps.Pairwise fun p p' => p.closing < p'.opening) (n : Nat) :
    (ps.map (Pair.shift n)).Pairwise fun p p' => p.closing < p'.opening :=
  h.map _ fun _ _ hlt => Nat.add_lt_add_right hlt n

/-- Characters in front that are kept. -/
theorem append_left (h : IsPairing m text tex ps) (s : List Char) :
    IsPairing m (s ++ text) (s ++ tex) (ps.map (Pair.shift s.length)) := by
  refine ⟨⟨?_, disjoint_shift h.disjoint _⟩, ?_⟩
  · rw [List.forall_mem_map]
    exact fun p hp => (h.isIn p hp).shift s
  · have hkept := flatten_mapIdx_of_kept (s := s) (f := m.respell (ps.map (Pair.shift s.length)))
      fun i hi c => respell_shift_of_lt hi
    have hrest : (fun i => m.respell (ps.map (Pair.shift s.length)) (i + s.length)) = m.respell ps := by
      funext i c
      exact respell_shift
    rw [List.mapIdx_append, List.flatten_append, hkept, hrest, ← h.tex_eq]

/-- A pair in front. -/
theorem pair {span : List Char} (hm : isBlank m.straight = false) (hspan : IsSpan m.straight span)
    (h : IsPairing m text tex ps) :
    IsPairing m (m.straight :: (span ++ m.straight :: text)) (m.opening ++ (span ++ (m.closing ++ tex)))
      (pairThen span.length ps) := by
  refine ⟨⟨?_, ?_⟩, ?_⟩
  · rw [pairThen, List.forall_mem_cons, List.forall_mem_map]
    refine ⟨Pair.isIn_of_isSpan hm hspan, fun p hp => ?_⟩
    simpa using (h.isIn p hp).shift (m.straight :: (span ++ [m.straight]))
  · rw [pairThen, List.pairwise_cons, List.forall_mem_map]
    exact ⟨fun p _ => by simp only [Pair.shift]; omega, disjoint_shift h.disjoint _⟩
  · rw [flatten_mapIdx_pairThen, ← h.tex_eq]

theorem convertedSpan (hm : isBlank m.straight = false) {n : Nat}
    (hn : spanLength? m.straight text = some n) (h : IsPairing m (text.drop (n + 2)) tex ps) :
    ∃ ps', IsPairing m (m.straight :: text) (convertedSpan m n text ++ tex) ps' := by
  obtain ⟨span, rest, rfl, rfl, hspan, -⟩ := split_of_spanLength? hn
  have hdrop : (span ++ m.straight :: rest).drop (span.length + 2) = rest.drop 1 := by simp
  rw [hdrop] at h
  -- the character behind the closing quote is kept
  have hrest := h.append_left (rest.take 1)
  rw [List.take_append_drop] at hrest
  exact ⟨_, by simpa [QuotePairs.convertedSpan] using pair hm hspan hrest⟩

end IsPairing

theorem exists_isPairing (m : Marks) (hm : isBlank m.straight = false) (atStart : Bool)
    (text : List Char) : ∃ ps, IsPairing m text (convertFrom m atStart text) ps := by
  fun_induction convertFrom m atStart text with
  | case1 => exact ⟨[], .nil⟩
  | case2 atStart c cs n hn ih =>
    obtain ⟨ps, hps⟩ := ih
    obtain ⟨⟨-, rfl⟩, hspan⟩ := opened_eq_some_iff.mp hn
    exact hps.convertedSpan hm hspan
  | case3 atStart c => exact ⟨_, IsPairing.nil.append_left [c]⟩
  | case4 atStart c d ds n hn _ ih =>
    obtain ⟨ps, hps⟩ := ih
    obtain ⟨⟨-, rfl⟩, hspan⟩ := opened_eq_some_iff.mp hn
    obtain ⟨ps', hps'⟩ := hps.convertedSpan hm hspan
    exact ⟨_, hps'.append_left [c]⟩
  | case5 atStart c d ds _ _ ih =>
    obtain ⟨ps, hps⟩ := ih
    exact ⟨_, hps.append_left [c]⟩

/-- What becomes of a character when single quotes are paired. -/
def opened (singles : List Pair) (i : Nat) (c : Char) : Char :=
  if i ∈ singles.map Pair.opening then '\x60' else c

namespace ArePairs

variable {q : Char} {text : List Char} {ps : List Pair} {i : Nat}

theorem get_opening (h : ArePairs q text ps) (hi : i ∈ ps.map Pair.opening) : text[i]? = some q := by
  obtain ⟨p, hp, rfl⟩ := List.mem_map.mp hi
  exact (h.isIn p hp).opening

theorem get_closing (h : ArePairs q text ps) (hi : i ∈ ps.map Pair.closing) : text[i]? = some q := by
  obtain ⟨p, hp, rfl⟩ := List.mem_map.mp hi
  exact (h.isIn p hp).closing

end ArePairs

/-- The closing quote of a single pair stays as it is, so pairing keeps the length of the text. -/
theorem eq_mapIdx_opened {text tex : List Char} {singles : List Pair} (h : IsPairing single text tex singles) :
    tex = text.mapIdx (opened singles) := by
  rw [h.tex_eq]
  refine flatten_mapIdx fun i c hc => ?_
  simp only [Marks.respell, opened]
  split
  · rfl
  split
  · rename_i hclosing
    rw [h.get_closing hclosing] at hc
    rw [← Option.some.inj hc]
    rfl
  · rfl

theorem get_of_opened {text : List Char} {singles : List Pair} (h : ArePairs single.straight text singles)
    {i : Nat} {c : Char} (hc : c ∈ (text.mapIdx (opened singles))[i]?) :
    ∃ d ∈ text[i]?, d = c ∨ c = '\x60' ∧ d = single.straight := by
  rw [List.getElem?_mapIdx, Option.mem_def, Option.map_eq_some_iff] at hc
  obtain ⟨d, hd, rfl⟩ := hc
  refine ⟨d, hd, ?_⟩
  rw [opened]
  split
  · rename_i hopening
    rw [h.get_opening hopening] at hd
    exact .inr ⟨rfl, (Option.some.inj hd).symm⟩
  · exact .inl rfl

/-- Double quotes are paired in the given text. -/
theorem isIn_of_opened {text : List Char} {singles : List Pair} (h : ArePairs single.straight text singles)
    {p : Pair} (hp : p.IsIn double.straight (text.mapIdx (opened singles))) :
    p.IsIn double.straight text := by
  have hquote {i : Nat} (hi : (text.mapIdx (opened singles))[i]? = some double.straight) :
      text[i]? = some double.straight := by
    obtain ⟨d, hd, rfl | ⟨hc, -⟩⟩ := get_of_opened h hi
    · exact hd
    · exact absurd hc (by decide)
  have hblank {i : Nat} (hi : ∃ c ∈ (text.mapIdx (opened singles))[i]?, isBlank c = false) :
      ∃ c ∈ text[i]?, isBlank c = false := by
    obtain ⟨c, hc, hcblank⟩ := hi
    obtain ⟨d, hd, rfl | ⟨-, rfl⟩⟩ := get_of_opened h hc
    · exact ⟨d, hd, hcblank⟩
    · exact ⟨_, hd, by decide⟩
  exact ⟨hquote hp.opening, hquote hp.closing, hp.three_le, hp.width_le, hblank hp.first, hblank hp.last⟩

theorem respell_opened {text : List Char} {singles doubles : List Pair}
    (hsingles : ArePairs single.straight text singles) (hdoubles : ArePairs double.straight text doubles)
    (i : Nat) (c : Char) : double.respell doubles i (opened singles i c) = respellAll singles doubles i c := by
  rw [opened, respellAll]
  split
  · rename_i hopening
    -- there is a single quote, so none of the double ones
    have hplace : text[i]? ≠ some double.straight := by
      rw [hsingles.get_opening hopening]
      decide
    rw [Marks.respell, if_neg fun h => hplace (hdoubles.get_opening h),
      if_neg fun h => hplace (hdoubles.get_closing h)]
    rfl
  · rfl

/-- The marks of pairs, straight or not. -/
def isQuote (c : Char) : Bool := c == '\x27' || c == '\x60' || c == '\x22'

/-- Only quotes of pairs are changed, and pairs of one kind do not overlap. -/
theorem convertAll_respells_pairs (text : List Char) :
    ∃ singles doubles, ArePairs single.straight text singles ∧ ArePairs double.straight text doubles ∧
      convertAll text = (text.mapIdx (respellAll singles doubles)).flatten ∧
      (convertAll text).filter (!isQuote ·) = text.filter (!isQuote ·) := by
  obtain ⟨singles, hsingles⟩ := exists_isPairing single (by decide) true text
  obtain ⟨doubles, hdoubles⟩ := exists_isPairing double (by decide) true (convert single text)
  have hmiddle : convert single text = text.mapIdx (opened singles) := eq_mapIdx_opened hsingles
  rw [hmiddle] at hdoubles
  have hpairs : ArePairs double.straight text doubles :=
    ⟨fun p hp => isIn_of_opened hsingles.toArePairs (hdoubles.isIn p hp), hdoubles.disjoint⟩
  have hrespelled : convertAll text = (text.mapIdx (respellAll singles doubles)).flatten := by
    rw [convertAll, hmiddle, convert, hdoubles.tex_eq, List.mapIdx_mapIdx]
    congr 2
    funext i c
    exact respell_opened hsingles.toArePairs hpairs i c
  have hkept : (convertAll text).filter (!isQuote ·) = text.filter (!isQuote ·) := by
    rw [convertAll, convert, convert, filter_convertFrom (by decide), filter_convertFrom (by decide)]
  exact ⟨singles, doubles, hsingles.toArePairs, hpairs, hrespelled, hkept⟩

end QuotePairs
end WordTex
