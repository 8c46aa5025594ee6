import WordTex.Proofs.EnclosingCommands
import WordTex.Proofs.SpanCuts
import WordTex.Proofs.WrittenStyles

/-! # Boundaries between texts of one style

A text that is cut in two of the same style is written as before, if only its core can be escaped in
parts: the commands around the first part are just those that the second one needs, and white space
at the cut waits for the second part as it does between any two cores. -/
namespace WordTex

namespace Style

theorem union_difference {a b : Style} (h : a.contains b = true) : b.union (a.difference b) = a := by
  obtain ⟨a⟩ := a
  obtain ⟨b⟩ := b
  have hbits : a &&& b = b := by simpa [contains] using h
  have hunion : b ||| a &&& ~~~b = a := by
    refine BitVec.eq_of_getLsbD_eq fun i hi => ?_
    have hbit := congrArg (fun v => v.getLsbD i) hbits
    simp only [BitVec.getLsbD_and] at hbit
    simp only [BitVec.getLsbD_or, BitVec.getLsbD_and, BitVec.getLsbD_not, hi, decide_true, Bool.true_and]
    cases hb : b.getLsbD i with
    | true => simpa [hb] using hbit.symm
    | false => simp
  rw [union, difference, hunion]

theorem contains_self (s : Style) : s.contains s = true := by
  simp [contains]

theorem difference_self (s : Style) : s.difference s = empty := by
  have hbits : s.bits &&& ~~~s.bits = 0 := by
    refine BitVec.eq_of_getLsbD_eq fun i hi => ?_
    simp
  rw [difference, hbits, empty]

end Style

namespace Level

variable {levels : List Level} {styles : Style}

theorem current_openAll (levels : List Level) (count : Nat) (fs : List Style) :
    current (openAll levels count fs) = (current levels).union (Style.unionAll fs) := by
  induction fs generalizing levels count with
  | nil => simp [openAll, Style.unionAll]
  | cons f fs ih =>
    rw [openAll, ih, Style.unionAll_cons, ← Style.union_assoc]
    rfl

/-- Around a core, the levels add up to its style. -/
theorem Nested.current_around (h : Nested levels) (styles : Style) (count : Nat) :
    current (Level.around styles levels count) = styles := by
  rw [Level.around, current_openAll, lacking, Style.unionAll_flags,
    Style.union_difference (contains_current_keepFor h styles)]

theorem keepFor_of_current (hne : levels ≠ []) (h : current levels = styles) :
    keepFor styles levels = levels := by
  obtain ⟨l, outer, rfl⟩ := List.exists_cons_of_ne_nil hne
  obtain rfl : l.styles = styles := h
  exact List.dropWhile_cons_of_neg (by simp [Style.contains_self])

theorem lacking_of_current (h : current levels = styles) : lacking styles levels = [] := by
  rw [lacking, h, Style.difference_self]
  rfl

end Level

open Level

variable {escape : List Char → List Char} {levels : List Level} {count : Nat} {waiting : List Char}

/-- A core of the style that the open levels add up to needs no command. -/
theorem writtenSpans_same_style {styles : Style} (hne : levels ≠ []) (h : current levels = styles)
    (t : List Char) (spans : List Span) :
    writtenSpans escape levels count waiting (.core t styles :: spans) =
      writtenBlank escape waiting ++ (escape t ++ writtenSpans escape levels count [] spans) := by
  have hkeep := keepFor_of_current hne h
  have hclose : (levels.takeWhile fun l => !styles.contains l.styles) = [] := by
    have hcut := List.takeWhile_append_dropWhile (p := fun l : Level => !styles.contains l.styles)
      (l := levels)
    rw [← keepFor, hkeep] at hcut
    simpa using hcut
  have haround : around styles levels count = levels := by
    rw [around, hkeep, lacking_of_current h, openAll]
  rw [writtenSpans, writtenCore, hclose, haround, hkeep, lacking_of_current h]
  simp [closings]

theorem writtenSpans_blank_append (t : List Char) (rest : List Span) :
    writtenSpans escape levels count waiting ((if t = [] then [] else [.blank t]) ++ rest) =
      writtenSpans escape levels count (waiting ++ t) rest := by
  split
  · simp [*]
  · rw [List.singleton_append, writtenSpans]

theorem edges_of_isBlankText {s : List Char} (h : IsBlankText s) : edges s = ⟨s, [], []⟩ :=
  Eq.symm <| Edges.Cut.eq_edges
    ⟨by simp, List.all_eq_true.mp h, by simp, by simp, by simp, fun _ => rfl⟩

theorem core_eq_nil_iff (s : List Char) : (edges s).core = [] ↔ IsBlankText s := by
  refine ⟨fun h => ?_, fun h => by rw [edges_of_isBlankText h]⟩
  have hcut := cut_edges s
  have hwhole := hcut.whole
  rw [h, hcut.blank h, List.append_nil, List.append_nil] at hwhole
  rw [IsBlankText, ← hwhole]
  exact List.all_eq_true.mpr hcut.leading

section Spans

variable {data : String} (styles : Style) (rest : List Span)

/-- A blank text joins the white space that waits. -/
theorem writtenSpans_of_isBlankText (h : IsBlankText data.toList) :
    writtenSpans escape levels count waiting ((StyledText.mk data styles).spans ++ rest) =
      writtenSpans escape levels count (waiting ++ data.toList) rest := by
  have hspans : (StyledText.mk data styles).spans =
      if data.toList = [] then [] else [.blank data.toList] := by
    simp [StyledText.spans, edges_of_isBlankText h]
  rw [hspans, writtenSpans_blank_append]

theorem writtenSpans_of_not_isBlankText (h : ¬ IsBlankText data.toList) :
    writtenSpans escape levels count waiting ((StyledText.mk data styles).spans ++ rest) =
      writtenSpans escape levels count (waiting ++ (edges data.toList).leading)
        (.core (edges data.toList).core styles :: .blank (edges data.toList).trailing :: rest) := by
  have hcore : (edges data.toList).core ≠ [] := fun hnil => h ((core_eq_nil_iff _).mp hnil)
  rw [StyledText.spans, if_neg hcore, List.append_assoc, List.append_assoc, writtenSpans_blank_append,
    List.singleton_append, writtenSpans, writtenSpans_blank_append, writtenSpans, writtenSpans]

end Spans

/-- What is written for spans does not depend on those behind them. -/
theorem exists_writtenSpans_append (escape : List Char → List Char) (h : Nested levels)
    (hcount : ∀ l ∈ levels, l.index < count) (waiting : List Char) (spans : List Span) :
    ∃ tex levels' count' waiting', Nested levels' ∧ (∀ l ∈ levels', l.index < count') ∧
      ∀ rest, writtenSpans escape levels count waiting (spans ++ rest) =
        tex ++ writtenSpans escape levels' count' waiting' rest := by
  induction spans generalizing levels count waiting with
  | nil => exact ⟨[], levels, count, waiting, h, hcount, fun rest => rfl⟩
  | cons span spans ih =>
    cases span with
    | blank t => exact ih h hcount (waiting ++ t)
    | core t styles =>
      obtain ⟨hnested, hlt⟩ := h.around hcount styles
      obtain ⟨tex, levels', count', waiting', hnested', hlt', hrest⟩ := ih hnested hlt []
      refine ⟨writtenCore escape levels waiting t styles ++ tex, levels', count', waiting', hnested',
        hlt', fun rest => ?_⟩
      rw [List.cons_append, writtenSpans, hrest rest, List.append_assoc]

section Edges

variable {x y : List Char}

theorem edges_append_of_blank_left (h : IsBlankText x) :
    edges (x ++ y) = ⟨x ++ (edges y).leading, (edges y).core, (edges y).trailing⟩ := by
  have hcut := cut_edges y
  refine Eq.symm (Edges.Cut.eq_edges ⟨?_, ?_, hcut.trailing, hcut.first, hcut.last, hcut.blank⟩)
  · simpa using hcut.whole
  · exact List.forall_mem_append.mpr ⟨List.all_eq_true.mp h, hcut.leading⟩

theorem edges_append_of_blank_right (hx : ¬ IsBlankText x) (h : IsBlankText y) :
    edges (x ++ y) = ⟨(edges x).leading, (edges x).core, (edges x).trailing ++ y⟩ := by
  have hcut := cut_edges x
  refine Eq.symm (Edges.Cut.eq_edges ⟨?_, hcut.leading, ?_, hcut.first, hcut.last, ?_⟩)
  · simp [← List.append_assoc, hcut.whole]
  · exact List.forall_mem_append.mpr ⟨hcut.trailing, List.all_eq_true.mp h⟩
  · exact fun hnil => absurd ((core_eq_nil_iff x).mp hnil) hx

/-- A cut inside of the core has the white space around it in the middle. -/
theorem edges_append (hx : ¬ IsBlankText x) (hy : ¬ IsBlankText y) :
    edges (x ++ y) = ⟨(edges x).leading,
      (edges x).core ++ ((edges x).trailing ++ (edges y).leading) ++ (edges y).core,
      (edges y).trailing⟩ := by
  have hcut := cut_edges x
  have hcut' := cut_edges y
  have hcore : (edges x).core ≠ [] := fun hnil => hx ((core_eq_nil_iff x).mp hnil)
  have hcore' : (edges y).core ≠ [] := fun hnil => hy ((core_eq_nil_iff y).mp hnil)
  refine Eq.symm (Edges.Cut.eq_edges ⟨?_, hcut.leading, hcut'.trailing, ?_, ?_, ?_⟩)
  · have hwhole := congrArg₂ (· ++ ·) hcut.whole hcut'.whole
    simpa using hwhole
  · rw [List.append_assoc, List.head?_append_of_ne_nil _ hcore]
    exact hcut.first
  · rw [List.getLast?_append_of_ne_nil _ hcore']
    exact hcut'.last
  · simp [hcore]

end Edges

/-- The text that is cut into these two can be escaped in parts: the cut is in the white space at one
of its ends, or escaping the core gives the two cores beside the cut and the white space between
them, each escaped on its own. -/
def EscapesInParts (escape : List Char → List Char) (x y : List Char) : Prop :=
  IsBlankText x ∨ IsBlankText y ∨
    escape ((edges x).core ++ ((edges x).trailing ++ (edges y).leading) ++ (edges y).core) =
      escape (edges x).core ++ escape ((edges x).trailing ++ (edges y).leading) ++
        escape (edges y).core

instance (x y : List Char) : Decidable (EscapesInParts escape x y) :=
  inferInstanceAs (Decidable (_ ∨ _ ∨ _))

theorem writtenBlank_eq (hnil : escape [] = []) (t : List Char) : writtenBlank escape t = escape t := by
  rw [writtenBlank]
  split
  · rename_i ht
    rw [ht, hnil]
  · rfl

theorem writtenSpans_cut_iff (hnil : escape [] = []) (h : Nested levels)
    (hcount : ∀ l ∈ levels, l.index < count) (x y : String) (styles : Style) (rest : List Span) :
    writtenSpans escape levels count waiting
          ((StyledText.mk x styles).spans ++ ((StyledText.mk y styles).spans ++ rest)) =
        writtenSpans escape levels count waiting ((StyledText.mk (x ++ y) styles).spans ++ rest) ↔
      EscapesInParts escape x.toList y.toList := by
  by_cases hx : IsBlankText x.toList
  · -- what waits before the second part is the same
    refine iff_of_true ?_ (.inl hx)
    rw [writtenSpans_of_isBlankText styles _ hx]
    by_cases hy : IsBlankText y.toList
    · have hxy : IsBlankText (x ++ y).toList := by
        rw [String.toList_append, IsBlankText, List.all_append]
        exact Bool.and_eq_true_iff.mpr ⟨hx, hy⟩
      rw [writtenSpans_of_isBlankText styles _ hy, writtenSpans_of_isBlankText styles _ hxy]
      simp
    · have hedges := edges_append_of_blank_left (y := y.toList) hx
      have hxy : ¬ IsBlankText (x ++ y).toList := by
        rw [String.toList_append, ← core_eq_nil_iff, hedges]
        exact fun hcore => hy ((core_eq_nil_iff _).mp hcore)
      rw [writtenSpans_of_not_isBlankText styles _ hy, writtenSpans_of_not_isBlankText styles _ hxy]
      simp [hedges]
  have hxy : ¬ IsBlankText (x ++ y).toList := by
    intro hblank
    rw [String.toList_append, IsBlankText, List.all_append] at hblank
    exact hx (Bool.and_eq_true_iff.mp hblank).1
  rw [writtenSpans_of_not_isBlankText styles _ hx, writtenSpans_of_not_isBlankText styles _ hxy,
    writtenSpans, writtenSpans, writtenSpans, writtenSpans]
  by_cases hy : IsBlankText y.toList
  · refine iff_of_true ?_ (.inr (.inl hy))
    rw [writtenSpans_of_isBlankText styles _ hy]
    simp [edges_append_of_blank_right hx hy]
  · -- the second core needs no command, so only the two cores and what is between them differ
    have hnested := (h.around hcount styles).1
    obtain ⟨front, hfront⟩ : ∃ front, ∀ t,
        writtenCore escape levels (waiting ++ (edges x.toList).leading) t styles = front ++ escape t :=
      ⟨_, fun t => rfl⟩
    rw [writtenSpans_of_not_isBlankText styles _ hy,
      writtenSpans_same_style hnested.ne_nil (h.current_around styles count), writtenSpans,
      writtenBlank_eq hnil]
    simp only [String.toList_append, edges_append hx hy, List.nil_append, hfront, EscapesInParts, hx, hy,
      false_or]
    generalize (edges x.toList).trailing ++ (edges y.toList).leading = between
    generalize writtenSpans escape _ _ _ rest = behind
    have hparts : front ++ escape (edges x.toList).core ++
          (escape between ++ (escape (edges y.toList).core ++ behind)) =
        front ++ (escape (edges x.toList).core ++ escape between ++ escape (edges y.toList).core) ++
          behind := by
      simp
    rw [hparts, List.append_cancel_right_eq, List.append_cancel_left_eq, eq_comm]

theorem escapeChars_nil (options : LatexOptions) : escapeChars options [] = [] := by
  rw [escapeChars, replaceCharacters_nil, fillInBlanks]
  simp [QuotePairs.convertAll, QuotePairs.convert, QuotePairs.convertFrom]

/-- Whether a text is given as one or cut in two makes no difference if and only if it can be escaped in
parts. The white space around a cut inside of the core is that at the ends of the parts. -/
theorem texOfTexts_cut_iff (options : LatexOptions) (before after : List StyledText) (x y : String)
    (styles : Style) :
    (¬ IsBlankText x.toList → ¬ IsBlankText y.toList → (edges (x ++ y).toList).core =
        (edges x.toList).core ++ ((edges x.toList).trailing ++ (edges y.toList).leading) ++
          (edges y.toList).core) ∧
      (texOfTexts options (before ++ ⟨x, styles⟩ :: ⟨y, styles⟩ :: after) =
          texOfTexts options (before ++ ⟨x ++ y, styles⟩ :: after) ↔
        EscapesInParts (escapeChars options) x.toList y.toList) := by
  refine ⟨fun hx hy => by rw [String.toList_append, edges_append hx hy], ?_⟩
  have hroot : ∀ l ∈ [Level.root], l.index < 1 := by simp [Level.root]
  obtain ⟨tex, levels, count, waiting, hnested, hlt, hwritten⟩ := exists_writtenSpans_append
    (escapeChars options) .root hroot [] (before.flatMap StyledText.spans)
  simp only [texOfTexts_eq_writtenSpans, List.flatMap_append, List.flatMap_cons, hwritten,
    List.append_cancel_left_eq]
  exact writtenSpans_cut_iff (escapeChars_nil options) hnested hlt x y styles _

/-- A cut between words does not show; one through an arrow or inside of quotes does. -/
example : EscapesInParts (escapeChars {}) "one ".toList " two".toList ∧
    ¬ EscapesInParts (escapeChars {}) "p =".toList "> q".toList ∧
    ¬ EscapesInParts (escapeChars {}) "\x22one ".toList "two\x22".toList := by
  decide +kernel

end WordTex
