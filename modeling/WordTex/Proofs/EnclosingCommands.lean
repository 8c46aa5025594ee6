import WordTex.Proofs.StyleLevels

/-! # Flags of nested levels

Levels that are opened one inside the other set each named flag at most once, and together they add
up to the styles of the innermost. -/
namespace WordTex

namespace Level

/-- The levels are opened one inside the other, each for a flag that those around it lack. -/
inductive Nested : List Level → Prop
  | root : Nested [.root]
  | deeper {l : Level} {levels : List Level} (index : Nat) (flag : Style)
      (outer : Nested (l :: levels)) (hindex : ∀ m ∈ l :: levels, m.index < index)
      (hflag : flag.IsFlag) (hnew : flag.IsNamed → l.styles.contains flag = false) :
      Nested (⟨index, flag, l.styles.union flag⟩ :: l :: levels)

variable {levels : List Level}

theorem Nested.ne_nil (h : Nested levels) : levels ≠ [] := by
  cases h <;> exact List.cons_ne_nil _ _

/-- The levels around a level are nested too. -/
theorem Nested.dropWhile (h : Nested levels) (p : Level → Bool) (hp : p .root = false) :
    Nested (levels.dropWhile p) := by
  induction h with
  | root => simpa [hp] using Nested.root
  | deeper index flag outer hindex hflag hnew ih =>
    rw [List.dropWhile_cons]
    split
    · exact ih
    · exact outer.deeper index flag hindex hflag hnew

theorem Nested.keepFor (h : Nested levels) (styles : Style) : Nested (keepFor styles levels) :=
  h.dropWhile _ (by simp [Level.root, styles.contains_empty])

theorem keepFor_sublist (styles : Style) (levels : List Level) :
    (Level.keepFor styles levels).Sublist levels :=
  List.dropWhile_sublist _

theorem contains_current_keepFor (h : Nested levels) (styles : Style) :
    styles.contains (current (Level.keepFor styles levels)) = true := by
  have hne := (h.keepFor styles).ne_nil
  have hhead := List.head?_dropWhile_not (fun l : Level => !styles.contains l.styles) levels
  rw [current]
  rw [← Level.keepFor] at hhead
  cases hk : Level.keepFor styles levels with
  | nil => exact (hne hk).elim
  | cons l outer => simpa [hk] using hhead

/-- The innermost level has a named flag if and only if some level was opened for it. -/
theorem Nested.current_contains (h : Nested levels) {g : Style} (hg : g.IsNamed) :
    (current levels).contains g = true ↔ ∃ l ∈ levels, l.flag = g := by
  induction h with
  | root =>
    have hempty : Style.empty ≠ g := by
      rintro rfl
      simpa [Style.empty_contains hg] using (hg.contains_iff hg).mpr rfl
    simp [current, Level.root, Style.empty_contains hg, hempty]
  | @deeper l levels index flag outer hindex hflag hnew ih =>
    have hflagIff : flag.contains g = true ↔ flag = g := by
      rcases hflag with hnamed | hrest
      · exact hnamed.contains_iff hg
      · refine ⟨fun hc => by simp [hrest g hg] at hc, ?_⟩
        rintro rfl
        exact (hg.contains_iff hg).mpr rfl
    have ih : l.styles.contains g = true ↔ ∃ m ∈ l :: levels, m.flag = g := ih
    simp only [current, List.head?_cons, Option.map_some, Option.getD_some,
      Style.contains_union hg, Bool.or_eq_true, ih, hflagIff, List.exists_mem_cons_iff]
    exact or_comm

/-- No named flag is set twice. -/
theorem Nested.nodup_named (h : Nested levels) :
    ((levels.map flag).filter fun f => decide f.IsNamed).Nodup := by
  induction h with
  | root => decide
  | @deeper l levels index flag outer hindex hflag hnew ih =>
    rw [List.map_cons]
    by_cases hnamed : flag.IsNamed
    · rw [List.filter_cons_of_pos (by simpa using hnamed)]
      refine List.nodup_cons.mpr ⟨fun hmem => ?_, ih⟩
      obtain ⟨m, hm, hmflag⟩ := List.mem_map.mp (List.mem_filter.mp hmem).1
      have hhas := (outer.current_contains hnamed).mpr ⟨m, hm, hmflag⟩
      have hlacks := hnew hnamed
      simp only [current, List.head?_cons, Option.map_some, Option.getD_some] at hhas
      rw [hlacks] at hhas
      simp at hhas
    · rwa [List.filter_cons_of_neg (by simpa using hnamed)]

theorem Nested.openAll (h : Nested levels) {count : Nat} (hcount : ∀ l ∈ levels, l.index < count)
    {fs : List Style} (hnodup : fs.Nodup) (hfs : ∀ f ∈ fs, f.IsFlag)
    (hnew : ∀ f ∈ fs, f.IsNamed → (current levels).contains f = false) :
    Nested (openAll levels count fs) ∧ ∀ l ∈ Level.openAll levels count fs, l.index < count + fs.length := by
  induction fs generalizing levels count with
  | nil => exact ⟨h, hcount⟩
  | cons f fs ih =>
    obtain ⟨hf, hnodup⟩ := List.nodup_cons.mp hnodup
    match levels, h.ne_nil with
    | l :: outer, _ =>
      have hdeeper := h.deeper count f hcount (hfs f List.mem_cons_self) (hnew f List.mem_cons_self)
      have hlt : ∀ m ∈ (⟨count, f, l.styles.union f⟩ : Level) :: l :: outer, m.index < count + 1 := by
        intro m hm
        rcases List.mem_cons.mp hm with rfl | hm
        · exact Nat.lt_succ_self count
        · exact Nat.lt_succ_of_lt (hcount m hm)
      have hlacks : ∀ g ∈ fs, g.IsNamed → (l.styles.union f).contains g = false := by
        intro g hg hnamed
        have hl : l.styles.contains g = false := hnew g (List.mem_cons_of_mem f hg) hnamed
        rw [Style.contains_union hnamed, hl, Bool.false_or]
        rcases hfs f List.mem_cons_self with hfnamed | hrest
        · have hne : f ≠ g := fun heq => hf (heq ▸ hg)
          exact Bool.eq_false_iff.mpr fun hc => hne ((hfnamed.contains_iff hnamed).mp hc)
        · exact hrest g hnamed
      have := ih hdeeper hlt hnodup (fun g hg => hfs g (List.mem_cons_of_mem f hg)) hlacks
      rwa [Nat.add_right_comm, Nat.add_assoc] at this

theorem Nested.around (h : Nested levels) {count : Nat} (hcount : ∀ l ∈ levels, l.index < count)
    (styles : Style) :
    Nested (around styles levels count) ∧
      ∀ l ∈ Level.around styles levels count,
        l.index < count + (lacking styles (Level.keepFor styles levels)).length := by
  refine (h.keepFor styles).openAll (fun l hl => hcount l ((keepFor_sublist styles levels).mem hl))
    (Style.nodup_flags _) (fun f hf => (Style.IsFlag.of_mem_flags hf).1) fun f hf hnamed => ?_
  have hdiff := (Style.IsFlag.of_mem_flags hf).2 hnamed
  rw [Style.contains_difference hnamed] at hdiff
  simpa using (Bool.and_eq_true_iff.mp hdiff).2

end Level

end WordTex
