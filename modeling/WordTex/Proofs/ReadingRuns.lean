import WordTex.ParagraphReading
import Mathlib.Control.Monad.Basic

/-! # Runs of readers

What a reader did is found by going backwards through its program: a run of two steps is a run of
the first and then one of the second. It fails if the first fails, or the second after it. -/
namespace WordTex

section

variable {ε σ α β : Type}

/-- Reading from the first state gives this result and ends in the last state. -/
def Runs (x : ExceptT ε (StateM σ) α) (s : σ) (a : α) (s' : σ) : Prop := x.run.run s = (.ok a, s')

/-- Reading from the first state fails with this error in the last state. -/
def Fails (x : ExceptT ε (StateM σ) α) (s : σ) (e : ε) (s' : σ) : Prop :=
  x.run.run s = (.error e, s')

variable {s s' : σ}

theorem run_bind (x : ExceptT ε (StateM σ) α) (f : α → ExceptT ε (StateM σ) β) (s : σ) :
    (x >>= f).run.run s =
      match x.run.run s with
      | (.ok a, t) => (f a).run.run t
      | (.error e, t) => (.error e, t) := by
  rw [ExceptT.run_bind, StateT.run_bind]
  change (match x.run.run s with | (r, t) => _) = _
  rcases x.run.run s with ⟨r, t⟩
  cases r with
  | ok a => rfl
  | error e => rfl

theorem runs_bind {x : ExceptT ε (StateM σ) α} {f : α → ExceptT ε (StateM σ) β} {b : β} :
    Runs (x >>= f) s b s' ↔ ∃ a t, Runs x s a t ∧ Runs (f a) t b s' := by
  rw [Runs]
  rw [run_bind]
  constructor
  · intro h
    split at h
    · rename_i a t hx
      exact ⟨a, t, hx, h⟩
    · cases h
  · rintro ⟨a, t, hx, hf⟩
    rw [hx]
    exact hf

theorem fails_bind {x : ExceptT ε (StateM σ) α} {f : α → ExceptT ε (StateM σ) β} {e : ε} :
    Fails (x >>= f) s e s' ↔ Fails x s e s' ∨ ∃ a t, Runs x s a t ∧ Fails (f a) t e s' := by
  simp only [Fails, Runs]
  rw [run_bind]
  rcases x.run.run s with ⟨r, t⟩
  cases r with
  | ok a =>
    constructor
    · exact fun h => .inr ⟨a, t, rfl, h⟩
    · rintro (h | ⟨a', t', h, hf⟩)
      · cases h
      · cases h
        exact hf
  | error e' =>
    constructor
    · intro h
      cases h
      exact .inl rfl
    · rintro (h | ⟨a, t', h, -⟩)
      · cases h
        rfl
      · cases h

theorem runs_pure {a b : α} :
    Runs (pure a : ExceptT ε (StateM σ) α) s b s' ↔ b = a ∧ s' = s := by
  constructor
  · intro h
    cases h
    exact ⟨rfl, rfl⟩
  · rintro ⟨rfl, rfl⟩
    rfl

theorem runs_modifyGet {f : σ → α × σ} {a : α} :
    Runs (modifyGet f : ExceptT ε (StateM σ) α) s a s' ↔ (a, s') = f s := by
  constructor
  · intro h
    cases h
    rfl
  · intro h
    change (Except.ok (f s).1, (f s).2) = _
    rw [← h]

theorem runs_modify {f : σ → σ} {u : Unit} :
    Runs (modify f : ExceptT ε (StateM σ) Unit) s u s' ↔ s' = f s := by
  constructor
  · intro h
    cases h
    rfl
  · rintro rfl
    rfl

theorem not_runs_throw {e : ε} {a : α} :
    ¬ Runs (throw e : ExceptT ε (StateM σ) α) s a s' := by
  intro h
  cases h

theorem not_fails_pure {a : α} {e : ε} :
    ¬ Fails (pure a : ExceptT ε (StateM σ) α) s e s' := by
  intro h
  cases h

theorem not_fails_modifyGet {f : σ → α × σ} {e : ε} :
    ¬ Fails (modifyGet f : ExceptT ε (StateM σ) α) s e s' := by
  intro h
  cases h

theorem runs_mapM_nil {f : α → ExceptT ε (StateM σ) β} {bs : List β} :
    Runs ([].mapM f) s bs s' ↔ bs = [] ∧ s' = s := by
  rw [List.mapM_nil, runs_pure]

theorem runs_mapM_cons {f : α → ExceptT ε (StateM σ) β} {a : α} {as : List α} {bs : List β} :
    Runs ((a :: as).mapM f) s bs s' ↔
      ∃ b t bs', Runs (f a) s b t ∧ Runs (as.mapM f) t bs' s' ∧ bs = b :: bs' := by
  simp only [List.mapM_cons, runs_bind, runs_pure]
  constructor
  · rintro ⟨b, t, hb, bs', t', hbs, rfl, rfl⟩
    exact ⟨b, t, bs', hb, hbs, rfl⟩
  · rintro ⟨b, t, bs', hb, hbs, rfl⟩
    exact ⟨b, t, hb, bs', s', hbs, rfl, rfl⟩

theorem runs_foldlM_cons {f : β → α → ExceptT ε (StateM σ) β} {a : α} {as : List α} {b c : β} :
    Runs ((a :: as).foldlM f b) s c s' ↔
      ∃ d t, Runs (f b a) s d t ∧ Runs (as.foldlM f d) t c s' := by
  rw [List.foldlM_cons, runs_bind]

/-- What each step of a fold keeps is kept by the fold. -/
theorem Runs.foldlM {P : β → Prop} {f : β → α → ExceptT ε (StateM σ) β} {as : List α}
    (hstep : ∀ b a t c t', P b → Runs (f b a) t c t' → P c) {b c : β} (hb : P b)
    (h : Runs (as.foldlM f b) s c s') : P c := by
  induction as generalizing b s with
  | nil =>
    obtain ⟨rfl, -⟩ := runs_pure.mp h
    exact hb
  | cons a as ih =>
    obtain ⟨d, t, hd, hrest⟩ := runs_foldlM_cons.mp h
    exact ih (hstep b a s d t hb hd) hrest

end

namespace Reading

variable {α : Type} {s s' : ReadingState}

/-- A scope is left on every way out. -/
theorem run_inScope (x : Reading α) (s : ReadingState) :
    (inScope x).run.run s =
      (fun (r, t) => (r, { t with styles := t.styles.tail }))
        (x.run.run { s with styles := .empty :: s.styles }) :=
  rfl

theorem run_within (e : Element) (index : Nat) (x : Reading α) (s : ReadingState) :
    (within e index x).run.run s =
      (fun (r, t) => (r, { t with path := t.path.tail }))
        (x.run.run { s with path := step e index :: s.path }) :=
  rfl

theorem runs_inScope {x : Reading α} {a : α} : Runs (inScope x) s a s' ↔
    ∃ t, Runs x { s with styles := .empty :: s.styles } a t ∧
      s' = { t with styles := t.styles.tail } := by
  simp only [Runs]
  rw [run_inScope]
  rcases x.run.run { s with styles := .empty :: s.styles } with ⟨r, t⟩
  constructor
  · intro h
    cases h
    exact ⟨t, rfl, rfl⟩
  · rintro ⟨t', h, rfl⟩
    cases h
    rfl

theorem runs_within {e : Element} {index : Nat} {x : Reading α} {a : α} :
    Runs (within e index x) s a s' ↔
      ∃ t, Runs x { s with path := step e index :: s.path } a t ∧
        s' = { t with path := t.path.tail } := by
  simp only [Runs]
  rw [run_within]
  rcases x.run.run { s with path := step e index :: s.path } with ⟨r, t⟩
  constructor
  · intro h
    cases h
    exact ⟨t, rfl, rfl⟩
  · rintro ⟨t', h, rfl⟩
    cases h
    rfl

end Reading

end WordTex
