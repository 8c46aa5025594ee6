import Mathlib.Data.List.Lex
import Mathlib.Data.List.Perm.Basic
import Mathlib.Order.Lattice

/-! # Values in the order of their places

A place in a tree is the list of child numbers on the way to it, and places are ordered as words are: a
place comes before those below it, and what is below a child before the next child. What is at the places
can be listed in one way only, and a search through this list finds the value at the first place that
has one of its kind. -/
namespace WordTex

/-- The values are those at all keys that have one, each key once, in the order of the keys. -/
def InOrder {κ α : Type} [LT κ] (at? : κ → Option α) (values : List α) : Prop :=
  ∃ keys : List κ, keys.Pairwise (· < ·) ∧ (∀ k, k ∈ keys ↔ (at? k).isSome = true) ∧
    keys.map at? = values.map some

/-- A key of a sorted list that is below another one stands before it. -/
theorem mem_of_pairwise_lt {κ : Type} [LinearOrder κ] {before after : List κ} {j k : κ}
    (hsorted : (before ++ k :: after).Pairwise (· < ·)) (hj : j ∈ before ++ k :: after) (hlt : j < k) :
    j ∈ before := by
  rcases List.mem_append.mp hj with hj | hj
  · exact hj
  · rcases List.mem_cons.mp hj with rfl | hj
    · exact (lt_irrefl j hlt).elim
    · have hk := List.pairwise_cons.mp (List.pairwise_append.mp hsorted).2.1
      exact (lt_asymm hlt (hk.1 j hj)).elim

namespace InOrder

section Keys

variable {κ α β : Type} [LinearOrder κ] {at? : κ → Option α} {values : List α} {v : α}

/-- There is only one list of all values in order. -/
theorem unique {ws : List α} (hv : InOrder at? values) (hw : InOrder at? ws) : values = ws := by
  obtain ⟨ks, hks, hmem, hvs⟩ := hv
  obtain ⟨ls, hls, hmem', hws⟩ := hw
  have hperm : ks.Perm ls := (List.perm_ext_iff_of_nodup (hks.imp ne_of_lt) (hls.imp ne_of_lt)).mpr
    fun k => (hmem k).trans (hmem' k).symm
  obtain rfl : ks = ls :=
    hperm.eq_of_pairwise (fun a b _ _ hab hba => (lt_asymm hab hba).elim) hks hls
  exact List.map_injective_iff.mpr (fun _ _ => Option.some.inj) (hvs.symm.trans hws)

theorem mem_iff (h : InOrder at? values) : v ∈ values ↔ ∃ k, at? k = some v := by
  obtain ⟨keys, -, hmem, hvalues⟩ := h
  have hsome : v ∈ values ↔ some v ∈ keys.map at? := by simp [hvalues]
  rw [hsome, List.mem_map]
  refine ⟨fun ⟨k, _, hk⟩ => ⟨k, hk⟩, fun ⟨k, hk⟩ => ⟨k, (hmem k).mpr ?_, hk⟩⟩
  rw [hk, Option.isSome_some]

/-- What the values stand for, if they stand for something, is in the same order. -/
theorem filterMap (h : InOrder at? values) (f : α → Option β) :
    InOrder (fun k => (at? k).bind f) (values.filterMap f) := by
  obtain ⟨keys, hsorted, hmem, hvalues⟩ := h
  have hall : keys.filterMap at? = values := by
    simpa [List.filterMap_map] using congrArg (List.filterMap id) hvalues
  refine ⟨keys.filter fun k => ((at? k).bind f).isSome, hsorted.filter _, fun k => ?_, ?_⟩
  · rw [List.mem_filter, hmem]
    exact ⟨And.right, fun hk => ⟨Option.isSome_of_isSome_bind hk, hk⟩⟩
  · rw [← hall, List.filterMap_filterMap, List.map_filterMap_some_eq_filter_map_isSome, List.filter_map]
    rfl

theorem exists_first_of_find? (h : InOrder at? values) {test : α → Bool}
    (hv : values.find? test = some v) :
    ∃ k, at? k = some v ∧ test v = true ∧ ∀ j < k, ∀ w, at? j = some w → test w = false := by
  obtain ⟨keys, hsorted, hmem, hvalues⟩ := h
  obtain ⟨htest, before, after, rfl, hbefore⟩ := List.find?_eq_some_iff_append.mp hv
  rw [List.map_append, List.map_cons, List.map_eq_append_iff] at hvalues
  obtain ⟨js, rest, rfl, hjs, hrest⟩ := hvalues
  obtain ⟨k, ls, rfl, hk, -⟩ := List.map_eq_cons_iff.mp hrest
  refine ⟨k, hk, htest, fun j hlt w hw => ?_⟩
  have hj : j ∈ js := mem_of_pairwise_lt hsorted ((hmem j).mpr (by rw [hw, Option.isSome_some])) hlt
  have hwsome : some w ∈ before.map some := hjs ▸ List.mem_map.mpr ⟨j, hj, hw⟩
  simpa using hbefore w (by simpa using hwsome)

/-- The first value that passes a test is the one at the first key whose value does. -/
theorem find?_eq_some_iff (h : InOrder at? values) {test : α → Bool} :
    values.find? test = some v ↔
      ∃ k, at? k = some v ∧ test v = true ∧ ∀ j < k, ∀ w, at? j = some w → test w = false := by
  refine ⟨h.exists_first_of_find?, fun ⟨k, hk, htest, hbefore⟩ => ?_⟩
  obtain ⟨w, hw⟩ : ∃ w, values.find? test = some w :=
    Option.isSome_iff_exists.mp (List.find?_isSome.mpr ⟨v, h.mem_iff.mpr ⟨k, hk⟩, htest⟩)
  obtain ⟨l, hl, htest', hbefore'⟩ := h.exists_first_of_find? hw
  -- neither of the two keys can come before the other
  rcases lt_trichotomy k l with hkl | rfl | hlk
  · simp [hbefore' k hkl v hk] at htest
  · rw [hw, ← hl, hk]
  · simp [hbefore l hlk w hl] at htest'

theorem find?_eq_none_iff (h : InOrder at? values) {test : α → Bool} :
    values.find? test = none ↔ ∀ k w, at? k = some w → test w = false := by
  simp only [List.find?_eq_none, h.mem_iff, Bool.not_eq_true]
  exact ⟨fun hnone k w hk => hnone w ⟨k, hk⟩, fun hnone w ⟨k, hk⟩ => hnone k w hk⟩

theorem nil (h : ∀ k, at? k = none) : InOrder at? [] :=
  ⟨[], List.Pairwise.nil, fun k => by simp [h k], rfl⟩

end Keys

end InOrder

/-- The place in a list that has one more tree in front. -/
def nextPlace : List Nat → List Nat
  | [] => []
  | i :: p => (i + 1) :: p

@[simp] theorem nextPlace_eq_nil_iff {q : List Nat} : nextPlace q = [] ↔ q = [] := by
  cases q <;> simp [nextPlace]

@[simp] theorem nextPlace_ne_zero_cons (q p : List Nat) : nextPlace q ≠ 0 :: p := by
  cases q <;> simp [nextPlace]

@[simp] theorem nextPlace_eq_succ_cons_iff {q p : List Nat} {i : Nat} :
    nextPlace q = (i + 1) :: p ↔ q = i :: p := by
  cases q <;> simp [nextPlace]

theorem nextPlace_lt {p q : List Nat} (h : p < q) : nextPlace p < nextPlace q := by
  cases q with
  | nil => exact (List.not_lt_nil p h).elim
  | cons j q =>
    cases p with
    | nil => exact List.nil_lt_cons (j + 1) q
    | cons i p =>
      rw [List.cons_lt_cons_iff] at h
      exact List.cons_lt_cons_iff.mpr (h.imp Nat.succ_lt_succ (And.imp_left (congrArg Nat.succ)))

namespace InOrder

variable {α : Type} {at? below? first? rest? : List Nat → Option α} {a : α} {below first rest : List α}

/-- A node stands before what is below it. -/
theorem node (hbelow : InOrder below? below) (hnil : below? [] = none) (hself : at? [] = some a)
    (hinside : ∀ i p, at? (i :: p) = below? (i :: p)) : InOrder at? (a :: below) := by
  obtain ⟨places, hsorted, hmem, hvalues⟩ := hbelow
  have hne : ∀ p ∈ places, p ≠ [] := by
    rintro p hp rfl
    simpa [hnil] using (hmem []).mp hp
  have hsame : ∀ p ≠ [], at? p = below? p := by
    rintro p hp
    obtain ⟨i, p, rfl⟩ := List.exists_cons_of_ne_nil hp
    exact hinside i p
  refine ⟨[] :: places, List.pairwise_cons.mpr ⟨fun p hp => ?_, hsorted⟩, fun p => ?_, ?_⟩
  · obtain ⟨i, p, rfl⟩ := List.exists_cons_of_ne_nil (hne p hp)
    exact List.nil_lt_cons i p
  · by_cases hp : p = []
    · simp [hp, hself]
    · rw [hsame p hp, ← hmem, List.mem_cons, or_iff_right hp]
  · rw [List.map_cons, List.map_cons, hself, ← hvalues]
    exact congrArg (List.cons (some a)) (List.map_congr_left fun p hp => hsame p (hne p hp))

/-- What is in the first tree stands before what is in the trees behind it. -/
theorem cons (hfirst : InOrder first? first) (hrest : InOrder rest? rest) (hnil : at? [] = none)
    (hnil' : rest? [] = none) (hzero : ∀ p, at? (0 :: p) = first? p)
    (hsucc : ∀ i p, at? ((i + 1) :: p) = rest? (i :: p)) : InOrder at? (first ++ rest) := by
  obtain ⟨ps, hps, hmem, hfirst⟩ := hfirst
  obtain ⟨qs, hqs, hmem', hrest⟩ := hrest
  have hne : ∀ q ∈ qs, q ≠ [] := by
    rintro q hq rfl
    simpa [hnil'] using (hmem' []).mp hq
  refine ⟨ps.map (List.cons 0) ++ qs.map nextPlace, ?_, fun p => ?_, ?_⟩
  · refine List.pairwise_append.mpr ⟨List.pairwise_map.mpr (hps.imp fun h => ?_),
      List.pairwise_map.mpr (hqs.imp nextPlace_lt), fun p hp q hq => ?_⟩
    · exact List.cons_lt_cons_iff.mpr (.inr ⟨rfl, h⟩)
    · obtain ⟨p, -, rfl⟩ := List.mem_map.mp hp
      obtain ⟨q, hmemq, rfl⟩ := List.mem_map.mp hq
      obtain ⟨i, q, rfl⟩ := List.exists_cons_of_ne_nil (hne q hmemq)
      exact List.cons_lt_cons_iff.mpr (.inl (Nat.zero_lt_succ i))
  · rw [List.mem_append, List.mem_map, List.mem_map]
    match p with
    | [] =>
      have hnot : [] ∉ qs := fun h => hne [] h rfl
      simp [hnil, hnot]
    | 0 :: p => simp [hzero, hmem]
    | (i + 1) :: p => simp [hsucc, hmem']
  · have hnext : ∀ q ∈ qs, at? (nextPlace q) = rest? q := by
      intro q hq
      obtain ⟨i, q, rfl⟩ := List.exists_cons_of_ne_nil (hne q hq)
      exact hsucc i q
    rw [List.map_append, List.map_append, List.map_map, List.map_map, ← hfirst, ← hrest]
    exact congrArg₂ (· ++ ·) (List.map_congr_left fun p _ => hzero p) (List.map_congr_left hnext)

end InOrder

end WordTex
