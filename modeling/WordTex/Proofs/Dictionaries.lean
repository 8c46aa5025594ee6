import Mathlib.Data.List.Induction
import Mathlib.Data.String.Basic
import WordTex.Dictionary

/-! # What dictionaries answer

A dictionary that is made entry by entry answers for each key with the entry that came last, and it has
its keys in order. -/
namespace WordTex.Dictionary

variable {α : Type} {k k' : String} {v : α} {d : Dictionary α}

theorem mem_of_get? (h : get? k d = some v) : (k, v) ∈ d := by
  induction d with
  | nil => simp [get?] at h
  | cons p rest ih =>
    obtain ⟨k', v'⟩ := p
    rw [get?] at h
    split at h
    · rename_i hk
      obtain rfl := Option.some.inj h
      exact hk ▸ List.mem_cons_self
    · exact List.mem_cons_of_mem _ (ih h)

theorem mem_keys_iff : k ∈ keys d ↔ ∃ v, get? k d = some v := by
  induction d with
  | nil => simp [keys, get?]
  | cons p rest ih =>
    obtain ⟨k', v⟩ := p
    by_cases hk : k = k'
    · simp [keys, get?, hk]
    · rw [get?, if_neg hk, ← ih]
      simp [keys, hk]

/-- The entries are in the order of their keys, and no key occurs twice. -/
def IsSorted (d : Dictionary α) : Prop := d.keys.Pairwise (· < ·)

instance (d : Dictionary α) : Decidable d.IsSorted :=
  inferInstanceAs (Decidable (d.keys.Pairwise (· < ·)))

theorem get?_insert (k k' : String) (v : α) (d : Dictionary α) :
    get? k' (insert k v d) = if k' = k then some v else get? k' d := by
  induction d with
  | nil => rfl
  | cons e d ih =>
    obtain ⟨k₀, v₀⟩ := e
    rw [insert]
    split
    case isTrue hk =>
      subst hk
      simp only [get?]
      split <;> rfl
    case isFalse hk =>
      split
      · rfl
      · simp only [get?, ih]
        split
        case isTrue hk₀ => rw [if_neg fun hk' => hk (hk'.symm.trans hk₀)]
        case isFalse => rfl

theorem mem_insert {p : String × α} (h : p ∈ insert k v d) : p = (k, v) ∨ p ∈ d := by
  induction d with
  | nil => exact Or.inl (List.mem_singleton.mp h)
  | cons q rest ih =>
    obtain ⟨k', v'⟩ := q
    rw [insert] at h
    split at h
    · exact (List.mem_cons.mp h).imp_right (List.mem_cons_of_mem _)
    · split at h
      · exact List.mem_cons.mp h
      · rcases List.mem_cons.mp h with rfl | h
        · exact Or.inr List.mem_cons_self
        · exact (ih h).imp_right (List.mem_cons_of_mem _)

theorem mem_keys_insert : k' ∈ keys (insert k v d) ↔ k' = k ∨ k' ∈ keys d := by
  rw [mem_keys_iff, mem_keys_iff, get?_insert]
  by_cases hk : k' = k <;> simp [hk]

/-- An entry with a greater key than all others is the last one. -/
theorem insert_of_forall_lt (h : ∀ k' ∈ d.keys, k' < k) : insert k v d = d ++ [(k, v)] := by
  induction d with
  | nil => rfl
  | cons e d ih =>
    obtain ⟨k', v'⟩ := e
    have hk : k' < k := h k' List.mem_cons_self
    have hne : k ≠ k' := fun he => String.lt_irrefl k (he ▸ hk)
    rw [insert, if_neg hne, if_neg (String.lt_asymm hk),
      ih fun k'' hk'' => h k'' (List.mem_cons_of_mem k' hk''), List.cons_append]

theorem IsSorted.insert (h : d.IsSorted) (k : String) (v : α) : (insert k v d).IsSorted := by
  induction d with
  | nil => exact List.pairwise_singleton _ _
  | cons e d ih =>
    obtain ⟨k', v'⟩ := e
    obtain ⟨hfirst, hrest⟩ := List.pairwise_cons.mp h
    rw [Dictionary.insert]
    split
    case isTrue hk => exact List.pairwise_cons.mpr ⟨hk ▸ hfirst, hrest⟩
    case isFalse hne =>
      split
      case isTrue hlt =>
        refine List.pairwise_cons.mpr ⟨fun k'' hk'' => ?_, h⟩
        rcases List.mem_cons.mp hk'' with rfl | hk''
        · exact hlt
        · exact String.lt_trans hlt (hfirst k'' hk'')
      case isFalse hle =>
        refine List.pairwise_cons.mpr ⟨fun k'' hk'' => ?_, ih hrest⟩
        rcases mem_keys_insert.mp hk'' with rfl | hk''
        · exact lt_of_le_of_ne (not_lt.mp hle) (Ne.symm hne)
        · exact hfirst k'' hk''

theorem ofPairs_append_singleton (pairs : List (String × α)) (p : String × α) :
    ofPairs (pairs ++ [p]) = insert p.1 p.2 (ofPairs pairs) := by
  rw [ofPairs, List.foldl_append]
  rfl

theorem mem_ofPairs {pairs : List (String × α)} {p : String × α} (h : p ∈ ofPairs pairs) :
    p ∈ pairs := by
  induction pairs using List.reverseRecOn with
  | nil => exact h
  | append_singleton pairs q ih =>
    rw [ofPairs_append_singleton] at h
    rcases mem_insert h with rfl | h
    · exact List.mem_append_right pairs List.mem_cons_self
    · exact List.mem_append_left [q] (ih h)

/-- Of several pairs with one key the last counts. -/
theorem get?_ofPairs (pairs : List (String × α)) (k : String) :
    get? k (ofPairs pairs) = (pairs.reverse.find? (·.1 == k)).map Prod.snd := by
  induction pairs using List.reverseRecOn with
  | nil => rfl
  | append_singleton pairs q ih =>
    rw [ofPairs_append_singleton, get?_insert, List.reverse_append, List.reverse_singleton,
      List.singleton_append, ih]
    by_cases hk : k = q.1
    · rw [if_pos hk, List.find?_cons_of_pos (by simp [hk])]
      rfl
    · rw [if_neg hk, List.find?_cons_of_neg (by simp [Ne.symm hk])]

theorem mem_keys_ofPairs {pairs : List (String × α)} :
    k ∈ keys (ofPairs pairs) ↔ ∃ p ∈ pairs, p.1 = k := by
  rw [mem_keys_iff, get?_ofPairs, ← Option.isSome_iff_exists, Option.isSome_map, List.find?_isSome]
  simp

/-- The pairs of a dictionary are the dictionary again. -/
theorem ofPairs_of_isSorted (h : d.IsSorted) : ofPairs d = d := by
  induction d using List.reverseRecOn with
  | nil => rfl
  | append_singleton d e ih =>
    rw [IsSorted, keys, List.map_append, List.pairwise_append] at h
    rw [ofPairs_append_singleton, ih h.1, insert_of_forall_lt]
    exact fun k hk => h.2.2 k hk e.1 List.mem_cons_self

end WordTex.Dictionary
