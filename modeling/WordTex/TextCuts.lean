/-! # Cutting texts at marks -/
namespace WordTex

/-- The pieces of a text between the occurrences of one character; there is always one. -/
def splitOnChar (d : Char) (s : List Char) : List (List Char) :=
  s.foldr (fun c ps => if c = d then [] :: ps else ps.modifyHead (c :: ·)) [[]]

/-- The text after a word that it starts with. -/
def after? : List Char → List Char → Option (List Char)
  | [], s => some s
  | _ :: _, [] => none
  | w :: ws, c :: cs => if w = c then after? ws cs else none

theorem eq_append_of_after? {word s rest : List Char} (h : after? word s = some rest) :
    s = word ++ rest := by
  induction word generalizing s with
  | nil => simpa [after?] using h
  | cons w ws ih =>
    cases s with
    | nil => simp [after?] at h
    | cons c cs =>
      rw [after?] at h
      split at h
      · rename_i hw
        rw [hw, ih h, List.cons_append]
      · simp at h

theorem exists_of_map_fst {α β γ : Type} {f : α → β} {r : Option (α × γ)} {b : β} {rest : γ}
    (h : r.map (fun p => (f p.1, p.2)) = some (b, rest)) : ∃ a, r = some (a, rest) := by
  obtain ⟨⟨a, _⟩, hr, he⟩ := Option.map_eq_some_iff.mp h
  obtain ⟨-, rfl⟩ : f a = b ∧ _ = rest := by simpa using he
  exact ⟨a, hr⟩

/-- The text before the first occurrence of a mark and the text after it. -/
def cutAt? (mark : List Char) : List Char → Option (List Char × List Char)
  | [] => none
  | c :: cs =>
    match after? mark (c :: cs) with
    | some rest => some ([], rest)
    | none => (cutAt? mark cs).map fun r => (c :: r.1, r.2)

theorem length_of_after? {word s rest : List Char} (h : after? word s = some rest) :
    rest.length ≤ s.length := by
  rw [eq_append_of_after? h, List.length_append]
  omega

theorem length_of_cutAt? {mark s before rest : List Char}
    (h : cutAt? mark s = some (before, rest)) : rest.length ≤ s.length := by
  induction s generalizing before with
  | nil => simp [cutAt?] at h
  | cons c cs ih =>
    rw [cutAt?] at h
    split at h
    · rename_i hp
      obtain ⟨-, rfl⟩ : [] = before ∧ _ = rest := by simpa using h
      exact length_of_after? hp
    · obtain ⟨_, hr⟩ := exists_of_map_fst h
      exact Nat.le_succ_of_le (ih hr)

/-- The white space of markup formats. -/
def isAsciiSpace (c : Char) : Bool := c == ' ' || c == '\t' || c == '\n' || c == '\r'

def skipAsciiSpace (s : List Char) : List Char := s.dropWhile isAsciiSpace

section Characters

variable {p : Char → Bool} {before rest : List Char}

/-- A text is cut where the first character without a property stands. -/
theorem takeWhile_append_of_head? (hbefore : ∀ c ∈ before, p c = true)
    (hrest : ∀ c ∈ rest.head?, p c = false) : (before ++ rest).takeWhile p = before := by
  rw [List.takeWhile_append_of_pos hbefore]
  cases rest with
  | nil => simp
  | cons c rest => rw [List.takeWhile_cons_of_neg (by simp [hrest c rfl]), List.append_nil]

theorem dropWhile_append_of_head? (hbefore : ∀ c ∈ before, p c = true)
    (hrest : ∀ c ∈ rest.head?, p c = false) : (before ++ rest).dropWhile p = rest := by
  rw [List.dropWhile_append_of_pos hbefore]
  cases rest with
  | nil => rfl
  | cons c rest => rw [List.dropWhile_cons_of_neg (by simp [hrest c rfl])]

end Characters

end WordTex
