/-! # White space: the Unicode property, trimming, and the words of a text -/
namespace WordTex

/-- The characters with the Unicode property White_Space. -/
def isBlank (c : Char) : Bool :=
  let n := c.toNat
  (0x9 ≤ n && n ≤ 0xD) || n == 0x20 || n == 0x85 || n == 0xA0 || n == 0x1680 ||
    (0x2000 ≤ n && n ≤ 0x200A) || n == 0x2028 || n == 0x2029 || n == 0x202F ||
    n == 0x205F || n == 0x3000

/-- A text is blank when it has no character but white space. -/
def IsBlankText (s : List Char) : Prop := s.all isBlank = true

instance (s : List Char) : Decidable (IsBlankText s) := inferInstanceAs (Decidable (_ = true))

def trimLeft (s : List Char) : List Char := s.dropWhile isBlank

def trimRight (s : List Char) : List Char := (s.reverse.dropWhile isBlank).reverse

def trim (s : List Char) : List Char := trimRight (trimLeft s)

/-- A text cut into its leading white space, its core, and its trailing white space. -/
structure Edges where
  leading : List Char
  core : List Char
  trailing : List Char
deriving DecidableEq, Repr

/-- A blank text is all leading white space. -/
def edges (s : List Char) : Edges where
  leading := s.takeWhile isBlank
  core := trim s
  trailing := ((trimLeft s).reverse.takeWhile isBlank).reverse

section

variable {α : Type} {p : α → Bool} {s : List α} {a : α}

theorem length_dropWhile_le (p : α → Bool) (s : List α) : (s.dropWhile p).length ≤ s.length :=
  (List.dropWhile_sublist p).length_le

/-- What is not dropped begins with an item that lacks the property. -/
theorem of_mem_head?_dropWhile (h : a ∈ (s.dropWhile p).head?) : p a = false := by
  have hhead := List.head?_dropWhile_not p s
  rw [Option.mem_def.mp h] at hhead
  simpa using hhead

end

/-- White space is dropped up to a word. -/
theorem dropWhile_isBlank_append {blank p : List Char} (hblank : IsBlankText blank) (hp : p ≠ [])
    (h : ∀ c ∈ p, isBlank c = false) (rest : List Char) :
    (blank ++ (p ++ rest)).dropWhile isBlank = p ++ rest := by
  obtain ⟨c, cs, rfl⟩ := List.exists_cons_of_ne_nil hp
  rw [List.dropWhile_append_of_pos (List.all_eq_true.mp hblank), List.cons_append,
    List.dropWhile_cons_of_neg (by simp [h c List.mem_cons_self])]

/-- The maximal runs of characters that are not white space, in order. -/
def words (s : List Char) : List (List Char) :=
  match _h : trimLeft s with
  | [] => []
  | c :: r => (c :: r.takeWhile (!isBlank ·)) :: words (r.dropWhile (!isBlank ·))
termination_by s.length
decreasing_by
  have h₁ := length_dropWhile_le isBlank s
  have h₂ := length_dropWhile_le (!isBlank ·) r
  rw [trimLeft] at _h
  simp only [_h, List.length_cons] at h₁
  omega

namespace String

/-- White space dropped from the left of a string. -/
def trimLeft (s : String) : String := .ofList (WordTex.trimLeft s.toList)

def trim (s : String) : String := .ofList (WordTex.trim s.toList)

end String

end WordTex
