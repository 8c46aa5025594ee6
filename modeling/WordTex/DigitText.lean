/-! # Numbers written in a base, and their readers -/
namespace WordTex

/-- The value of a digit, letters of either case standing for ten and up, if it is below the base. -/
def digit? (base : Nat) (c : Char) : Option Nat :=
  let value :=
    if '0' ≤ c ∧ c ≤ '9' then some (c.toNat - '0'.toNat)
    else if 'a' ≤ c ∧ c ≤ 'z' then some (c.toNat - 'a'.toNat + 10)
    else if 'A' ≤ c ∧ c ≤ 'Z' then some (c.toNat - 'A'.toNat + 10)
    else none
  value.filter (· < base)

/-- A number is one digit or more, the highest first; leading zeros are allowed. -/
def number? (base : Nat) : List Char → Option Nat
  | [] => none
  | ds => ds.foldlM (fun n d => (digit? base d).map (base * n + ·)) 0

/-- A number below `bound`, which one plus sign may precede. -/
def boundedNumber? (base bound : Nat) (s : List Char) : Option Nat :=
  let digits := match s with
    | '+' :: ds => ds
    | ds => ds
  (number? base digits).filter (· < bound)

/-- Lower-case hexadecimal, without leading zeros. -/
def hexText (n : Nat) : String := .ofList (Nat.toDigits 16 n)

end WordTex
