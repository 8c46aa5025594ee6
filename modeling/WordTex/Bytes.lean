/-! # Numbers and slices in byte arrays -/
namespace WordTex

/-- A number of so many bytes at an offset, the lowest byte first. -/
def littleEndian? (bytes : ByteArray) : Nat → Nat → Option Nat
  | 0, _ => some 0
  | width + 1, offset => do
    let low ← bytes[offset]?
    let high ← littleEndian? bytes width (offset + 1)
    return low.toNat + 256 * high

/-- So many bytes from an offset, all of which must be there. -/
def slice? (bytes : ByteArray) (offset size : Nat) : Option ByteArray :=
  if offset + size ≤ bytes.size then some (bytes.extract offset (offset + size)) else none

/-- The result at the highest position, from a bound down, that has one. -/
def searchDown {α : Type} (f : Nat → Option α) : Nat → Option α
  | 0 => f 0
  | n + 1 =>
    match f (n + 1) with
    | some a => some a
    | none => searchDown f n

/-- The first of so many positions, from an offset up, that passes a test. -/
def searchUp? (test : Nat → Bool) : Nat → Nat → Option Nat
  | 0, _ => none
  | count + 1, offset => if test offset then some offset else searchUp? test count (offset + 1)

end WordTex
