import WordTex.DigitText

/-! # The range of decimal numbers

A decimal number is taken in as a significand of 64 bits and a power of ten. It is in range if the
product of the two, in floating point with 53 bits, is below the 1024th power of two. As each step
rounds, the bound is not sharp in the number that is written. -/
namespace WordTex

structure Decimal where
  significand : Nat
  power : Int
deriving DecidableEq, Repr

namespace Decimal

/-- Digits are appended to a significand as long as it has 64 bits at most; the first digit that does
not fit and those after it are left. -/
def appendDigits (n : Nat) : List Char → Nat × List Char
  | [] => (n, [])
  | d :: ds =>
    let m := 10 * n + (digit? 10 d).getD 0
    if m < 1 <<< 64 then appendDigits m ds else (n, d :: ds)

def isExponentMark (c : Char) : Bool := c == 'e' || c == 'E'

/-- The exponent of a number literal, which is zero if none is written. -/
def exponent (literal : List Char) : Int :=
  let digits := (literal.dropWhile (!isExponentMark ·)).drop 1
  let magnitude : Int := (number? 10 (digits.filter Char.isDigit)).getD 0
  if digits.head? = some '-' then -magnitude else magnitude

/-- A number literal without its sign. Whole digits beyond the significand raise the power, and
digits of the fraction beyond it are dropped. -/
def ofLiteral (literal : List Char) : Decimal :=
  let mantissa := literal.takeWhile (!isExponentMark ·)
  let whole := (mantissa.takeWhile (· ≠ '.')).filter Char.isDigit
  let fraction := (mantissa.dropWhile (· ≠ '.')).drop 1
  let (n, wholeLeft) := appendDigits 0 whole
  let (m, fractionLeft) := appendDigits n fraction
  ⟨m, exponent literal + wholeLeft.length + fractionLeft.length - fraction.length⟩

/-- A number with its 53 leading bits, rounded to the nearest, of two to the even one. -/
def round53 (n : Nat) : Nat :=
  let unit := 1 <<< (n.log2 - 52)
  let low := n / unit
  let excess := 2 * (n % unit)
  if excess < unit ∨ excess = unit ∧ low % 2 = 0 then low * unit else (low + 1) * unit

/-- The powers of ten that are in range end at the 308th. -/
def inRange (d : Decimal) : Bool :=
  d.significand == 0 || d.power ≤ 0 ||
    d.power ≤ 308 && round53 (round53 d.significand * round53 (Nat.pow 10 d.power.toNat)) < 1 <<< 1024

end Decimal
end WordTex
