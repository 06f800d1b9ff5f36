import ApiSurface.Text.Digit

namespace ApiSurface

open Text

/-- A decimal number without its sign: the digits before and after the point, and the power of ten
that they are multiplied with. -/
structure Decimal where
  whole : List Char
  fraction : List Char
  exponent : Int
  deriving DecidableEq, Repr

namespace Decimal

def signedNumber : List Char → Int
  | '-' :: digits => -(numberIn 10 digits : Int)
  | '+' :: digits => numberIn 10 digits
  | digits => numberIn 10 digits

def isExponentMark (c : Char) : Bool := c == 'e' || c == 'E'

/-- The number that a literal with point and exponent writes, each of which may be missing. -/
def ofLiteral (literal : List Char) : Decimal :=
  let significand := literal.takeWhile (!isExponentMark ·)
  let exponent := (literal.dropWhile (!isExponentMark ·)).drop 1
  ⟨(significand.takeWhile (· != '.')).filter Char.isDigit,
    (significand.dropWhile (· != '.')).drop 1, signedNumber exponent⟩

/-- The least number out of range: half a step above the largest number of 53 bits below 2^1024. -/
def bound : Nat := Nat.pow 2 1024 - Nat.pow 2 970

/-- Whether the number is in range. Its order of magnitude tells unless it is near the bound. -/
def isFinite (d : Decimal) : Bool :=
  let n := numberIn 10 (d.whole ++ d.fraction)
  let exponent := d.exponent - d.fraction.length
  let magnitude := (Nat.toDigits 10 n).length + exponent
  if n = 0 ∨ magnitude < 300 then true
  else if 310 < magnitude then false
  else n * Nat.pow 10 exponent.toNat < bound * Nat.pow 10 (-exponent).toNat

/-- The nearest multiple of `unit`, of two equally near ones the even multiple. -/
def roundTo (unit n : Nat) : Nat :=
  let below := n / unit
  let excess := 2 * (n % unit)
  if unit < excess ∨ (excess = unit ∧ below % 2 = 1) then (below + 1) * unit else below * unit

def round53 (n : Nat) : Nat := roundTo (Nat.pow 2 (n.log2 - 52)) n

/-- Whether `n * 10 ^ exponent` is in range when `n` and the power of ten are rounded before they
are multiplied. A power out of range by itself makes the product so, unless `n` is zero. -/
def isFiniteProduct (n : Nat) (exponent : Int) : Bool :=
  n == 0 || exponent < 0 ||
    (exponent ≤ 308 && round53 n * round53 (Nat.pow 10 exponent.toNat) < bound)

end Decimal

end ApiSurface
