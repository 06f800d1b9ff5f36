import ApiSurface.Decimal
import ApiSurface.Text.Scan

namespace ApiSurface.Json

open Text Text.Scan

def sign : Scan := one fun c => c == '+' || c == '-'

/-- An integer without sign; nothing follows a leading zero. -/
def integer : Scan := char '0' <|> run Char.isDigit

def fraction : Scan := char '.' ++ run Char.isDigit

def exponent : Scan := one Decimal.isExponentMark ++ sign.optional ++ run Char.isDigit

def number : Scan := (char '-').optional ++ integer ++ fraction.optional ++ exponent.optional

/-- The value of a literal that is a plain whole number below 2^64. -/
def wholeNumber? (literal : List Char) : Option Nat :=
  if literal.all Char.isDigit ∧ numberIn 10 literal < Nat.pow 2 64 then some (numberIn 10 literal)
  else none

/-- The number that digits write as they go on from `n`, up to the first one with which it would not
stay below 2^64, and the digits from there on. -/
def takeDigits (n : Nat) : List Char → Nat × List Char
  | [] => (n, [])
  | c :: rest =>
    let next := 10 * n + digitValue c
    if next < Nat.pow 2 64 then takeDigits next rest else (n, c :: rest)

/-- Whether a literal is in range as it is read. A digit before the point that is not kept still
counts in the power of ten; one after the point that is not kept does not count at all. -/
def isFiniteNumber (literal : List Char) : Bool :=
  let d := Decimal.ofLiteral literal
  let (n, surplus) := takeDigits 0 d.whole
  let (n, unread) := takeDigits n d.fraction
  let places := d.fraction.length - unread.length
  Decimal.isFiniteProduct n (d.exponent + surplus.length - places)

end ApiSurface.Json
