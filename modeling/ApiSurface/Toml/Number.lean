import ApiSurface.Decimal
import ApiSurface.Text.Scan

namespace ApiSurface.Toml

open Text Text.Scan

/-- The digits that follow a first one, an underscore before any of them included. -/
def moreDigits (isDigit : Char → Bool) : List Char → List Char × List Char
  | '_' :: c :: rest =>
    if isDigit c then Prod.map ('_' :: c :: ·) id (moreDigits isDigit rest)
    else ([], '_' :: c :: rest)
  | c :: rest =>
    if isDigit c then Prod.map (c :: ·) id (moreDigits isDigit rest) else ([], c :: rest)
  | [] => ([], [])

/-- Digits, with single underscores between them or not. -/
def digits (isDigit : Char → Bool) : Scan := fun s => do
  let (first, s) ← one isDigit s
  let (more, s) := moreDigits isDigit s
  return (first ++ more, s)

def ungrouped (token : List Char) : List Char := token.filter (· != '_')

def sign : Scan := one fun c => c == '+' || c == '-'

def isNegative (token : List Char) : Bool := token.head? == some '-'

/-- A decimal integer; nothing follows a leading zero. -/
def decimal : Scan := sign.optional ++ (char '0' <|> digits Char.isDigit)

/-- Whether a decimal integer lies from -2^63 to 2^63 - 1. -/
def fitsInteger (token : List Char) : Bool :=
  let n := numberIn 10 (token.filter Char.isDigit)
  if isNegative token then n ≤ Nat.pow 2 63 else n < Nat.pow 2 63

/-- A number below 2^63 in another base, which `lead` announces. -/
def basedInteger (lead : String) (base : Nat) : Scan :=
  word lead ++ (digits (isDigitIn base)).satisfying fun token =>
    numberIn base (ungrouped token) < Nat.pow 2 63

def integer : Scan :=
  basedInteger "0x" 16 <|> basedInteger "0o" 8 <|> basedInteger "0b" 2 <|>
    decimal.satisfying fitsInteger

def fraction : Scan := char '.' ++ digits Char.isDigit

def exponent : Scan := one Decimal.isExponentMark ++ sign.optional ++ digits Char.isDigit

/-- Whether a number is in range. One that is too small to be finite is taken for an infinity, but
none that is too large. -/
def fitsFloat (token : List Char) : Bool :=
  isNegative token || (Decimal.ofLiteral (ungrouped token)).isFinite

/-- A number with a point or an exponent, an infinity or no number. -/
def float : Scan :=
  (decimal ++ (exponent <|> fraction ++ exponent.optional)).satisfying fitsFloat <|>
    sign.optional ++ (word "inf" <|> word "nan")

end ApiSurface.Toml
