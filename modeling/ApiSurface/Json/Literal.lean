import ApiSurface.Text.Digit

namespace ApiSurface.Json

open Text

/-- The letters after a backslash, apart from `u`, and what they stand for. -/
def shortEscapes : List (Char × Char) :=
  [('"', '"'), ('\\', '\\'), ('/', '/'), ('b', '\x08'), ('f', '\x0c'), ('n', '\n'), ('r', '\r'),
   ('t', '\t')]

/-- The literal up to the closing quote and the text after it. -/
def scanString : List Char → Option (List Char × List Char)
  | [] => none
  | '"' :: rest => some ([], rest)
  | '\\' :: 'u' :: a :: b :: c :: d :: rest =>
    if [a, b, c, d].all isHexDigit then
      (scanString rest).map (Prod.map ('\\' :: 'u' :: a :: b :: c :: d :: ·) id)
    else none
  | '\\' :: e :: rest =>
    if (shortEscapes.lookup e).isSome then (scanString rest).map (Prod.map ('\\' :: e :: ·) id)
    else none
  | c :: rest => if c.toNat < 0x20 then none else (scanString rest).map (Prod.map (c :: ·) id)

def isHighSurrogate (n : Nat) : Bool := 0xD800 ≤ n && n ≤ 0xDBFF

def isLowSurrogate (n : Nat) : Bool := 0xDC00 ≤ n && n ≤ 0xDFFF

/-- The text that a literal writes; none if a surrogate stands without its other half. -/
def unescape : List Char → Option (List Char)
  | [] => some []
  | '\\' :: 'u' :: a :: b :: c :: d :: rest =>
    let n := numberIn 16 [a, b, c, d]
    if isHighSurrogate n then
      match rest with
      | '\\' :: 'u' :: a :: b :: c :: d :: rest =>
        let low := numberIn 16 [a, b, c, d]
        if isLowSurrogate low then
          (unescape rest).map (Char.ofNat (0x10000 + (n - 0xD800) * 0x400 + (low - 0xDC00)) :: ·)
        else none
      | _ => none
    else if isLowSurrogate n then none
    else (unescape rest).map (Char.ofNat n :: ·)
  | '\\' :: e :: rest => do
    let c ← shortEscapes.lookup e
    return c :: (← unescape rest)
  | c :: rest => (unescape rest).map (c :: ·)

def hexDigit (n : Nat) : Char := "0123456789abcdef".toList.getD n '0'

/-- A character as a literal writes it: escaped if it is a quote, a backslash or a control character. -/
def escapeChar (c : Char) : List Char :=
  if c = '"' ∨ c = '\\' then ['\\', c]
  else if c.toNat < 0x20 then
    match shortEscapes.find? fun e => e.2 = c with
    | some (letter, _) => ['\\', letter]
    | none => ['\\', 'u', '0', '0', hexDigit (c.toNat / 16), hexDigit (c.toNat % 16)]
  else [c]

def escape (s : List Char) : List Char := s.flatMap escapeChar

end ApiSurface.Json
