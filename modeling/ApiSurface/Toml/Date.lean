import ApiSurface.Text.Digit
import ApiSurface.Text.Scan

namespace ApiSurface.Toml

open Text Text.Scan

/-- A number of two digits from `least` to `most`. -/
def twoDigits (least most : Nat) : Scan :=
  (one Char.isDigit ++ one Char.isDigit).satisfying fun token =>
    least ≤ numberIn 10 token && numberIn 10 token ≤ most

def isLeapYear (year : Nat) : Bool := year % 4 == 0 && (year % 100 != 0 || year % 400 == 0)

def daysIn (year month : Nat) : Nat :=
  if month = 2 then if isLeapYear year then 29 else 28
  else if month = 4 ∨ month = 6 ∨ month = 9 ∨ month = 11 then 30
  else 31

def isDay (date : List Char) : Bool :=
  let year := numberIn 10 (date.take 4)
  let month := numberIn 10 ((date.drop 5).take 2)
  numberIn 10 (date.drop 8) ≤ daysIn year month

/-- A day: its year in four digits, month and day. -/
def date : Scan :=
  (twoDigits 0 99 ++ twoDigits 0 99 ++ char '-' ++ twoDigits 1 12 ++ char '-' ++
    twoDigits 1 31).satisfying isDay

/-- A time of day; a leap second may follow the last one of a minute. -/
def time : Scan :=
  twoDigits 0 23 ++ char ':' ++ twoDigits 0 59 ++ char ':' ++ twoDigits 0 60 ++
    (char '.' ++ run Char.isDigit).optional

def offset : Scan :=
  one (fun c => c == 'Z' || c == 'z') <|>
    one (fun c => c == '+' || c == '-') ++ twoDigits 0 23 ++ char ':' ++ twoDigits 0 59

/-- A date, a time on it if one follows, or a time alone. -/
def dateTime : Scan :=
  date ++ (one (fun c => c == 'T' || c == 't' || c == ' ') ++ time ++ offset.optional).optional <|>
    time

end ApiSurface.Toml
