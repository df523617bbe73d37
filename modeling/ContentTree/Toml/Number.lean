import ContentTree.Toml.Characters

/-!
Numbers, dates and times. Integers fit 64 bits with sign. A floating-point number must not exceed
the largest one of double precision by so much that it would be rounded to positive infinity. Only
as many digits are turned into numbers as can matter for that.
-/

namespace ContentTree.Toml

/-- Digits after the first. An underscore stands between two of them. -/
def moreDigits (base : Nat) : Reader (List Char)
  | [] => some ([], [])
  | '_' :: cs =>
    match cs with
    | [] => none
    | c :: cs =>
      if isDigitOf base c then do
        let (ds, cs) ← moreDigits base cs
        return (c :: ds, cs)
      else none
  | c :: cs =>
    if isDigitOf base c then do
      let (ds, cs) ← moreDigits base cs
      return (c :: ds, cs)
    else some ([], c :: cs)

/-- The digits of a number, without the underscores. -/
def digits (base : Nat) : Reader (List Char)
  | [] => none
  | c :: cs =>
    if isDigitOf base c then do
      let (ds, cs) ← moreDigits base cs
      return (c :: ds, cs)
    else none

/-- Whether a number has a minus sign. -/
def sign : List Char → Bool × List Char
  | '+' :: cs => (false, cs)
  | '-' :: cs => (true, cs)
  | cs => (false, cs)

/-- Digits of which the first is not zero, or zero alone. -/
def wholeDigits : Reader (List Char)
  | '0' :: cs => some (['0'], cs)
  | cs => digits 10 cs

def inRange (i : Int) : Bool := Int64.minValue.toInt ≤ i ∧ i ≤ Int64.maxValue.toInt

/-- The integer that digits and a sign spell, if it fits 64 bits. With more than 64 digits from the
first that is not zero on, it does not in any base. -/
def fitting? (base : Nat) (negative : Bool) (ds : List Char) : Option Int :=
  let ds := ds.dropWhile (· = '0')
  if 64 < ds.length then none
  else
    let n : Int := ofDigits base ds
    let i := if negative then -n else n
    if inRange i then some i else none

/-- An integer in a base that a letter after a zero announces. -/
def based (letter : Char) (base : Nat) (cs : List Char) : Option (Int × List Char) := do
  let cs ← expectWord ['0', letter] cs
  let (ds, cs) ← digits base cs
  return (← fitting? base false ds, cs)

def decimal (cs : List Char) : Option (Int × List Char) := do
  let (negative, cs) := sign cs
  let (ds, cs) ← wholeDigits cs
  return (← fitting? 10 negative ds, cs)

def integer (cs : List Char) : Option (Int × List Char) :=
  match cs with
  | '0' :: 'x' :: _ => based 'x' 16 cs
  | '0' :: 'o' :: _ => based 'o' 8 cs
  | '0' :: 'b' :: _ => based 'b' 2 cs
  | _ => decimal cs

/-- Numbers from here on are rounded to infinity in double precision. -/
def floatBound : Nat := Nat.pow 2 1024 - Nat.pow 2 970

/-- Digits of the bound. -/
def boundDigits : Nat := 309

/-- Whether a number reaches the bound. Its decimal point stands after `point` of the digits; the
bound is whole, so digits after those of its length make no difference. -/
def overflows (ds : List Char) (point : Int) : Bool :=
  let significant := ds.dropWhile (· = '0')
  let point := point - (ds.length - significant.length : Nat)
  if significant.isEmpty then false
  else if point = boundDigits then
    let first := significant.take boundDigits
    floatBound ≤ ofDigits 10 first * Nat.pow 10 (boundDigits - first.length)
  else boundDigits < point

/-- The exponent that digits spell. Once it has reached 65536, further digits do not count. -/
def exponentOf (ds : List Char) : Nat :=
  ds.foldl (fun n d => if n < 65536 then n * 10 + (hexValue? d).getD 0 else n) 0

/-- The exponent of a floating-point number. -/
def exponent? : List Char → Option (Int × List Char)
  | [] => none
  | c :: cs =>
    if c = 'e' ∨ c = 'E' then do
      let (negative, cs) := sign cs
      let (ds, cs) ← digits 10 cs
      let n : Int := exponentOf ds
      return (if negative then -n else n, cs)
    else none

/-- What follows a floating-point number with a fraction, an exponent or both. -/
def finite (cs : List Char) : Option (List Char) := do
  let (negative, cs) := sign cs
  let (whole, cs) ← wholeDigits cs
  let (fraction, cs) ← match cs with
    | '.' :: cs => digits 10 cs
    | cs => if (exponent? cs).isSome then some ([], cs) else none
  let (e, cs) := (exponent? cs).getD (0, cs)
  if ¬ negative ∧ overflows (whole ++ fraction) (whole.length + e) then none
  else return cs

/-- What follows a floating-point number. -/
def float (cs : List Char) : Option (List Char) :=
  finite cs <|>
    expectWord ['i', 'n', 'f'] (sign cs).2 <|> expectWord ['n', 'a', 'n'] (sign cs).2

/-- A number of exactly `n` digits from `low` to `high`. -/
def fixed (n low high : Nat) (cs : List Char) : Option (Nat × List Char) :=
  let ds := cs.take n
  let value := ofDigits 10 ds
  if ds.length = n ∧ ds.all (isDigitOf 10) ∧ low ≤ value ∧ value ≤ high then
    some (value, cs.drop n)
  else none

def isLeap (year : Nat) : Bool := year % 4 = 0 ∧ (year % 100 ≠ 0 ∨ year % 400 = 0)

def daysIn (year month : Nat) : Nat :=
  if month = 2 then if isLeap year then 29 else 28
  else if month = 4 ∨ month = 6 ∨ month = 9 ∨ month = 11 then 30
  else 31

/-- What follows a date. -/
def date (cs : List Char) : Option (List Char) := do
  let (year, cs) ← fixed 4 0 9999 cs
  let (month, cs) ← fixed 2 1 12 (← expect '-' cs)
  let (_, cs) ← fixed 2 1 (daysIn year month) (← expect '-' cs)
  return cs

/-- What follows a time of day. -/
def time (cs : List Char) : Option (List Char) := do
  let (_, cs) ← fixed 2 0 23 cs
  let (_, cs) ← fixed 2 0 59 (← expect ':' cs)
  let (_, cs) ← fixed 2 0 60 (← expect ':' cs)
  match cs with
  | '.' :: c :: rest => return if c.isDigit then rest.dropWhile Char.isDigit else cs
  | _ => return cs

/-- What follows an offset from universal time. -/
def offset : List Char → Option (List Char)
  | [] => none
  | c :: cs =>
    if c = 'Z' ∨ c = 'z' then some cs
    else if c = '+' ∨ c = '-' then do
      let (_, cs) ← fixed 2 0 23 cs
      let (_, cs) ← fixed 2 0 59 (← expect ':' cs)
      return cs
    else none

/-- What follows a time after a date, with an offset or without. -/
def timeOfDate : List Char → Option (List Char)
  | [] => none
  | c :: cs =>
    if c = 'T' ∨ c = 't' ∨ c = ' ' then do
      let cs ← time cs
      return (offset cs).getD cs
    else none

/-- What follows a date, a time or both. -/
def datetime (cs : List Char) : Option (List Char) :=
  match date cs with
  | some rest => some ((timeOfDate rest).getD rest)
  | none => time cs

end ContentTree.Toml
