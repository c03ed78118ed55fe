import Tiling.Numeral
import Tiling.Toml.Scan
/-!
# Scalars

Integers, floating-point numbers, and dates and times. Of the latter two only the form matters
here: a number that is too large to be finite and a day that does not exist are refused.
-/

namespace Tiling.Toml

/-- A value without parts, strings apart. -/
inductive Scalar where
  | integer (n : Int)
  | float
  | bool (b : Bool)
  /-- A date, a time of day, or both. -/
  | moment
  deriving DecidableEq, Repr

/-- Digits after the first one, in which an underscore may stand before each; the last comes
first. -/
def digitsFrom (isDigit : Char → Bool) : List Char → Scanner (List Char)
  | acc, '_' :: c :: rest =>
    if isDigit c then digitsFrom isDigit (c :: acc) rest else none
  | acc, c :: rest =>
    if isDigit c then digitsFrom isDigit (c :: acc) rest
    else if c = '_' then none
    else some (acc.reverse, c :: rest)
  | acc, [] => some (acc.reverse, [])

/-- Digits with single underscores between them. -/
def digits (isDigit : Char → Bool) : Scanner (List Char)
  | c :: rest => if isDigit c then digitsFrom isDigit [c] rest else none
  | [] => none

/-- Decimal digits that start with a zero only if there is no other one. -/
def wholeDigits : Scanner (List Char)
  | '0' :: rest => some (['0'], rest)
  | cs => digits Char.isDigit cs

/-- The number of some digits. -/
def numberOf (radix : Nat) (ds : List Char) : Nat :=
  ds.foldl (fun n c => n * radix + (Numeral.digit? radix c).getD 0) 0

/-- An integer of the 64-bit range. -/
def integer? (n : Int) : Option Scalar :=
  if -0x8000000000000000 ≤ n ∧ n < 0x8000000000000000 then some (.integer n) else none

/-- An integer in another radix, after its mark. -/
def radixInteger (radix : Nat) (cs : List Char) : Option (Scalar × List Char) := do
  let (ds, rest) ← digits (fun c => (Numeral.digit? radix c).isSome) cs
  let n ← integer? (numberOf radix ds)
  return (n, rest)

/-- A sign, which is true for a minus. -/
def sign : List Char → Bool × List Char
  | '-' :: rest => (true, rest)
  | '+' :: rest => (false, rest)
  | cs => (false, cs)

/-- The digits after a point; none without one. -/
def fraction : Scanner (List Char)
  | '.' :: rest => digits Char.isDigit rest
  | cs => some ([], cs)

/-- An exponent; none without its mark. -/
def exponent : Scanner (Option Int)
  | c :: rest =>
    if c = 'e' ∨ c = 'E' then do
      let (negative, rest) := sign rest
      let (ds, rest) ← digits Char.isDigit rest
      let n : Int := numberOf 10 ds
      return (some (if negative then -n else n), rest)
    else some (none, c :: rest)
  | [] => some (none, [])

/-- The least number that is rounded to infinity: half a unit past the largest finite one. -/
def overflowBound : Nat := Nat.pow 2 1024 - Nat.pow 2 970

/-- A decimal of so many digits is out of range whatever they are. -/
def digitLimit : Nat := 400

/-- `significand * 10 ^ exponent` is too large to be finite. -/
def overflows (ds : List Char) (exponent : Int) : Bool :=
  let ds := ds.dropWhile (· == '0')
  let size := (ds.length : Int) + exponent
  if ds.isEmpty then false
  else if digitLimit < size then true
  else if size ≤ 0 then false
  else if 0 ≤ exponent then overflowBound ≤ numberOf 10 ds * Nat.pow 10 exponent.toNat
  else overflowBound * Nat.pow 10 (-exponent).toNat ≤ numberOf 10 ds

/-- A decimal number; a point or an exponent makes it a floating-point one. -/
def decimalNumber (cs : List Char) : Option (Scalar × List Char) := do
  let (negative, cs) := sign cs
  let (whole, cs) ← wholeDigits cs
  let (part, cs) ← fraction cs
  let (power, cs) ← exponent cs
  if part.isEmpty && power.isNone then
    let n : Int := numberOf 10 whole
    let scalar ← integer? (if negative then -n else n)
    return (scalar, cs)
  else if !negative && overflows (whole ++ part) (power.getD 0 - part.length) then none
  else return (.float, cs)

/-- A number that is written as a word, after its sign. -/
def wordNumber : Scanner Scalar
  | 'i' :: 'n' :: 'f' :: rest => some (.float, rest)
  | 'n' :: 'a' :: 'n' :: rest => some (.float, rest)
  | _ => none

def number (cs : List Char) : Option (Scalar × List Char) :=
  match cs with
  | '0' :: 'x' :: rest => radixInteger 16 rest
  | '0' :: 'o' :: rest => radixInteger 8 rest
  | '0' :: 'b' :: rest => radixInteger 2 rest
  | _ => (wordNumber (sign cs).2).or (decimalNumber cs)

/-! ## Dates and times -/

/-- A number of exactly so many digits. -/
def fixedNumber (count : Nat) (cs : List Char) : Option (Nat × List Char) :=
  let ds := cs.take count
  if ds.length = count ∧ ds.all Char.isDigit = true then some (numberOf 10 ds, cs.drop count)
  else none

def daysIn (year month : Nat) : Nat :=
  if month = 2 then
    if year % 4 = 0 ∧ (year % 100 ≠ 0 ∨ year % 400 = 0) then 29 else 28
  else if month = 4 ∨ month = 6 ∨ month = 9 ∨ month = 11 then 30
  else 31

def date (cs : List Char) : Option (List Char) := do
  let (year, cs) ← fixedNumber 4 cs
  let cs ← expect? '-' cs
  let (month, cs) ← fixedNumber 2 cs
  let cs ← expect? '-' cs
  let (day, cs) ← fixedNumber 2 cs
  if 1 ≤ month ∧ month ≤ 12 ∧ 1 ≤ day ∧ day ≤ daysIn year month then some cs else none

/-- The digits after a point in a time; no point is dropped that has none. -/
def skipSubseconds : List Char → List Char
  | '.' :: c :: rest =>
    if c.isDigit then rest.dropWhile Char.isDigit else '.' :: c :: rest
  | cs => cs

/-- Hour and minute. -/
def clock (cs : List Char) : Option (List Char) := do
  let (hour, cs) ← fixedNumber 2 cs
  let cs ← expect? ':' cs
  let (minute, cs) ← fixedNumber 2 cs
  if hour < 24 ∧ minute < 60 then some cs else none

/-- A time of day; a minute may have a leap second. -/
def time (cs : List Char) : Option (List Char) := do
  let cs ← clock cs
  let cs ← expect? ':' cs
  let (second, cs) ← fixedNumber 2 cs
  if second ≤ 60 then some (skipSubseconds cs) else none

/-- The distance from universal time, if the text starts with one. -/
def offset : List Char → Option (List Char)
  | 'Z' :: rest | 'z' :: rest => some rest
  | '+' :: rest | '-' :: rest => clock rest
  | cs => some cs

/-- The text starts like a time of day. -/
def startsTime (cs : List Char) : Bool :=
  match fixedNumber 2 cs with
  | some (hour, ':' :: _) => hour < 24
  | _ => false

/-- A date, with a time of day if one follows. -/
def dateTime (cs : List Char) : Option (List Char) := do
  match ← date cs with
  | c :: rest =>
    if (c = 'T' ∨ c = 't' ∨ c = ' ') ∧ startsTime rest = true then
      let rest ← time rest
      offset rest
    else some (c :: rest)
  | [] => some []

/-- The text starts like a date. -/
def startsDate (cs : List Char) : Bool :=
  match fixedNumber 4 cs with
  | some (_, '-' :: _) => true
  | _ => false

/-- A value without parts, strings apart. -/
def scalar (cs : List Char) : Option (Scalar × List Char) :=
  match cs with
  | 't' :: 'r' :: 'u' :: 'e' :: rest => some (.bool true, rest)
  | 'f' :: 'a' :: 'l' :: 's' :: 'e' :: rest => some (.bool false, rest)
  | _ =>
    if startsDate cs then (dateTime cs).map (Scalar.moment, ·)
    else if startsTime cs then (time cs).map (Scalar.moment, ·)
    else number cs

end Tiling.Toml
