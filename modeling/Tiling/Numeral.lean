/-!
# Numerals

Integers written in a radix, read from the left and checked against a range digit by digit, and
the fixed-width hexadecimal form in which window identifiers are shown.
-/

namespace Tiling.Numeral

/-- Why a text is not a numeral of the wanted range. -/
inductive Fault where
  | empty
  | badDigit
  | tooLarge
  | tooSmall
  deriving DecidableEq, Repr

def Fault.message : Fault → String
  | .empty => "cannot parse integer from empty string"
  | .badDigit => "invalid digit found in string"
  | .tooLarge => "number too large to fit in target type"
  | .tooSmall => "number too small to fit in target type"

/-- Value of an ASCII letter or digit, letters of either case standing for ten and up. -/
def digitValue? (c : Char) : Option Nat :=
  if '0' ≤ c ∧ c ≤ '9' then some (c.toNat - 48)
  else if 'a' ≤ c ∧ c ≤ 'z' then some (c.toNat - 87)
  else if 'A' ≤ c ∧ c ≤ 'Z' then some (c.toNat - 55)
  else none

def digit? (radix : Nat) (c : Char) : Option Nat :=
  (digitValue? c).filter (· < radix)

/-- Reads digits onto `acc`; stops with `excess` at the digit that takes the value past `bound`. -/
def readDigits (radix bound : Nat) (excess : Fault) : Nat → List Char → Except Fault Nat
  | acc, [] => .ok acc
  | acc, c :: rest =>
    match digit? radix c with
    | none => .error .badDigit
    | some d =>
      let value := acc * radix + d
      if value ≤ bound then readDigits radix bound excess value rest else .error excess

/-- Reads a natural number of at most `bound`, with an optional plus sign. -/
def readNat (radix bound : Nat) : List Char → Except Fault Nat
  | [] => .error .empty
  | ['+'] => .error .badDigit
  | '+' :: rest => readDigits radix bound .tooLarge 0 rest
  | digits => readDigits radix bound .tooLarge 0 digits

/-- Reads a signed integer from `-bound` up to `bound - 1`. -/
def readInt (radix bound : Nat) : List Char → Except Fault Int
  | [] => .error .empty
  | ['+'] => .error .badDigit
  | ['-'] => .error .badDigit
  | '-' :: rest => (readDigits radix bound .tooSmall 0 rest).map fun n => -(n : Int)
  | '+' :: rest => (readDigits radix (bound - 1) .tooLarge 0 rest).map fun n => (n : Int)
  | digits => (readDigits radix (bound - 1) .tooLarge 0 digits).map fun n => (n : Int)

def uint32? (text : String) : Option UInt32 :=
  (readNat 10 (UInt32.size - 1) text.toList).toOption.map UInt32.ofNat

/-- A 32-bit word in hexadecimal digits. -/
def hexUInt32? (text : String) : Option UInt32 :=
  (readNat 16 (UInt32.size - 1) text.toList).toOption.map UInt32.ofNat

def uint64? (text : String) : Option UInt64 :=
  (readNat 10 (UInt64.size - 1) text.toList).toOption.map UInt64.ofNat

/-- A signed 32-bit word in decimal. -/
def int32? (text : String) : Option Int32 :=
  (readInt 10 0x80000000 text.toList).toOption.map Int32.ofInt

/-- The character of a hexadecimal digit, in upper case. -/
def hexDigit (n : Nat) : Char :=
  if n < 10 then Char.ofNat (48 + n) else Char.ofNat (55 + n)

/-- Eight hexadecimal digits after `0x`. -/
def hex8 (word : UInt32) : String :=
  let digit (i : Nat) : Char := hexDigit (word.toNat / Nat.pow 16 (7 - i) % 16)
  "0x" ++ String.ofList ((List.range 8).map digit)

/-- Decimal form with an explicit sign. -/
def signed (n : Int) : String :=
  if n < 0 then "-" ++ toString n.natAbs else "+" ++ toString n.natAbs

/-- Decimal form, with a sign only below zero. -/
def decimal (n : Int) : String :=
  if n < 0 then "-" ++ toString n.natAbs else toString n.natAbs

end Tiling.Numeral
