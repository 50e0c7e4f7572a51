-- SUMMARY: Decimal numerals of 64-bit signed integers: reading with a range check, and writing.

/-!
# Numerals

A numeral is an optional sign followed by one or more ASCII digits. It denotes a
64-bit signed integer, and a text whose value lies outside that range is no
numeral at all. Integers are written with a minus sign where needed, never with
a plus sign, and without leading zeros.
-/

namespace Forth.Text

/-- The value of a non-empty list of ASCII digits. -/
def digits? (cs : List Char) : Option Nat :=
  if !cs.isEmpty && cs.all Char.isDigit then
    some (cs.foldl (fun n c => 10 * n + (c.toNat - '0'.toNat)) 0)
  else
    none

/-- The value of a signed list of digits, of any size. -/
def signed? : List Char → Option Int
  | '+' :: cs => (digits? cs).map Int.ofNat
  | '-' :: cs => (digits? cs).map fun n => -Int.ofNat n
  | cs => (digits? cs).map Int.ofNat

/-- `n` as a 64-bit integer, if it is in range. -/
def int64? (n : Int) : Option Int64 :=
  if Int64.minValue.toInt ≤ n ∧ n ≤ Int64.maxValue.toInt then some (Int64.ofInt n) else none

/-- The integer that a text denotes as a numeral. -/
def readInt64? (s : String) : Option Int64 :=
  (signed? s.toList).bind int64?

def showInt64 (n : Int64) : String :=
  toString n.toInt

example : readInt64? "-9223372036854775808" = some Int64.minValue := by decide +kernel

example : readInt64? "9223372036854775808" = none := by decide +kernel

example : readInt64? "+" = none := by decide +kernel

end Forth.Text
