/-!
# Unsigned numerals

A number as people type it: an optional plus sign and one or more digits of the radix, of either
case, with any number of leading zeros, and a value below a bound. Nothing else is a numeral: no
minus sign, no blanks, no separators, and a value at or above the bound is refused, never wrapped.
-/

namespace BlobCache.Numeral

/-- How many numbers 32 bits hold. -/
def limit32 : Nat := 4294967296

/-- How many numbers 64 bits hold. -/
def limit64 : Nat := 18446744073709551616

/-- The value of a digit in a radix of at most sixteen. -/
def digit? (radix : Nat) (c : Char) : Option Nat :=
  let value :=
    if '0' ≤ c ∧ c ≤ '9' then some (c.toNat - '0'.toNat)
    else if 'a' ≤ c ∧ c ≤ 'f' then some (c.toNat - 'a'.toNat + 10)
    else if 'A' ≤ c ∧ c ≤ 'F' then some (c.toNat - 'A'.toNat + 10)
    else none
  value.filter (· < radix)

/-- Appends digits to a number that has been read. -/
def digitsFrom? (radix : Nat) : Nat → List Char → Option Nat
  | n, [] => some n
  | n, c :: rest => (digit? radix c).bind fun d => digitsFrom? radix (n * radix + d) rest

/-- The value of one or more digits. -/
def digits? (radix : Nat) : List Char → Option Nat
  | [] => none
  | c :: rest => digitsFrom? radix 0 (c :: rest)

/-- The value of a numeral below `bound`. -/
def unsigned? (radix bound : Nat) (text : List Char) : Option Nat :=
  let digits := match text with
    | '+' :: rest => rest
    | other => other
  (digits? radix digits).filter (· < bound)

/-- A decimal numeral of 32 bits. -/
def word32? (text : String) : Option UInt32 :=
  (unsigned? 10 limit32 text.toList).map UInt32.ofNat

/-- A decimal numeral of 64 bits. -/
def word64? (text : String) : Option UInt64 :=
  (unsigned? 10 limit64 text.toList).map UInt64.ofNat

end BlobCache.Numeral
