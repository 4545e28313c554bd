import BlobCache.Bytes

/-!
# Lower-case hexadecimal

The printable form of a digest: two digits a byte, most significant first, in lower case
(`Hex.encode`). `Hex.decode?` reads exactly that form back, so the form is unambiguous
(`decode?_encode`). `Hex.ofNat` is the form of a number: as many digits as it needs.
-/

namespace BlobCache.Hex

/-- The sixteen digits, in order of value. -/
def digits : List Char := "0123456789abcdef".toList

/-- The digit of a value below sixteen. -/
def digit (n : Nat) : Char := digits.getD n '0'

/-- The value of a lower-case digit. -/
def value? (c : Char) : Option Nat := digits.findIdx? (· == c)

/-- The two digits of each byte in turn. -/
def encodeChars : Bytes → List Char
  | [] => []
  | b :: rest => digit (b.toNat / 16) :: digit (b.toNat % 16) :: encodeChars rest

/-- Reads an even number of lower-case digits. -/
def decodeChars? : List Char → Option Bytes
  | [] => some []
  | [_] => none
  | high :: low :: rest =>
    match value? high, value? low, decodeChars? rest with
    | some h, some l, some bytes => some (UInt8.ofNat (16 * h + l) :: bytes)
    | _, _, _ => none

/-- The printable form of a byte string. -/
def encode (bytes : Bytes) : String := String.ofList (encodeChars bytes)

/-- The byte string with this printable form. -/
def decode? (text : String) : Option Bytes := decodeChars? text.toList

/-- A number in hexadecimal, without leading zeros. -/
def ofNat (n : Nat) : String := String.ofList (Nat.toDigits 16 n)

/-! ## Nothing is lost -/

/-- All sixteen digits are read back. -/
theorem value?_digit_all : ∀ n ∈ List.range 16, value? (digit n) = some n := by decide

/-- A digit is read back as its number. -/
theorem value?_digit {n : Nat} (h : n < 16) : value? (digit n) = some n :=
  value?_digit_all n (List.mem_range.mpr h)

/-- Two digits for each byte are read back as the bytes. -/
@[simp] theorem decodeChars?_encodeChars (bytes : Bytes) :
    decodeChars? (encodeChars bytes) = some bytes := by
  induction bytes with
  | nil => rfl
  | cons b rest ih =>
    have hb : b.toNat < 256 := b.toNat_lt
    simp only [encodeChars, decodeChars?, value?_digit (show b.toNat / 16 < 16 by omega),
      value?_digit (show b.toNat % 16 < 16 by omega), ih,
      show 16 * (b.toNat / 16) + b.toNat % 16 = b.toNat by omega, UInt8.ofNat_toNat]

/-- What is written in hexadecimal is read back. -/
@[simp] theorem decode?_encode (bytes : Bytes) : decode? (encode bytes) = some bytes := by
  simp [decode?, encode]

/-- Two digits are written for each byte. -/
@[simp] theorem length_encodeChars (bytes : Bytes) :
    (encodeChars bytes).length = 2 * bytes.length := by
  induction bytes with
  | nil => rfl
  | cons b rest ih => simp only [encodeChars, List.length_cons, ih]; omega

end BlobCache.Hex
