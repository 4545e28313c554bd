import BlobCache.Error
import BlobCache.Text.Numeral

/-!
# Requests to compile a graph

A request names the format of its input, the input itself, options for the compiler as one text, and
flags. A format has a number, which is what keys and command lines know it by
(`Format.ofNumber_number`); as text it may also be written by name (`Format.ofText`).
-/

namespace BlobCache

/-! ## Formats -/

/-- The encoding of a graph. -/
inductive Format where
  /-- A blob that is ready to run. -/
  | native
  /-- An intermediate form that has to be compiled. -/
  | intermediate
  deriving DecidableEq

/-- Why a text names no format. -/
inductive FormatError where
  /-- It is neither a name nor a numeral of 32 bits. -/
  | unknown (text : String)
  /-- It is a numeral, but no format has this number. -/
  | unsupported (number : UInt32)
  deriving DecidableEq

/-- The text of a format error. -/
def FormatError.message : FormatError → String
  | .unknown text => s!"unknown graph format '{text}'"
  | .unsupported number => (LoadError.unsupportedFormat number).message

namespace Format

/-- The name of a format. -/
def name : Format → String
  | .native => "native"
  | .intermediate => "intermediate"

/-- The number of a format. -/
def number : Format → UInt32
  | .native => 1
  | .intermediate => 2

/-- The format with a number. -/
def ofNumber (n : UInt32) : Except LoadError Format :=
  if n = 1 then .ok .native
  else if n = 2 then .ok .intermediate
  else .error (.unsupportedFormat n)

/-- The number of a format is read back as this format. -/
@[simp] theorem ofNumber_number (format : Format) : ofNumber format.number = .ok format := by
  cases format <;> rfl

/-- The number that a text spells: after `0x` in hexadecimal, otherwise in decimal. -/
def numberOfText? (text : List Char) : Option Nat :=
  match text with
  | '0' :: 'x' :: digits => Numeral.unsigned? 16 Numeral.limit32 digits
  | other => Numeral.unsigned? 10 Numeral.limit32 other

/-- The format that a text names, by name or by number. -/
def ofText (text : String) : Except FormatError Format :=
  if text = "native" then .ok .native
  else if text = "intermediate" then .ok .intermediate
  else match numberOfText? text.toList with
    | none => .error (.unknown text)
    | some n =>
      match ofNumber (UInt32.ofNat n) with
      | .ok format => .ok format
      | .error _ => .error (.unsupported (UInt32.ofNat n))

end Format

/-! ## Flags -/

/-- Creation flags; bits without a meaning are kept. -/
structure Flags where
  /-- The bits. -/
  bits : UInt32
  deriving DecidableEq

namespace Flags

/-- No flags. -/
def none : Flags := ⟨0⟩

/-- Leave the cache alone for this graph. -/
def disableCaching : Flags := ⟨1⟩

/-- Compile for profiling. -/
def profiling : Flags := ⟨2⟩

/-- The flags in either. -/
def union (a b : Flags) : Flags := ⟨a.bits ||| b.bits⟩

/-- Whether every flag of `b` is set in `a`. -/
def contains (a b : Flags) : Bool := a.bits &&& b.bits == b.bits

end Flags

/-! ## Requests -/

/-- The identity of a compiler. -/
structure Compiler where
  /-- Its name. -/
  id : String
  /-- Its version. -/
  version : UInt32
  /-- The operation sets it supports, as a bit mask. -/
  opsets : UInt64
  deriving DecidableEq

/-- A graph to be turned into a blob. -/
structure Request where
  /-- The encoding of the input. -/
  format : Format
  /-- The graph. -/
  input : Bytes
  /-- Options for the compiler, if any. -/
  buildFlags : Option String
  /-- Creation flags. -/
  flags : Flags
  deriving DecidableEq

end BlobCache
