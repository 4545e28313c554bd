import BlobCache.Text.Numeral

/-!
# JSON values

A value as its text spells it. Numbers keep their spelling, so that no precision is lost and the
reader of a value decides what a number may be. A string literal may name half of a surrogate pair
in an escape; it is well-formed and may be skipped, but it stands for no text, so a string is an
optional text.
-/

namespace BlobCache

/-- A JSON value. -/
inductive Json where
  /-- The value `null`. -/
  | null
  /-- One of the values `true` and `false`. -/
  | bool (value : Bool)
  /-- A number, as it is spelled. -/
  | number (spelling : String)
  /-- A string, unless it stands for no text. -/
  | string (text : Option String)
  /-- An array. -/
  | array (items : List Json)
  /-- An object, with its members in order and repeated names kept. -/
  | object (members : List (Option String × Json))

namespace Json

/-- A natural number. -/
def ofNat (n : Nat) : Json := .number (toString n)

/-- A text. -/
def ofText (text : String) : Json := .string (some text)

/-- A text, or `null` where there is none. -/
def ofText? : Option String → Json
  | none => .null
  | some text => ofText text

/-- An object from its members. -/
def ofMembers (members : List (String × Json)) : Json :=
  .object (members.map fun (name, value) => (some name, value))

/-- The value of a number that is spelled with digits alone. -/
def nat? : Json → Option Nat
  | .number spelling => Numeral.digits? 10 spelling.toList
  | _ => none

end Json

end BlobCache
