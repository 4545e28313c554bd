import BlobCache.Json.Token

/-!
# Reading JSON

The grammar over tokens: a text is one value and nothing after it. Each call of the reader takes a
token or hands over to a smaller part, so a bound of a few calls for each token suffices.
-/

namespace BlobCache.Json

mutual

/-- Reads a value. -/
def value? : Nat → List Token → Option (Json × List Token)
  | 0, _ => none
  | fuel + 1, tokens =>
    match tokens with
    | .null :: rest => some (.null, rest)
    | .bool b :: rest => some (.bool b, rest)
    | .number spelling :: rest => some (.number spelling, rest)
    | .string text :: rest => some (.string text, rest)
    | .openArray :: .closeArray :: rest => some (.array [], rest)
    | .openArray :: rest => (items? fuel rest).map fun (items, rest) => (.array items, rest)
    | .openObject :: .closeObject :: rest => some (.object [], rest)
    | .openObject :: rest =>
      (members? fuel rest).map fun (members, rest) => (.object members, rest)
    | _ => none

/-- Reads one or more items up to the end of their array. -/
def items? : Nat → List Token → Option (List Json × List Token)
  | 0, _ => none
  | fuel + 1, tokens =>
    match value? fuel tokens with
    | some (item, .comma :: rest) =>
      (items? fuel rest).map fun (items, rest) => (item :: items, rest)
    | some (item, .closeArray :: rest) => some ([item], rest)
    | _ => none

/-- Reads one or more members up to the end of their object. -/
def members? : Nat → List Token → Option (List (Option String × Json) × List Token)
  | 0, _ => none
  | fuel + 1, tokens =>
    match tokens with
    | .string name :: .colon :: rest =>
      match value? fuel rest with
      | some (value, .comma :: rest) =>
        (members? fuel rest).map fun (members, rest) => ((name, value) :: members, rest)
      | some (value, .closeObject :: rest) => some ([(name, value)], rest)
      | _ => none
    | _ => none

end

/-- The value that a sequence of tokens spells. -/
def ofTokens? (tokens : List Token) : Option Json :=
  match value? (2 * tokens.length + 1) tokens with
  | some (value, []) => some value
  | _ => none

/-- The value that a text spells. -/
def read? (text : String) : Option Json := (tokens? text.toList).bind ofTokens?

end BlobCache.Json
