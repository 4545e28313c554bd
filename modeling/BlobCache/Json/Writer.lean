import BlobCache.Json.Basic

/-!
# Writing JSON

Values are written compactly or, for people, over several lines with two more spaces for each level;
empty arrays and objects stay on one line. In a string only quotes, backslashes and control
characters below the space are escaped, and of those five have a short escape.
-/

namespace BlobCache.Json

/-! ## Strings -/

/-- A character as it stands in a string literal. -/
def escape (c : Char) : List Char :=
  match c with
  | '"' => ['\\', '"']
  | '\\' => ['\\', '\\']
  | '\x08' => ['\\', 'b']
  | '\x0c' => ['\\', 'f']
  | '\n' => ['\\', 'n']
  | '\r' => ['\\', 'r']
  | '\t' => ['\\', 't']
  | c =>
    if c < ' ' then
      ['\\', 'u', '0', '0', Nat.digitChar (c.toNat / 16), Nat.digitChar (c.toNat % 16)]
    else [c]

/-- The literal of a text. -/
def quote (text : String) : String :=
  String.ofList ('"' :: (text.toList.flatMap escape ++ ['"']))

/-- The literal of a string; one that stands for no text is written as half of a pair. -/
def quote? : Option String → String
  | some text => quote text
  | none => "\"\\ud800\""

/-! ## Values -/

mutual

/-- A value without any blanks. -/
def compact : Json → String
  | .null => "null"
  | .bool true => "true"
  | .bool false => "false"
  | .number spelling => spelling
  | .string text => quote? text
  | .array items => "[" ++ compactItems items ++ "]"
  | .object members => "\x7b" ++ compactMembers members ++ "\x7d"

/-- Items with commas between them. -/
def compactItems : List Json → String
  | [] => ""
  | [item] => compact item
  | item :: rest => compact item ++ "," ++ compactItems rest

/-- Members with commas between them. -/
def compactMembers : List (Option String × Json) → String
  | [] => ""
  | [(name, value)] => quote? name ++ ":" ++ compact value
  | (name, value) :: rest => quote? name ++ ":" ++ compact value ++ "," ++ compactMembers rest

end

/-- The start of a line at some level. -/
def indent (level : Nat) : String := "\n" ++ String.ofList (List.replicate (2 * level) ' ')

mutual

/-- A value over several lines, where the line it starts on is at some level. -/
def prettyAt (level : Nat) : Json → String
  | .array [] => "[]"
  | .object [] => "\x7b\x7d"
  | .array items => "[" ++ prettyItems (level + 1) items ++ indent level ++ "]"
  | .object members => "\x7b" ++ prettyMembers (level + 1) members ++ indent level ++ "\x7d"
  | .null => "null"
  | .bool true => "true"
  | .bool false => "false"
  | .number spelling => spelling
  | .string text => quote? text

/-- Items, each on a line of its own. -/
def prettyItems (level : Nat) : List Json → String
  | [] => ""
  | [item] => indent level ++ prettyAt level item
  | item :: rest => indent level ++ prettyAt level item ++ "," ++ prettyItems level rest

/-- Members, each on a line of its own. -/
def prettyMembers (level : Nat) : List (Option String × Json) → String
  | [] => ""
  | [(name, value)] => indent level ++ quote? name ++ ": " ++ prettyAt level value
  | (name, value) :: rest =>
    indent level ++ quote? name ++ ": " ++ prettyAt level value ++ "," ++ prettyMembers level rest

end

/-- A value over several lines. -/
def pretty (value : Json) : String := prettyAt 0 value

end BlobCache.Json
