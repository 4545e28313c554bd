import BlobCache.Text.Hex
import BlobCache.Text.Utf8
import BlobCache.Text.Visible

/-!
# Quoted byte strings

The form in which a message shows an environment value so that a reader sees every byte of it:
double quotes around it, a backslash before a quote and a backslash, short escapes for tab, line
feed, carriage return and NUL, `\\u` with the code point for other characters that do not show as
themselves, and `\\x` with two upper-case digits for a byte that belongs to no character.
-/

namespace BlobCache.Quoted

/-- A scalar as it stands inside the quotes. -/
def scalar (c : Char) : String :=
  match c with
  | '\x00' => "\\0"
  | '\t' => "\\t"
  | '\n' => "\\n"
  | '\r' => "\\r"
  | '\\' => "\\\\"
  | '"' => "\\\""
  | c =>
    if Visible.isVisible c then String.singleton c
    else "\\u\x7b" ++ Hex.ofNat c.toNat ++ "\x7d"

/-- A byte that belongs to no character, as it stands inside the quotes. -/
def byte (b : UInt8) : String :=
  "\\x" ++ String.ofList ((Hex.encodeChars [b]).map Char.toUpper)

/-- A byte string in quotes. -/
def ofBytes (bytes : Bytes) : String :=
  let body := (Utf8.pieces bytes).map fun
    | .scalar c => scalar c
    | .broken run => String.join (run.map byte)
  "\"" ++ String.join body ++ "\""

end BlobCache.Quoted
