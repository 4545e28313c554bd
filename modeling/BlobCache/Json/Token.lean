import BlobCache.Json.Basic

/-!
# JSON tokens

A JSON text is a sequence of tokens with blanks between them. Blanks are the four characters space,
tab, line feed and carriage return and mean nothing. A number is spelled without leading zeros; a
string literal holds any characters but controls, with escapes for those and for quotes.
-/

namespace BlobCache.Json

/-- A token. -/
inductive Token where
  /-- A brace that opens an object. -/
  | openObject
  /-- A brace that closes an object. -/
  | closeObject
  /-- A bracket that opens an array. -/
  | openArray
  /-- A bracket that closes an array. -/
  | closeArray
  /-- A comma. -/
  | comma
  /-- A colon. -/
  | colon
  /-- The word `null`. -/
  | null
  /-- One of the words `true` and `false`. -/
  | bool (value : Bool)
  /-- A number, as it is spelled. -/
  | number (spelling : String)
  /-- A string literal, unless it stands for no text. -/
  | string (text : Option String)
  deriving DecidableEq

/-- Whether a character may stand between tokens. -/
def isBlank (c : Char) : Bool := c == ' ' || c == '\n' || c == '\t' || c == '\r'

/-! ## Numbers -/

/-- Whether a character is a decimal digit. -/
def isDigit (c : Char) : Bool := '0' ≤ c && c ≤ '9'

/-- Splits off the digits at the start. -/
def spanDigits (text : List Char) : List Char × List Char := text.span isDigit

/-- Splits off one or more digits. -/
def someDigits? (text : List Char) : Option (List Char × List Char) :=
  let (digits, rest) := spanDigits text
  if digits.isEmpty then none else some (digits, rest)

/-- Splits off digits without a leading zero. -/
def integer? (text : List Char) : Option (List Char × List Char) :=
  match text with
  | '0' :: rest => some (['0'], rest)
  | other => someDigits? other

/-- Splits off a point with digits after it, if there is a point. -/
def fraction? (text : List Char) : Option (List Char × List Char) :=
  match text with
  | '.' :: rest => (someDigits? rest).map fun (digits, rest) => ('.' :: digits, rest)
  | other => some ([], other)

/-- Splits off an exponent, if there is one. -/
def exponent? (text : List Char) : Option (List Char × List Char) :=
  match text with
  | e :: rest =>
    if e == 'e' || e == 'E' then
      let (sign, rest) := match rest with
        | '+' :: rest => (['+'], rest)
        | '-' :: rest => (['-'], rest)
        | rest => ([], rest)
      (someDigits? rest).map fun (digits, rest) => (e :: (sign ++ digits), rest)
    else some ([], text)
  | [] => some ([], [])

/-- Splits off a number. -/
def number? (text : List Char) : Option (List Char × List Char) := do
  let (sign, rest) := match text with
    | '-' :: rest => (['-'], rest)
    | rest => ([], rest)
  let (whole, rest) ← integer? rest
  let (fraction, rest) ← fraction? rest
  let (exponent, rest) ← exponent? rest
  return (sign ++ whole ++ fraction ++ exponent, rest)

/-! ## Strings -/

/-- What a string literal is made of. -/
inductive Element where
  /-- A character, as itself or escaped. -/
  | char (c : Char)
  /-- Half of a surrogate pair, which only an escape can name. -/
  | half (unit : Nat)

/-- The value of a hexadecimal digit of either case. -/
def hexDigit? (c : Char) : Option Nat := Numeral.digit? 16 c

/-- The element that an escape by code unit names. -/
def elementOfUnit (unit : Nat) : Element :=
  if 0xD800 ≤ unit && unit ≤ 0xDFFF then .half unit else .char (Char.ofNat unit)

/-- The element that a short escape names. -/
def shortEscape? (c : Char) : Option Char :=
  match c with
  | '"' => some '"'
  | '\\' => some '\\'
  | '/' => some '/'
  | 'b' => some '\x08'
  | 'f' => some '\x0c'
  | 'n' => some '\n'
  | 'r' => some '\r'
  | 't' => some '\t'
  | _ => none

/-- Reads a string literal after its opening quote, up to its closing one. -/
def literal? : List Char → Option (List Element × List Char)
  | [] => none
  | '"' :: rest => some ([], rest)
  | '\\' :: 'u' :: a :: b :: c :: d :: rest => do
    let unit := (← hexDigit? a) * 4096 + (← hexDigit? b) * 256 + (← hexDigit? c) * 16 +
      (← hexDigit? d)
    let (elements, rest) ← literal? rest
    return (elementOfUnit unit :: elements, rest)
  | '\\' :: c :: rest => do
    let escaped ← shortEscape? c
    let (elements, rest) ← literal? rest
    return (.char escaped :: elements, rest)
  | c :: rest =>
    if c == '\\' || c < ' ' then none
    else do
      let (elements, rest) ← literal? rest
      return (.char c :: elements, rest)

/-- The characters that the elements of a literal spell. A first half must be followed by a second
one; the two name one character. -/
def textOf? : List Element → Option (List Char)
  | [] => some []
  | .char c :: rest => (textOf? rest).map (c :: ·)
  | .half high :: .half low :: rest =>
    if high < 0xDC00 && 0xDC00 ≤ low then
      (textOf? rest).map (Char.ofNat (0x10000 + (high - 0xD800) * 0x400 + (low - 0xDC00)) :: ·)
    else none
  | .half _ :: _ => none

/-! ## Token by token -/

/-- Reads the token that starts with a character. -/
def token? (c : Char) (rest : List Char) : Option (Token × List Char) :=
  match c, rest with
  | '\x7b', rest => some (.openObject, rest)
  | '\x7d', rest => some (.closeObject, rest)
  | '[', rest => some (.openArray, rest)
  | ']', rest => some (.closeArray, rest)
  | ',', rest => some (.comma, rest)
  | ':', rest => some (.colon, rest)
  | 'n', 'u' :: 'l' :: 'l' :: rest => some (.null, rest)
  | 't', 'r' :: 'u' :: 'e' :: rest => some (.bool true, rest)
  | 'f', 'a' :: 'l' :: 's' :: 'e' :: rest => some (.bool false, rest)
  | '"', rest =>
    (literal? rest).map fun (elements, rest) =>
      (.string ((textOf? elements).map String.ofList), rest)
  | c, rest =>
    (number? (c :: rest)).map fun (spelling, rest) => (.number (String.ofList spelling), rest)

/-- Reads at most `fuel` characters and tokens. -/
def tokensFrom? : Nat → List Char → Option (List Token)
  | _, [] => some []
  | 0, _ => none
  | fuel + 1, c :: rest =>
    if isBlank c then tokensFrom? fuel rest
    else do
      let (token, rest) ← token? c rest
      let tokens ← tokensFrom? fuel rest
      return token :: tokens

/-- The tokens of a text. Every step takes at least one character, so the length of the text bounds
their number. -/
def tokens? (text : List Char) : Option (List Token) := tokensFrom? text.length text

end BlobCache.Json
