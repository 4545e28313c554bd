import BlobCache.Json.Token
import BlobCache.Proofs.Numerals
import Mathlib.Data.List.TakeDrop

/-!
# The spelling of JSON tokens

How tokens are spelled, said without the reader: numbers (`Json.IsNumber`), string literals
(`Json.IsLiteral`), single tokens (`Json.Token.Spelled`) and sequences of tokens with blanks before,
between and after them (`Json.Spelled`).

What is read is spelled (`Json.spelled_of_tokens?`). The converse needs one condition, since two
numbers side by side may be read as one: a sequence without such neighbours is read from every
spelling, and what stands behind it is read on its own (`Json.tokens?_append`).
-/

namespace BlobCache.Json

/-! ## Numbers -/

/-- One or more digits. -/
def IsDigits (text : List Char) : Prop := text ≠ [] ∧ ∀ c ∈ text, isDigit c = true

/-- Digits without a leading zero. -/
inductive IsWhole : List Char → Prop where
  /-- Zero is a digit of its own. -/
  | zero : IsWhole ['0']
  /-- Other digits do not start with zero. -/
  | digits {digits : List Char} : IsDigits digits → digits.head? ≠ some '0' → IsWhole digits

/-- The part of a number behind its point, which may be missing. -/
inductive IsFraction : List Char → Prop where
  /-- There is no point. -/
  | none : IsFraction []
  /-- Digits stand behind the point. -/
  | digits {digits : List Char} : IsDigits digits → IsFraction ('.' :: digits)

/-- The exponent of a number, which may be missing. -/
inductive IsExponent : List Char → Prop where
  /-- There is no exponent. -/
  | none : IsExponent []
  /-- Digits, with a sign if wanted, stand behind a letter. -/
  | digits {e : Char} {sign digits : List Char} : (e = 'e' ∨ e = 'E') →
      (sign = [] ∨ sign = ['+'] ∨ sign = ['-']) → IsDigits digits →
        IsExponent (e :: (sign ++ digits))

/-- A number. -/
inductive IsNumber : List Char → Prop where
  /-- A number has a whole part, and a sign, a fraction and an exponent if wanted. -/
  | parts {sign whole fraction exponent : List Char} : (sign = [] ∨ sign = ['-']) →
      IsWhole whole → IsFraction fraction → IsExponent exponent →
        IsNumber (sign ++ whole ++ fraction ++ exponent)

/-- No number goes on with what follows. -/
def Stops (rest : List Char) : Prop :=
  ∀ c ∈ rest.head?, isDigit c = false ∧ c ≠ '.' ∧ c ≠ 'e' ∧ c ≠ 'E'

/-- No run of digits goes on with what follows. -/
def StopsDigits (rest : List Char) : Prop := ∀ c ∈ rest.head?, isDigit c = false

variable {text rest word digits whole fraction exponent spelling : List Char} {c : Char}

/-- What stops a number stops digits. -/
theorem Stops.stopsDigits (h : Stops rest) : StopsDigits rest := fun c hc => (h c hc).1

/-- Digits are read as far as they go, and there has to be one. -/
theorem someDigits?_eq_some_iff :
    someDigits? text = some (digits, rest) ↔
      text = digits ++ rest ∧ IsDigits digits ∧ StopsDigits rest := by
  have hspan : someDigits? text = if text.takeWhile isDigit = [] then none
      else some (text.takeWhile isDigit, text.dropWhile isDigit) := by
    unfold someDigits? spanDigits
    rw [List.span_eq_takeWhile_dropWhile]
    simp only [List.isEmpty_iff]
  rw [hspan]
  constructor
  · intro h
    split at h
    · cases h
    · rename_i hne
      cases h
      refine ⟨List.takeWhile_append_dropWhile.symm, ⟨hne, fun c => List.mem_takeWhile_imp⟩, ?_⟩
      intro c hc
      have hstop := List.head?_dropWhile_not isDigit text
      rw [Option.mem_def.mp hc] at hstop
      simpa using hstop
  · rintro ⟨rfl, ⟨hne, hdigits⟩, hstop⟩
    have hrest : rest.takeWhile isDigit = [] ∧ rest.dropWhile isDigit = rest := by
      cases rest with
      | nil => exact ⟨rfl, rfl⟩
      | cons c rest =>
          have hc : ¬isDigit c = true := by simp [hstop c rfl]
          exact ⟨List.takeWhile_cons_of_neg hc, List.dropWhile_cons_of_neg hc⟩
    rw [List.takeWhile_append_of_pos hdigits, List.dropWhile_append_of_pos hdigits, hrest.1,
      hrest.2, List.append_nil, if_neg hne]

/-- The whole part that is read is one. -/
theorem integer?_sound (h : integer? text = some (whole, rest)) :
    text = whole ++ rest ∧ IsWhole whole := by
  unfold integer? at h
  split at h
  · cases h
    exact ⟨rfl, .zero⟩
  · rename_i hzero
    obtain ⟨rfl, hdigits, -⟩ := someDigits?_eq_some_iff.mp h
    refine ⟨rfl, .digits hdigits ?_⟩
    intro hhead
    obtain ⟨tail, rfl⟩ := List.head?_eq_some_iff.mp hhead
    exact hzero _ rfl

/-- A whole part is read up to what is no digit. -/
theorem integer?_append (h : IsWhole whole) (hrest : StopsDigits rest) :
    integer? (whole ++ rest) = some (whole, rest) := by
  cases h with
  | zero => rfl
  | digits hdigits hzero =>
      unfold integer?
      split
      · rename_i tail htail
        obtain ⟨c, more, rfl⟩ := List.exists_cons_of_ne_nil hdigits.1
        rw [List.cons_append] at htail
        cases htail
        exact absurd rfl hzero
      · exact someDigits?_eq_some_iff.mpr ⟨rfl, hdigits, hrest⟩

/-- The fraction that is read is one. -/
theorem fraction?_sound (h : fraction? text = some (fraction, rest)) :
    text = fraction ++ rest ∧ IsFraction fraction := by
  unfold fraction? at h
  split at h
  · obtain ⟨⟨digits, more⟩, hdigits, heq⟩ := Option.map_eq_some_iff.mp h
    cases heq
    obtain ⟨rfl, hdigits, -⟩ := someDigits?_eq_some_iff.mp hdigits
    exact ⟨rfl, .digits hdigits⟩
  · cases h
    exact ⟨rfl, .none⟩

/-- A fraction is read up to what is no digit. -/
theorem fraction?_append (h : IsFraction fraction) (hdigits : StopsDigits rest)
    (hpoint : rest.head? ≠ some '.') : fraction? (fraction ++ rest) = some (fraction, rest) := by
  cases h with
  | none =>
      unfold fraction?
      split
      · rename_i htail
        rw [List.nil_append] at htail
        rw [htail] at hpoint
        exact absurd rfl hpoint
      · rfl
  | digits h =>
      rw [List.cons_append, fraction?, someDigits?_eq_some_iff.mpr ⟨rfl, h, hdigits⟩]
      rfl

/-- The exponent that is read is one. -/
theorem exponent?_sound (h : exponent? text = some (exponent, rest)) :
    text = exponent ++ rest ∧ IsExponent exponent := by
  unfold exponent? at h
  split at h
  · rename_i e tail
    split at h
    · rename_i he
      obtain ⟨⟨digits, more⟩, hdigits, heq⟩ := Option.map_eq_some_iff.mp h
      cases heq
      obtain ⟨htail, hdigits, -⟩ := someDigits?_eq_some_iff.mp hdigits
      refine ⟨?_, .digits (by simpa using he) ?_ hdigits⟩
      · split at htail <;> simp_all
      · split <;> simp
    · cases h
      exact ⟨rfl, .none⟩
  · cases h
    exact ⟨rfl, .none⟩

/-- No digit is a sign. -/
theorem isDigit_ne_sign (h : isDigit c = true) : c ≠ '+' ∧ c ≠ '-' := by
  constructor
  · rintro rfl
    revert h
    decide
  · rintro rfl
    revert h
    decide

/-- An exponent is read up to what stops a number. -/
theorem exponent?_append (h : IsExponent exponent) (hrest : Stops rest) :
    exponent? (exponent ++ rest) = some (exponent, rest) := by
  cases h with
  | none =>
      cases rest with
      | nil => rfl
      | cons c rest =>
          obtain ⟨-, -, hlower, hupper⟩ := hrest c rfl
          simp [exponent?, hlower, hupper]
  | @digits e sign digits he hsign hdigits =>
      have hread : someDigits? (digits ++ rest) = some (digits, rest) :=
        someDigits?_eq_some_iff.mpr ⟨rfl, hdigits, hrest.stopsDigits⟩
      have he : (e == 'e' || e == 'E') = true := by simpa using he
      rcases hsign with rfl | rfl | rfl
      · obtain ⟨c, more, rfl⟩ := List.exists_cons_of_ne_nil hdigits.1
        obtain ⟨hplus, hminus⟩ := isDigit_ne_sign (hdigits.2 c List.mem_cons_self)
        simp only [List.nil_append, List.cons_append] at hread ⊢
        rw [exponent?, if_pos he, hread]
        · rfl
        · exact fun _ heq => hplus (List.cons.inj heq).1
        · exact fun _ heq => hminus (List.cons.inj heq).1
      · simp only [List.cons_append, List.nil_append, exponent?, if_pos he, hread]
        rfl
      · simp only [List.cons_append, List.nil_append, exponent?, if_pos he, hread]
        rfl

/-- The number that is read is one. -/
theorem number?_sound (h : number? text = some (spelling, rest)) :
    text = spelling ++ rest ∧ IsNumber spelling := by
  simp only [number?, Option.bind_eq_bind, Option.bind_eq_some_iff, Option.pure_def,
    Option.some.injEq] at h
  obtain ⟨⟨whole, afterWhole⟩, hreadWhole, ⟨fraction, afterFraction⟩, hreadFraction,
    ⟨exponent, after⟩, hreadExponent, heq⟩ := h
  cases heq
  obtain ⟨htext, hwhole⟩ := integer?_sound hreadWhole
  obtain ⟨rfl, hfraction⟩ := fraction?_sound hreadFraction
  obtain ⟨rfl, hexponent⟩ := exponent?_sound hreadExponent
  refine ⟨?_, .parts ?_ hwhole hfraction hexponent⟩
  · split at htext <;> simp_all
  · split <;> simp

/-- A whole part starts with a digit. -/
theorem IsWhole.ne_nil (h : IsWhole whole) : ∃ c more, whole = c :: more ∧ isDigit c = true := by
  cases h with
  | zero => exact ⟨'0', [], rfl, by decide⟩
  | digits hdigits _ =>
      obtain ⟨c, more, rfl⟩ := List.exists_cons_of_ne_nil hdigits.1
      exact ⟨c, more, rfl, hdigits.2 c List.mem_cons_self⟩

/-- What may follow the fraction does not go on with it. -/
theorem IsExponent.stops (h : IsExponent exponent) (hrest : Stops rest) :
    StopsDigits (exponent ++ rest) ∧ (exponent ++ rest).head? ≠ some '.' := by
  cases h with
  | none => exact ⟨hrest.stopsDigits, fun hhead => (hrest '.' hhead).2.1 rfl⟩
  | @digits e sign digits he _ _ =>
      rw [List.cons_append]
      rcases he with rfl | rfl
      · exact ⟨fun c hc => by cases hc; decide, by simp⟩
      · exact ⟨fun c hc => by cases hc; decide, by simp⟩

/-- Behind a whole part a fraction does not go on with it. -/
theorem IsFraction.stops (h : IsFraction fraction) (hrest : StopsDigits rest) :
    StopsDigits (fraction ++ rest) := by
  cases h with
  | none => exact hrest
  | digits _ => exact fun c hc => by cases hc; decide

/-- A number is read up to what stops it. -/
theorem number?_append (h : IsNumber spelling) (hrest : Stops rest) :
    number? (spelling ++ rest) = some (spelling, rest) := by
  obtain @⟨sign, whole, fraction, exponent, hsign, hwhole, hfraction, hexponent⟩ := h
  obtain ⟨hdigits, hpoint⟩ := hexponent.stops hrest
  have hreadWhole : integer? (whole ++ (fraction ++ (exponent ++ rest))) =
      some (whole, fraction ++ (exponent ++ rest)) :=
    integer?_append hwhole (hfraction.stops hdigits)
  have hreadFraction := fraction?_append hfraction hdigits hpoint
  have hreadExponent := exponent?_append hexponent hrest
  rcases hsign with rfl | rfl
  · obtain ⟨c, more, rfl, hc⟩ := hwhole.ne_nil
    simp only [List.nil_append, List.append_assoc, List.cons_append] at hreadWhole ⊢
    unfold number?
    split
    · rename_i heq
      split at heq
      · rename_i hminus
        cases hminus
        exact absurd rfl (isDigit_ne_sign hc).2
      · cases heq
        simp [hreadWhole, hreadFraction, hreadExponent]
  · simp only [number?, List.append_assoc, List.cons_append, List.nil_append, hreadWhole,
      hreadFraction, hreadExponent, Option.bind_eq_bind, Option.bind_some, Option.pure_def]

/-! ## String literals -/

/-- The short escapes: the letter behind the backslash and what it stands for. -/
def shortEscapes : List (Char × Char) :=
  [('"', '"'), ('\\', '\\'), ('/', '/'), ('b', '\x08'), ('f', '\x0c'), ('n', '\n'), ('r', '\r'),
    ('t', '\t')]

/-- The elements of a literal, as they are spelled between its quotes. -/
inductive IsLiteral : List Element → List Char → Prop where
  /-- A literal may be empty. -/
  | nil : IsLiteral [] []
  /-- Any character but quotes, backslashes and controls stands for itself. -/
  | plain {c : Char} {elements : List Element} {body : List Char} : c ≠ '"' → c ≠ '\\' →
      ' ' ≤ c → IsLiteral elements body → IsLiteral (.char c :: elements) (c :: body)
  /-- Some characters have a short escape. -/
  | short {letter c : Char} {elements : List Element} {body : List Char} :
      (letter, c) ∈ shortEscapes → IsLiteral elements body →
        IsLiteral (.char c :: elements) ('\\' :: letter :: body)
  /-- Any code unit can be named by four hexadecimal digits. -/
  | unit {unit : Nat} {a b c d : Char} {elements : List Element} {body : List Char} :
      Numeral.Spells 16 unit [a, b, c, d] → IsLiteral elements body →
        IsLiteral (elementOfUnit unit :: elements) ('\\' :: 'u' :: a :: b :: c :: d :: body)

variable {elements : List Element} {letter : Char} {body : List Char}

/-- An escape of one letter is one of the table. -/
theorem shortEscape?_eq_some_iff : shortEscape? letter = some c ↔ (letter, c) ∈ shortEscapes := by
  unfold shortEscape? shortEscapes
  split <;> simp_all [eq_comm]

/-- Four digits spell a unit digit by digit. -/
theorem spells_four_iff {unit : Nat} {a b c d : Char} :
    Numeral.Spells 16 unit [a, b, c, d] ↔ ∃ w x y z, hexDigit? a = some w ∧ hexDigit? b = some x ∧
      hexDigit? c = some y ∧ hexDigit? d = some z ∧ unit = w * 4096 + x * 256 + y * 16 + z := by
  rw [← Numeral.digits?_eq_some_iff (by decide)]
  simp only [Numeral.digits?, Numeral.digitsFrom?, Option.bind_eq_some_iff, Option.some.injEq,
    hexDigit?]
  constructor
  · rintro ⟨w, hw, x, hx, y, hy, z, hz, rfl⟩
    exact ⟨w, x, y, z, hw, hx, hy, hz, by ring⟩
  · rintro ⟨w, x, y, z, hw, hx, hy, hz, rfl⟩
    exact ⟨w, hw, x, hx, y, hy, z, hz, by ring⟩

/-- The literal that is read stands in front of the quotation mark that ends it. -/
theorem literal?_sound (h : literal? text = some (elements, rest)) :
    ∃ body, text = body ++ '"' :: rest ∧ IsLiteral elements body := by
  fun_induction literal? text generalizing elements rest with
  | case1 => cases h
  | case2 =>
      cases h
      exact ⟨[], rfl, .nil⟩
  | case3 a b c d tail ih =>
      simp only [Option.bind_eq_bind, Option.bind_eq_some_iff, Option.pure_def,
        Option.some.injEq] at h
      obtain ⟨w, hw, x, hx, y, hy, z, hz, ⟨others, after⟩, hothers, heq⟩ := h
      cases heq
      obtain ⟨body, rfl, hbody⟩ := ih hothers
      exact ⟨_, rfl, .unit (spells_four_iff.mpr ⟨w, x, y, z, hw, hx, hy, hz, rfl⟩) hbody⟩
  | case4 letter tail _ ih =>
      simp only [Option.bind_eq_bind, Option.bind_eq_some_iff, Option.pure_def,
        Option.some.injEq] at h
      obtain ⟨c, hc, ⟨others, after⟩, hothers, heq⟩ := h
      cases heq
      obtain ⟨body, rfl, hbody⟩ := ih hothers
      exact ⟨_, rfl, .short (shortEscape?_eq_some_iff.mp hc) hbody⟩
  | case5 => cases h
  | case6 c tail hquote _ _ hplain ih =>
      simp only [Option.bind_eq_bind, Option.bind_eq_some_iff, Option.pure_def,
        Option.some.injEq] at h
      obtain ⟨⟨others, after⟩, hothers, heq⟩ := h
      cases heq
      obtain ⟨body, rfl, hbody⟩ := ih hothers
      simp only [Bool.or_eq_true, beq_iff_eq, decide_eq_true_eq, not_or, Char.not_lt] at hplain
      exact ⟨_, rfl, .plain hquote hplain.1 hplain.2 hbody⟩

/-- A literal is read up to the quotation mark that ends it. -/
theorem literal?_append (h : IsLiteral elements body) (rest : List Char) :
    literal? (body ++ '"' :: rest) = some (elements, rest) := by
  induction h with
  | nil => rfl
  | @plain c elements body hquote hbackslash hle _ ih =>
      have hplain : ¬(c == '\\' || decide (c < ' ')) = true := by
        simp [hbackslash, Char.not_lt.mpr hle]
      rw [List.cons_append, literal?, if_neg hplain, ih]
      · rfl
      · exact hquote
      · exact fun _ _ _ _ _ heq _ => hbackslash heq
      · exact fun _ _ heq _ => hbackslash heq
  | @short letter c elements body hmem _ ih =>
      rw [List.cons_append, List.cons_append, literal?, shortEscape?_eq_some_iff.mpr hmem]
      · simp [ih]
      · rintro a b c d tail rfl
        revert hmem
        simp [shortEscapes]
  | @unit unit a b c d elements body hunit _ ih =>
      obtain ⟨w, x, y, z, hw, hx, hy, hz, rfl⟩ := spells_four_iff.mp hunit
      simp [literal?, hw, hx, hy, hz, ih]

/-! ## Single tokens -/

namespace Token

/-- How a token is spelled. -/
def Spelled : Token → List Char → Prop
  | .openObject, word => word = ['\x7b']
  | .closeObject, word => word = ['\x7d']
  | .openArray, word => word = ['[']
  | .closeArray, word => word = [']']
  | .comma, word => word = [',']
  | .colon, word => word = [':']
  | .null, word => word = ['n', 'u', 'l', 'l']
  | .bool true, word => word = ['t', 'r', 'u', 'e']
  | .bool false, word => word = ['f', 'a', 'l', 's', 'e']
  | .number spelling, word => word = spelling.toList ∧ IsNumber word
  | .string text, word => ∃ elements body, word = '"' :: (body ++ ['"']) ∧
      IsLiteral elements body ∧ text = (textOf? elements).map String.ofList

/-- Whether the token is a number. -/
def isNumber : Token → Bool
  | .number _ => true
  | _ => false

end Token

variable {token : Token} {tokens others : List Token}

/-- The token that is read is spelled by the characters that are gone. -/
theorem token?_sound (h : token? c text = some (token, rest)) :
    ∃ word, c :: text = word ++ rest ∧ token.Spelled word := by
  unfold token? at h
  split at h
  case h_10 =>
    obtain ⟨⟨elements, after⟩, hread, heq⟩ := Option.map_eq_some_iff.mp h
    cases heq
    obtain ⟨body, rfl, hbody⟩ := literal?_sound hread
    exact ⟨'"' :: (body ++ ['"']), by simp, elements, body, rfl, hbody, rfl⟩
  case h_11 =>
    obtain ⟨⟨spelling, after⟩, hread, heq⟩ := Option.map_eq_some_iff.mp h
    cases heq
    obtain ⟨htext, hnumber⟩ := number?_sound hread
    exact ⟨spelling, htext, String.toList_ofList.symm, hnumber⟩
  all_goals
    cases h
    exact ⟨_, rfl, rfl⟩

/-- The first character of a number starts no other token. -/
theorem token?_of_number (hc : isDigit c = true ∨ c = '-')
    (h : number? (c :: text) = some (spelling, rest)) :
    token? c text = some (.number (String.ofList spelling), rest) := by
  unfold token?
  split
  case h_11 => rw [h]; rfl
  all_goals
    exact absurd hc (by decide)

/-- A number starts with a digit or a minus sign. -/
theorem IsNumber.head (h : IsNumber spelling) :
    ∃ c tail, spelling = c :: tail ∧ (isDigit c = true ∨ c = '-') := by
  obtain @⟨sign, whole, fraction, exponent, hsign, hwhole, -, -⟩ := h
  rcases hsign with rfl | rfl
  · obtain ⟨c, more, rfl, hc⟩ := hwhole.ne_nil
    exact ⟨c, _, rfl, Or.inl hc⟩
  · exact ⟨'-', _, rfl, Or.inr rfl⟩

/-- A character that starts a number is no blank. -/
theorem isBlank_of_number (hc : isDigit c = true ∨ c = '-') : isBlank c = false := by
  rw [Bool.eq_false_iff]
  intro hblank
  simp only [isBlank, Bool.or_eq_true, beq_iff_eq] at hblank
  rcases hblank with ((rfl | rfl) | rfl) | rfl <;> exact absurd hc (by decide)

/-- A spelled token is read, unless it is a number that goes on with what follows. -/
theorem token?_append (h : token.Spelled word) (hrest : token.isNumber = true → Stops rest) :
    ∃ c tail, word = c :: tail ∧ isBlank c = false ∧
      token? c (tail ++ rest) = some (token, rest) := by
  cases token with
  | number spelling =>
      obtain ⟨rfl, hnumber⟩ := h
      obtain ⟨c, tail, htail, hc⟩ := hnumber.head
      refine ⟨c, tail, htail, isBlank_of_number hc, ?_⟩
      have hread := number?_append hnumber (hrest rfl)
      rw [htail, List.cons_append] at hread
      rw [token?_of_number hc hread, ← htail, String.ofList_toList]
  | string text =>
      obtain ⟨elements, body, rfl, hbody, rfl⟩ := h
      refine ⟨'"', _, rfl, by decide, ?_⟩
      rw [List.append_assoc, List.singleton_append, token?, literal?_append hbody]
      rfl
  | bool value =>
      cases value <;> cases h <;> exact ⟨_, _, rfl, by decide, rfl⟩
  | _ =>
      cases h
      exact ⟨_, _, rfl, by decide, rfl⟩

/-- No number goes on with a token of another kind. -/
theorem Token.Spelled.stops (h : token.Spelled word) (hnumber : token.isNumber = false)
    (rest : List Char) : Stops (word ++ rest) := by
  cases token with
  | number spelling => cases hnumber
  | string text =>
      obtain ⟨elements, body, rfl, -, -⟩ := h
      intro c hc
      cases hc
      decide
  | bool value =>
      cases value <;> cases h <;> (intro c hc; cases hc; decide)
  | _ =>
      cases h
      intro c hc
      cases hc
      decide

/-! ## Sequences of tokens -/

/-- How a sequence of tokens is spelled: one after the other, with blanks anywhere around them. -/
inductive Spelled : List Token → List Char → Prop where
  /-- There may be nothing left. -/
  | nil : Spelled [] []
  /-- Blanks mean nothing. -/
  | blank {c : Char} {tokens : List Token} {text : List Char} : isBlank c = true →
      Spelled tokens text → Spelled tokens (c :: text)
  /-- A token stands in front of the others. -/
  | token {token : Token} {word : List Char} {tokens : List Token} {text : List Char} :
      token.Spelled word → Spelled tokens text → Spelled (token :: tokens) (word ++ text)

/-- No two numbers stand side by side. -/
def Apart (tokens : List Token) : Prop :=
  tokens.IsChain fun first second => first.isNumber = false ∨ second.isNumber = false

/-- Spelled tokens and spelled tokens behind them are spelled together. -/
theorem Spelled.append (h : Spelled tokens text) (hothers : Spelled others rest) :
    Spelled (tokens ++ others) (text ++ rest) := by
  induction h with
  | nil => exact hothers
  | blank hc _ ih => exact .blank hc ih
  | token hword _ ih =>
      rw [List.append_assoc]
      exact .token hword ih

/-- Nothing is spelled by blanks alone. -/
theorem spelled_nil_iff : Spelled [] text ↔ ∀ c ∈ text, isBlank c = true := by
  constructor
  · intro h
    generalize hnil : ([] : List Token) = tokens at h
    induction h with
    | nil => simp
    | blank hc _ ih => exact List.forall_mem_cons.mpr ⟨hc, ih hnil⟩
    | token => cases hnil
  · intro h
    induction text with
    | nil => exact .nil
    | cons c text ih =>
        obtain ⟨hc, htext⟩ := List.forall_mem_cons.mp h
        exact .blank hc (ih htext)

/-- Reading a token takes at least one character. -/
theorem length_of_token? (h : token? c text = some (token, rest)) :
    rest.length ≤ text.length := by
  obtain ⟨word, htext, hword⟩ := token?_sound h
  have hne : word ≠ [] := by
    have hstops : token.isNumber = true → Stops [] := fun _ _ hc => by cases hc
    obtain ⟨_, _, rfl, _⟩ := token?_append hword hstops
    exact List.cons_ne_nil _ _
  have hlength := congrArg List.length htext
  rw [List.length_cons, List.length_append] at hlength
  have := List.length_pos_iff.mpr hne
  omega

/-- A bound that suffices may be any other that does. -/
theorem tokensFrom?_eq_of_le : ∀ {fuel bound : Nat} {text : List Char}, text.length ≤ fuel →
    text.length ≤ bound → tokensFrom? fuel text = tokensFrom? bound text := by
  intro fuel
  induction fuel with
  | zero =>
      intro bound text hfuel _
      cases List.length_eq_zero_iff.mp (Nat.le_zero.mp hfuel)
      simp [tokensFrom?]
  | succ fuel ih =>
      intro bound text hfuel hbound
      cases text with
      | nil => simp [tokensFrom?]
      | cons c text =>
          cases bound with
          | zero => cases hbound
          | succ bound =>
              simp only [List.length_cons, Nat.add_le_add_iff_right] at hfuel hbound
              rw [tokensFrom?, tokensFrom?]
              split
              · exact ih hfuel hbound
              · refine Option.bind_congr fun ⟨token, rest⟩ hread => ?_
                have hlength := length_of_token? hread
                change (tokensFrom? fuel rest).bind _ = (tokensFrom? bound rest).bind _
                rw [ih (hlength.trans hfuel) (hlength.trans hbound)]

/-- The empty text has no tokens. -/
theorem tokens?_nil : tokens? [] = some [] := rfl

/-- Blanks are passed over. -/
theorem tokens?_blank (hc : isBlank c = true) (text : List Char) :
    tokens? (c :: text) = tokens? text := by
  rw [tokens?, List.length_cons, tokensFrom?, if_pos hc]
  rfl

/-- What is not blank starts a token. -/
theorem tokens?_token (hc : isBlank c = false) (text : List Char) :
    tokens? (c :: text) =
      (token? c text).bind fun read => (tokens? read.2).map (read.1 :: ·) := by
  rw [tokens?, List.length_cons, tokensFrom?, if_neg (by simp [hc])]
  refine Option.bind_congr fun ⟨token, rest⟩ hread => ?_
  change (tokensFrom? text.length rest).bind _ = _
  rw [tokensFrom?_eq_of_le (length_of_token? hread) (Nat.le_refl _), ← tokens?]
  cases tokens? rest <;> rfl

/-- What is read is spelled. -/
theorem spelled_of_tokens? (h : tokens? text = some tokens) : Spelled tokens text := by
  induction hlength : text.length using Nat.strong_induction_on generalizing text tokens with
  | _ length ih =>
    cases text with
    | nil =>
        cases h
        exact .nil
    | cons c text =>
        by_cases hc : isBlank c = true
        · rw [tokens?_blank hc] at h
          exact .blank hc (ih text.length (by simp [← hlength]) h rfl)
        · rw [tokens?_token (by simpa using hc)] at h
          obtain ⟨⟨token, rest⟩, hread, htokens⟩ := Option.bind_eq_some_iff.mp h
          obtain ⟨others, hothers, rfl⟩ := Option.map_eq_some_iff.mp htokens
          have hshorter := length_of_token? hread
          obtain ⟨word, hword, htoken⟩ := token?_sound hread
          rw [hword]
          refine .token htoken (ih rest.length ?_ hothers rfl)
          rw [← hlength, List.length_cons]
          omega

/-- What stands behind a token and before the next one does not go on with it. -/
theorem Spelled.stops (h : Spelled tokens text)
    (hhead : ∀ token ∈ tokens.head?, token.isNumber = false) (hrest : tokens = [] → Stops rest) :
    Stops (text ++ rest) := by
  induction h with
  | nil => exact hrest rfl
  | @blank c _ _ hc _ _ =>
      intro d hd
      cases hd
      simp only [isBlank, Bool.or_eq_true, beq_iff_eq] at hc
      rcases hc with ((rfl | rfl) | rfl) | rfl <;> decide
  | @token token word others text hword _ _ =>
      rw [List.append_assoc]
      exact hword.stops (hhead token rfl) _

/-- Every spelling of a sequence without two numbers side by side is read, and what stands behind it
is read on its own. A number in the last place must not go on there. -/
theorem tokens?_append (h : Spelled tokens text) (hapart : Apart tokens)
    (hrest : ∀ token ∈ tokens.getLast?, token.isNumber = true → Stops rest) :
    tokens? (text ++ rest) = (tokens? rest).map (tokens ++ ·) := by
  induction h with
  | nil => simp
  | blank hc _ ih =>
      rw [List.cons_append, tokens?_blank hc]
      exact ih hapart hrest
  | @token token word others text hword hothers ih =>
      have hstops : token.isNumber = true → Stops (text ++ rest) := by
        intro hnumber
        refine hothers.stops (fun next hnext => ?_) fun hnil => ?_
        · obtain ⟨more, rfl⟩ := List.head?_eq_some_iff.mp hnext
          have hpair := (List.isChain_cons_cons.mp hapart).1
          simpa [hnumber] using hpair
        · subst hnil
          exact hrest token rfl hnumber
      obtain ⟨c, tail, rfl, hc, hread⟩ := token?_append hword hstops
      have hothersRead : tokens? (text ++ rest) = (tokens? rest).map (others ++ ·) := by
        refine ih (List.IsChain.of_cons hapart) fun last hlast => hrest last ?_
        rw [Option.mem_def, List.getLast?_cons, Option.mem_def.mp hlast, Option.getD_some]
      rw [List.append_assoc, List.cons_append, tokens?_token hc, hread, Option.bind_some,
        hothersRead, Option.map_map]
      rfl

/-- A sequence without two numbers side by side is read from just its spellings. -/
theorem tokens?_eq_some_iff (hapart : Apart tokens) :
    tokens? text = some tokens ↔ Spelled tokens text := by
  constructor
  · exact spelled_of_tokens?
  · intro h
    have hstops : ∀ token ∈ tokens.getLast?, token.isNumber = true → Stops [] :=
      fun _ _ _ _ hc => by cases hc
    have hread := tokens?_append h hapart hstops
    rwa [List.append_nil, tokens?_nil, Option.map_some, List.append_nil] at hread

end BlobCache.Json
