import BlobCache.Config.Basic
import Mathlib.Data.List.Forall2
import Mathlib.Data.List.TakeWhile
import Mathlib.Data.Nat.Digits.Defs
import Mathlib.Tactic.IntervalCases
import Mathlib.Tactic.Ring

/-!
# Numerals and the budget

A numeral is one or more digits, with a plus sign in front if wanted, and stands for the number that
its digits make up (`Numeral.IsNumeral`). The reader knows exactly these, and only those below a
bound (`Numeral.unsigned?_eq_some_iff`): a number that is too big is refused, neither wrapped nor
cut.

The variable for the budget may have white space around its numeral (`Environment.SpellsBudget`).
The budget is the number that it spells, and the default in every other case
(`Environment.budget_exact`).
-/

namespace BlobCache

/-! ## Digits -/

namespace Numeral

/-- The character is the digit of a radix for a value, in either case. -/
structure IsDigit (radix value : Nat) (c : Char) : Prop where
  /-- The value is one of the radix. -/
  lt : value < radix
  /-- There are sixteen digits. -/
  le : value < 16
  /-- The character stands for the value. -/
  char : c = Nat.digitChar value ∨ c = (Nat.digitChar value).toUpper

/-- One or more digits, the first of which counts most, make up a number. -/
def Spells (radix n : Nat) (text : List Char) : Prop :=
  ∃ values : List Nat, values ≠ [] ∧ List.Forall₂ (IsDigit radix) values text ∧
    Nat.ofDigits radix values.reverse = n

/-- A numeral: a plus sign, which may be missing, and digits. -/
def IsNumeral (radix n : Nat) (text : List Char) : Prop :=
  ∃ sign digits, (sign = [] ∨ sign = ['+']) ∧ text = sign ++ digits ∧ Spells radix n digits

variable {radix bound n m value : Nat} {c : Char} {text : List Char}

/-- Sixteen characters are read as the digits that they are, small or large. -/
theorem digit?_digitChar_all : ∀ value ∈ List.range 16,
    digit? 16 (Nat.digitChar value) = some value ∧
      digit? 16 (Nat.digitChar value).toUpper = some value := by decide

/-- A radix below sixteen has fewer digits, with the values that they have in the other. -/
theorem digit?_eq_some_iff_of_le (hradix : radix ≤ 16) :
    digit? radix c = some value ↔ value < radix ∧ digit? 16 c = some value := by
  simp only [digit?, Option.filter_eq_some_iff, decide_eq_true_eq]
  constructor
  · rintro ⟨hvalue, hlt⟩
    exact ⟨hlt, hvalue, by omega⟩
  · rintro ⟨hlt, hvalue, -⟩
    exact ⟨hvalue, hlt⟩

/-- A character that is read as a digit is that digit, small or large. -/
theorem char_of_digit? (h : digit? 16 c = some value) :
    c = Nat.digitChar value ∨ c = (Nat.digitChar value).toUpper := by
  have hcode : c = Char.ofNat c.toNat := (Char.ofNat_toNat c).symm
  simp only [digit?, Option.filter_eq_some_iff, Char.le_def, UInt32.le_iff_toNat_le] at h
  obtain ⟨h, -⟩ := h
  change (if 48 ≤ c.toNat ∧ c.toNat ≤ 57 then some (c.toNat - 48)
    else if 97 ≤ c.toNat ∧ c.toNat ≤ 102 then some (c.toNat - 97 + 10)
    else if 65 ≤ c.toNat ∧ c.toNat ≤ 70 then some (c.toNat - 65 + 10) else none) = _ at h
  rw [hcode]
  generalize c.toNat = code at h
  split_ifs at h with hdigit hlower hupper
  · obtain ⟨hlow, hhigh⟩ := hdigit
    cases h
    interval_cases code <;> decide
  · obtain ⟨hlow, hhigh⟩ := hlower
    cases h
    interval_cases code <;> decide
  · obtain ⟨hlow, hhigh⟩ := hupper
    cases h
    interval_cases code <;> decide

/-- A character is read as a digit of a radix just if it is one. -/
theorem digit?_eq_some_iff (hradix : radix ≤ 16) :
    digit? radix c = some value ↔ IsDigit radix value c := by
  rw [digit?_eq_some_iff_of_le hradix]
  constructor
  · rintro ⟨hlt, h⟩
    exact ⟨hlt, Nat.lt_of_lt_of_le hlt hradix, char_of_digit? h⟩
  · rintro ⟨hlt, hle, hchar⟩
    obtain ⟨hlower, hupper⟩ := digit?_digitChar_all value (List.mem_range.mpr hle)
    rcases hchar with rfl | rfl
    · exact ⟨hlt, hlower⟩
    · exact ⟨hlt, hupper⟩

/-- Appending digits to a number moves it up by as many places and adds what they make up. -/
theorem digitsFrom?_eq_some_iff (hradix : radix ≤ 16) :
    digitsFrom? radix n text = some m ↔
      ∃ values, List.Forall₂ (IsDigit radix) values text ∧
        n * radix ^ text.length + Nat.ofDigits radix values.reverse = m := by
  induction text generalizing n with
  | nil => simp [digitsFrom?, eq_comm]
  | cons c rest ih =>
      simp only [digitsFrom?, Option.bind_eq_some_iff, ih, digit?_eq_some_iff hradix,
        List.forall₂_cons_right_iff]
      constructor
      · rintro ⟨value, hvalue, values, hvalues, rfl⟩
        refine ⟨value :: values, ⟨value, values, hvalue, hvalues, rfl⟩, ?_⟩
        rw [Nat.ofDigits_reverse_cons, hvalues.length_eq, List.length_cons]
        ring
      · rintro ⟨_, ⟨value, values, hvalue, hvalues, rfl⟩, rfl⟩
        refine ⟨value, hvalue, values, hvalues, ?_⟩
        rw [Nat.ofDigits_reverse_cons, hvalues.length_eq, List.length_cons]
        ring

/-- What is read are digits for the number. -/
theorem digits?_eq_some_iff (hradix : radix ≤ 16) :
    digits? radix text = some n ↔ Spells radix n text := by
  cases text with
  | nil => simp [digits?, Spells]
  | cons c rest =>
      rw [digits?, digitsFrom?_eq_some_iff hradix, Spells]
      constructor
      · rintro ⟨values, hvalues, hn⟩
        refine ⟨values, ?_, hvalues, by simpa using hn⟩
        rintro rfl
        cases hvalues
      · rintro ⟨values, -, hvalues, hn⟩
        exact ⟨values, hvalues, by simpa using hn⟩

/-- Digits begin with a digit. -/
theorem not_spells_cons (hc : digit? 16 c = none) (rest : List Char) :
    ¬Spells radix n (c :: rest) := by
  rintro ⟨values, -, hvalues, -⟩
  obtain ⟨value, _, hdigit, -, -⟩ := List.forall₂_cons_right_iff.mp hvalues
  have hvalue : digit? 16 c = some value :=
    (digit?_eq_some_iff (Nat.le_refl _)).mpr ⟨hdigit.le, hdigit.le, hdigit.char⟩
  rw [hc] at hvalue
  cases hvalue

/-- What is read is a numeral for a number below the bound. -/
theorem unsigned?_eq_some_iff (hradix : radix ≤ 16) :
    unsigned? radix bound text = some n ↔ n < bound ∧ IsNumeral radix n text := by
  unfold unsigned?
  simp only [Option.filter_eq_some_iff, digits?_eq_some_iff hradix, decide_eq_true_eq]
  rw [and_comm]
  refine and_congr_right fun _ => ?_
  split
  · rename_i rest
    constructor
    · exact fun h => ⟨['+'], rest, Or.inr rfl, rfl, h⟩
    · rintro ⟨sign, digits, rfl | rfl, htext, h⟩
      · rw [List.nil_append] at htext
        exact absurd (htext ▸ h) (not_spells_cons (by decide) rest)
      · cases htext
        exact h
  · rename_i hplus
    constructor
    · exact fun h => ⟨[], text, Or.inl rfl, rfl, h⟩
    · rintro ⟨sign, digits, rfl | rfl, htext, h⟩
      · exact htext ▸ h
      · exact absurd htext (hplus digits)

/-- Zeros in front of digits count nothing. -/
theorem Spells.zeros (hradix : 0 < radix) (h : Spells radix n text) (count : Nat) :
    Spells radix n (List.replicate count '0' ++ text) := by
  obtain ⟨values, hne, hvalues, rfl⟩ := h
  have hzero : IsDigit radix 0 '0' := ⟨hradix, by decide, Or.inl rfl⟩
  induction count with
  | zero => exact ⟨values, hne, hvalues, rfl⟩
  | succ count ih =>
      obtain ⟨padded, -, hpadded, hn⟩ := ih
      refine ⟨0 :: padded, List.cons_ne_nil _ _, ?_, ?_⟩
      · rw [List.replicate_succ, List.cons_append]
        exact .cons hzero hpadded
      · rw [Nat.ofDigits_reverse_zero_cons, hn]

/-- The digits that a number is printed with spell it. -/
theorem spells_toDigits_of_radix (hone : 1 < radix) (hradix : radix ≤ 16) (n : Nat) :
    Spells radix n (Nat.toDigits radix n) := by
  have hdigit : ∀ {value : Nat}, value < radix → IsDigit radix value (Nat.digitChar value) :=
    fun hlt => ⟨hlt, by omega, Or.inl rfl⟩
  induction n using Nat.strong_induction_on with
  | _ n ih =>
    rw [Nat.toDigits_eq_if hone]
    split
    · rename_i hlt
      exact ⟨[n], List.cons_ne_nil _ _, .cons (hdigit hlt) .nil, Nat.ofDigits_singleton⟩
    · have hless : n / radix < n := Nat.div_lt_self (by omega) hone
      obtain ⟨values, -, hvalues, hn⟩ := ih (n / radix) hless
      refine ⟨values ++ [n % radix], by simp, ?_, ?_⟩
      · exact List.rel_append hvalues (.cons (hdigit (Nat.mod_lt _ (by omega))) .nil)
      · rw [List.reverse_append, List.reverse_singleton, List.singleton_append, Nat.ofDigits_cons,
          hn, Nat.mod_add_div]

/-- The digits of a number spell it. -/
theorem spells_toDigits (n : Nat) : Spells 10 n (Nat.toDigits 10 n) :=
  spells_toDigits_of_radix (by decide) (by decide) n

/-- What spells a number is a numeral without a sign. -/
theorem Spells.isNumeral (h : Spells radix n text) : IsNumeral radix n text :=
  ⟨[], text, Or.inl rfl, rfl, h⟩

/-- What spells a number consists of digits. -/
theorem Spells.isDigit_of_mem (h : Spells radix n text) (hc : c ∈ text) :
    ∃ value, IsDigit radix value c := by
  obtain ⟨values, -, hvalues, -⟩ := h
  obtain ⟨i, hi, rfl⟩ := List.getElem_of_mem hc
  exact ⟨_, hvalues.get (hvalues.length_eq ▸ hi) hi⟩

/-- A numeral consists of digits but for its sign. -/
theorem IsNumeral.digit?_ne_none (h : IsNumeral radix n text) (hc : c ∈ text) (hplus : c ≠ '+') :
    digit? 16 c ≠ none := by
  obtain ⟨sign, digits, hsign, rfl, hspells⟩ := h
  have hnot : c ∉ sign := by
    intro hmem
    rcases hsign with rfl | rfl
    · cases hmem
    · exact hplus (List.mem_singleton.mp hmem)
  obtain ⟨value, hdigit⟩ := hspells.isDigit_of_mem ((List.mem_append.mp hc).resolve_left hnot)
  have hread : digit? 16 c = some value :=
    (digit?_eq_some_iff (Nat.le_refl _)).mpr ⟨hdigit.le, hdigit.le, hdigit.char⟩
  rw [hread]
  exact Option.some_ne_none value

/-- A number is printed in its decimal digits. -/
theorem toList_toString (n : Nat) : (toString n).toList = Nat.toDigits 10 n := by
  rw [Nat.toString_eq_repr, Nat.repr, String.toList_ofList]

/-- A number below the bound is read as it is printed. -/
theorem unsigned?_toString (h : n < bound) : unsigned? 10 bound (toString n).toList = some n := by
  rw [toList_toString]
  exact (unsigned?_eq_some_iff (by decide)).mpr ⟨h, (spells_toDigits n).isNumeral⟩

/-- A word of 32 bits is read as it is printed. -/
theorem word32?_toString (n : UInt32) : word32? (toString n.toNat) = some n := by
  have hread : unsigned? 10 limit32 (toString n.toNat).toList = some n.toNat :=
    unsigned?_toString n.toNat_lt
  unfold word32?
  rw [hread, Option.map_some, UInt32.ofNat_toNat]

/-- So is a word of 64 bits. -/
theorem word64?_toString (n : UInt64) : word64? (toString n.toNat) = some n := by
  have hread : unsigned? 10 limit64 (toString n.toNat).toList = some n.toNat :=
    unsigned?_toString n.toNat_lt
  unfold word64?
  rw [hread, Option.map_some, UInt64.ofNat_toNat]

end Numeral

/-! ## White space -/

namespace Blank

/-- The characters with the Unicode property `White_Space`. -/
def characters : List Char :=
  ['\t', '\n', '\x0B', '\x0C', '\r', ' ', '\u0085', '\u00A0', '\u1680', '\u2000', '\u2001',
    '\u2002', '\u2003', '\u2004', '\u2005', '\u2006', '\u2007', '\u2008', '\u2009', '\u200A',
    '\u2028', '\u2029', '\u202F', '\u205F', '\u3000']

/-- The ranges of blank characters are those of the characters named. -/
theorem codes_characters :
    (ranges.flatMap fun row => List.range' row.1 (row.2 + 1 - row.1)) =
      characters.map Char.toNat := by decide

/-- A character is blank just if it is one of them. -/
theorem isBlank_iff {c : Char} : isBlank c = true ↔ c ∈ characters := by
  have hcodes : isBlank c = true ↔
      c.toNat ∈ ranges.flatMap fun row => List.range' row.1 (row.2 + 1 - row.1) := by
    simp only [isBlank, List.any_eq_true, List.mem_flatMap, List.mem_range'_1, Bool.and_eq_true,
      decide_eq_true_eq]
    refine exists_congr fun row => and_congr_right fun _ => ?_
    omega
  rw [hcodes, codes_characters, List.mem_map_of_injective fun _ _ => Char.toNat_inj.mp]

/-- What is cut off at the ends is white space. -/
theorem exists_eq_append_trim (text : List Char) :
    ∃ lead trail, text = lead ++ trim text ++ trail ∧ (∀ c ∈ lead, c ∈ characters) ∧
      ∀ c ∈ trail, c ∈ characters := by
  have hblank : ∀ {some : List Char}, ∀ c ∈ some.takeWhile isBlank, c ∈ characters :=
    fun c hmem => isBlank_iff.mp (List.mem_takeWhile_imp hmem)
  refine ⟨text.takeWhile isBlank, ((text.dropWhile isBlank).reverse.takeWhile isBlank).reverse, ?_,
    hblank, fun c hmem => hblank c (List.mem_reverse.mp hmem)⟩
  rw [trim, List.append_assoc, ← List.reverse_append, List.takeWhile_append_dropWhile,
    List.reverse_reverse, List.takeWhile_append_dropWhile]

/-- Blanks in front of a text are dropped, and no more. -/
theorem dropWhile_append_of_blank {lead text : List Char} (hlead : ∀ c ∈ lead, c ∈ characters)
    (htext : ∀ c ∈ text, c ∉ characters) (hne : text ≠ []) (trail : List Char) :
    (lead ++ (text ++ trail)).dropWhile isBlank = text ++ trail := by
  obtain ⟨c, rest, rfl⟩ := List.exists_cons_of_ne_nil hne
  have hc : ¬isBlank c = true := fun h => htext c List.mem_cons_self (isBlank_iff.mp h)
  rw [List.dropWhile_append_of_pos fun c hmem => isBlank_iff.mpr (hlead c hmem), List.cons_append,
    List.dropWhile_cons_of_neg hc]

/-- A text without white space is what remains when white space around it is cut off. -/
theorem trim_append {lead text trail : List Char} (hlead : ∀ c ∈ lead, c ∈ characters)
    (htext : ∀ c ∈ text, c ∉ characters) (hne : text ≠ []) (htrail : ∀ c ∈ trail, c ∈ characters) :
    trim (lead ++ text ++ trail) = text := by
  have hback : (trail.reverse ++ (text.reverse ++ [])).dropWhile isBlank = text.reverse ++ [] :=
    dropWhile_append_of_blank (fun c hmem => htrail c (List.mem_reverse.mp hmem))
      (fun c hmem => htext c (List.mem_reverse.mp hmem)) (by simpa using hne) []
  rw [List.append_nil] at hback
  rw [trim, List.append_assoc, dropWhile_append_of_blank hlead htext hne, List.reverse_append,
    hback, List.reverse_reverse]

end Blank

/-- A numeral has some characters, and none of them is white space. -/
theorem Numeral.IsNumeral.solid {radix n : Nat} {text : List Char}
    (h : Numeral.IsNumeral radix n text) : text ≠ [] ∧ ∀ c ∈ text, c ∉ Blank.characters := by
  constructor
  · intro hnil
    obtain ⟨sign, digits, -, rfl, values, hne, hvalues, -⟩ := h
    obtain ⟨-, rfl⟩ := List.append_eq_nil_iff.mp hnil
    exact hne (List.forall₂_nil_right_iff.mp hvalues)
  · intro c hmem hblank
    have hall : Blank.characters.all (fun c => c != '+' && Numeral.digit? 16 c == none) = true := by
      decide
    have hc := List.all_eq_true.mp hall c hblank
    simp only [Bool.and_eq_true, bne_iff_ne, beq_iff_eq] at hc
    exact h.digit?_ne_none hmem hc.1 hc.2

/-! ## The budget -/

namespace Environment

/-- The value of the variable for the budget is a numeral of 64 bits with white space around it. -/
structure SpellsBudget (env : Environment) (n : Nat) : Prop where
  /-- The number is one of 64 bits. -/
  lt : n < 2 ^ 64
  /-- The value is a text with this numeral in it and nothing else but white space. -/
  text : ∃ lead numeral trail, Numeral.IsNumeral 10 n numeral ∧
    (∀ c ∈ lead, c ∈ Blank.characters) ∧ (∀ c ∈ trail, c ∈ Blank.characters) ∧
    env.get? budgetVariable = some (Utf8.encode (String.ofList (lead ++ numeral ++ trail)))

variable {env : Environment} {n : Nat} {value : Bytes} {word : UInt64}

/-- A value is read if and only if it is a numeral between white space. -/
theorem budgetOf?_eq_some_iff :
    budgetOf? value = some word ↔ ∃ lead numeral trail, Numeral.IsNumeral 10 word.toNat numeral ∧
      (∀ c ∈ lead, c ∈ Blank.characters) ∧ (∀ c ∈ trail, c ∈ Blank.characters) ∧
      value = Utf8.encode (String.ofList (lead ++ numeral ++ trail)) := by
  have hread : budgetOf? value = some word ↔ ∃ text, value = Utf8.encode text ∧
      Numeral.IsNumeral 10 word.toNat (Blank.trim text.toList) := by
    simp only [budgetOf?, Option.bind_eq_bind, Option.bind_eq_some_iff, Utf8.decode?_eq_some_iff,
      Numeral.unsigned?_eq_some_iff (show 10 ≤ 16 by decide), Option.pure_def, Option.some.injEq]
    refine exists_congr fun text => and_congr_right fun _ => ⟨?_, fun h => ?_⟩
    · rintro ⟨n, ⟨hlt, hn⟩, rfl⟩
      rwa [UInt64.toNat_ofNat_of_lt' hlt]
    · exact ⟨word.toNat, ⟨word.toNat_lt, h⟩, UInt64.ofNat_toNat⟩
  rw [hread]
  constructor
  · rintro ⟨text, rfl, h⟩
    obtain ⟨lead, trail, htext, hlead, htrail⟩ := Blank.exists_eq_append_trim text.toList
    exact ⟨lead, _, trail, h, hlead, htrail, by rw [← htext, String.ofList_toList]⟩
  · rintro ⟨lead, numeral, trail, h, hlead, htrail, rfl⟩
    refine ⟨_, rfl, ?_⟩
    obtain ⟨hne, hsolid⟩ := h.solid
    rwa [String.toList_ofList, Blank.trim_append hlead hsolid hne htrail]

/-- A number that is spelled is read. -/
theorem SpellsBudget.read (h : env.SpellsBudget n) :
    (env.get? budgetVariable).bind budgetOf? = some (UInt64.ofNat n) := by
  obtain ⟨hlt, lead, numeral, trail, hnumeral, hlead, htrail, hget⟩ := h
  have hword : (UInt64.ofNat n).toNat = n := UInt64.toNat_ofNat_of_lt' hlt
  rw [hget, Option.bind_some]
  exact budgetOf?_eq_some_iff.mpr ⟨lead, numeral, trail, hword.symm ▸ hnumeral, hlead, htrail, rfl⟩

/-- A budget that is spelled is read as it is. -/
theorem SpellsBudget.budget_eq (h : env.SpellsBudget n) : env.budget.toNat = n := by
  rw [budget, h.read, Option.getD_some, UInt64.toNat_ofNat_of_lt' h.lt]

/-- Where no number is spelled, the default holds. -/
theorem budget_of_not_spells (h : ¬∃ n, env.SpellsBudget n) : env.budget = defaultBudget := by
  rw [budget]
  rcases hread : (env.get? budgetVariable).bind budgetOf? with _ | word
  · rfl
  · obtain ⟨value, hget, hvalue⟩ := Option.bind_eq_some_iff.mp hread
    obtain ⟨lead, numeral, trail, hnumeral, hlead, htrail, rfl⟩ := budgetOf?_eq_some_iff.mp hvalue
    exact absurd ⟨word.toNat, word.toNat_lt, lead, numeral, trail, hnumeral, hlead, htrail, hget⟩ h

/-- A variable that is set has its value. -/
theorem get?_set_self (env : Environment) (name : String) (value : Bytes) :
    (env.set name value).get? name = some value := by
  simp [get?, set]

/-- The budget is the number that the variable spells, and four gibibytes if it spells none. So
every number of 64 bits is read back as it is printed, whatever white space and zeros it is padded
with. -/
theorem budget_exact (env : Environment) :
    (∀ n, env.SpellsBudget n → env.budget.toNat = n) ∧
      ((¬∃ n, env.SpellsBudget n) → env.budget = 4294967296) ∧
      ∀ (n : UInt64) (lead trail : List Char) (zeros : Nat),
        (∀ c ∈ lead, c ∈ Blank.characters) → (∀ c ∈ trail, c ∈ Blank.characters) →
        (env.set budgetVariable (Utf8.encode (String.ofList
          (lead ++ (List.replicate zeros '0' ++ (toString n.toNat).toList) ++ trail)))).budget =
            n := by
  refine ⟨fun n => SpellsBudget.budget_eq, budget_of_not_spells, ?_⟩
  intro n lead trail zeros hlead htrail
  have hprinted : Numeral.Spells 10 n.toNat (toString n.toNat).toList := by
    rw [Nat.toString_eq_repr, Nat.repr, String.toList_ofList]
    exact Numeral.spells_toDigits n.toNat
  have hspells : (env.set budgetVariable (Utf8.encode (String.ofList
      (lead ++ (List.replicate zeros '0' ++ (toString n.toNat).toList) ++ trail)))).SpellsBudget
        n.toNat :=
    ⟨n.toNat_lt, lead, _, trail, (hprinted.zeros (by decide) zeros).isNumeral, hlead, htrail,
      get?_set_self env _ _⟩
  exact UInt64.toNat_inj.mp hspells.budget_eq

/-- The greatest number of 64 bits is read with a sign, zeros and white space around it. The next
one is not, and neither is it wrapped: the default holds. -/
theorem budget_exact_at_limit :
    let none : Environment := ⟨[], .ok Path.dot⟩
    let greatest := none.set budgetVariable (Utf8.encode "\u3000+0018446744073709551615\n")
    let beyond := none.set budgetVariable (Utf8.encode "18446744073709551616")
    greatest.SpellsBudget 18446744073709551615 ∧
      greatest.budget.toNat = 18446744073709551615 ∧
      (¬∃ n, beyond.SpellsBudget n) ∧ beyond.budget = 4294967296 ∧
      (none.set budgetVariable (Utf8.encode (String.ofList ([' '] ++ (List.replicate 2 '0' ++
        (toString (4096 : UInt64).toNat).toList) ++ ['\n'])))).budget = 4096 := by
  intro none greatest beyond
  have hspells : greatest.SpellsBudget 18446744073709551615 := by
    have hread : Numeral.unsigned? 10 Numeral.limit64 "+0018446744073709551615".toList =
        some 18446744073709551615 := by decide +kernel
    exact ⟨by decide, ['\u3000'], "+0018446744073709551615".toList, ['\n'],
      ((Numeral.unsigned?_eq_some_iff (by decide)).mp hread).2,
      List.forall_mem_singleton.mpr (by decide), List.forall_mem_singleton.mpr (by decide),
      by decide +kernel⟩
  have hbeyond : ¬∃ n, beyond.SpellsBudget n := by
    rintro ⟨n, h⟩
    have hread := h.read
    rw [show (beyond.get? budgetVariable).bind budgetOf? = Option.none by decide +kernel] at hread
    cases hread
  exact ⟨hspells, (budget_exact greatest).1 _ hspells, hbeyond, (budget_exact beyond).2.1 hbeyond,
    (budget_exact none).2.2 4096 [' '] ['\n'] 2 (List.forall_mem_singleton.mpr (by decide))
      (List.forall_mem_singleton.mpr (by decide))⟩

end Environment

end BlobCache
