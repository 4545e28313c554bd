import BlobCache.Graph.Request
import BlobCache.Proofs.Numerals

/-!
# Formats as people type them

A text may write a number in decimal or, after `0x`, in hexadecimal (`Format.Writes`). No text
writes two numbers (`Format.Writes.unique`), and no name of a format writes any. So every text has
exactly one of four answers, and `Format.ofText_exact` says which: one of the formats, by its name
or by its number, or one of two errors. The number in the text of an error is written in the
shortest lower-case way (`Hex.IsShortest`).
-/

namespace BlobCache

/-! ## Numerals -/

namespace Numeral

variable {radix n m : Nat} {text : List Char}

/-- A numeral stands for one number. -/
theorem IsNumeral.unique (hradix : radix ≤ 16) (hn : IsNumeral radix n text)
    (hm : IsNumeral radix m text) : n = m := by
  have hread : unsigned? radix (n + m + 1) text = some n :=
    (unsigned?_eq_some_iff hradix).mpr ⟨by omega, hn⟩
  have hread' : unsigned? radix (n + m + 1) text = some m :=
    (unsigned?_eq_some_iff hradix).mpr ⟨by omega, hm⟩
  exact Option.some.inj (hread.symm.trans hread')

end Numeral

/-! ## Hexadecimal numbers -/

namespace Hex

/-- Lower-case hexadecimal digits of a number, and no zero in front of them. -/
structure IsShortest (n : Nat) (text : List Char) : Prop where
  /-- The digits make up the number. -/
  spells : Numeral.Spells 16 n text
  /-- They are in lower case. -/
  lower : ∀ c ∈ text, c ∈ digits
  /-- Only zero itself begins with a zero. -/
  bare : text.head? = some '0' → text = ['0']

/-- Sixteen characters are digits, and zero is written by zero only. -/
theorem digitChar_all : ∀ value ∈ List.range 16,
    Nat.digitChar value ∈ digits ∧ (Nat.digitChar value = '0' → value = 0) := by decide

/-- A printed number has digits only. -/
theorem mem_digits_toDigits (n : Nat) : ∀ c ∈ Nat.toDigits 16 n, c ∈ digits := by
  induction n using Nat.strong_induction_on with
  | _ n ih =>
    have hlast : Nat.digitChar (n % 16) ∈ digits :=
      (digitChar_all _ (List.mem_range.mpr (Nat.mod_lt _ (by decide)))).1
    intro c hc
    rw [Nat.toDigits_eq_if (by decide)] at hc
    split at hc
    · rename_i hlt
      rw [List.mem_singleton.mp hc, ← Nat.mod_eq_of_lt hlt]
      exact hlast
    · rcases List.mem_append.mp hc with hc | hc
      · exact ih (n / 16) (by omega) c hc
      · rw [List.mem_singleton.mp hc]
        exact hlast

/-- The first digit counts most, so it is a zero only if there is nothing else to write. -/
theorem eq_zero_of_head?_toDigits (n : Nat) (h : (Nat.toDigits 16 n).head? = some '0') : n = 0 := by
  induction n using Nat.strong_induction_on with
  | _ n ih =>
    rw [Nat.toDigits_eq_if (by decide)] at h
    split at h
    · rename_i hlt
      exact (digitChar_all n (List.mem_range.mpr hlt)).2 (Option.some.inj h)
    · rw [List.head?_append_of_ne_nil _ Nat.toDigits_ne_nil] at h
      have hzero := ih (n / 16) (by omega) h
      omega

/-- A printed number is the shortest that says it. -/
theorem isShortest_ofNat (n : Nat) : IsShortest n (ofNat n).toList := by
  rw [ofNat, String.toList_ofList]
  refine ⟨Numeral.spells_toDigits_of_radix (by decide) (by decide) n, mem_digits_toDigits n, ?_⟩
  intro hhead
  rw [eq_zero_of_head?_toDigits n hhead]
  rfl

end Hex

/-! ## Numbers of formats -/

namespace Format

/-- A number as it may be typed: in decimal, or in hexadecimal after `0x`. Either may have a plus
sign and zeros before its digits. -/
def Writes (text : String) (n : Nat) : Prop :=
  Numeral.IsNumeral 10 n text.toList ∨
    ∃ digits, text.toList = '0' :: 'x' :: digits ∧ Numeral.IsNumeral 16 n digits

variable {text : String} {n m : Nat}

/-- What begins with `0x` is no decimal numeral. -/
theorem not_isNumeral_hexadecimal (digits : List Char) :
    ¬Numeral.IsNumeral 10 n ('0' :: 'x' :: digits) := fun h =>
  h.digit?_ne_none (c := 'x') (by simp) (by decide) (by decide)

/-- A text writes one number at most. -/
theorem Writes.unique (hn : Writes text n) (hm : Writes text m) : n = m := by
  rcases hn with hn | ⟨digits, htext, hn⟩ <;> rcases hm with hm | ⟨digits', htext', hm⟩
  · exact hn.unique (by decide) hm
  · exact absurd (htext' ▸ hn) (not_isNumeral_hexadecimal digits')
  · exact absurd (htext ▸ hm) (not_isNumeral_hexadecimal digits)
  · rw [htext] at htext'
    cases htext'
    exact hn.unique (by decide) hm

/-- The name of a format has a letter in it that is no digit. -/
theorem not_writes_name (format : Format) : ¬Writes format.name n := by
  rintro (h | ⟨digits, hdigits, -⟩)
  · have hmem : 'n' ∈ format.name.toList := by cases format <;> decide
    exact h.digit?_ne_none hmem (by decide) (by decide)
  · cases format <;> cases hdigits

/-- What is read are the numbers of 32 bits that a text writes. -/
theorem numberOfText?_eq_some_iff :
    numberOfText? text.toList = some n ↔ n < 2 ^ 32 ∧ Writes text n := by
  unfold numberOfText? Writes
  split
  · rename_i digits htext
    rw [Numeral.unsigned?_eq_some_iff (by decide), htext]
    refine and_congr_right fun _ => ⟨fun h => Or.inr ⟨digits, rfl, h⟩, ?_⟩
    rintro (h | ⟨digits', hdigits, h⟩)
    · exact absurd h (not_isNumeral_hexadecimal digits)
    · cases hdigits
      exact h
  · rename_i hother
    rw [Numeral.unsigned?_eq_some_iff (by decide)]
    refine and_congr_right fun _ => ⟨Or.inl, ?_⟩
    rintro (h | ⟨digits, hdigits, -⟩)
    · exact h
    · exact absurd hdigits (hother digits)

/-- The name of a format is read as this format. -/
theorem ofText_name (format : Format) : ofText format.name = .ok format := by
  cases format <;> decide

/-- A number means the format with this number, or the error that there is none. -/
theorem ofText_of_writes {number : UInt32} (h : Writes text number.toNat) :
    ofText text =
      if number = 1 then .ok .native
      else if number = 2 then .ok .intermediate
      else .error (.unsupported number) := by
  have hread : numberOfText? text.toList = some number.toNat :=
    numberOfText?_eq_some_iff.mpr ⟨number.toNat_lt, h⟩
  have hnative : text ≠ "native" := fun e => not_writes_name .native (e ▸ h)
  have hintermediate : text ≠ "intermediate" := fun e => not_writes_name .intermediate (e ▸ h)
  unfold ofText ofNumber
  rw [if_neg hnative, if_neg hintermediate, hread]
  simp only [UInt32.ofNat_toNat]
  split_ifs <;> rfl

/-- What is neither a name nor a number of 32 bits is not known. -/
theorem ofText_of_other (hname : ∀ format : Format, text ≠ format.name)
    (hnumber : ¬∃ n < 2 ^ 32, Writes text n) : ofText text = .error (.unknown text) := by
  have hnative : text ≠ "native" := hname .native
  have hintermediate : text ≠ "intermediate" := hname .intermediate
  have hread : numberOfText? text.toList = none := by
    rw [Option.eq_none_iff_forall_ne_some]
    exact fun n e => hnumber ⟨n, numberOfText?_eq_some_iff.mp e⟩
  unfold ofText
  rw [if_neg hnative, if_neg hintermediate, hread]

/-- A text is a name, a number of 32 bits, or neither. -/
theorem name_or_number (text : String) :
    (∃ format : Format, text = format.name) ∨ (∃ number : UInt32, Writes text number.toNat) ∨
      ((∀ format : Format, text ≠ format.name) ∧ ¬∃ n < 2 ^ 32, Writes text n) := by
  by_cases hname : ∃ format : Format, text = format.name
  · exact Or.inl hname
  by_cases hnumber : ∃ n < 2 ^ 32, Writes text n
  · obtain ⟨n, hlt, h⟩ := hnumber
    exact Or.inr (Or.inl ⟨UInt32.ofNat n, by rwa [UInt32.toNat_ofNat_of_lt' hlt]⟩)
  · exact Or.inr (Or.inr ⟨fun format e => hname ⟨format, e⟩, hnumber⟩)

/-- A text is read as a format if it is its name or writes its number. -/
theorem ofText_eq_ok_iff {format : Format} :
    ofText text = .ok format ↔ text = format.name ∨ Writes text format.number.toNat := by
  constructor
  · intro h
    rcases name_or_number text with ⟨named, rfl⟩ | ⟨number, hnumber⟩ | ⟨hname, hnumber⟩
    · rw [ofText_name] at h
      cases h
      exact Or.inl rfl
    · rw [ofText_of_writes hnumber] at h
      split_ifs at h with hone htwo
      · cases h
        subst hone
        exact Or.inr hnumber
      · cases h
        subst htwo
        exact Or.inr hnumber
    · rw [ofText_of_other hname hnumber] at h
      cases h
  · rintro (rfl | h)
    · exact ofText_name format
    · rw [ofText_of_writes h]
      cases format <;> rfl

/-- A text is refused as an unsupported number just if it writes one that no format has. -/
theorem ofText_eq_unsupported_iff {number : UInt32} :
    ofText text = .error (.unsupported number) ↔
      Writes text number.toNat ∧ number ≠ 1 ∧ number ≠ 2 := by
  constructor
  · intro h
    rcases name_or_number text with ⟨named, rfl⟩ | ⟨written, hwritten⟩ | ⟨hname, hnumber⟩
    · rw [ofText_name] at h
      cases h
    · rw [ofText_of_writes hwritten] at h
      split_ifs at h with hone htwo
      cases h
      exact ⟨hwritten, hone, htwo⟩
    · rw [ofText_of_other hname hnumber] at h
      cases h
  · rintro ⟨h, hone, htwo⟩
    rw [ofText_of_writes h, if_neg hone, if_neg htwo]

/-- A text is unknown if it is no name and writes no number of 32 bits. -/
theorem ofText_eq_unknown_iff {given : String} :
    ofText text = .error (.unknown given) ↔
      given = text ∧ (∀ format : Format, text ≠ format.name) ∧ ¬∃ n < 2 ^ 32, Writes text n := by
  constructor
  · intro h
    rcases name_or_number text with ⟨named, rfl⟩ | ⟨number, hnumber⟩ | ⟨hname, hnumber⟩
    · rw [ofText_name] at h
      cases h
    · rw [ofText_of_writes hnumber] at h
      split_ifs at h
      cases h
    · rw [ofText_of_other hname hnumber] at h
      cases h
      exact ⟨rfl, hname, hnumber⟩
  · rintro ⟨rfl, hname, hnumber⟩
    exact ofText_of_other hname hnumber

/-- A number is written as it is printed, in decimal. -/
theorem writes_toString (n : Nat) : Writes (toString n) n := by
  refine Or.inl ?_
  rw [Numeral.toList_toString]
  exact (Numeral.spells_toDigits n).isNumeral

/-- So it is in hexadecimal. -/
theorem writes_hex (n : Nat) : Writes ("0x" ++ Hex.ofNat n) n :=
  Or.inr ⟨(Hex.ofNat n).toList, by rw [String.toList_append]; rfl,
    (Hex.isShortest_ofNat n).spells.isNumeral⟩

/-- Read from a text or given as a number, a format is refused in the same words. -/
theorem mapError_of_writes {number : UInt32} (h : Writes text number.toNat) :
    (ofText text).mapError FormatError.message = (ofNumber number).mapError LoadError.message := by
  rw [ofText_of_writes h, ofNumber]
  split_ifs <;> rfl

/-- What a text means. It is a format if and only if it is the name or writes the number of one. Any
other number of 32 bits is refused as such, with its shortest lower-case hexadecimal digits. Any
other text is not known, and neither is a number of more bits. So a number, however it is written,
gets the answer that the number itself gets, in particular if it is written as it is printed. -/
theorem ofText_exact (text : String) :
    (ofText text = .ok .native ↔ text = "native" ∨ Writes text 1) ∧
    (ofText text = .ok .intermediate ↔ text = "intermediate" ∨ Writes text 2) ∧
    (∀ number : UInt32, ofText text = .error (.unsupported number) ↔
      Writes text number.toNat ∧ number ≠ 1 ∧ number ≠ 2) ∧
    (∀ given, ofText text = .error (.unknown given) ↔
      given = text ∧ text ≠ "native" ∧ text ≠ "intermediate" ∧ ¬∃ n < 2 ^ 32, Writes text n) ∧
    (∀ n, Writes text n → 2 ^ 32 ≤ n → ofText text = .error (.unknown text)) ∧
    FormatError.message (.unknown text) = "unknown graph format '" ++ text ++ "'" ∧
    ∀ number : UInt32,
      (∃ digits, Hex.IsShortest number.toNat digits.toList ∧
        FormatError.message (.unsupported number) = "unsupported graph format 0x" ++ digits) ∧
      (Writes text number.toNat → (ofText text).mapError FormatError.message =
        (ofNumber number).mapError LoadError.message) ∧
      Writes (toString number.toNat) number.toNat ∧
      Writes ("0x" ++ Hex.ofNat number.toNat) number.toNat := by
  refine ⟨ofText_eq_ok_iff, ofText_eq_ok_iff, fun number => ofText_eq_unsupported_iff,
    fun given => ?_, fun n h hbig => ?_, rfl, fun number => ⟨?_, mapError_of_writes,
      writes_toString _, writes_hex _⟩⟩
  · have hnames : (∀ format : Format, text ≠ format.name) ↔
        text ≠ "native" ∧ text ≠ "intermediate" := by
      refine ⟨fun h => ⟨h .native, h .intermediate⟩, fun h format => ?_⟩
      cases format
      · exact h.1
      · exact h.2
    rw [ofText_eq_unknown_iff, hnames, and_assoc]
  · refine ofText_of_other (fun format e => not_writes_name format (e ▸ h)) ?_
    rintro ⟨m, hlt, hm⟩
    exact absurd hlt (Nat.not_lt.mpr (hm.unique h ▸ hbig))
  · exact ⟨Hex.ofNat number.toNat, Hex.isShortest_ofNat _, rfl⟩

/-- Seven is typed with a sign and zeros, ten is printed in hexadecimal, and a number of 33 bits is
typed. -/
theorem ofText_exact_of_numbers :
    ofText "0x+0007" = .error (.unsupported 7) ∧
      (ofText ("0x" ++ Hex.ofNat (10 : UInt32).toNat)).mapError FormatError.message =
        .error "unsupported graph format 0xa" ∧
      ofText "+04294967296" = .error (.unknown "+04294967296") := by
  have hseven : Writes "0x+0007" 7 :=
    (numberOfText?_eq_some_iff.mp (by decide +kernel : numberOfText? _ = some 7)).2
  have hbig : Writes "+04294967296" 4294967296 := by
    have hread : Numeral.unsigned? 10 4294967297 "+04294967296".toList = some 4294967296 := by
      decide +kernel
    exact Or.inl ((Numeral.unsigned?_eq_some_iff (by decide)).mp hread).2
  refine ⟨((ofText_exact _).2.2.1 7).mpr ⟨hseven, by decide, by decide⟩, ?_,
    (ofText_exact _).2.2.2.2.1 4294967296 hbig (by decide)⟩
  exact (((ofText_exact _).2.2.2.2.2.2 10).2.1 (writes_hex _)).trans (by decide +kernel)

end Format

end BlobCache
