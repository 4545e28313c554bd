import BlobCache.Key
import Mathlib.Data.List.Basic

/-!
# Names of entries

What a directory can hold under one name, and how a name is put behind a directory's path.

* `Path.IsName`: the byte strings that are one plain component of a path.
* `Path.components_join`: a name put behind a directory's path is its last component, and the
  components before it are those of the directory.
* `Key.isName_of_parse?`, `Key.isName_derive`: a key that was accepted as text, and a key that was
  derived with a digest of at least one byte, is such a name. The only other key a cache works with
  is the empty one.
-/

namespace BlobCache

/-! ## ASCII in UTF-8 -/

namespace Utf8

/-- A text is encoded character by character. -/
theorem encode_eq_flatMap (text : String) :
    encode text = text.toList.flatMap String.utf8EncodeChar := by
  unfold encode
  rw [String.toUTF8, ← String.utf8Encode_toList, List.utf8Encode]
  simp

/-- Below 128 a byte of an encoded scalar is that scalar. -/
theorem eq_of_mem_utf8EncodeChar {c : Char} {b : UInt8} (hb : b.toNat < 128)
    (h : b ∈ String.utf8EncodeChar c) : c.toNat = b.toNat := by
  -- every byte of a longer sequence is some `128 + k`
  have hhigh : ∀ n, 128 ≤ n → n < 256 → b ≠ UInt8.ofNat n := by
    intro n hlow hn e
    rw [e, UInt8.toNat_ofNat', Nat.mod_eq_of_lt hn] at hb
    omega
  unfold String.utf8EncodeChar at h
  simp only at h
  split at h
  · rename_i hle
    rw [List.mem_singleton] at h
    rw [h, UInt8.toNat_ofNat', Nat.mod_eq_of_lt (by omega)]
    rfl
  · exfalso
    split at h
    · simp only [List.mem_cons, List.not_mem_nil, or_false] at h
      rcases h with h | h <;> exact hhigh _ (by omega) (by omega) h
    · split at h <;> simp only [List.mem_cons, List.not_mem_nil, or_false] at h
      · rcases h with h | h | h <;> exact hhigh _ (by omega) (by omega) h
      · rcases h with h | h | h | h <;> exact hhigh _ (by omega) (by omega) h

/-- An ASCII byte stands in an encoded text only for itself. -/
theorem mem_toList_of_mem_encode {text : String} {c : Char} {b : UInt8} (hb : b.toNat < 128)
    (hc : c.toNat = b.toNat) (h : b ∈ encode text) : c ∈ text.toList := by
  rw [encode_eq_flatMap, List.mem_flatMap] at h
  obtain ⟨d, hd, hmem⟩ := h
  have hd' := eq_of_mem_utf8EncodeChar hb hmem
  have : c = d := Char.toNat_inj.mp (hc.trans hd'.symm)
  exact this ▸ hd

/-- Only the empty text has no bytes. -/
@[simp] theorem encode_eq_nil_iff {text : String} : encode text = [] ↔ text = "" := by
  constructor
  · intro h
    exact encode_injective (h.trans rfl)
  · rintro rfl
    rfl

end Utf8

namespace Path

/-! ## Names -/

/-- One plain component of a path. -/
structure IsName (name : Bytes) : Prop where
  /-- It is not empty. -/
  ne_nil : name ≠ []
  /-- It has no separator in it. -/
  no_slash : slash ∉ name
  /-- It has no zero byte in it. -/
  no_zero : 0 ∉ name
  /-- It does not name the directory itself. -/
  ne_dot : name ≠ dot
  /-- It does not name the directory above. -/
  ne_dotDot : name ≠ dotDot

instance (name : Bytes) : Decidable (IsName name) :=
  decidable_of_iff
    (name ≠ [] ∧ slash ∉ name ∧ 0 ∉ name ∧ name ≠ dot ∧ name ≠ dotDot)
    ⟨fun ⟨a, b, c, d, e⟩ => ⟨a, b, c, d, e⟩, fun ⟨a, b, c, d, e⟩ => ⟨a, b, c, d, e⟩⟩

/-! ## Cutting at separators -/

/-- A slash splits what is before it from what is after it. -/
theorem splitFrom_append_slash (current a b : Bytes) :
    splitFrom current (a ++ slash :: b) = splitFrom current a ++ splitFrom [] b := by
  induction a generalizing current with
  | nil => simp [splitFrom]
  | cons x a ih =>
      simp only [List.cons_append, splitFrom]
      split
      · rw [ih, List.cons_append]
      · exact ih _

/-- Without a slash nothing is split. -/
theorem splitFrom_of_no_slash {current b : Bytes} (h : slash ∉ b) :
    splitFrom current b = [current.reverse ++ b] := by
  induction b generalizing current with
  | nil => simp [splitFrom]
  | cons x b ih =>
      have hx : x ≠ slash := fun e => h (e ▸ List.mem_cons_self)
      rw [splitFrom, if_neg hx, ih (fun hb => h (List.mem_cons_of_mem _ hb))]
      simp

/-- The components of two paths with a slash between them are those of both. -/
theorem components_append_slash (a b : Bytes) :
    components (a ++ slash :: b) = components a ++ components b := by
  unfold components
  rw [splitFrom_append_slash, List.filter_append]

/-- The empty path has no components. -/
@[simp] theorem components_nil : components [] = [] := rfl

/-- A name is its own only component. -/
theorem components_name {name : Bytes} (h : IsName name) : components name = [name] := by
  unfold components
  rw [splitFrom_of_no_slash h.no_slash]
  simp [h.ne_nil]

/-! ## A name behind a directory -/

/-- A name is no absolute path. -/
theorem not_isAbsolute_of_isName {name : Bytes} (h : IsName name) : isAbsolute name = false := by
  unfold isAbsolute
  cases name with
  | nil => rfl
  | cons b rest =>
      have hb : b ≠ slash := fun e => h.no_slash (e ▸ List.mem_cons_self)
      simp [hb]

/-- A name does not end in a slash. -/
theorem getLast?_name_ne_slash {name : Bytes} (h : IsName name) : name.getLast? ≠ some slash :=
  fun e => h.no_slash (List.mem_of_getLast? e)

/-- A directory's path with a name behind it: the separator is there already or is added. -/
theorem join_cases {path name : Bytes} (hp : path ≠ []) (h : IsName name) :
    (∃ front, path = front ++ [slash] ∧ join path name = front ++ slash :: name) ∨
      (endsInSlash path = false ∧ join path name = path ++ slash :: name) := by
  unfold join
  rw [not_isAbsolute_of_isName h]
  by_cases hs : endsInSlash path = true
  · left
    obtain ⟨front, rfl⟩ : ∃ front, path = front ++ [slash] := by
      have hlast : path.getLast? = some slash := by simpa [endsInSlash] using hs
      exact ⟨path.dropLast, (List.dropLast_append_getLast? _ hlast).symm⟩
    exact ⟨front, rfl, by simp [hs]⟩
  · right
    have hs' : endsInSlash path = false := by simpa using hs
    exact ⟨hs', by simp [hs', hp]⟩

/-- To join a name to a path adds a component. -/
theorem components_join {path name : Bytes} (hp : path ≠ []) (h : IsName name) :
    components (join path name) = components path ++ [name] := by
  rcases join_cases hp h with ⟨front, rfl, e⟩ | ⟨_, e⟩
  · rw [e, components_append_slash, components_append_slash, components_name h, components_nil,
      List.append_nil]
  · rw [e, components_append_slash, components_name h]

/-- A joined path is absolute if the path is. -/
theorem isAbsolute_join {path name : Bytes} (hp : path ≠ []) (h : IsName name) :
    isAbsolute (join path name) = isAbsolute path := by
  rcases join_cases hp h with ⟨front, rfl, e⟩ | ⟨_, e⟩
  · rw [e]
    cases front <;> rfl
  · rw [e]
    cases path with
    | nil => exact absurd rfl hp
    | cons b rest => rfl

/-- A joined path does not end in a slash. -/
theorem endsInSlash_join {path name : Bytes} (hp : path ≠ []) (h : IsName name) :
    endsInSlash (join path name) = false := by
  have hlast : (join path name).getLast? = name.getLast? := by
    obtain ⟨b, rest, rfl⟩ := List.exists_cons_of_ne_nil h.ne_nil
    rcases join_cases hp h with ⟨front, rfl, e⟩ | ⟨_, e⟩ <;> rw [e] <;>
      simp [List.getLast?_append, List.getLast?_cons]
  unfold endsInSlash
  rw [hlast]
  simpa using getLast?_name_ne_slash h

/-- A joined path has a zero byte if the path has. -/
theorem zero_mem_join {path name : Bytes} (hp : path ≠ []) (h : IsName name) :
    0 ∈ join path name ↔ 0 ∈ path := by
  have hz := h.no_zero
  have hslash : (0 : UInt8) ≠ slash := by decide
  rcases join_cases hp h with ⟨front, rfl, e⟩ | ⟨_, e⟩ <;> rw [e] <;> simp [hz, hslash]

/-- A joined path is not empty. -/
theorem join_ne_nil {path name : Bytes} (hp : path ≠ []) (h : IsName name) :
    join path name ≠ [] := by
  rcases join_cases hp h with ⟨front, rfl, e⟩ | ⟨_, e⟩ <;> rw [e] <;> simp

end Path

/-! ## Keys -/

namespace Key

/-- A key that is one plain component of a path. -/
def IsName (key : Key) : Prop := Path.IsName key.fileName

instance (key : Key) : Decidable key.IsName := inferInstanceAs (Decidable (Path.IsName _))

/-- Different keys have different names. -/
theorem fileName_injective {a b : Key} (h : a.fileName = b.fileName) : a = b := by
  cases a
  cases b
  exact congrArg Key.mk (Utf8.encode_injective h)

/-- A key that can be the name of a file is not empty. -/
theorem not_isEmpty_of_isName {key : Key} (h : key.IsName) : key.isEmpty = false := by
  by_contra he
  have htext : key.text = "" := by simpa [isEmpty] using he
  exact h.ne_nil (Utf8.encode_eq_nil_iff.mpr htext)

/-- A text without forbidden characters that is not empty and no run of dots is a name. -/
theorem isName_mk {text : String} (hne : text ≠ "") (hdot : text ≠ ".") (hdotDot : text ≠ "..")
    (hslash : '/' ∉ text.toList) (hzero : '\x00' ∉ text.toList) : IsName ⟨text⟩ where
  ne_nil := by simpa [fileName, Path.ofText] using hne
  no_slash h := hslash (Utf8.mem_toList_of_mem_encode (by decide) (by decide) h)
  no_zero h := hzero (Utf8.mem_toList_of_mem_encode (by decide) (by decide) h)
  ne_dot h := hdot (Utf8.encode_injective (h.trans rfl))
  ne_dotDot h := hdotDot (Utf8.encode_injective (h.trans rfl))

/-- A text that is accepted as a key is a name. -/
theorem isName_of_parse? {text : String} {key : Key} (h : parse? text = some key) :
    key.IsName := by
  unfold parse? at h
  split at h
  · cases h
  · rename_i hbad
    cases h
    simp only [Bool.or_eq_true, beq_iff_eq, List.any_eq_true, isForbidden, not_or, not_exists,
      not_and] at hbad
    obtain ⟨⟨⟨hne, hdot⟩, hdotDot⟩, hall⟩ := hbad
    refine isName_mk (by simpa using hne) hdot hdotDot ?_ ?_
    · exact fun hmem => (hall _ hmem).1.1 rfl
    · exact fun hmem => (hall _ hmem).2 rfl

end Key

namespace Hex

/-- Only digits are written in hexadecimal. -/
theorem mem_encodeChars {bytes : Bytes} {c : Char} (h : c ∈ encodeChars bytes) : c ∈ digits := by
  have hdigit : ∀ n, n < 16 → digit n ∈ digits := by decide
  induction bytes with
  | nil => exact absurd h List.not_mem_nil
  | cons b rest ih =>
      have hb : b.toNat < 256 := b.toNat_lt
      rcases List.mem_cons.mp h with rfl | h
      · exact hdigit _ (by omega)
      · rcases List.mem_cons.mp h with rfl | h
        · exact hdigit _ (by omega)
        · exact ih h

end Hex

namespace Key

/-- A key in hexadecimal of at least one byte is a name. -/
theorem isName_hex {bytes : Bytes} (h : bytes ≠ []) : IsName ⟨Hex.encode bytes⟩ := by
  have hlist : (Hex.encode bytes).toList = Hex.encodeChars bytes := String.toList_ofList
  have hlen : 2 ≤ (Hex.encode bytes).toList.length := by
    have := List.length_pos_iff.mpr h
    rw [hlist, Hex.length_encodeChars]
    omega
  have hmem : ∀ c, c ∉ Hex.digits → c ∉ (Hex.encode bytes).toList :=
    fun c hc hin => hc (Hex.mem_encodeChars (hlist ▸ hin))
  refine isName_mk ?_ ?_ ?_ (hmem _ (by decide)) (hmem _ (by decide))
  · intro e
    rw [e] at hlen
    simp at hlen
  · intro e
    exact hmem '.' (by decide) (by rw [e]; decide)
  · intro e
    exact hmem '.' (by decide) (by rw [e]; decide)

/-- A key derived with a digest of at least one byte is a name. -/
theorem isName_derive {digest : Digest} (hsized : digest.Sized) (hpos : 0 < digest.size)
    (version : UInt32) (compiler : Option Compiler) (request : Request) :
    (derive digest version compiler request).IsName := by
  refine isName_hex fun h => ?_
  have hlen := hsized (fields version compiler request)
  rw [h, List.length_nil] at hlen
  omega

end Key

end BlobCache
