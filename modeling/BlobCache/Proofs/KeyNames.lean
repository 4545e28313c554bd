import BlobCache.Cache.Basic
import BlobCache.Proofs.Directories
import BlobCache.Proofs.Preimage

/-!
# Keys as file names

Everything in the cache directory is found by a path that is put together from the directory and a
key. `Key.names_entries` says why this is safe:

* A digest is printed as two lower-case hexadecimal digits for each byte and can be read back, so
  different digests have different keys, and each of these keys is accepted as text.
* A text is accepted as a key if and only if it can be one component of a path (`Key.IsKeyText`),
  and it is accepted as it is.
* A key put behind a directory's path is the last component there, and what stands before it is the
  path of the directory (`Path.parent?_join`, `Path.lastName?_join`), whether that is absolute or
  ends in dots or slashes. So different keys are different names in the directory.
-/

namespace BlobCache

/-! ## The last component of a path -/

namespace Path

namespace Plain

/-- The path without its last component; the top and the empty path have none. -/
def parent? (p : Plain) : Option Plain :=
  match p.names with
  | [] => none
  | _ :: outer => some ⟨p.absolute, outer⟩

/-- The last component, unless it stands for a directory as `.` and `..` do. -/
def lastName? (p : Plain) : Option Bytes :=
  p.names.head?.filter fun name => name != dot && name != dotDot

end Plain

variable {name : Bytes}

/-- A name behind a path is one component more. -/
theorem plain_join (path : Path) (h : IsName name) :
    plain (join path name) = ⟨(plain path).absolute, name :: (plain path).names⟩ := by
  have hdot : (name == dot) = false := beq_eq_false_iff_ne.mpr h.ne_dot
  have hkept : (name != dot) = true := bne_iff_ne.mpr h.ne_dot
  by_cases hpath : path = []
  · subst hpath
    have hjoin : join [] name = name := by
      unfold join
      rw [not_isAbsolute_of_isName h]
      rfl
    have hempty : isAbsolute [] = false := rfl
    rw [hjoin]
    simp [plain, not_isAbsolute_of_isName h, hempty, components_name h]
  · unfold plain
    rw [components_join hpath h, isAbsolute_join hpath h]
    rcases components path with _ | ⟨first, rest⟩
    · simp [hdot]
    · simp [hkept]

/-- It stands in the directory of the path. -/
theorem parent?_join (path : Path) (h : IsName name) :
    (plain (join path name)).parent? = some (plain path) := by
  rw [plain_join path h]
  rfl

/-- The last name of a joined path is the name that was put behind it. -/
theorem lastName?_join (path : Path) (h : IsName name) :
    (plain (join path name)).lastName? = some name := by
  rw [plain_join path h]
  simp [Plain.lastName?, h.ne_dot, h.ne_dotDot]

end Path

/-! ## Hexadecimal digits -/

namespace Hex

/-- A text in hexadecimal has two characters for each byte. -/
theorem length_encode (bytes : Bytes) : (encode bytes).length = 2 * bytes.length := by
  rw [encode, String.length_ofList, length_encodeChars]

/-- They are digits, or letters from a to f. -/
theorem isDigit_of_mem_encode {bytes : Bytes} {c : Char} (h : c ∈ (encode bytes).toList) :
    ('0' ≤ c ∧ c ≤ '9') ∨ ('a' ≤ c ∧ c ≤ 'f') := by
  have hall : digits.all (fun c => ('0' ≤ c ∧ c ≤ '9') ∨ ('a' ≤ c ∧ c ≤ 'f')) = true := by decide
  rw [encode, String.toList_ofList] at h
  exact of_decide_eq_true (List.all_eq_true.mp hall c (mem_encodeChars h))

end Hex

/-! ## Keys -/

namespace Key

/-- The text can be a key. -/
structure IsKeyText (text : String) : Prop where
  /-- It is not empty. -/
  ne_empty : text ≠ ""
  /-- It does not name the directory itself. -/
  ne_dot : text ≠ "."
  /-- It does not name the directory above. -/
  ne_dotDot : text ≠ ".."
  /-- It has no slash in it. -/
  no_slash : '/' ∉ text.toList
  /-- It has no backslash in it. -/
  no_backslash : '\\' ∉ text.toList
  /-- It has no zero character in it. -/
  no_zero : '\x00' ∉ text.toList

variable {text : String} {key : Key}

/-- What is accepted is a key, and it is accepted as it is. -/
theorem parse?_eq_some_iff : parse? text = some key ↔ key = ⟨text⟩ ∧ IsKeyText text := by
  have hallowed : text.toList.any isForbidden = false ↔
      '/' ∉ text.toList ∧ '\\' ∉ text.toList ∧ '\x00' ∉ text.toList := by
    simp only [List.any_eq_false, isForbidden, Bool.or_eq_true, beq_iff_eq, not_or]
    constructor
    · intro h
      exact ⟨fun hmem => (h _ hmem).1.1 rfl, fun hmem => (h _ hmem).1.2 rfl,
        fun hmem => (h _ hmem).2 rfl⟩
    · rintro ⟨hslash, hback, hzero⟩ c hmem
      exact ⟨⟨fun e => hslash (e ▸ hmem), fun e => hback (e ▸ hmem)⟩, fun e => hzero (e ▸ hmem)⟩
  have hgood : (text.isEmpty || text == "." || text == ".." || text.toList.any isForbidden) =
      false ↔ IsKeyText text := by
    simp only [Bool.or_eq_false_iff, hallowed, beq_eq_false_iff_ne, ne_eq]
    constructor
    · rintro ⟨⟨⟨hempty, hdot⟩, hdotDot⟩, hslash, hback, hzero⟩
      exact ⟨by simpa using hempty, hdot, hdotDot, hslash, hback, hzero⟩
    · rintro ⟨hempty, hdot, hdotDot, hslash, hback, hzero⟩
      exact ⟨⟨⟨by simpa using hempty, hdot⟩, hdotDot⟩, hslash, hback, hzero⟩
  unfold parse?
  rw [← hgood]
  cases text.isEmpty || text == "." || text == ".." || text.toList.any isForbidden
  · simp [eq_comm]
  · simp

/-- A text in hexadecimal has none of the characters that a key may not have. -/
theorem isKeyText_hex {bytes : Bytes} (h : bytes ≠ []) : IsKeyText (Hex.encode bytes) := by
  have hdigits : ∀ c ∈ (Hex.encode bytes).toList, c ∈ Hex.digits := fun c hmem =>
    Hex.mem_encodeChars (by rwa [Hex.encode, String.toList_ofList] at hmem)
  have hother : ∀ c, c ∉ Hex.digits → c ∉ (Hex.encode bytes).toList :=
    fun c hc hmem => hc (hdigits c hmem)
  have hlength := Hex.length_encode bytes
  have hpos := List.length_pos_iff.mpr h
  refine ⟨?_, ?_, ?_, hother _ (by decide), hother _ (by decide), hother _ (by decide)⟩
  · intro e
    rw [e, String.length_empty] at hlength
    omega
  · intro e
    exact hother '.' (by decide) (by rw [e]; decide)
  · intro e
    exact hother '.' (by decide) (by rw [e]; decide)

/-- It is accepted as text. -/
theorem parse?_hex {bytes : Bytes} (h : bytes ≠ []) :
    parse? (Hex.encode bytes) = some ⟨Hex.encode bytes⟩ :=
  parse?_eq_some_iff.mpr ⟨rfl, isKeyText_hex h⟩

/-- Keys are file names. A digest has a key of two lower-case hexadecimal digits for each byte, from
which it is read back, so no other digest has the same name, and the key is accepted as text. A text
is accepted, as it is, if and only if it can be a key. Behind the path of any directory a key is one
component more, a look-up of the path ends at this name in the directory that the path leads to, and
another key is another name there. -/
theorem names_entries :
    (∀ bytes : Bytes, bytes ≠ [] →
      (Hex.encode bytes).length = 2 * bytes.length ∧
      (∀ c ∈ (Hex.encode bytes).toList, ('0' ≤ c ∧ c ≤ '9') ∨ ('a' ≤ c ∧ c ≤ 'f')) ∧
      Hex.decode? (Hex.encode bytes) = some bytes ∧
      (∀ other : Bytes,
        fileName ⟨Hex.encode other⟩ = fileName ⟨Hex.encode bytes⟩ → other = bytes) ∧
      parse? (Hex.encode bytes) = some ⟨Hex.encode bytes⟩) ∧
    (∀ (text : String) (key : Key), parse? text = some key ↔ key = ⟨text⟩ ∧ IsKeyText text) ∧
    ∀ (text : String) (key : Key) (directory : Path), parse? text = some key →
      (Path.plain (Cache.entryPath directory key)).parent? = some (Path.plain directory) ∧
      (Path.plain (Cache.entryPath directory key)).lastName? = some (Utf8.encode text) ∧
      (∀ (fs : FileSystem) (location : Location), fs.Leads directory location →
        (Cache.entryPath directory key).length < FileSystem.pathLimit →
        fs.resolveLast (Cache.entryPath directory key) =
          .ok (.named location (Utf8.encode text) false)) ∧
      ∀ (text' : String) (key' : Key), parse? text' = some key' → text' ≠ text →
        Path.plain (Cache.entryPath directory key') ≠
          Path.plain (Cache.entryPath directory key) := by
  refine ⟨fun bytes hne => ?_, fun text key => parse?_eq_some_iff, ?_⟩
  · refine ⟨Hex.length_encode bytes, fun c => Hex.isDigit_of_mem_encode, Hex.decode?_encode bytes,
      fun other hname => ?_, parse?_hex hne⟩
    exact Hex.encode_inj.mp (congrArg Key.text (fileName_injective hname))
  · intro text key directory hkey
    obtain ⟨rfl, -⟩ := parse?_eq_some_iff.mp hkey
    have hname : IsName ⟨text⟩ := isName_of_parse? hkey
    unfold Cache.entryPath
    refine ⟨Path.parent?_join directory hname, Path.lastName?_join directory hname, ?_, ?_⟩
    · intro fs location hlead hlength
      have hlook := FileSystem.resolveLast_join hlead hname
      rw [if_neg (Nat.not_le.mpr hlength)] at hlook
      exact hlook
    · intro text' key' hkey' hne hsame
      obtain ⟨rfl, -⟩ := parse?_eq_some_iff.mp hkey'
      have hlast := Path.lastName?_join directory (isName_of_parse? hkey')
      rw [hsame, Path.lastName?_join directory hname] at hlast
      exact hne (Utf8.encode_injective (Option.some.inj hlast).symm)

/-- The key of a digest of three bytes and a key with a blank and dots, behind a path with dots and
a doubled slash. -/
theorem names_entries_in_odd_directory :
    let bytes : Bytes := [0x00, 0x0F, 0xA0]
    let directory := Path.ofText "/.//w/./"
    let fs := FileSystem.initial (Utf8.encode "w")
    let here := Location.top.child (Utf8.encode "w")
    (Hex.encode bytes = "000fa0" ∧ Hex.decode? (Hex.encode bytes) = some bytes ∧
        parse? (Hex.encode bytes) = some ⟨Hex.encode bytes⟩) ∧
      IsKeyText "a b.." ∧ parse? "a\\b" = none ∧
      (Path.plain (Cache.entryPath directory ⟨"a b.."⟩)).parent? = some (Path.plain directory) ∧
      fs.resolveLast (Cache.entryPath directory ⟨"a b.."⟩) =
        .ok (.named here (Utf8.encode "a b..") false) ∧
      Path.plain (Cache.entryPath directory ⟨"000fa0"⟩) ≠
        Path.plain (Cache.entryPath directory ⟨"a b.."⟩) := by
  intro bytes directory fs here
  obtain ⟨hdigest, htext, hpath⟩ := names_entries
  obtain ⟨-, -, hback, -, haccepted⟩ := hdigest bytes (by decide)
  have hkey : parse? "a b.." = some ⟨"a b.."⟩ := by decide +kernel
  obtain ⟨hparent, -, hlook, hother⟩ := hpath "a b.." ⟨"a b.."⟩ directory hkey
  have hrefused : parse? "a\\b" = none := by decide +kernel
  exact ⟨⟨by decide +kernel, hback, haccepted⟩, ((htext _ _).mp hkey).2, hrefused, hparent,
    hlook fs here (by decide +kernel) (by decide +kernel),
    hother "000fa0" ⟨"000fa0"⟩ (by decide +kernel) (by decide)⟩

end Key

end BlobCache
