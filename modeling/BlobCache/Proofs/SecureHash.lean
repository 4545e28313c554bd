import BlobCache.Bytes
import Mathlib.Data.BitVec
import Mathlib.Data.Nat.Find
import Mathlib.Tactic.IntervalCases

/-!
# The Secure Hash Algorithm on bits

SHA-1 as the standard has it: a message is a list of bits, any number of them, and so is its hash
value. It is padded to whole blocks of 512 bits (`Sha1.Standard.padded`), a block is sixteen words
of 32 bits (`Sha1.Standard.wordAt`), and each block takes eighty steps with the words of its
schedule (`Sha1.Standard.mix`).

Nothing here is kept between calls or taken in piece by piece, and nothing knows of bytes. Where
bits come from bytes, the first bit of a byte is its most significant one (`Bits.ofBytes`), and
bytes can be read back from their bits (`Bits.ofBytes_inj`).
-/

namespace BlobCache

/-! ## Bits -/

namespace Bits

/-- The bits of a word, most significant first. -/
def ofWord {width : Nat} (x : BitVec width) : List Bool := (List.range width).map x.getMsbD

/-- The bits of a byte string. -/
def ofBytes (bytes : Bytes) : List Bool := bytes.flatMap fun b => ofWord b.toBitVec

/-- The word that bits spell, most significant first. -/
def word (width : Nat) (bits : List Bool) : BitVec width :=
  (BitVec.ofBoolListBE bits).setWidth width

/-- A word has as many bits as it is wide. -/
@[simp] theorem length_ofWord {width : Nat} (x : BitVec width) : (ofWord x).length = width := by
  simp [ofWord]

/-- No bytes have no bits. -/
@[simp] theorem ofBytes_nil : ofBytes [] = [] := rfl

/-- Bytes have the bits of the first one and then those of the rest. -/
@[simp] theorem ofBytes_cons (b : UInt8) (rest : Bytes) :
    ofBytes (b :: rest) = ofWord b.toBitVec ++ ofBytes rest := rfl

/-- Bytes behind others have their bits behind those of the others. -/
@[simp] theorem ofBytes_append (a b : Bytes) : ofBytes (a ++ b) = ofBytes a ++ ofBytes b :=
  List.flatMap_append

/-- A byte has eight bits. -/
@[simp] theorem length_ofBytes (bytes : Bytes) : (ofBytes bytes).length = 8 * bytes.length := by
  induction bytes with
  | nil => rfl
  | cons b rest ih =>
      rw [ofBytes_cons, List.length_append, length_ofWord, ih, List.length_cons]
      omega

/-- Bytes of zero have bits of zero. -/
theorem ofBytes_replicate_zero (count : Nat) :
    ofBytes (List.replicate count 0) = List.replicate (8 * count) false := by
  induction count with
  | zero => rfl
  | succ count ih =>
      rw [List.replicate_succ, ofBytes_cons, ih, Nat.mul_succ, Nat.add_comm, List.replicate_add]
      rfl

/-! ### Stretches of bits -/

/-- To drop bytes is to drop eight times as many bits. -/
theorem drop_ofBytes (count : Nat) (bytes : Bytes) :
    (ofBytes bytes).drop (8 * count) = ofBytes (bytes.drop count) := by
  induction count generalizing bytes with
  | zero => rfl
  | succ count ih =>
      cases bytes with
      | nil => simp
      | cons b rest =>
          rw [ofBytes_cons, List.drop_succ_cons, ← ih, Nat.mul_succ, Nat.add_comm,
            ← List.drop_drop, List.drop_left' (length_ofWord _)]

/-- To take bytes is to take eight times as many bits. -/
theorem take_ofBytes (count : Nat) (bytes : Bytes) :
    (ofBytes bytes).take (8 * count) = ofBytes (bytes.take count) := by
  by_cases h : count ≤ bytes.length
  · have hsplit : ofBytes bytes = ofBytes (bytes.take count) ++ ofBytes (bytes.drop count) := by
      rw [← ofBytes_append, List.take_append_drop]
    rw [hsplit, List.take_left' (by simp [h])]
  · rw [List.take_of_length_le (show bytes.length ≤ count by omega), List.take_of_length_le]
    rw [length_ofBytes]
    omega

/-! ### Words and their bits -/

/-- The bits of a word make up the word. -/
theorem word_ofWord {width : Nat} (x : BitVec width) : word width (ofWord x) = x := by
  apply BitVec.eq_of_getMsbD_eq
  intro i hi
  simp [word, BitVec.getMsbD_setWidth, BitVec.getMsbD_ofBoolListBE, ofWord, hi]

/-- Different words have different bits. -/
theorem ofWord_inj {width : Nat} {x y : BitVec width} : ofWord x = ofWord y ↔ x = y := by
  constructor
  · intro h
    rw [← word_ofWord x, h, word_ofWord]
  · rintro rfl
    rfl

/-- Different bytes have different bits. -/
theorem ofBytes_inj {a b : Bytes} : ofBytes a = ofBytes b ↔ a = b := by
  constructor
  · intro h
    have hlength : a.length = b.length := by
      have hbits := congrArg List.length h
      rw [length_ofBytes, length_ofBytes] at hbits
      omega
    induction a generalizing b with
    | nil => exact (List.length_eq_zero_iff.mp hlength.symm).symm
    | cons x a ih =>
        obtain ⟨y, b, rfl⟩ := List.exists_cons_of_length_eq_add_one hlength.symm
        obtain ⟨hbyte, hrest⟩ := List.append_inj h (by simp)
        rw [UInt8.toBitVec_inj.mp (ofWord_inj.mp hbyte), ih hrest (Nat.succ.inj hlength)]
  · rintro rfl
    rfl

/-- The bits of two words put together are those of both. -/
theorem ofWord_append {m n : Nat} (x : BitVec m) (y : BitVec n) :
    ofWord (x ++ y) = ofWord x ++ ofWord y := by
  refine List.ext_getElem (by simp) fun i hi _ => ?_
  rw [List.getElem_append]
  simp only [ofWord, List.getElem_map, List.getElem_range, BitVec.getMsbD_append,
    List.length_map, List.length_range]
  split <;> split <;> first | rfl | omega

/-- The bits of a stretch of a word are those of its upper and its lower part. -/
theorem ofWord_shiftRight {width : Nat} (x : BitVec width) (start upper lower : Nat) :
    ofWord ((x >>> start).setWidth (upper + lower)) =
      ofWord ((x >>> (start + lower)).setWidth upper) ++
        ofWord ((x >>> start).setWidth lower) := by
  rw [← ofWord_append]
  congr 1
  apply BitVec.eq_of_getLsbD_eq
  intro i hi
  rw [BitVec.getLsbD_append]
  by_cases h : i < lower
  · simp [h, hi]
  · have hindex : start + lower + (i - lower) = start + i := by omega
    have hupper : i - lower < upper := by omega
    simp [h, hi, hindex, hupper]

/-- A word as big-endian bytes has the bits of the word. -/
theorem ofBytes_bigEndian32 (n : UInt32) : ofBytes (bigEndian32 n) = ofWord n.toBitVec := by
  have h : n.toBitVec = (n.toBitVec >>> 0).setWidth (8 + (8 + (8 + 8))) := by simp
  rw [h]
  simp only [ofWord_shiftRight]
  simp [bigEndian32]

/-- A number of 64 bits, written with the highest byte first, has its own bits. -/
theorem ofBytes_bigEndian64 (n : UInt64) : ofBytes (bigEndian64 n) = ofWord n.toBitVec := by
  have h : n.toBitVec =
      (n.toBitVec >>> 0).setWidth (8 + (8 + (8 + (8 + (8 + (8 + (8 + 8))))))) := by simp
  rw [h]
  simp only [ofWord_shiftRight]
  simp [bigEndian64]

/-- The word that is put together from four bytes has these as its big-endian bytes. -/
theorem bigEndian32_of_bytes (a b c d : UInt8) :
    bigEndian32 (a.toUInt32 <<< 24 ||| b.toUInt32 <<< 16 ||| c.toUInt32 <<< 8 ||| d.toUInt32) =
      [a, b, c, d] := by
  have hbyte : ∀ x y : UInt8, (∀ i < 8, x.toBitVec.getLsbD i = y.toBitVec.getLsbD i) → x = y :=
    fun x y h => UInt8.toBitVec_inj.mp (BitVec.eq_of_getLsbD_eq h)
  simp only [bigEndian32, List.cons.injEq, and_true]
  refine ⟨hbyte _ _ ?_, hbyte _ _ ?_, hbyte _ _ ?_, hbyte _ _ ?_⟩
  all_goals
    intro i hi
    interval_cases i <;> simp

end Bits

/-! ## The algorithm -/

namespace Sha1.Standard

/-- A word. -/
abbrev Word := BitVec 32

/-! ### Preprocessing -/

/-- Some number of zeros fills the last block up to the length. -/
theorem exists_zeros (length : Nat) : ∃ count, (length + 1 + count) % 512 = 448 :=
  ⟨(959 - length % 512) % 512, by omega⟩

/-- How many zeros follow the one bit behind a message: the fewest that leave 64 bits of a block. -/
def zeros (length : Nat) : Nat := Nat.find (exists_zeros length)

/-- A message with a one bit behind it, zeros, and its length in the last 64 bits. The standard has
no messages of 2^64 bits or more; here the length of such a message is what 64 bits hold of it. -/
def padded (message : List Bool) : List Bool :=
  message ++ true :: (List.replicate (zeros message.length) false ++
    Bits.ofWord (BitVec.ofNat 64 message.length))

/-- A word of a block of a padded message. -/
def wordAt (padded : List Bool) (block index : Nat) : Word :=
  Bits.word 32 ((padded.drop (512 * block + 32 * index)).take 32)

/-! ### Functions and constants -/

/-- Each bit of `x` chooses between those of `y` and `z`. -/
def choose (x y z : Word) : Word := (x &&& y) ^^^ (~~~x &&& z)

/-- The bits of which one or all three are set. -/
def parity (x y z : Word) : Word := x ^^^ y ^^^ z

/-- The bits of which two or all three are set. -/
def majority (x y z : Word) : Word := (x &&& y) ^^^ (x &&& z) ^^^ (y &&& z)

/-- The function of a step. -/
def mixing (t : Nat) : Word → Word → Word → Word :=
  if t ≤ 19 then choose else if t ≤ 39 then parity else if t ≤ 59 then majority else parity

/-- The constant of a step. -/
def constant (t : Nat) : Word :=
  if t ≤ 19 then 0x5A827999 else if t ≤ 39 then 0x6ED9EBA1
  else if t ≤ 59 then 0x8F1BBCDC else 0xCA62C1D6

/-! ### Computation -/

/-- The message schedule of a block. -/
def schedule (block : Nat → Word) (t : Nat) : Word :=
  if _ : t < 16 then block t
  else (schedule block (t - 3) ^^^ schedule block (t - 8) ^^^ schedule block (t - 14) ^^^
    schedule block (t - 16)).rotateLeft 1
termination_by t

/-- Five words: a hash value, or the working variables. -/
structure Variables where
  /-- The first word. -/
  a : Word
  /-- The second word. -/
  b : Word
  /-- The third word. -/
  c : Word
  /-- The fourth word. -/
  d : Word
  /-- The fifth word. -/
  e : Word

/-- The initial hash value. -/
def initial : Variables := ⟨0x67452301, 0xEFCDAB89, 0x98BADCFE, 0x10325476, 0xC3D2E1F0⟩

/-- A step with a word of the schedule. -/
def turn (w : Nat → Word) (t : Nat) (v : Variables) : Variables :=
  ⟨v.a.rotateLeft 5 + mixing t v.b v.c v.d + v.e + constant t + w t, v.a, v.b.rotateLeft 30, v.c,
    v.d⟩

/-- The first steps. -/
def turns (w : Nat → Word) : Nat → Variables → Variables
  | 0, v => v
  | t + 1, v => turn w t (turns w t v)

/-- The hash value after a block. -/
def mix (block : Nat → Word) (h : Variables) : Variables :=
  let v := turns (schedule block) 80 h
  ⟨v.a + h.a, v.b + h.b, v.c + h.c, v.d + h.d, v.e + h.e⟩

/-- The hash value after the first blocks of a padded message. -/
def chain (padded : List Bool) : Nat → Variables
  | 0 => initial
  | block + 1 => mix (wordAt padded block) (chain padded block)

/-- The hash of a message, 160 bits. -/
def hash (message : List Bool) : List Bool :=
  let h := chain (padded message) ((padded message).length / 512)
  Bits.ofWord h.a ++ Bits.ofWord h.b ++ Bits.ofWord h.c ++ Bits.ofWord h.d ++ Bits.ofWord h.e

/-! ### The schedule -/

/-- The schedule starts with the words of the block. -/
theorem schedule_of_lt {block : Nat → Word} {t : Nat} (ht : t < 16) :
    schedule block t = block t := by
  rw [schedule, dif_pos ht]

/-- Any later word of the schedule is made of four earlier ones. -/
theorem schedule_add_sixteen (block : Nat → Word) (t : Nat) :
    schedule block (16 + t) =
      (schedule block (13 + t) ^^^ schedule block (8 + t) ^^^ schedule block (2 + t) ^^^
        schedule block t).rotateLeft 1 := by
  rw [schedule, dif_neg (by omega), show 16 + t - 3 = 13 + t by omega,
    show 16 + t - 8 = 8 + t by omega, show 16 + t - 14 = 2 + t by omega,
    show 16 + t - 16 = t by omega]

/-! ### Functions with the inclusive or -/

/-- A bit is chosen from one side only, so it does not matter how the sides are put together. -/
theorem choose_eq_or (x y z : Word) : choose x y z = (x &&& y) ||| (~~~x &&& z) := by
  apply BitVec.eq_of_getLsbD_eq
  intro i hi
  simp only [choose, BitVec.getLsbD_xor, BitVec.getLsbD_or, BitVec.getLsbD_and,
    BitVec.getLsbD_not, hi, decide_true, Bool.true_and]
  cases x.getLsbD i <;> simp

/-- Of three bits one pair or all three pairs are set, if any is. -/
theorem majority_eq_or (x y z : Word) :
    majority x y z = (x &&& y) ||| (x &&& z) ||| (y &&& z) := by
  apply BitVec.eq_of_getLsbD_eq
  intro i hi
  simp only [majority, BitVec.getLsbD_xor, BitVec.getLsbD_or, BitVec.getLsbD_and]
  cases x.getLsbD i <;> cases y.getLsbD i <;> simp

end Sha1.Standard

end BlobCache
