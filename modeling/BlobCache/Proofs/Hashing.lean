import BlobCache.Digest.Sha1
import BlobCache.Proofs.SecureHash

/-!
# Hashing chunk by chunk

The hasher of `Sha1.digest` takes in bytes one at a time and keeps those of an unfinished block. It
is compared with the algorithm on bits, which sees the whole message.

* A block: the words of a block, its schedule and its eighty rounds are those of the algorithm
  (`Sha1.variables_compress`).
* A message: what `Sha1.State.Holds` says of a state and the message taken in is kept by every byte,
  and so by every chunk (`Sha1.State.Holds.absorb`, `Sha1.State.Holds.foldl_chunks`).
* The end: the padding in bytes is the padding in bits (`Sha1.ofBytes_padding`), whether it fits
  into the block that is unfinished or needs another one.

`Sha1.digest_of_chunks` puts them together, for every list of chunks.
-/

namespace BlobCache.Sha1

open Standard (Word Variables)

/-! ## A block -/

/-- The chaining value as a hash value. -/
def Chain.variables (h : Chain) : Variables :=
  ⟨h.a.toBitVec, h.b.toBitVec, h.c.toBitVec, h.d.toBitVec, h.e.toBitVec⟩

/-! ### Rounds -/

section rounds

variable {w : Nat → Word} {t : Nat}

/-- Words are rotated as bit strings are. -/
theorem toBitVec_rotate (n x : UInt32) (hpos : 0 < n.toNat) (hn : n.toNat < 32) :
    (rotate n x).toBitVec = x.toBitVec.rotateLeft n.toNat := by
  have hback : (32 - n).toNat = 32 - n.toNat :=
    UInt32.toNat_sub_of_le _ _ (UInt32.le_iff_toNat_le.mpr hn.le)
  have hleft : (n.toBitVec % 32).toNat = n.toNat := Nat.mod_eq_of_lt hn
  have hright : ((32 - n).toBitVec % 32).toNat = 32 - n.toNat := by
    have hlt : (32 - n).toNat < 32 := by omega
    exact (Nat.mod_eq_of_lt hlt).trans hback
  rw [rotate, UInt32.toBitVec_or, UInt32.toBitVec_shiftLeft, UInt32.toBitVec_shiftRight,
    BitVec.shiftLeft_eq', BitVec.ushiftRight_eq', hleft, hright, BitVec.rotateLeft_def,
    Nat.mod_eq_of_lt hn]

/-- A round mixes and adds what the standard says. -/
theorem toBitVec_roundOf (t : Nat) (b c d : UInt32) :
    (roundOf t b c d).1.toBitVec = Standard.mixing t b.toBitVec c.toBitVec d.toBitVec ∧
      (roundOf t b c d).2.toBitVec = Standard.constant t := by
  unfold roundOf Standard.mixing Standard.constant
  by_cases h20 : t < 20
  · simp [h20, show t ≤ 19 by omega, Standard.choose_eq_or]
  by_cases h40 : t < 40
  · simp [h20, h40, show ¬t ≤ 19 by omega, show t ≤ 39 by omega, Standard.parity]
  by_cases h60 : t < 60
  · simp [h20, h40, h60, show ¬t ≤ 19 by omega, show ¬t ≤ 39 by omega, show t ≤ 59 by omega,
      Standard.majority_eq_or]
  · simp [h20, h40, h60, show ¬t ≤ 19 by omega, show ¬t ≤ 39 by omega, show ¬t ≤ 59 by omega,
      Standard.parity]

/-- A round is a step of the algorithm. -/
theorem variables_round (h : Chain) {word : UInt32} (hword : word.toBitVec = w t) :
    (round t h word).variables = Standard.turn w t h.variables := by
  obtain ⟨hf, hk⟩ := toBitVec_roundOf t h.b h.c h.d
  have h5 : (rotate 5 h.a).toBitVec = h.a.toBitVec.rotateLeft 5 :=
    toBitVec_rotate 5 h.a (by decide) (by decide)
  have h30 : (rotate 30 h.b).toBitVec = h.b.toBitVec.rotateLeft 30 :=
    toBitVec_rotate 30 h.b (by decide) (by decide)
  unfold round Chain.variables Standard.turn
  simp only [UInt32.toBitVec_add, h5, h30, hf, hk, hword]

/-- Rounds over some words are as many turns of the standard. -/
theorem variables_rounds {words : List UInt32}
    (hwords : ∀ i (hi : i < words.length), words[i].toBitVec = w (t + i)) {h : Chain}
    {v : Variables} (hstart : h.variables = Standard.turns w t v) :
    (rounds t h words).variables = Standard.turns w (t + words.length) v := by
  induction words generalizing t h with
  | nil => exact hstart
  | cons word rest ih =>
      have hword : word.toBitVec = w t := hwords 0 (Nat.succ_pos _)
      have hrest : ∀ i (hi : i < rest.length), rest[i].toBitVec = w (t + 1 + i) := by
        intro i hi
        rw [Nat.add_right_comm]
        exact hwords (i + 1) (Nat.succ_lt_succ hi)
      have hstep : (round t h word).variables = Standard.turns w (t + 1) v := by
        rw [variables_round h hword, hstart, Standard.turns]
      rw [rounds, ih hrest hstep, List.length_cons, Nat.add_right_comm, Nat.add_assoc]

end rounds

/-! ### The message schedule -/

section schedules

/-- The first of a sequence of words. -/
def firstWords (w : Nat → Word) (count : Nat) : List UInt32 :=
  (List.range count).map fun t => .ofBitVec (w t)

/-- There are as many first words as are asked for. -/
theorem length_firstWords (w : Nat → Word) (count : Nat) :
    (firstWords w count).length = count := by
  simp [firstWords]

/-- One more first word is the next one. -/
theorem firstWords_succ (w : Nat → Word) (count : Nat) :
    firstWords w (count + 1) = firstWords w count ++ [.ofBitVec (w count)] := by
  rw [firstWords, List.range_succ, List.map_append]
  rfl

/-- Counted from the end, first words are in the other order. -/
theorem getD_reverse_firstWords (w : Nat → Word) {count i : Nat} (hi : i < count) :
    (firstWords w count).reverse.getD i 0 = .ofBitVec (w (count - 1 - i)) := by
  rw [List.getD_eq_getElem?_getD, List.getElem?_reverse (by rwa [length_firstWords])]
  simp [firstWords, show count - 1 - i < count by omega]

variable (m : Nat → Word)

/-- A schedule is extended by the word that the standard says. -/
theorem extend_firstWords (count : Nat) :
    extend (firstWords (Standard.schedule m) (16 + count)).reverse =
      (firstWords (Standard.schedule m) (16 + count + 1)).reverse := by
  have hword : UInt32.ofBitVec (Standard.schedule m (16 + count)) = rotate 1
      (.ofBitVec (Standard.schedule m (13 + count)) ^^^ .ofBitVec (Standard.schedule m (8 + count))
        ^^^ .ofBitVec (Standard.schedule m (2 + count)) ^^^
        .ofBitVec (Standard.schedule m count)) := by
    apply UInt32.toBitVec_inj.mp
    rw [toBitVec_rotate 1 _ (by decide) (by decide), Standard.schedule_add_sixteen]
    rfl
  rw [firstWords_succ, List.reverse_append, hword]
  simp only [extend, getD_reverse_firstWords _ (show 2 < 16 + count by omega),
    getD_reverse_firstWords _ (show 7 < 16 + count by omega),
    getD_reverse_firstWords _ (show 13 < 16 + count by omega),
    getD_reverse_firstWords _ (show 15 < 16 + count by omega),
    show 16 + count - 1 - 2 = 13 + count by omega, show 16 + count - 1 - 7 = 8 + count by omega,
    show 16 + count - 1 - 13 = 2 + count by omega, show 16 + count - 1 - 15 = count by omega]
  rfl

/-- Sixteen words, extended some times, are as many more words of the schedule. -/
theorem repeat_extend (count : Nat) :
    Nat.repeat extend count (firstWords m 16).reverse =
      (firstWords (Standard.schedule m) (16 + count)).reverse := by
  induction count with
  | zero =>
      have hfirst : firstWords (Standard.schedule m) 16 = firstWords m 16 :=
        List.map_congr_left fun t ht => by
          rw [Standard.schedule_of_lt (List.mem_range.mp ht)]
      rw [Nat.repeat, Nat.add_zero, hfirst]
  | succ count ih => rw [Nat.repeat, ih, extend_firstWords, Nat.add_assoc]

variable {m} {block : Bytes}

/-- The words of a block are those of the schedule. -/
theorem schedule_eq (hblock : words block = firstWords m 16) :
    schedule block = firstWords (Standard.schedule m) 80 := by
  rw [schedule, hblock, repeat_extend, List.reverse_reverse]

/-- A block is mixed in as its sixteen words. -/
theorem variables_compress (h : Chain) (hblock : words block = firstWords m 16) :
    (compress h block).variables = Standard.mix m h.variables := by
  have hrounds : (rounds 0 h (schedule block)).variables =
      Standard.turns (Standard.schedule m) (0 + (schedule block).length) h.variables := by
    refine variables_rounds (fun i hi => ?_) rfl
    simp [schedule_eq hblock, firstWords]
  rw [schedule_eq hblock, length_firstWords, Nat.zero_add, ← schedule_eq hblock] at hrounds
  unfold compress Standard.mix
  rw [← hrounds]
  simp [Chain.variables, UInt32.toBitVec_add, BitVec.add_comm]

end schedules

/-! ### Words of bytes -/

/-- Four bytes make a word. -/
theorem length_words (bytes : Bytes) : (words bytes).length = bytes.length / 4 := by
  induction bytes using words.induct with
  | case1 a b c d rest ih =>
      rw [words, List.length_cons, ih]
      simp only [List.length_cons]
      omega
  | case2 bytes hshort =>
      have hlength : bytes.length < 4 := by
        rcases bytes with _ | ⟨a, _ | ⟨b, _ | ⟨c, _ | ⟨d, rest⟩⟩⟩⟩
        case cons.cons.cons.cons => exact absurd rfl (hshort a b c d rest)
        all_goals simp
      rw [words.eq_2 bytes hshort, List.length_nil]
      omega

/-- A word is spelled by the bits of its four bytes. -/
theorem toBitVec_words (bytes : Bytes) (t : Nat) (ht : t < (words bytes).length) :
    (words bytes)[t].toBitVec = Bits.word 32 (Bits.ofBytes ((bytes.drop (4 * t)).take 4)) := by
  induction bytes using words.induct generalizing t with
  | case1 a b c d rest ih =>
      cases t with
      | zero =>
          have hbytes : bigEndian32 (words (a :: b :: c :: d :: rest))[0] = [a, b, c, d] :=
            Bits.bigEndian32_of_bytes a b c d
          rw [← Bits.word_ofWord (words (a :: b :: c :: d :: rest))[0].toBitVec,
            ← Bits.ofBytes_bigEndian32, hbytes]
          rfl
      | succ t => exact ih t (Nat.lt_of_succ_lt_succ ht)
  | case2 bytes hshort =>
      rw [words.eq_2 bytes hshort] at ht
      exact absurd ht (Nat.not_lt_zero t)

/-! ## Whole blocks of a message -/

/-- The chaining value after the first blocks of a message. -/
def chainAfter (message : Bytes) : Nat → Chain
  | 0 => initial
  | count + 1 => compress (chainAfter message count) ((message.drop (64 * count)).take 64)

section blocks

variable {message : Bytes} {count : Nat}

/-- Later bytes do not change what the first blocks amount to. -/
theorem chainAfter_append {rest : Bytes} (h : 64 * count ≤ message.length) :
    chainAfter (message ++ rest) count = chainAfter message count := by
  induction count with
  | zero => rfl
  | succ count ih =>
      rw [chainAfter, chainAfter, ih (by omega), List.drop_append_of_le_length (by omega),
        List.take_append_of_le_length (by rw [List.length_drop]; omega)]

/-- The words of a block are those of the message at its place. -/
theorem words_block (h : 64 * (count + 1) ≤ message.length) :
    words ((message.drop (64 * count)).take 64) =
      firstWords (Standard.wordAt (Bits.ofBytes message) count) 16 := by
  have hlength : (words ((message.drop (64 * count)).take 64)).length = 16 := by
    rw [length_words, List.length_take, List.length_drop]
    omega
  refine List.ext_getElem (by rw [hlength, length_firstWords]) fun t ht _ => ?_
  have hbytes : (((message.drop (64 * count)).take 64).drop (4 * t)).take 4 =
      (message.drop (64 * count + 4 * t)).take 4 := by
    rw [List.drop_take, List.drop_drop, List.take_take, Nat.min_eq_left (by omega)]
  have hbits : (Bits.ofBytes ((message.drop (64 * count + 4 * t)).take 4)) =
      ((Bits.ofBytes message).drop (512 * count + 32 * t)).take 32 := by
    rw [← Bits.take_ofBytes, ← Bits.drop_ofBytes]
    congr 2
    omega
  apply UInt32.toBitVec_inj.mp
  rw [toBitVec_words _ _ ht, hbytes, hbits]
  simp [firstWords, Standard.wordAt]

/-- After some blocks the chaining values are those of the standard. -/
theorem variables_chainAfter (h : 64 * count ≤ message.length) :
    (chainAfter message count).variables = Standard.chain (Bits.ofBytes message) count := by
  induction count with
  | zero => rfl
  | succ count ih =>
      rw [chainAfter, variables_compress _ (words_block h), ih (by omega), Standard.chain]

end blocks

/-! ## Taking a message in -/

/-- The state is that after a message. -/
structure State.Holds (s : State) (message : Bytes) : Prop where
  /-- The bytes of the message are counted. -/
  length : s.length = message.length
  /-- So are those behind the last whole block. -/
  filled : s.filled = message.length % 64
  /-- These are kept, newest first. -/
  pending : s.pending.reverse = message.drop (64 * (message.length / 64))
  /-- The whole blocks are mixed into the chaining value. -/
  chain : s.chain = chainAfter message (message.length / 64)

/-- At the start nothing has been absorbed. -/
theorem holds_start : start.Holds [] := ⟨rfl, rfl, rfl, rfl⟩

namespace State.Holds

variable {s : State} {message : Bytes}

/-- One byte more: it is kept, or it completes a block. -/
theorem absorb (h : s.Holds message) (b : UInt8) : (absorb s b).Holds (message ++ [b]) := by
  have hlength : (message ++ [b]).length = message.length + 1 := List.length_append
  have hpending : (b :: s.pending).reverse =
      (message ++ [b]).drop (64 * (message.length / 64)) := by
    rw [List.reverse_cons, h.pending, List.drop_append_of_le_length (by omega)]
  have hchain : s.chain = chainAfter (message ++ [b]) (message.length / 64) := by
    rw [h.chain, chainAfter_append (by omega)]
  have hfilled := h.filled
  unfold Sha1.absorb
  by_cases hfull : s.filled = 63
  · rw [if_pos hfull]
    have hblocks : (message ++ [b]).length / 64 = message.length / 64 + 1 := by omega
    refine ⟨by rw [hlength, h.length], ?_, ?_, ?_⟩
    · show 0 = (message ++ [b]).length % 64
      omega
    · rw [List.reverse_nil, eq_comm, List.drop_eq_nil_iff]
      omega
    · rw [hblocks, chainAfter, ← hchain, hpending, List.take_of_length_le]
      rw [List.length_drop]
      omega
  · rw [if_neg hfull]
    have hblocks : (message ++ [b]).length / 64 = message.length / 64 := by omega
    refine ⟨by rw [hlength, h.length], ?_, by rw [hblocks, hpending], by rw [hblocks, ← hchain]⟩
    show s.filled + 1 = (message ++ [b]).length % 64
    omega

/-- Bytes are absorbed one after another. -/
theorem foldl_absorb (h : s.Holds message) (bytes : Bytes) :
    (bytes.foldl Sha1.absorb s).Holds (message ++ bytes) := by
  induction bytes generalizing s message with
  | nil => rwa [List.append_nil]
  | cons b rest ih =>
      rw [List.foldl_cons, ← List.singleton_append, ← List.append_assoc]
      exact ih (h.absorb b)

/-- Chunks are taken in one after another. -/
theorem foldl_chunks (h : s.Holds message) (chunks : List Bytes) :
    (chunks.foldl (fun state chunk => chunk.foldl Sha1.absorb state) s).Holds
      (message ++ chunks.flatten) := by
  induction chunks generalizing s message with
  | nil => rwa [List.flatten_nil, List.append_nil]
  | cons chunk rest ih =>
      rw [List.foldl_cons, List.flatten_cons, ← List.append_assoc]
      exact ih (h.foldl_absorb chunk)

end State.Holds

/-! ## The end of a message -/

/-- Behind whole bytes the fewest zeros are the seven that complete a byte, and whole bytes. -/
theorem zeros_bytes (length : Nat) :
    Standard.zeros (8 * length) = 7 + 8 * ((119 - length % 64) % 64) := by
  rw [Standard.zeros, Nat.find_eq_iff]
  constructor
  · omega
  · intro count hcount
    omega

/-- The padding in bytes is the padding in bits. -/
theorem ofBytes_padding (message : Bytes) :
    Bits.ofBytes (message ++ padding message.length) =
      Standard.padded (Bits.ofBytes message) := by
  have hmark : Bits.ofWord (0x80 : UInt8).toBitVec = true :: List.replicate 7 false := by decide
  have hlength : (UInt64.ofNat (8 * message.length)).toBitVec =
      BitVec.ofNat 64 (8 * message.length) := rfl
  rw [Standard.padded, Bits.length_ofBytes, zeros_bytes, List.replicate_add, padding,
    Bits.ofBytes_append, Bits.ofBytes_cons, Bits.ofBytes_append, Bits.ofBytes_replicate_zero,
    Bits.ofBytes_bigEndian64, hmark, hlength, List.cons_append, List.append_assoc]

/-- With its padding a message has whole blocks. -/
theorem length_padding (length : Nat) : (length + (padding length).length) % 64 = 0 := by
  simp only [padding, List.length_cons, List.length_append, List.length_replicate,
    length_bigEndian64]
  omega

/-- What is made of the state after a message is the hash of the message. -/
theorem State.Holds.finish {s : State} {message : Bytes} (h : s.Holds message) :
    Bits.ofBytes (finish s) = Standard.hash (Bits.ofBytes message) := by
  have hlast := h.foldl_absorb (padding s.length)
  have hpadded := ofBytes_padding message
  rw [h.length] at hlast
  have hwhole : (message ++ padding message.length).length % 64 = 0 := by
    rw [List.length_append, length_padding]
  have hcount : (Standard.padded (Bits.ofBytes message)).length / 512 =
      (message ++ padding message.length).length / 64 := by
    rw [← hpadded, Bits.length_ofBytes]
    omega
  have hchain : ((padding s.length).foldl Sha1.absorb s).chain.variables =
      Standard.chain (Standard.padded (Bits.ofBytes message))
        ((message ++ padding message.length).length / 64) := by
    rw [h.length, hlast.chain, variables_chainAfter (by omega), hpadded]
  unfold Sha1.finish Standard.hash
  simp only [hcount, ← hchain, Bits.ofBytes_append, Bits.ofBytes_bigEndian32]
  rfl

/-- However a message is cut into chunks, taking them in one after another gives the digest of the
whole. It has twenty bytes, and it is the byte string whose bits are the hash of the bits of the
message. -/
theorem digest_of_chunks (chunks : List Bytes) :
    finish (chunks.foldl (fun state chunk => chunk.foldl absorb state) start) =
        digest.of chunks.flatten ∧
      (digest.of chunks.flatten).length = 20 ∧
      ∀ bytes : Bytes, bytes = digest.of chunks.flatten ↔
        Bits.ofBytes bytes = Standard.hash (Bits.ofBytes chunks.flatten) := by
  have hof : digest.of chunks.flatten = finish (chunks.flatten.foldl absorb start) := rfl
  have hhash : Bits.ofBytes (digest.of chunks.flatten) =
      Standard.hash (Bits.ofBytes chunks.flatten) := by
    rw [hof, (holds_start.foldl_absorb chunks.flatten).finish, List.nil_append]
  refine ⟨?_, rfl, fun bytes => ?_⟩
  · apply Bits.ofBytes_inj.mp
    rw [(holds_start.foldl_chunks chunks).finish, hhash, List.nil_append]
  · rw [← hhash, Bits.ofBytes_inj]

example : Hex.encode (digest.of [0x61, 0x62, 0x63]) =
    "a9993e364706816aba3e25717850c26c9cd0d89d" := by decide +kernel

end BlobCache.Sha1
