import BlobCache.Digest.Simple
import BlobCache.Proofs.Names

/-!
# What a key is derived from

The fields behind a key are digested one after another with nothing between them. The driver version
in front and the flags at the end have a fixed width, so they can be read off; what lies between is
read as one string, `Key.body`. Two requests have the same preimage if and only if they agree on
these three (`Key.preimage_eq_iff`).

The body can be taken apart as long as the compilers have identities of one length
(`Key.body_eq_iff_of_shape`), or the input and the build flags are the same
(`Key.body_eq_iff_of_tail`). What it never tells apart is where the input ends and the build flags
begin, and so neither whether empty build flags are there at all.
-/

namespace BlobCache

/-! ## Words -/

/-- A byte of a word of 32 bits is a digit of it in radix 256. -/
theorem toNat_byte32 (n shift : UInt32) (h : shift.toNat < 32) :
    (n >>> shift).toUInt8.toNat = (n.toNat >>> shift.toNat) % 256 := by
  rw [UInt32.toNat_toUInt8, UInt32.toNat_shiftRight, Nat.mod_eq_of_lt h]

/-- So is a byte of a word of 64 bits. -/
theorem toNat_byte64 (n shift : UInt64) (h : shift.toNat < 64) :
    (n >>> shift).toUInt8.toNat = (n.toNat >>> shift.toNat) % 256 := by
  rw [UInt64.toNat_toUInt8, UInt64.toNat_shiftRight, Nat.mod_eq_of_lt h]

/-- Different words of 32 bits have different bytes. -/
theorem littleEndian32_inj {a b : UInt32} : littleEndian32 a = littleEndian32 b ↔ a = b := by
  constructor
  · intro h
    have hbytes := congrArg (List.map UInt8.toNat) h
    simp only [littleEndian32, List.map_cons, List.map_nil, List.cons.injEq, and_true,
      UInt32.toNat_toUInt8, toNat_byte32 _ 8 (by decide), toNat_byte32 _ 16 (by decide),
      toNat_byte32 _ 24 (by decide), UInt32.reduceToNat] at hbytes
    have ha := a.toNat_lt
    have hb := b.toNat_lt
    apply UInt32.toNat_inj.mp
    omega
  · rintro rfl
    rfl

/-- So have different words of 64 bits. -/
theorem littleEndian64_inj {a b : UInt64} : littleEndian64 a = littleEndian64 b ↔ a = b := by
  constructor
  · intro h
    have hbytes := congrArg (List.map UInt8.toNat) h
    simp only [littleEndian64, List.map_cons, List.map_nil, List.cons.injEq, and_true,
      UInt64.toNat_toUInt8, toNat_byte64 _ 8 (by decide), toNat_byte64 _ 16 (by decide),
      toNat_byte64 _ 24 (by decide), toNat_byte64 _ 32 (by decide), toNat_byte64 _ 40 (by decide),
      toNat_byte64 _ 48 (by decide), toNat_byte64 _ 56 (by decide), UInt64.reduceToNat] at hbytes
    have ha := a.toNat_lt
    have hb := b.toNat_lt
    apply UInt64.toNat_inj.mp
    omega
  · rintro rfl
    rfl

/-- Different formats have different numbers. -/
theorem Format.number_inj {a b : Format} : a.number = b.number ↔ a = b := by
  cases a <;> cases b <;> decide

/-! ## The parts of a preimage -/

namespace Key

/-- The bytes that a compiler contributes: none if it says nothing of itself. -/
def compilerBytes : Option Compiler → Bytes
  | none => []
  | some c => Utf8.encode c.id ++ littleEndian32 c.version ++ littleEndian64 c.opsets

/-- The input and the build flags, one after the other. -/
def tail (request : Request) : Bytes :=
  request.input ++ ((request.buildFlags.map Utf8.encode).getD [])

/-- What stands between the driver version and the flags. -/
def body (compiler : Option Compiler) (request : Request) : Bytes :=
  compilerBytes compiler ++ littleEndian32 request.format.number ++ tail request

variable {version version' : UInt32} {compiler compiler' : Option Compiler}
  {request request' : Request}

/-- What is digested starts with the version and ends with the flags. -/
theorem preimage_eq (version : UInt32) (compiler : Option Compiler) (request : Request) :
    preimage version compiler request =
      littleEndian32 version ++ body compiler request ++ littleEndian32 request.flags.bits := by
  unfold preimage fields body compilerBytes tail
  cases compiler <;> cases request.buildFlags <;> simp

/-- The preimage spells the driver version, the body and the flags, and nothing more. -/
theorem preimage_eq_iff :
    preimage version compiler request = preimage version' compiler' request' ↔
      version = version' ∧ request.flags = request'.flags ∧
        body compiler request = body compiler' request' := by
  rw [preimage_eq, preimage_eq]
  constructor
  · intro h
    obtain ⟨hfront, hflags⟩ := List.append_inj' h rfl
    obtain ⟨hversion, hbody⟩ := List.append_inj hfront rfl
    refine ⟨littleEndian32_inj.mp hversion, ?_, hbody⟩
    have hbits := littleEndian32_inj.mp hflags
    revert hbits
    cases request.flags
    cases request'.flags
    exact fun hbits => congrArg Flags.mk hbits
  · rintro ⟨rfl, hflags, hbody⟩
    rw [hflags, hbody]

/-! ## Taking the body apart -/

/-- A compiler takes the bytes of its identity and twelve more. -/
theorem length_compilerBytes_some (c : Compiler) :
    (compilerBytes (some c)).length = (Utf8.encode c.id).length + 12 := by
  simp [compilerBytes]

/-- Compilers that contribute as many bytes contribute the same only if they are the same. -/
theorem compilerBytes_inj : compilerBytes compiler = compilerBytes compiler' ↔
    compiler = compiler' := by
  constructor
  · intro h
    have hlength := congrArg List.length h
    cases compiler with
    | none =>
        cases compiler' with
        | none => rfl
        | some c' =>
            rw [length_compilerBytes_some] at hlength
            exact absurd hlength (by simp [compilerBytes])
    | some c =>
        cases compiler' with
        | none =>
            rw [length_compilerBytes_some] at hlength
            exact absurd hlength (by simp [compilerBytes])
        | some c' =>
            obtain ⟨hfront, hopsets⟩ := List.append_inj' h rfl
            obtain ⟨hid, hversion⟩ := List.append_inj' hfront rfl
            cases c
            cases c'
            simp only at hid hversion hopsets
            rw [Utf8.encode_injective hid, littleEndian32_inj.mp hversion,
              littleEndian64_inj.mp hopsets]
  · rintro rfl
    rfl

/-- With compilers whose identities have one length, the body spells the compiler, the format and
what follows. -/
theorem body_eq_iff_of_shape
    (hshape : (compilerBytes compiler).length = (compilerBytes compiler').length) :
    body compiler request = body compiler' request' ↔
      compiler = compiler' ∧ request.format = request'.format ∧ tail request = tail request' := by
  unfold body
  constructor
  · intro h
    obtain ⟨hfront, htail⟩ := List.append_inj h (by simp [hshape])
    obtain ⟨hcompiler, hformat⟩ := List.append_inj hfront hshape
    exact ⟨compilerBytes_inj.mp hcompiler, Format.number_inj.mp (littleEndian32_inj.mp hformat),
      htail⟩
  · rintro ⟨rfl, hformat, htail⟩
    rw [hformat, htail]

/-- With the same input and build flags, the body spells the compiler and the format. -/
theorem body_eq_iff_of_tail (htail : tail request = tail request') :
    body compiler request = body compiler' request' ↔
      compiler = compiler' ∧ request.format = request'.format := by
  unfold body
  constructor
  · intro h
    rw [htail] at h
    obtain ⟨hcompiler, hformat⟩ := List.append_inj' (List.append_cancel_right h) rfl
    exact ⟨compilerBytes_inj.mp hcompiler, Format.number_inj.mp (littleEndian32_inj.mp hformat)⟩
  · rintro ⟨rfl, hformat⟩
    rw [hformat, htail]

end Key

/-! ## Keys -/

/-- Different bytes are written differently in hexadecimal. -/
theorem Hex.encode_inj {a b : Bytes} : Hex.encode a = Hex.encode b ↔ a = b := by
  constructor
  · intro h
    have hdecoded := congrArg Hex.decode? h
    rw [Hex.decode?_encode, Hex.decode?_encode] at hdecoded
    exact Option.some.inj hdecoded
  · rintro rfl
    rfl

namespace Key

/-- A key is the digest of all that goes into it, in hexadecimal. -/
theorem derive_eq {digest : Digest} (hstreams : digest.Streams) (version : UInt32)
    (compiler : Option Compiler) (request : Request) :
    derive digest version compiler request =
      ⟨Hex.encode (digest.of (preimage version compiler request))⟩ := by
  rw [derive, hstreams]
  rfl

/-- Two requests share an entry if and only if their preimages are one, unless the digest collides
on them. -/
theorem derive_eq_derive_iff {digest : Digest} (hstreams : digest.Streams)
    {version version' : UInt32} {compiler compiler' : Option Compiler} {request request' : Request}
    (hfree : digest.of (preimage version compiler request) =
        digest.of (preimage version' compiler' request') →
      preimage version compiler request = preimage version' compiler' request') :
    derive digest version compiler request = derive digest version' compiler' request' ↔
      preimage version compiler request = preimage version' compiler' request' := by
  rw [derive_eq hstreams, derive_eq hstreams]
  constructor
  · intro h
    exact hfree (Hex.encode_inj.mp (congrArg Key.text h))
  · intro h
    rw [h]

/-- Which requests are told apart. Version, flags and body decide the preimage. With compilers whose
identities have one length, everything does but the place where the input ends and the build flags
begin; with one input and one text of build flags, everything does. A digest that does not collide
on two preimages gives one key to just those requests that have one preimage. -/
theorem told_apart_iff :
    (∀ (version version' : UInt32) (compiler compiler' : Option Compiler)
        (request request' : Request),
      (preimage version compiler request ≠ preimage version' compiler' request' ↔
        ¬(version = version' ∧ request.flags = request'.flags ∧
          body compiler request = body compiler' request')) ∧
      ((compilerBytes compiler).length = (compilerBytes compiler').length →
        (preimage version compiler request ≠ preimage version' compiler' request' ↔
          ¬(version = version' ∧ compiler = compiler' ∧ request.format = request'.format ∧
            request.flags = request'.flags ∧ tail request = tail request'))) ∧
      (tail request = tail request' →
        (preimage version compiler request ≠ preimage version' compiler' request' ↔
          ¬(version = version' ∧ compiler = compiler' ∧ request.format = request'.format ∧
            request.flags = request'.flags))) ∧
      ∀ digest : Digest, digest.Streams →
        (digest.of (preimage version compiler request) =
            digest.of (preimage version' compiler' request') →
          preimage version compiler request = preimage version' compiler' request') →
        (derive digest version compiler request ≠ derive digest version' compiler' request' ↔
          ¬(version = version' ∧ request.flags = request'.flags ∧
            body compiler request = body compiler' request'))) := by
  intro version version' compiler compiler' request request'
  refine ⟨not_congr preimage_eq_iff, fun hshape => not_congr ?_, fun htail => not_congr ?_,
    fun digest hstreams hfree => not_congr ?_⟩
  · rw [preimage_eq_iff, body_eq_iff_of_shape hshape]
    constructor
    · rintro ⟨hversion, hflags, hcompiler, hformat, htail⟩
      exact ⟨hversion, hcompiler, hformat, hflags, htail⟩
    · rintro ⟨hversion, hcompiler, hformat, hflags, htail⟩
      exact ⟨hversion, hflags, hcompiler, hformat, htail⟩
  · rw [preimage_eq_iff, body_eq_iff_of_tail htail]
    constructor
    · rintro ⟨hversion, hflags, hcompiler, hformat⟩
      exact ⟨hversion, hcompiler, hformat, hflags⟩
    · rintro ⟨hversion, hcompiler, hformat, hflags⟩
      exact ⟨hversion, hflags, hcompiler, hformat⟩
  · rw [derive_eq_derive_iff hstreams hfree, preimage_eq_iff]

/-- A request is told apart from one with other flags. -/
theorem told_apart_by_flags :
    derive .weightedSum 1 none ⟨.intermediate, [0x61], some "b", ⟨0⟩⟩ ≠
      derive .weightedSum 1 none ⟨.intermediate, [0x61], some "b", ⟨2⟩⟩ := by
  have hlaw := told_apart_iff 1 1 none none ⟨.intermediate, [0x61], some "b", ⟨0⟩⟩
    ⟨.intermediate, [0x61], some "b", ⟨2⟩⟩
  have hpreimage := (hlaw.2.1 rfl).mpr (by decide)
  exact (hlaw.2.2.2 .weightedSum Digest.streams_weightedSum (by decide +kernel)).mpr (by decide)

/-- Two requests can be mistaken for each other: what ends one input can begin the build flags of
the other, and empty build flags count as none. -/
theorem preimage_ambiguous :
    (¬∀ (version : UInt32) (compiler : Option Compiler) (request request' : Request),
        request ≠ request' →
          preimage version compiler request ≠ preimage version compiler request') ∧
      ¬∀ (version : UInt32) (compiler : Option Compiler) (request : Request) (text : String),
        request.buildFlags = none →
          preimage version compiler { request with buildFlags := some text } ≠
            preimage version compiler request := by
  constructor
  · intro h
    have hmoved := h driverVersion none ⟨.intermediate, [0x61, 0x62], none, ⟨0⟩⟩
      ⟨.intermediate, [0x61], some "b", ⟨0⟩⟩ (by decide)
    exact hmoved (by decide +kernel)
  · intro h
    exact h driverVersion none ⟨.intermediate, [0x61], none, ⟨0⟩⟩ "" rfl (by decide +kernel)

end Key

end BlobCache
