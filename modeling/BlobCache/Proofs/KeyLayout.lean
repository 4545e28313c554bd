import BlobCache.Proofs.Preimage

/-!
# The layout of a key

What a key is the digest of, written out as a table of fields: numbers as their digits to base 256,
least significant first and in full width (`word`), texts and the input as they are, and nothing
between them (`Key.layout`). The text of the key is the digest of these bytes with two hexadecimal
digits for each of its bytes (`Key.derive_layout`).

Although the layout has no separators, it tells apart any two requests that differ in one field
alone (`Key.preimage_ne_of_variation`). `Key.Variation` lists these single changes. A compiler that
is given differs from none at all, whatever it says of itself; build flags differ from none only if
they are not empty.
-/

namespace BlobCache

/-! ## Numbers by their digits -/

/-- The lowest digits of a number to base 256, as many as asked for, least significant first. -/
def word : Nat → Nat → Bytes
  | 0, _ => []
  | width + 1, n => UInt8.ofNat (n % 256) :: word width (n / 256)

/-- Thirty-two bits are written in four bytes. -/
theorem littleEndian32_eq_word (n : UInt32) : littleEndian32 n = word 4 n.toNat := by
  apply List.map_injective_iff.mpr fun _ _ h => UInt8.toNat_inj.mp h
  simp only [littleEndian32, word, List.map_cons, List.map_nil, UInt32.toNat_toUInt8,
    toNat_byte32 _ 8 (by decide), toNat_byte32 _ 16 (by decide), toNat_byte32 _ 24 (by decide),
    UInt32.reduceToNat, UInt8.toNat_ofNat', List.cons.injEq, and_true]
  omega

/-- Sixty-four bits are written in eight bytes. -/
theorem littleEndian64_eq_word (n : UInt64) : littleEndian64 n = word 8 n.toNat := by
  apply List.map_injective_iff.mpr fun _ _ h => UInt8.toNat_inj.mp h
  simp only [littleEndian64, word, List.map_cons, List.map_nil, UInt64.toNat_toUInt8,
    toNat_byte64 _ 8 (by decide), toNat_byte64 _ 16 (by decide), toNat_byte64 _ 24 (by decide),
    toNat_byte64 _ 32 (by decide), toNat_byte64 _ 40 (by decide), toNat_byte64 _ 48 (by decide),
    toNat_byte64 _ 56 (by decide), UInt64.reduceToNat, UInt8.toNat_ofNat', List.cons.injEq,
    and_true]
  omega

namespace Hex

/-- The two digits of a byte to base 16, most significant first. -/
def pair (b : UInt8) : List Char := [Nat.digitChar (b.toNat / 16), Nat.digitChar (b.toNat % 16)]

/-- Digits are those that numbers are printed with. -/
theorem digit_eq_digitChar {n : Nat} (h : n < 16) : digit n = Nat.digitChar n := by
  have hall : ∀ n ∈ List.range 16, digit n = Nat.digitChar n := by decide
  exact hall n (List.mem_range.mpr h)

/-- A text in hexadecimal is a pair of digits for each byte. -/
theorem encodeChars_eq_flatMap (bytes : Bytes) : encodeChars bytes = bytes.flatMap pair := by
  induction bytes with
  | nil => rfl
  | cons b rest ih =>
      have hb : b.toNat < 256 := b.toNat_lt
      have hhigh : digit (b.toNat / 16) = Nat.digitChar (b.toNat / 16) :=
        digit_eq_digitChar (by omega)
      have hlow : digit (b.toNat % 16) = Nat.digitChar (b.toNat % 16) :=
        digit_eq_digitChar (by omega)
      rw [encodeChars, hhigh, hlow, ih, List.flatMap_cons]
      rfl

end Hex

namespace Key

/-! ## The table of fields -/

/-- The bytes behind a key. The compiler's three fields are there if a compiler is given, the build
flags if the request has any. -/
def layout (version : UInt32) (compiler : Option Compiler) (request : Request) : Bytes :=
  word 4 version.toNat ++
    (match compiler with
      | none => []
      | some c => Utf8.encode c.id ++ word 4 c.version.toNat ++ word 8 c.opsets.toNat) ++
    word 4 (match request.format with | .native => 1 | .intermediate => 2) ++
    request.input ++
    (match request.buildFlags with | none => [] | some text => Utf8.encode text) ++
    word 4 request.flags.bits.toNat

/-- What is digested for a key is laid out part by part. -/
theorem preimage_eq_layout (version : UInt32) (compiler : Option Compiler) (request : Request) :
    preimage version compiler request = layout version compiler request := by
  have hnumber : request.format.number.toNat =
      (match request.format with | .native => 1 | .intermediate => 2) := by
    cases request.format <;> rfl
  rw [preimage_eq]
  unfold layout body tail
  rw [← hnumber]
  cases compiler <;> cases request.buildFlags <;>
    simp [compilerBytes, littleEndian32_eq_word, littleEndian64_eq_word]

/-- A key spells the digest of its layout. -/
theorem derive_text {digest : Digest} (hstreams : digest.Streams) (version : UInt32)
    (compiler : Option Compiler) (request : Request) :
    (derive digest version compiler request).text =
      String.ofList ((digest.of (layout version compiler request)).flatMap Hex.pair) := by
  rw [derive_eq hstreams, preimage_eq_layout, Hex.encode, Hex.encodeChars_eq_flatMap]

/-! ## Single changes -/

/-- Two requests, each with its driver version and compiler, that differ in one field alone. -/
inductive Variation : UInt32 → Option Compiler → Request → UInt32 → Option Compiler → Request → Prop
  /-- Another version of the driver. -/
  | version {v v' : UInt32} {compiler : Option Compiler} {request : Request} :
      v ≠ v' → Variation v compiler request v' compiler request
  /-- A compiler of another name. -/
  | compilerId {v n : UInt32} {id id' : String} {opsets : UInt64} {request : Request} :
      id ≠ id' → Variation v (some ⟨id, n, opsets⟩) request v (some ⟨id', n, opsets⟩) request
  /-- Another version of the compiler. -/
  | compilerVersion {v n n' : UInt32} {id : String} {opsets : UInt64} {request : Request} :
      n ≠ n' → Variation v (some ⟨id, n, opsets⟩) request v (some ⟨id, n', opsets⟩) request
  /-- Other operation sets. -/
  | opsets {v n : UInt32} {id : String} {opsets opsets' : UInt64} {request : Request} :
      opsets ≠ opsets' →
        Variation v (some ⟨id, n, opsets⟩) request v (some ⟨id, n, opsets'⟩) request
  /-- A compiler where there was none. -/
  | compiler {v : UInt32} {c : Compiler} {request : Request} :
      Variation v none request v (some c) request
  /-- Another format. -/
  | format {v : UInt32} {compiler : Option Compiler} {request : Request} {format : Format} :
      request.format ≠ format →
        Variation v compiler request v compiler { request with format := format }
  /-- Another input. -/
  | input {v : UInt32} {compiler : Option Compiler} {request : Request} {input : Bytes} :
      request.input ≠ input →
        Variation v compiler request v compiler { request with input := input }
  /-- Another text of the build flags. -/
  | buildFlags {v : UInt32} {compiler : Option Compiler} {request : Request} {text text' : String} :
      request.buildFlags = some text → text ≠ text' →
        Variation v compiler request v compiler { request with buildFlags := some text' }
  /-- Build flags that are not empty where there were none. -/
  | addedBuildFlags {v : UInt32} {compiler : Option Compiler} {request : Request} {text : String} :
      request.buildFlags = none → text ≠ "" →
        Variation v compiler request v compiler { request with buildFlags := some text }
  /-- Other flags. -/
  | flags {v : UInt32} {compiler : Option Compiler} {request : Request} {flags : Flags} :
      request.flags ≠ flags →
        Variation v compiler request v compiler { request with flags := flags }

variable {version version' : UInt32} {compiler compiler' : Option Compiler}
  {request request' : Request}

/-- With one compiler and one format, the preimage still spells what follows them. -/
theorem tail_eq_of_preimage_eq
    (h : preimage version compiler request = preimage version' compiler request') :
    tail request = tail request' :=
  ((body_eq_iff_of_shape rfl).mp (preimage_eq_iff.mp h).2.2).2.2

/-- With one input and one text of build flags, the preimage still spells what stands before
them. -/
theorem front_eq_of_preimage_eq
    (h : preimage version compiler request = preimage version' compiler' request')
    (htail : tail request = tail request') :
    compiler = compiler' ∧ request.format = request'.format :=
  (body_eq_iff_of_tail htail).mp (preimage_eq_iff.mp h).2.2

/-- A single change is seen in the preimage. -/
theorem preimage_ne_of_variation
    (hvaries : Variation version compiler request version' compiler' request') :
    preimage version compiler request ≠ preimage version' compiler' request' := by
  intro h
  cases hvaries with
  | version hne => exact hne (preimage_eq_iff.mp h).1
  | compilerId hne =>
      have hcompiler := Option.some.inj (front_eq_of_preimage_eq h rfl).1
      exact hne (congrArg Compiler.id hcompiler)
  | compilerVersion hne =>
      have hcompiler := Option.some.inj (front_eq_of_preimage_eq h rfl).1
      exact hne (congrArg Compiler.version hcompiler)
  | opsets hne =>
      have hcompiler := Option.some.inj (front_eq_of_preimage_eq h rfl).1
      exact hne (congrArg Compiler.opsets hcompiler)
  | compiler => exact Option.some_ne_none _ (front_eq_of_preimage_eq h rfl).1.symm
  | format hne => exact hne (front_eq_of_preimage_eq h rfl).2
  | input hne => exact hne (List.append_cancel_right (tail_eq_of_preimage_eq h))
  | buildFlags hsome hne =>
      -- The input is the same, so the rest of the tail is the text of the build flags.
      have htexts := tail_eq_of_preimage_eq h
      simp only [tail, hsome, Option.map_some, Option.getD_some, List.append_cancel_left_eq]
        at htexts
      exact hne (Utf8.encode_injective htexts)
  | addedBuildFlags hnone hne =>
      have htexts := tail_eq_of_preimage_eq h
      simp only [tail, hnone, Option.map_none, Option.map_some, Option.getD_none, Option.getD_some,
        List.append_cancel_left_eq] at htexts
      exact hne (Utf8.encode_eq_nil_iff.mp htexts.symm)
  | flags hne => exact hne (preimage_eq_iff.mp h).2.1

/-- Under a digest that reads a stream whatever its chunks, the key of every request is the text of
the digest of its layout, the layout is what the chunks of its fields amount to, and the stream
differs from that of any request with a single change. -/
theorem derive_layout (digest : Digest) (hstreams : digest.Streams) (version : UInt32)
    (compiler : Option Compiler) (request : Request) :
    (derive digest version compiler request).text =
        String.ofList ((digest.of (layout version compiler request)).flatMap Hex.pair) ∧
      (fields version compiler request).flatten = layout version compiler request ∧
      ∀ (version' : UInt32) (compiler' : Option Compiler) (request' : Request),
        Variation version compiler request version' compiler' request' →
          (fields version compiler request).flatten ≠
            (fields version' compiler' request').flatten := by
  refine ⟨derive_text hstreams version compiler request,
    preimage_eq_layout version compiler request, ?_⟩
  intro version' compiler' request' hvaries
  exact preimage_ne_of_variation hvaries

/-- A request with a compiler and build flags, and the same request with one more operation set. -/
theorem derive_layout_of_opsets :
    Digest.weightedSum.Streams ∧
      (derive .weightedSum 0x00010000 (some ⟨"é", 3, 0x0102⟩)
        ⟨.intermediate, [0xAA], some "-O", ⟨2⟩⟩).text = "0000238e" ∧
      (fields 0x00010000 (some ⟨"é", 3, 0x0102⟩) ⟨.intermediate, [0xAA], some "-O", ⟨2⟩⟩).flatten =
        [0, 0, 1, 0] ++ [0xC3, 0xA9] ++ [3, 0, 0, 0] ++ [2, 1, 0, 0, 0, 0, 0, 0] ++ [2, 0, 0, 0] ++
          [0xAA] ++ [0x2D, 0x4F] ++ [2, 0, 0, 0] ∧
      (fields 0x00010000 (some ⟨"é", 3, 0x0102⟩) ⟨.intermediate, [0xAA], some "-O", ⟨2⟩⟩).flatten ≠
        (fields 0x00010000 (some ⟨"é", 3, 0x0103⟩)
          ⟨.intermediate, [0xAA], some "-O", ⟨2⟩⟩).flatten := by
  have hlaw := derive_layout .weightedSum Digest.streams_weightedSum 0x00010000
    (some ⟨"é", 3, 0x0102⟩) ⟨.intermediate, [0xAA], some "-O", ⟨2⟩⟩
  refine ⟨Digest.streams_weightedSum, ?_, ?_, hlaw.2.2 _ _ _ (.opsets (by decide))⟩
  · rw [hlaw.1]
    decide +kernel
  · rw [hlaw.2.1]
    decide +kernel

end Key

end BlobCache
