import BlobCache.Bytes

/-!
# UTF-8

Names and paths are bytes; texts are Unicode. `Utf8.encode` and `Utf8.decode?` go between them and
refuse what is not the encoding of a text (`decode?_eq_some_iff`).

A byte string that is no text must still be shown in messages. `Utf8.pieces` cuts any byte string
into the scalars it spells and the broken runs between them: a broken run is the longest beginning
of a sequence that some continuation could have completed, or a single byte that begins none.
`Utf8.lossy` shows one replacement character for each broken run.
-/

namespace BlobCache.Utf8

/-! ## Exact conversion -/

/-- The encoding of a text. -/
def encode (text : String) : Bytes := text.toUTF8.data.toList

/-- The text with this encoding, if there is one. -/
def decode? (bytes : Bytes) : Option String := String.fromUTF8? ⟨bytes.toArray⟩

/-- An encoded text is decoded to itself. -/
@[simp] theorem decode?_encode (text : String) : decode? (encode text) = some text := by
  simp [decode?, encode, String.fromUTF8?, text.isValidUTF8]
  rfl

/-- Bytes are decoded only to the text that they encode. -/
theorem eq_encode_of_decode? {bytes : Bytes} {text : String} (h : decode? bytes = some text) :
    bytes = encode text := by
  unfold decode? String.fromUTF8? at h
  split at h
  · cases h; simp [encode, String.fromUTF8]
  · cases h

/-- Bytes are decoded to a text just if they encode it. -/
theorem decode?_eq_some_iff {bytes : Bytes} {text : String} :
    decode? bytes = some text ↔ bytes = encode text :=
  ⟨eq_encode_of_decode?, fun h => h ▸ decode?_encode text⟩

/-- Different texts have different encodings. -/
theorem encode_injective {s t : String} (h : encode s = encode t) : s = t := by
  have := decode?_encode s
  rw [h, decode?_encode] at this
  exact (Option.some.inj this).symm

/-! ## Pieces of any byte string -/

/-- A stretch of a byte string read as UTF-8. -/
inductive Piece where
  /-- A complete sequence and the scalar it spells. -/
  | scalar (c : Char)
  /-- Bytes that belong to no complete sequence. -/
  | broken (bytes : Bytes)

/-- A sequence that has begun and needs more continuation bytes. -/
structure Pending where
  /-- The bytes seen so far. -/
  seen : Bytes
  /-- The value that their payload bits spell. -/
  value : Nat
  /-- How many continuation bytes are missing, at least one. -/
  missing : Nat
  /-- The least continuation byte that may come next. -/
  low : UInt8
  /-- The greatest continuation byte that may come next. -/
  high : UInt8

/-- Reads a byte outside any sequence. The bounds on the second byte rule out overlong forms,
surrogates and values above U+10FFFF. -/
def start (b : UInt8) : List Piece × Option Pending :=
  if b < 0x80 then ([.scalar (Char.ofNat b.toNat)], none)
  else if 0xC2 ≤ b && b ≤ 0xDF then ([], some ⟨[b], b.toNat - 0xC0, 1, 0x80, 0xBF⟩)
  else if b == 0xE0 then ([], some ⟨[b], 0, 2, 0xA0, 0xBF⟩)
  else if b == 0xED then ([], some ⟨[b], 0xD, 2, 0x80, 0x9F⟩)
  else if 0xE1 ≤ b && b ≤ 0xEF then ([], some ⟨[b], b.toNat - 0xE0, 2, 0x80, 0xBF⟩)
  else if b == 0xF0 then ([], some ⟨[b], 0, 3, 0x90, 0xBF⟩)
  else if 0xF1 ≤ b && b ≤ 0xF3 then ([], some ⟨[b], b.toNat - 0xF0, 3, 0x80, 0xBF⟩)
  else if b == 0xF4 then ([], some ⟨[b], 4, 3, 0x80, 0x8F⟩)
  else ([.broken [b]], none)

/-- Reads one byte. A byte that cannot continue the pending sequence ends it as broken and is
read again on its own. -/
def step : Option Pending → UInt8 → List Piece × Option Pending
  | none, b => start b
  | some p, b =>
    if p.low ≤ b && b ≤ p.high then
      let value := p.value * 64 + (b.toNat - 0x80)
      if p.missing = 1 then ([.scalar (Char.ofNat value)], none)
      else ([], some ⟨p.seen ++ [b], value, p.missing - 1, 0x80, 0xBF⟩)
    else
      let (out, next) := start b
      (.broken p.seen :: out, next)

/-- The pieces of the rest of a byte string, inside or outside a sequence. -/
def piecesFrom : Option Pending → Bytes → List Piece
  | none, [] => []
  | some p, [] => [.broken p.seen]
  | state, b :: rest =>
    let (out, next) := step state b
    out ++ piecesFrom next rest

/-- The pieces of a byte string, in order. -/
def pieces (bytes : Bytes) : List Piece := piecesFrom none bytes

/-- A byte string shown as text: U+FFFD stands for each broken run. -/
def lossy (bytes : Bytes) : String :=
  String.ofList <| (pieces bytes).map fun
    | .scalar c => c
    | .broken _ => '\uFFFD'

end BlobCache.Utf8
