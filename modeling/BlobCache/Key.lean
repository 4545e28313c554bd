import BlobCache.Digest.Basic
import BlobCache.Graph.Request

/-!
# Cache keys

An entry of the cache is named by the digest of everything that can change what the compiler
produces: `Key.derive` feeds these fields to a digest in a fixed order (`Key.fields`) and prints the
result in hexadecimal. The order is part of the layout on disk.

A key given as text is accepted if it can be the name of a file directly in the cache directory
(`Key.parse?`).
-/

namespace BlobCache

/-- The name of a cache entry. The empty key stands for "do not cache". -/
structure Key where
  /-- The text. -/
  text : String
  deriving DecidableEq

namespace Key

/-- The key of what is not to be cached. -/
def empty : Key := ⟨""⟩

/-- Whether a key stands for "do not cache". -/
def isEmpty (key : Key) : Bool := key.text.isEmpty

/-- The file name of an entry. -/
def fileName (key : Key) : Path := Path.ofText key.text

/-! ## Keys as text -/

/-- Whether a character may not stand in a key. -/
def isForbidden (c : Char) : Bool := c == '/' || c == '\\' || c == '\x00'

/-- A key given as text: one plain component of a path. -/
def parse? (text : String) : Option Key :=
  if text.isEmpty || text == "." || text == ".." || text.toList.any isForbidden then none
  else some ⟨text⟩

/-! ## Derived keys -/

/-- The build of the driver. It changes whenever blobs are consumed differently, so that older
entries no longer match. -/
def driverVersion : UInt32 := 0x00010000

/-- The fields behind a key in the order in which they are digested. Without a compiler its three
fields are left out, and so are absent build flags. -/
def fields (version : UInt32) (compiler : Option Compiler) (request : Request) : List Bytes :=
  [littleEndian32 version] ++
    (match compiler with
      | none => []
      | some c => [Utf8.encode c.id, littleEndian32 c.version, littleEndian64 c.opsets]) ++
    [littleEndian32 request.format.number, request.input] ++
    (match request.buildFlags with
      | none => []
      | some text => [Utf8.encode text]) ++
    [littleEndian32 request.flags.bits]

/-- The bytes that the fields of a request amount to. -/
def preimage (version : UInt32) (compiler : Option Compiler) (request : Request) : Bytes :=
  (fields version compiler request).flatten

/-- The key of a request. -/
def derive (digest : Digest) (version : UInt32) (compiler : Option Compiler) (request : Request) :
    Key :=
  ⟨Hex.encode (digest.ofChunks (fields version compiler request))⟩

end Key

end BlobCache
