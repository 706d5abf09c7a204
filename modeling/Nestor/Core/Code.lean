import Nestor.Core.Key
import Nestor.Lib.LittleEndian

/-!
# The encoding of cache keys and values

`impl Code for Block` and `impl Code for BlockKey` of `key.rs`, by which the disk tier keeps them.
Decoding returns what it has not read; it fails only where the reader ends too early.
-/

namespace Nestor

open Lib

/-- `d.as_millis() as u64`. -/
def unixMillis (time : Nat) : Nat := time / 1000000 % 2 ^ 64

namespace Block

def metaHeader : Nat := 8 + 8 + 2

def encode (b : Block) : Bytes :=
  let etag := b.meta.etag.getD []
  leBytes 8 b.meta.size ++ leBytes 8 (b.meta.lastModified.elim 0 unixMillis) ++ leBytes 2
    (etag.length % 2 ^ 16) ++ etag ++ leBytes 4 (b.data.length % 2 ^ 32) ++ b.data

/-- An ETag of length zero is no ETag. -/
def readEtag (etagLen : Nat) (reader : Bytes) : Option (Option Bytes × Bytes) :=
  if 0 < etagLen then (readExact etagLen reader).map fun (etag, reader) => (some etag, reader)
  else some (none, reader)

def decode (reader : Bytes) : Option (Block × Bytes) := do
  let (header, reader) ← readExact metaHeader reader
  let (size, header) := getLe 8 header
  let (modified, header) := getLe 8 header
  let (etagLen, _) := getLe 2 header
  let (etag, reader) ← readEtag etagLen reader
  let (len, reader) ← readExact 4 reader
  let (data, reader) ← readExact (leNat len) reader
  some (⟨⟨size, etag, if 0 < modified then some (milliseconds modified) else none⟩, data⟩, reader)

def estimatedSize (b : Block) : Nat := metaHeader + b.meta.etag.elim 0 List.length + 4 + b.data.length

end Block

namespace BlockKey

def header : Nat := 4 + 8 + 4 + 4

def encode (k : BlockKey) : Bytes :=
  leBytes 4 k.namespace ++ leBytes 8 k.tag ++ leBytes 4 k.index ++ leBytes 4 (k.object.length % 2 ^ 32) ++
    k.object

def decode (reader : Bytes) : Option (BlockKey × Bytes) := do
  let (buf, reader) ← readExact header reader
  let (ns, buf) := getLe 4 buf
  let (tag, buf) := getLe 8 buf
  let (index, buf) := getLe 4 buf
  let (len, _) := getLe 4 buf
  let (object, reader) ← readExact len reader
  some (⟨ns, tag, index, object⟩, reader)

def estimatedSize (k : BlockKey) : Nat := header + k.object.length

end BlockKey

end Nestor
