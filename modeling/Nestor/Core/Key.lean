import Nestor.Core.Error

/-!
# Metadata, cache keys and values

The types of `key.rs` and `origin.rs` that the engine passes around, and the content tag that tells
the versions of an object apart.
-/

namespace Nestor

/-- A number of milliseconds, in nanoseconds: the unit of every duration, and of instants since the
epoch. -/
def milliseconds (n : Nat) : Nat := n * 1000000

structure ObjectMeta where
  size : Nat
  etag : Option Bytes
  lastModified : Option Nat
deriving DecidableEq, Repr

structure Block where
  «meta» : ObjectMeta
  data : Bytes
deriving DecidableEq, Repr

def Block.empty (m : ObjectMeta) : Block := ⟨m, []⟩

abbrev NamespaceId := Nat

structure ObjectKey where
  «namespace» : NamespaceId
  object : Bytes
deriving DecidableEq, Repr

structure BlockKey where
  «namespace» : NamespaceId
  tag : Nat
  index : Nat
  object : Bytes
deriving DecidableEq, Repr

def BlockKey.new (object : ObjectKey) (tag index : Nat) : BlockKey :=
  ⟨object.namespace, tag, index, object.object⟩

inductive Consistency where
  | immutable
  | etag (ttl : Nat)
deriving DecidableEq, Repr

namespace Consistency

def isImmutable : Consistency → Bool
  | .immutable => true
  | .etag _ => false

def metaTtl : Consistency → Option Nat
  | .immutable => none
  | .etag ttl => some ttl

end Consistency

/-- The seeded hasher behind the content tag, of the crate `ahash`: what it makes of the bytes of an
ETag and of a size. -/
class TagHash where
  write : Bytes → Nat
  writeU64 : Nat → Nat

namespace Sample

/-- A hash to evaluate the model with. -/
scoped instance : TagHash where
  write := List.foldl (fun h b => 256 * h + b.toNat) 1
  writeU64 := id

end Sample

section Tags

variable [TagHash]

/-- The tag of a version, never `0`. -/
def contentTag (etag : Option Bytes) (size : Nat) : Nat :=
  let finish := match etag with
    | some etag => TagHash.write etag
    | none => TagHash.writeU64 size
  max finish 1

def immutableTag : Nat := 0

def blockTag (consistency : Consistency) (m : ObjectMeta) : Nat :=
  if consistency.isImmutable then immutableTag else contentTag m.etag m.size

theorem contentTag_ne_immutable (etag : Option Bytes) (size : Nat) :
    contentTag etag size ≠ immutableTag := by
  simp only [contentTag, immutableTag]
  omega

end Tags

/-- A byte range, and the conditions under which the origin is to answer with it. -/
structure GetOptions where
  range : Option Range
  ifMatch : Option Bytes
  ifNoneMatch : Option Bytes
deriving DecidableEq, Repr

/-- An item of a response body: a chunk, or the error the stream breaks off with. -/
abbrev BodyItem := Except OriginError Bytes

/-- An answer of the origin. The body is the list of the items its stream will yield. -/
structure GetResponse where
  «meta» : ObjectMeta
  range : Range
  body : List BodyItem
deriving DecidableEq

/-! ## Versions of an object -/

/-- One content of an object at its origin. -/
structure Version where
  data : Bytes
  etag : Option Bytes
deriving DecidableEq, Repr

namespace Version

/-- The metadata names this version. The modification time is whatever the origin makes it. -/
def Names (v : Version) (m : ObjectMeta) : Prop := m.size = v.data.length ∧ m.etag = v.etag

instance (v : Version) (m : ObjectMeta) : Decidable (v.Names m) := instDecidableAnd

def tag [TagHash] (v : Version) : Nat := contentTag v.etag v.data.length

theorem Names.contentTag_eq [TagHash] {v : Version} {m : ObjectMeta} (h : v.Names m) :
    contentTag m.etag m.size = v.tag := by rw [h.1, h.2]; rfl

end Version

/-- The bytes a body delivers before it breaks off or ends. -/
def bodyBytes : List BodyItem → Bytes
  | [] => []
  | .ok chunk :: rest => chunk ++ bodyBytes rest
  | .error _ :: _ => []

namespace GetResponse

/-- The body delivers a prefix of `data` from the start of the response's range on. -/
def Carries (r : GetResponse) (data : Bytes) : Prop := bodyBytes r.body <+: data.drop r.range.start

instance (r : GetResponse) (data : Bytes) : Decidable (r.Carries data) :=
  inferInstanceAs (Decidable (_ <+: _))

/-- A response that names a version and carries its bytes. -/
def Of (r : GetResponse) (v : Version) : Prop := v.Names r.meta ∧ r.Carries v.data

instance (r : GetResponse) (v : Version) : Decidable (r.Of v) := instDecidableAnd

end GetResponse

end Nestor
