import Mathlib.Logic.Function.Basic
import Nestor.Core.Key

/-!
# The tiers of the block cache

`Blocks` and `Reads` of `cache.rs`, for calls one after the other. The tiers themselves are those of
the crate `foyer`: what RAM holds and evicts, what a lookup finds on disk and the hash of a key are
given with the calls. An entry is handed to the disk when it is inserted or when RAM evicts it, as
the policy says and unless its location is RAM alone, and when `record_read` asks for it.
-/

namespace Nestor.Cache

inductive DiskAdmission where
  | fetched
  | evicted
  | reused
deriving DecidableEq

inductive HybridCachePolicy where
  | writeOnInsertion
  | writeOnEviction
deriving DecidableEq

def policy : Option DiskAdmission → HybridCachePolicy
  | some .fetched | some .reused => .writeOnInsertion
  | some .evicted | none => .writeOnEviction

inductive Location where
  | default
  | inMem
deriving DecidableEq

/-- A block, and where its bytes are. -/
structure Data where
  block : Block
  ptr : Nat
deriving DecidableEq

structure Entry where
  data : Data
  location : Location
  /-- Whether it was read from disk, where it stays for a while yet. -/
  onDisk : Bool
deriving DecidableEq

/-! ## Read counts -/

def reusedReads : Nat := 2

/-- The read counts, by the hashes of the keys. -/
abbrev Reads := Nat → Option Nat

namespace Reads

def record (reads : Reads) (hash : Nat) : Nat × Reads :=
  match reads hash with
  | none => (1, Function.update reads hash (some 1))
  | some count =>
      if count < 255 then (count + 1, Function.update reads hash (some (count + 1))) else (count, reads)

def keep (reads : Reads) (hash : Nat) : Reads :=
  match reads hash with
  | some count => Function.update reads hash (some (max count reusedReads))
  | none => Function.update reads hash (some reusedReads)

def forget (reads : Reads) (hash : Nat) : Reads := Function.update reads hash none

end Reads

/-! ## Blocks -/

/-- The hash of a key. -/
class KeyHash where
  hash : BlockKey → Nat

structure Blocks where
  policy : HybridCachePolicy
  memory : BlockKey → Option Entry
  reads : Option Reads
  /-- What was handed to the disk, in order. -/
  enqueued : List (BlockKey × Data)

namespace Blocks

def «open» (admission : Option DiskAdmission) : Blocks where
  policy := Cache.policy admission
  memory _ := none
  reads := if admission = some .reused then some fun _ => none else none
  enqueued := []

variable [KeyHash]

/-- `get`, where the disk has `onDisk` for the key, in a region that is about to be reclaimed or
not. -/
def get (blocks : Blocks) (key : BlockKey) (onDisk : Option (Data × Bool)) : Option Data × Blocks :=
  match blocks.memory key with
  | some entry => (some entry.data, blocks)
  | none =>
      match onDisk with
      | none => (none, blocks)
      | some (data, old) =>
          (some data, { blocks with
            memory := Function.update blocks.memory key (some ⟨data, .default, !old⟩)
            reads := blocks.reads.map fun reads => reads.keep (KeyHash.hash key) })

def insert (blocks : Blocks) (key : BlockKey) (data : Data) : Blocks :=
  let location := match blocks.reads with
    | some _ => Location.inMem
    | none => Location.default
  let written := blocks.policy = .writeOnInsertion ∧ location ≠ .inMem
  { blocks with
    memory := Function.update blocks.memory key (some ⟨data, location, false⟩)
    enqueued := blocks.enqueued ++ if written then [(key, data)] else [] }

def recordRead (blocks : Blocks) (key : BlockKey) (data : Data) : Bool × Blocks :=
  match blocks.reads with
  | none => (false, blocks)
  | some reads =>
      let (count, reads) := reads.record (KeyHash.hash key)
      let blocks := { blocks with reads := some reads }
      if count ≠ reusedReads then (false, blocks)
      else
        match blocks.memory key with
        | none => (false, blocks)
        | some entry =>
            if entry.data.ptr ≠ data.ptr then (false, blocks)
            else (true, { blocks with enqueued := blocks.enqueued ++ [(key, entry.data)] })

def remove (blocks : Blocks) (key : BlockKey) : Blocks :=
  { blocks with
    memory := Function.update blocks.memory key none
    reads := blocks.reads.map fun reads => reads.forget (KeyHash.hash key) }

/-- RAM evicts an entry. -/
def evict (blocks : Blocks) (key : BlockKey) : Blocks :=
  match blocks.memory key with
  | none => blocks
  | some entry =>
      let written := blocks.policy = .writeOnEviction ∧ entry.location ≠ .inMem ∧ entry.onDisk = false
      { blocks with
        memory := Function.update blocks.memory key none
        enqueued := blocks.enqueued ++ if written then [(key, entry.data)] else [] }

/-- A read count is evicted. -/
def evictCount (blocks : Blocks) (key : BlockKey) : Blocks :=
  { blocks with reads := blocks.reads.map fun reads => reads.forget (KeyHash.hash key) }

end Blocks

/-! ## Runs -/

inductive Call where
  | get (key : BlockKey) (onDisk : Option (Data × Bool))
  | insert (key : BlockKey) (data : Data)
  | recordRead (key : BlockKey) (data : Data)
  | remove (key : BlockKey)
  | evict (key : BlockKey)
  | evictCount (key : BlockKey)
deriving DecidableEq

def Call.key : Call → BlockKey
  | .get key _ | .insert key _ | .recordRead key _ | .remove key | .evict key | .evictCount key => key

variable [KeyHash]

def Blocks.step (blocks : Blocks) : Call → Blocks
  | .get key onDisk => (blocks.get key onDisk).2
  | .insert key data => blocks.insert key data
  | .recordRead key data => (blocks.recordRead key data).2
  | .remove key => blocks.remove key
  | .evict key => blocks.evict key
  | .evictCount key => blocks.evictCount key

def Blocks.run (blocks : Blocks) (calls : List Call) : Blocks := calls.foldl step blocks

end Nestor.Cache
