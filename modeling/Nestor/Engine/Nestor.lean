import Nestor.Engine.Reader

/-!
# The calls of the engine

`nestor.rs`: `get`, `head`, `insert`, `invalidate`, and a write that goes through the endpoint or
the store: the origin accepts it, the object is invalidated and, if the body was kept, inserted.
-/

namespace Nestor

open Lib

variable [TagHash]

/-- The blocks to read ahead of a range. -/
def readaheadBlocks (ns : NamespaceState) (ctx : ReadCtx) (range : Range) : Range :=
  let bs := ns.config.blockSize
  let start := bs.count range.stop
  let stop := addU32 start ns.config.readahead
  ⟨start, ctx.size.elim stop fun size => min stop (bs.count size)⟩

def spawnReadahead (ns : NamespaceState) (ctx : ReadCtx) (range : Range) : Program Unit := do
  let blocks := readaheadBlocks ns ctx range
  if blocks.isEmpty then pure () else perform (.spawn (.readahead ctx blocks))

/-- The range of a read, once its context is resolved; `none` where the source has
`unreachable!`. -/
def readRange (ctx : ReadCtx) (request : ReadRange) : Option (Except NestorError Range) :=
  match ctx.size, request with
  | some size, request => some (request.resolve size)
  | none, .bounded r => some (if r.stop ≤ r.start then .error (.range r 0) else .ok r)
  | none, _ => none

def getOpts (fuel : Nat) (ns : NamespaceState) (object : Bytes) (request : ReadRange) (policy : FetchPolicy) :
    Program Unit := do
  match ← resolveCtx fuel ns object request policy with
  | .error e => perform (.failed e)
  | .ok (ctx, fetched) =>
      match readRange ctx request with
      | none => hang
      | some (.error e) => perform (.failed e)
      | some (.ok range) =>
          if 0 < ns.config.readahead then
            let sequential ← perform (.readaheadObserve ctx.key range)
            if sequential then spawnReadahead ns ctx range
          perform (.opened range ctx.meta)
          (Reader.new request ctx range fetched).stream fuel fuel

def headCall (fuel : Nat) (ns : NamespaceState) (object : Bytes) : Program Unit := do
  let key : ObjectKey := ⟨ns.id, object⟩
  match ← perform (.metaLookup key ns.metaTtl) with
  | .fresh m => perform (.described m)
  | _ =>
      match ← head fuel ns key object with
      | none => hang
      | some (.ok m) => perform (.described m)
      | some (.error e) => perform (.failed e)

def insertBlocks (bs : BlockSize) (key : ObjectKey) (tag : Nat) (m : ObjectMeta) (data : Bytes) :
    List Nat → Program Unit
  | [] => pure ()
  | index :: indexes => do
      let range := bs.blockRange index (some m.size)
      perform (.blocksInsert (BlockKey.new key tag index) ⟨m, slice data range.start range.stop⟩)
      insertBlocks bs key tag m data indexes

def insert (ns : NamespaceState) (object : Bytes) (etag : Option Bytes) (data : Bytes) : Program Unit := do
  let now : Nat ← perform .clock
  let m : ObjectMeta := ⟨data.length, etag, some now⟩
  let key : ObjectKey := ⟨ns.id, object⟩
  let bs := ns.config.blockSize
  insertBlocks bs key (blockTag ns.config.consistency m) m data (List.range (bs.count m.size))
  perform (.metaPut key m)

def removeBlocks (key : ObjectKey) : List Nat → Program Unit
  | [] => pure ()
  | index :: indexes => do
      perform (.blocksRemove (BlockKey.new key immutableTag index))
      removeBlocks key indexes

def invalidate (ns : NamespaceState) (object : Bytes) : Program Unit := do
  let key : ObjectKey := ⟨ns.id, object⟩
  perform (.readaheadForget key)
  if ns.config.consistency.isImmutable then
    match ← perform (.metaLookup key none) with
    | .fresh m => removeBlocks key (List.range (ns.config.blockSize.count m.size))
    | _ => pure ()
  perform (.metaRemove key)

/-- A write through the endpoint or the store. -/
def write (ns : NamespaceState) (object : Bytes) (v : Version) (populate : Bool) : Program Unit := do
  perform (.put ns.name object v)
  invalidate ns object
  if populate then insert ns object v.etag v.data
  perform .returned

/-- The program of a task. -/
def program (fuel : Nat) : Task → Program Unit
  | .fetchGroup ctx slots priority initial => fetchGroup fuel ctx slots priority initial
  | .readahead ctx indexes => do
      let _ ← schedule ctx indexes .background
  | .get ns object request policy => getOpts fuel ns object request policy
  | .head ns object => headCall fuel ns object
  | .insert ns object etag data => do
      insert ns object etag data
      perform .returned
  | .invalidate ns object => do
      invalidate ns object
      perform .returned
  | .write ns object v populate => write ns object v populate

end Nestor
