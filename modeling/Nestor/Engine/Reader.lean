import Nestor.Engine.Fetch
import Nestor.Lib.Slice

/-!
# Streaming reads

`reader.rs`, and what `nestor.rs` does to resolve the context of a read. The metadata cell of a
reader is shared with the stream it was made into until a restart replaces it; from then on
`original` keeps what the stream's cell holds.
-/

namespace Nestor

open Lib

variable [TagHash]

/-! ## Resolving the context -/

/-- In an immutable namespace any cached block tells the metadata. -/
def cachedMeta (ns : NamespaceState) (key : ObjectKey) (request : ReadRange) :
    Program (Option ObjectMeta) := do
  let index := ((ns.config.blockSize.firstGroup request 1).map (·.start)).getD 0
  match ← perform (.blocksGet [BlockKey.new key immutableTag index]) with
  | .ready (_, some block) =>
      perform (.metaPut key block.meta)
      pure (some block.meta)
  | .ready (_, none) => pure none
  | _ => hang

/-- Asks the origin: for the first blocks, or for the metadata alone. -/
def resolveAtOrigin (fuel : Nat) (ns : NamespaceState) (name : Bytes) (request : ReadRange)
    (known : Option ObjectMeta) (policy : FetchPolicy) :
    Program (Except NestorError (ReadCtx × List SlotHandle)) := do
  let key : ObjectKey := ⟨ns.id, name⟩
  match ns.config.blockSize.firstGroup request ns.config.fetchWindow with
  | some indexes => probe fuel ns name indexes known policy
  | none =>
      match ← head fuel ns key name with
      | none => hang
      | some (.error e) => pure (.error e)
      | some (.ok m) => pure (.ok (ReadCtx.new ns key name (some m) policy, []))

/-- Without fresh metadata: an immutable object is read without it if the request allows, or with
that of a cached block. -/
def resolveMissing (fuel : Nat) (ns : NamespaceState) (name : Bytes) (request : ReadRange)
    (policy : FetchPolicy) (known : Option ObjectMeta) :
    Program (Except NestorError (ReadCtx × List SlotHandle)) := do
  let key : ObjectKey := ⟨ns.id, name⟩
  if ns.config.consistency.isImmutable then
    if request.needsSize then
      match ← cachedMeta ns key request with
      | some m => pure (.ok (ReadCtx.new ns key name (some m) policy, []))
      | none => resolveAtOrigin fuel ns name request known policy
    else pure (.ok (ReadCtx.new ns key name none policy, []))
  else resolveAtOrigin fuel ns name request known policy

def resolveCtx (fuel : Nat) (ns : NamespaceState) (name : Bytes) (request : ReadRange)
    (policy : FetchPolicy) :
    Program (Except NestorError (ReadCtx × List SlotHandle)) := do
  let key : ObjectKey := ⟨ns.id, name⟩
  match ← perform (.metaLookup key ns.metaTtl) with
  | .fresh m => pure (.ok (ReadCtx.new ns key name (some m) policy, []))
  | .stale m => resolveMissing fuel ns name request policy (some m)
  | .missing => resolveMissing fuel ns name request policy none

/-! ## The reader -/

structure Reader where
  request : ReadRange
  ctx : ReadCtx
  range : Range
  known : Option ObjectMeta
  original : Option (Option ObjectMeta)
  first : Nat
  next : Nat
  stop : Nat
  emit : Nat
  window : List SlotHandle
  restarted : Bool
  refetched : Option Nat
  done : Bool

namespace Reader

def new (request : ReadRange) (ctx : ReadCtx) (range : Range) (fetched : List SlotHandle) : Reader :=
  let blocks := ctx.namespace.config.blockSize.blocks range
  { request := request, ctx := ctx, range := range, known := ctx.meta, original := none,
    first := blocks.start, next := addU32 blocks.start (toU32 fetched.length), stop := blocks.stop,
    emit := blocks.start, window := fetched, restarted := false, refetched := none, done := false }

/-- What the metadata cell of the stream holds. -/
def reported (r : Reader) : Option ObjectMeta := r.original.getD r.known

def size (r : Reader) : Option Nat := r.known.map (·.size)

/-- The first metadata to come is kept, and cuts the range off. -/
def learnt (r : Reader) (m : ObjectMeta) : Reader :=
  { r with
    range := { r.range with stop := min r.range.stop m.size },
    stop := min r.stop (r.ctx.namespace.config.blockSize.count m.size),
    known := some m }

def learn (r : Reader) (m : Option ObjectMeta) : Program Reader := do
  match r.known, m with
  | some _, _ => pure r
  | none, some m => pure (r.learnt m)
  | none, none =>
      match ← perform (.metaAny r.ctx.key) with
      | some m => pure (r.learnt m)
      | none => pure r

/-- Takes up the handles of `take` more blocks. -/
def extend (r : Reader) (take : Nat) (handles : List SlotHandle) : Reader :=
  { r with next := r.next + take, window := r.window ++ handles }

/-- A round of `fill`'s loop, and whether there may be another. -/
def takeMore (r : Reader) (limit : Nat) : Program (Reader × Bool) := do
  let take := alignedTake r.next r.stop r.ctx.namespace.config.fetchWindow
  if r.window ≠ [] ∧ limit < r.window.length + take then pure (r, false)
  else
    let handles ← schedule r.ctx ⟨r.next, r.next + take⟩ .foreground
    let r := r.extend take handles
    pure (r, r.size.isSome)

def fillLoop (limit : Nat) : Nat → Reader → Program Reader
  | 0, _ => hang
  | fuel + 1, r =>
      if r.window.length < limit ∧ r.next < r.stop then do
        match ← r.takeMore limit with
        | (r, true) => fillLoop limit fuel r
        | (r, false) => pure r
      else pure r

def fill (fuel : Nat) (r : Reader) : Program Reader := do
  let r ← r.learn none
  let config := r.ctx.namespace.config
  let limit := if r.size.isSome then config.readWindow else config.fetchWindow
  fillLoop limit fuel r

/-- The reader after its context has been resolved again. -/
def repin (r : Reader) (ctx : ReadCtx) (m : ObjectMeta) (range : Range) (fetched : List SlotHandle) :
    Reader :=
  let blocks := ctx.namespace.config.blockSize.blocks range
  { r with
    ctx := ctx, range := range, known := some m, original := some r.reported,
    first := blocks.start, next := addU32 blocks.start (toU32 fetched.length), stop := blocks.stop,
    emit := blocks.start, window := fetched }

def restart (fuel : Nat) (r : Reader) : Program (Reader × Except NestorError Unit) := do
  let r := { r with restarted := true, window := [] }
  match ← resolveCtx fuel r.ctx.namespace r.ctx.name r.request r.ctx.policy with
  | .error e => pure (r, .error e)
  | .ok (ctx, fetched) =>
      match ctx.meta with
      | none => pure (r, .error .stale)
      | some m =>
          match r.request.resolve m.size with
          | .error e => pure (r, .error e)
          | .ok range => pure (r.repin ctx m range fetched, .ok ())

/-- A block has come for `index`. -/
def deliver (r : Reader) (index : Nat) (block : Block) : Reader × Option (Except NestorError Bytes) :=
  let bs := r.ctx.namespace.config.blockSize
  let within := bs.sliceWithin index r.range
  if block.data = [] ∨ block.data.length ≤ within.start then
    ({ r with done := true },
      if index = r.first then some (.error (.range r.range (r.size.getD 0))) else none)
  else
    let out := slice block.data within.start (min within.stop block.data.length)
    ({ r with done := r.done || decide (block.data.length < bs.bytes ∨ r.stop ≤ index + 1) }, some (.ok out))

def nextItem : Nat → Reader → Program (Reader × Option (Except NestorError Bytes))
  | 0, _ => hang
  | fuel + 1, r =>
      if r.done then pure (r, none)
      else do
        let r ← r.fill fuel
        match r.window with
        | [] => pure ({ r with done := true }, none)
        | handle :: window =>
            let index := r.emit
            let r := { r with window := window, emit := index + 1 }
            match ← handle.wait with
            | .ok block =>
                let r ← r.learn (some block.meta)
                pure (r.deliver index block)
            | .error e =>
                if e.isCancelled ∧ r.refetched ≠ some index then
                  let r := { r with refetched := some index, emit := index }
                  let handles ← schedule r.ctx ⟨index, index + 1⟩ .foreground
                  nextItem fuel { r with window := handles ++ r.window }
                else if e.isStale ∧ r.restarted = false ∧ index = r.first then
                  match ← r.restart fuel with
                  | (r, .ok ()) => nextItem fuel r
                  | (r, .error e) => pure ({ r with done := true }, some (.error e))
                else
                  let sole ← perform .sole
                  pure ({ r with done := true }, some (.error (.ofArc sole e)))

/-- The stream a reader is made into, polled to its end. -/
def stream (fuel : Nat) : Nat → Reader → Program Unit
  | 0, _ => hang
  | rounds + 1, r => do
      match ← r.nextItem fuel with
      | (_, none) => perform .ended
      | (r, some item) =>
          perform (.item r.reported item)
          stream fuel rounds r

end Reader

end Nestor
