import Nestor.Core.Namespace

/-!
# Response bodies cut into blocks

`body.rs`. A `BlockStream` buffers chunks until a whole block is there. A `HedgedBody` races its
primary stream against a backup request for the range still owed.

An asynchronous call is a machine here: it stops where the source awaits, and an event resumes it.
The body of a response is the list of items its stream is going to yield, so that an arriving item
is an event without data, and a stream that hangs is one that gets no more events.
-/

namespace Nestor

structure BlockStream where
  body : List BodyItem
  buf : Bytes
  skip : Nat
deriving DecidableEq

namespace BlockStream

def new (body : List BodyItem) : BlockStream := ⟨body, [], 0⟩

def skipping (s : BlockStream) (bytes : Nat) : BlockStream := { s with skip := bytes }

/-- A turn of `next_block`: from the call, or the arrival of an item, to the next `await` or the
result. Abandoning the call between two turns leaves the stream as the last turn left it. -/
def turn (s : BlockStream) (expected : Nat) : BlockStream × Option (Except OriginError Bytes) :=
  if expected ≤ s.buf.length then
    ({ s with buf := s.buf.drop expected }, some (.ok (s.buf.take expected)))
  else match s.body with
    | [] => (s, some (.error (.shortRead expected s.buf.length)))
    | .error e :: rest => ({ s with body := rest }, some (.error e))
    | .ok chunk :: rest =>
        let skipped := min chunk.length s.skip
        let chunk := chunk.drop skipped
        let skip := s.skip - skipped
        -- a chunk that holds the whole block is passed through without a copy
        if s.buf = [] ∧ expected ≤ chunk.length then
          (⟨rest, chunk.drop expected, skip⟩, some (.ok (chunk.take expected)))
        else
          let buf := s.buf ++ chunk
          if expected ≤ buf.length then
            (⟨rest, buf.drop expected, skip⟩, some (.ok (buf.take expected)))
          else (⟨rest, buf, skip⟩, none)

end BlockStream

/-- The backup request of a hedged body. -/
inductive Backup where
  | idle
  | opening (options : GetOptions)
  | streaming (stream : BlockStream)
deriving DecidableEq

structure HedgedBody where
  ctx : ReadCtx
  rangeEnd : Nat
  primary : BlockStream
  backup : Backup
deriving DecidableEq

/-- What can happen while a block is awaited. A stall comes with the answer of
`hedges.try_acquire`. -/
inductive BodyEvent where
  | primary
  | backup
  | stalled (permit : Bool)
  | opened (response : Except OriginError GetResponse)
deriving DecidableEq

/-- Where a call of `HedgedBody::next_block` waits: in one of its `select!`s, on the primary alone,
or on the backup's response after the primary failed with an error. -/
inductive Waiting where
  | race
  | primary
  | opening (error : OriginError)
deriving DecidableEq

inductive Poll where
  | pending (waiting : Waiting)
  | ready (result : Except OriginError Bytes)
deriving DecidableEq

namespace HedgedBody

def new (ctx : ReadCtx) (body : List BodyItem) (rangeEnd : Nat) : HedgedBody :=
  ⟨ctx, rangeEnd, BlockStream.new body, .idle⟩

def intoStream (b : HedgedBody) : BlockStream := b.primary

variable [TagHash]

/-- The stream of a backup's response, moved to the owed block, if the response can be used. -/
def adopt (b : HedgedBody) (response : Except OriginError GetResponse) (start : Nat) : Option BlockStream :=
  match response with
  | .error _ => none
  | .ok response =>
      let tag := contentTag response.meta.etag response.meta.size
      let consistent := b.ctx.tag = immutableTag ∨ tag = b.ctx.tag
      let aligned := response.range.start % b.ctx.namespace.config.blockSize.bytes = 0
      if response.range.start ≤ start then
        if consistent ∧ aligned then
          some ((BlockStream.new response.body).skipping (start - response.range.start))
        else none
      else none

/-- The primary delivered the block or failed, while it raced the backup. -/
def onPrimary (b : HedgedBody) : Except OriginError Bytes → HedgedBody × Poll
  | .ok block => ({ b with backup := .idle }, .ready (.ok block))
  | .error e =>
      if e.isRetryable then
        match b.backup with
        | .idle => (b, .ready (.error e))
        | .opening _ => ({ b with backup := .idle }, .pending (.opening e))
        | .streaming stream => ({ b with primary := stream, backup := .idle }, .pending .race)
      else (b, .ready (.error e))

/-- The events a call waits for. -/
def expects (b : HedgedBody) (waiting : Waiting) (ev : BodyEvent) : Bool :=
  match waiting, ev, b.backup with
  | .race, .primary, _ => true
  | .race, .stalled _, .idle => b.ctx.policy.hedge
  | .race, .opened _, .opening _ => true
  | .race, .backup, .streaming _ => true
  | .primary, .primary, _ => true
  | .opening _, .opened _, _ => true
  | _, _, _ => false

/-- Resumes `next_block(index, expected)` with an event; `none` if the call does not wait for it. -/
def nextBlock (b : HedgedBody) (index expected : Nat) (waiting : Waiting) (ev : BodyEvent) :
    Option (HedgedBody × Poll) :=
  let start := b.ctx.namespace.config.blockSize.offset index
  match waiting, ev with
  | .race, .primary =>
      let (primary, r) := b.primary.turn expected
      let b := { b with primary := primary }
      match r with
      | none => some (b, .pending .race)
      | some r => some (b.onPrimary r)
  | .race, .stalled permit =>
      match b.backup, b.ctx.policy.hedge with
      | .idle, true =>
          if permit then
            some ({ b with backup := .opening ⟨some ⟨start, b.rangeEnd⟩, b.ctx.ifMatch, none⟩ },
              .pending .race)
          else some (b, .pending .primary)
      | _, _ => none
  | .race, .opened response =>
      match b.backup with
      | .opening _ =>
          match b.adopt response start with
          | some stream => some ({ b with backup := .streaming stream }, .pending .race)
          | none => some ({ b with backup := .idle }, .pending .race)
      | _ => none
  | .race, .backup =>
      match b.backup with
      | .streaming stream =>
          match stream.turn expected with
          | (stream, none) => some ({ b with backup := .streaming stream }, .pending .race)
          | (stream, some (.ok block)) =>
              some ({ b with primary := stream, backup := .idle }, .ready (.ok block))
          | (_, some (.error _)) => some ({ b with backup := .idle }, .pending .race)
      | _ => none
  | .primary, .primary =>
      let (primary, r) := b.primary.turn expected
      let b := { b with primary := primary }
      match r with
      | none => some (b, .pending .primary)
      | some r => some (b, .ready r)
  | .opening e, .opened response =>
      match b.adopt response start with
      | some stream => some ({ b with primary := stream }, .pending .race)
      | none => some (b, .ready (.error e))
  | _, _ => none

end HedgedBody

end Nestor
