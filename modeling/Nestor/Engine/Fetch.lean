import Nestor.Engine.Op

/-!
# Fetching from the origin

`fetch.rs`. A loop that may go on forever takes its number of rounds as `fuel` and hangs when that
is used up, so that the runs of the source are the runs for all `fuel`.
-/

namespace Nestor

open Lib

variable [TagHash]

/-! ## Requests -/

/-- The answer to the only request that is left. -/
def awaitLast (request : GetRequest) (deadline : Nat) :
    Program (Awaited (Except OriginError GetResponse)) := do
  match ← perform (.awaitGet [request] false deadline) with
  | .ready (.answered _ result) => pure (.ready result)
  | .ready .stalled => hang
  | .timeout => pure .timeout
  | .dropped => pure .dropped

/-- The first of the two requests to be answered, unless its error leaves hope in the other. -/
def awaitBoth (primary secondary : GetRequest) (deadline : Nat) :
    Program (Awaited (Except OriginError GetResponse)) := do
  match ← perform (.awaitGet [primary, secondary] false deadline) with
  | .ready (.answered i (.error e)) =>
      if e.isRetryable then awaitLast (if i = 0 then secondary else primary) deadline
      else pure (.ready (.error e))
  | .ready (.answered _ (.ok response)) => pure (.ready (.ok response))
  | .ready .stalled => hang
  | .timeout => pure .timeout
  | .dropped => pure .dropped

def getHedged (ctx : ReadCtx) (options : GetOptions) (deadline : Nat) :
    Program (Awaited (Except OriginError GetResponse)) := do
  let primary ← perform (.sendGet ctx.namespace.name ctx.name options)
  match ← perform (.awaitGet [primary] ctx.policy.hedge deadline) with
  | .ready (.answered _ result) => pure (.ready result)
  | .timeout => pure .timeout
  | .dropped => pure .dropped
  | .ready .stalled =>
      match ← perform (.hedge primary) with
      | none => awaitLast primary deadline
      | some secondary => awaitBoth primary secondary deadline

def originGet (ctx : ReadCtx) (options : GetOptions) (attemptDeadline : Nat) :
    Program (Awaited (Except OriginError GetResponse)) := do
  let started : Nat ← perform .clock
  let headersBy := min (started + ctx.policy.firstByte) attemptDeadline
  match ← getHedged ctx options headersBy with
  | .timeout => pure (.ready (.error (.timeout (headersBy - started))))
  | other => pure other

/-- `Retry::failed`: whether to go on, after the delay; `none` if the future is dropped
meanwhile. -/
def Retry.pause (retry : Retry) (error : OriginError) :
    Program (Option (Retry × Except OriginError Unit)) := do
  let now : Nat ← perform .clock
  match retry.failed now error with
  | (retry, .error e) => pure (some (retry, .error e))
  | (retry, .ok delay) =>
      match ← perform (.sleep (now + delay)) with
      | .ready () => pure (some (retry, .ok ()))
      | _ => pure none

def headLoop (ns : NamespaceState) (key : ObjectKey) (name : Bytes) :
    Nat → Retry → Program (Option (Except NestorError ObjectMeta))
  | 0, _ => hang
  | fuel + 1, retry => do
      let started : Nat ← perform .clock
      let by_ := min (started + retry.policy.firstByte) (retry.attemptDeadline started)
      let request ← perform (.sendHead ns.name name)
      let failed (e : OriginError) : Program (Option (Except NestorError ObjectMeta)) := do
        match ← retry.pause e with
        | none => pure none
        | some (_, .error e) =>
            perform (.metaRemove key)
            pure (some (.error (.ofOrigin e)))
        | some (retry, .ok ()) => headLoop ns key name fuel retry
      match ← perform (.awaitHead request by_) with
      | .dropped => pure none
      | .timeout => failed (.timeout (by_ - started))
      | .ready (.error e) => failed e
      | .ready (.ok m) =>
          perform (.metaPut key m)
          pure (some (.ok m))

/-- `Fetcher::head`; `none` if the future is dropped. -/
def head (fuel : Nat) (ns : NamespaceState) (key : ObjectKey) (name : Bytes) :
    Program (Option (Except NestorError ObjectMeta)) := do
  let now : Nat ← perform .clock
  headLoop ns key name fuel (Retry.new ns.config.fetch now)

def pastEnd (fuel : Nat) (ns : NamespaceState) (key : ObjectKey) (name : Bytes) (start : Nat) :
    Program (Option (Option ObjectMeta)) := do
  match ← head fuel ns key name with
  | none => pure none
  | some (.error _) => pure (some none)
  | some (.ok m) => pure (some (if m.size ≤ start then some m else none))

/-! ## Slots -/

/-- `fetch_group`'s `retry_or_fail`: what is left to fetch and whether to go on; `none` if the
future is dropped. -/
def retryOrFail (retry : Retry) (slots : List Slot) (error : OriginError) :
    Program (Option (Retry × List Slot × Bool)) := do
  match ← retry.pause error with
  | none => pure none
  | some (retry, .ok ()) => pure (some (retry, slots, true))
  | some (retry, .error e) =>
      resolveAll (.error (.ofOrigin e)) slots
      pure (some (retry, [], false))

def claim (ctx : ReadCtx) (index : Nat) : Program (Option Slot) := do
  let key := BlockKey.new ctx.key ctx.tag index
  let present ← perform (.blocksContains key)
  if present then pure none
  else
    match ← perform (.register key) with
    | .owner slot => pure (some slot)
    | .waiter _ => pure none

def cacheExtra (slot : Slot) (m : ObjectMeta) (data : Bytes) : Program Unit := do
  perform (.blocksInsert slot.key ⟨m, data⟩)
  slot.settle (.ok ⟨m, data⟩)

/-! ## Consuming a response -/

/-- `HedgedBody::next_block`, from a given wait on. -/
def HedgedBody.await (index expected deadline : Nat) :
    Nat → HedgedBody → Waiting → Program (HedgedBody × Awaited (Except OriginError Bytes))
  | 0, _, _ => hang
  | fuel + 1, b, waiting => do
      match ← perform (.awaitBody b waiting deadline) with
      | .timeout => pure (b, .timeout)
      | .dropped => pure (b, .dropped)
      | .ready ev =>
          match b.nextBlock index expected waiting ev with
          | none => hang
          | some (b, .pending waiting) => HedgedBody.await index expected deadline fuel b waiting
          | some (b, .ready result) => pure (b, .ready result)

/-- `BlockStream::next_block`. -/
def BlockStream.await (expected deadline : Nat) :
    Nat → BlockStream → Program (BlockStream × Awaited (Except OriginError Bytes))
  | 0, _ => hang
  | fuel + 1, s => do
      match ← perform (.awaitStream deadline) with
      | .timeout => pure (s, .timeout)
      | .dropped => pure (s, .dropped)
      | .ready () =>
          match s.turn expected with
          | (s, none) => BlockStream.await expected deadline fuel s
          | (s, some result) => pure (s, .ready result)

structure Trailing where
  stream : BlockStream
  next : Nat
  slots : List Slot
  «meta» : ObjectMeta

/-- The blocks of a wider response before the first slot: `n` blocks from `next` on. -/
def consumeBefore (fuel : Nat) (ctx : ReadCtx) (m : ObjectMeta) (deadline : Nat) :
    Nat → Nat → HedgedBody → Program (HedgedBody × Awaited (Except OriginError Unit))
  | 0, _, body => pure (body, .ready (.ok ()))
  | n + 1, next, body => do
      let expected := (ctx.namespace.config.blockSize.blockRange next (some m.size)).count
      let claimed ← claim ctx next
      match ← body.await next expected deadline fuel .race with
      | (body, .ready (.ok block)) =>
          match claimed with
          | some slot => cacheExtra slot m block
          | none => pure ()
          consumeBefore fuel ctx m deadline n (next + 1) body
      | (body, .ready (.error e)) =>
          cancelAll claimed.toList
          pure (body, .ready (.error e))
      | (body, .timeout) =>
          cancelAll claimed.toList
          pure (body, .timeout)
      | (body, .dropped) =>
          cancelAll claimed.toList
          pure (body, .dropped)

/-- The requested blocks: the slots left, the index after the last one looked at, and how it
ended. -/
def consumeSlots (fuel : Nat) (ctx : ReadCtx) (m : ObjectMeta) (deadline : Nat) :
    List Slot → Nat → HedgedBody → Program (List Slot × Nat × HedgedBody × Awaited (Except OriginError Unit))
  | [], next, body => pure ([], next, body, .ready (.ok ()))
  | slot :: slots, _, body => do
      let index := slot.key.index
      let expected := (ctx.namespace.config.blockSize.blockRange index (some m.size)).count
      if expected = 0 then
        slot.settle (.ok (Block.empty m))
        consumeSlots fuel ctx m deadline slots (index + 1) body
      else
        match ← body.await index expected deadline fuel .race with
        | (body, .ready (.ok block)) =>
            perform (.blocksInsert slot.key ⟨m, block⟩)
            slot.settle (.ok ⟨m, block⟩)
            consumeSlots fuel ctx m deadline slots (index + 1) body
        | (body, .ready (.error e)) => pure (slot :: slots, index + 1, body, .ready (.error e))
        | (body, .timeout) => pure (slot :: slots, index + 1, body, .timeout)
        | (body, .dropped) => pure (slot :: slots, index + 1, body, .dropped)

def claimAll (ctx : ReadCtx) : List Nat → Program (List Slot)
  | [] => pure []
  | index :: indexes => do
      let claimed ← claim ctx index
      let rest ← claimAll ctx indexes
      pure (claimed.toList ++ rest)

/-- The whole blocks of a response that follow the requested ones. -/
def wholeAfter (bs : BlockSize) (size next stop : Nat) : List Nat :=
  (List.range' next (bs.count stop - next)).takeWhile fun index =>
    (bs.blockRange index (some size)).stop ≤ stop

/-- Returns the slots that are left as well. -/
def consume (fuel : Nat) (ctx : ReadCtx) (response : GetResponse) (slots : List Slot)
    (rangeEnd deadline : Nat) :
    Program (List Slot × Awaited (Except OriginError (Option Trailing))) := do
  let bs := ctx.namespace.config.blockSize
  let m := response.meta
  let stop := min response.range.stop m.size
  let next := bs.index response.range.start
  let body := HedgedBody.new ctx response.body rangeEnd
  let first := min ((slots.head?.map (·.key.index)).getD next) (bs.count m.size)
  match ← consumeBefore fuel ctx m deadline (first - next) next body with
  | (_, .ready (.error e)) => pure (slots, .ready (.error e))
  | (_, .timeout) => pure (slots, .timeout)
  | (_, .dropped) => pure (slots, .dropped)
  | (body, .ready (.ok ())) =>
      match ← consumeSlots fuel ctx m deadline slots (max next first) body with
      | (slots, _, _, .ready (.error e)) => pure (slots, .ready (.error e))
      | (slots, _, _, .timeout) => pure (slots, .timeout)
      | (slots, _, _, .dropped) => pure (slots, .dropped)
      | (slots, next, body, .ready (.ok ())) =>
          let claimed ← claimAll ctx (wholeAfter bs m.size next stop)
          if claimed = [] then pure (slots, .ready (.ok none))
          else pure (slots, .ready (.ok (some ⟨body.intoStream, next, claimed, m⟩)))

def accept (fuel : Nat) (ctx : ReadCtx) (response : GetResponse) (slots : List Slot) (range : Range)
    (deadline : Nat) : Program (List Slot × Awaited (Except OriginError (Option Trailing))) := do
  perform (.metaPut ctx.key response.meta)
  if ctx.tag ≠ immutableTag ∧ contentTag response.meta.etag response.meta.size ≠ ctx.tag then
    resolveAll (.error .stale) slots
    pure ([], .ready (.ok none))
  else if range.start < response.range.start ∨
      response.range.start % ctx.namespace.config.blockSize.bytes ≠ 0 then
    pure (slots, .ready (.error (.shortRead (range.stop - range.start) 0)))
  else consume fuel ctx response slots range.stop deadline

/-- Skips `n` blocks from `next` on. -/
def skipBlocks (fuel : Nat) (bs : BlockSize) (size deadline : Nat) :
    Nat → Nat → BlockStream → Program (Option BlockStream)
  | 0, _, stream => pure (some stream)
  | n + 1, next, stream => do
      let skipped := (bs.blockRange next (some size)).count
      match ← stream.await skipped deadline fuel with
      | (stream, .ready (.ok _)) => skipBlocks fuel bs size deadline n (next + 1) stream
      | _ => pure none

/-- The slots still there when it gives up, or when its timeout or its task cuts it off, are
dropped. -/
def fillTrailing (fuel : Nat) (ctx : ReadCtx) (m : ObjectMeta) (deadline : Nat) :
    List Slot → Nat → BlockStream → Program Unit
  | [], _, _ => pure ()
  | slot :: slots, next, stream => do
      let bs := ctx.namespace.config.blockSize
      let index := slot.key.index
      match ← skipBlocks fuel bs m.size deadline (index - next) next stream with
      | none => cancelAll (slot :: slots)
      | some stream =>
          match ← stream.await (bs.blockRange index (some m.size)).count deadline fuel with
          | (stream, .ready (.ok block)) =>
              cacheExtra slot m block
              fillTrailing fuel ctx m deadline slots (max next index + 1) stream
          | _ => cancelAll (slot :: slots)

/-! ## Fetch groups -/

/-- The response an attempt starts from: the one the group was started with, or a new one. -/
def answerFor (ctx : ReadCtx) (range : Range) (deadline : Nat) :
    Option GetResponse → Program (Awaited (Except OriginError GetResponse))
  | some response => pure (.ready (.ok response))
  | none => originGet ctx ⟨some range, ctx.ifMatch, none⟩ deadline

/-- How an attempt of a fetch group ends: all of its slots are settled, or there is an error to
retry. -/
inductive Attempt where
  | settled
  | failed (m : Option ObjectMeta) (slots : List Slot) (error : OriginError)

/-- What an attempt does with the answer of the origin. -/
def attempt (fuel : Nat) (ctx : ReadCtx) (m : Option ObjectMeta) (slots : List Slot) (range : Range)
    (deadline : Nat) : Awaited (Except OriginError GetResponse) → Program Attempt
  | .ready (.ok response) => do
      match ← accept fuel ctx response slots range deadline with
      | (_, .ready (.ok none)) => pure .settled
      | (_, .ready (.ok (some trailing))) =>
          fillTrailing fuel ctx trailing.meta deadline trailing.slots trailing.next trailing.stream
          pure .settled
      | (slots, .ready (.error e)) => pure (.failed (some response.meta) slots e)
      | (slots, .timeout) => pure (.failed (some response.meta) slots (.timeout ctx.policy.attempt))
      | (slots, .dropped) =>
          cancelAll slots
          pure .settled
  | .ready (.error .notFound) => do
      perform (.metaRemove ctx.key)
      resolveAll (.error .notFound) slots
      pure .settled
  | .ready (.error .preconditionFailed) => do
      perform (.metaRemove ctx.key)
      resolveAll (.error .stale) slots
      pure .settled
  | .ready (.error e) =>
      match m with
      | some _ => pure (.failed m slots e)
      | none => do
          match ← pastEnd fuel ctx.namespace ctx.key ctx.name range.start with
          | some none => pure (.failed none slots e)
          | some (some known) =>
              resolveAll (.ok (Block.empty known)) slots
              pure .settled
          | none =>
              cancelAll slots
              pure .settled
  -- `originGet` turns its timeout into an error, so only the drop is left
  | _ => do
      cancelAll slots
      pure .settled

/-- What comes after an attempt that has failed. -/
def goOn (again : Retry → List Slot → Program Unit) (retry : Retry) (slots : List Slot) (e : OriginError) :
    Program Unit := do
  match ← retryOrFail retry slots e with
  | none => cancelAll slots
  | some (_, _, false) => pure ()
  | some (retry, slots, true) => again retry slots

/-- The attempts of a fetch group. -/
def fetchLoop (ctx : ReadCtx) : Nat → Retry → Option ObjectMeta → List Slot → Option GetResponse →
    Program Unit
  | 0, _, _, _, _ => hang
  | _ + 1, _, _, [], _ => pure ()
  | fuel + 1, retry, m, front :: rest, initial => do
      let slots := front :: rest
      let now : Nat ← perform .clock
      let attemptDeadline := retry.attemptDeadline now
      let range := ctx.namespace.config.blockSize.span front.key.index slots.length (m.map (·.size))
      match m, range.isEmpty with
      | some known, true => resolveAll (.ok (Block.empty known)) slots
      | _, _ =>
          let result ← answerFor ctx range attemptDeadline initial
          match ← attempt (fuel + 1) ctx m slots range attemptDeadline result with
          | .settled => pure ()
          | .failed m slots e => goOn (fetchLoop ctx fuel · m · none) retry slots e

def fetchGroup (fuel : Nat) (ctx : ReadCtx) (slots : List Slot) (priority : Priority)
    (initial : Option GetResponse) : Program Unit := do
  let permit ← perform (.acquire priority)
  if permit then
    let now : Nat ← perform .clock
    fetchLoop ctx fuel (Retry.new ctx.policy now) ctx.meta slots initial
  else cancelAll slots

/-! ## Scheduling -/

/-- Concurrent lookups, in the order they complete; `none` if the future is dropped. -/
def lookups : Nat → List BlockKey → List (BlockKey × Option Block) →
    Program (Option (List (BlockKey × Option Block)))
  | 0, _, found => pure (some found)
  | n + 1, keys, found => do
      match ← perform (.blocksGet keys) with
      | .ready (i, block) =>
          match keys[i]? with
          | some key => lookups n (keys.eraseIdx i) ((key, block) :: found)
          | none => hang
      | _ => pure none

/-- `join_all` over lookups: the results in the order of the keys. -/
def joinAll (keys : List BlockKey) : Program (Option (List (BlockKey × Option Block))) := do
  match ← lookups keys.length keys [] with
  | none => pure none
  | some found => pure (some (keys.map fun key => (key, (found.lookup key).join)))

/-- The first round: a handle for every block, and the slots of the blocks nobody fetches yet. -/
def registerMisses : List (BlockKey × Option Block) → Program (List SlotHandle × List Slot)
  | [] => pure ([], [])
  | (key, found) :: results => do
      match found with
      | some block =>
          let (handles, owners) ← registerMisses results
          pure (.resolved (.ok block) :: handles, owners)
      | none =>
          match ← perform (.register key) with
          | .owner slot =>
              let (handles, owners) ← registerMisses results
              pure (.waiting slot :: handles, slot :: owners)
          | .waiter slot =>
              let (handles, owners) ← registerMisses results
              pure (.waiting slot :: handles, owners)

/-- The second round: slots whose block has landed meanwhile are resolved, the others are
returned. -/
def resolveLanded : List (Slot × Option Block) → Program (List Slot)
  | [] => pure []
  | (slot, found) :: landed => do
      match found with
      | some block =>
          slot.settle (.ok block)
          resolveLanded landed
      | none =>
          let owners ← resolveLanded landed
          pure (slot :: owners)

/-- One task for each group of misses. -/
def spawnGroups (ctx : ReadCtx) (priority : Priority) : List FetchGroup → List Slot → Program Unit
  | [], _ => pure ()
  | group :: groups, owners => do
      perform (.spawn (.fetchGroup ctx (owners.take group.count) priority none))
      spawnGroups ctx priority groups (owners.drop group.count)

def schedule (ctx : ReadCtx) (indexes : Range) (priority : Priority) : Program (List SlotHandle) := do
  let keys := (List.range' indexes.start indexes.count).map (BlockKey.new ctx.key ctx.tag)
  match ← joinAll keys with
  | none => hang
  | some results =>
      let (handles, owners) ← registerMisses results
      if owners = [] then pure handles
      else
        match ← joinAll (owners.map (·.key)) with
        | none =>
            cancelAll owners
            hang
        | some landed =>
            let owners ← resolveLanded (owners.zip (landed.map (·.2)))
            let groups := groupMisses (owners.map (·.key.index)) ctx.namespace.config.fetchWindow
            spawnGroups ctx priority groups owners
            pure handles

/-! ## Probing -/

/-- The blocks of a response that nobody fetches yet, up to the first that somebody does. -/
def registerWhile (ctx : ReadCtx) : List Nat → Program (List Slot)
  | [] => pure []
  | index :: indexes => do
      match ← perform (.register (BlockKey.new ctx.key ctx.tag index)) with
      | .owner slot =>
          let slots ← registerWhile ctx indexes
          pure (slot :: slots)
      | .waiter _ => pure []

/-- `Fetcher::adopt`. -/
def adoptResponse (ctx : ReadCtx) (indexes : Range) (response : GetResponse) : Program (List SlotHandle) := do
  let stop := min indexes.stop (ctx.namespace.config.blockSize.count response.meta.size)
  let slots ← registerWhile ctx (List.range' indexes.start (stop - indexes.start))
  if slots = [] then pure []
  else
    perform (.spawn (.fetchGroup ctx slots .foreground (some response)))
    pure (slots.map .waiting)

/-- `probe`'s `build`. -/
def buildCtx (ns : NamespaceState) (name : Bytes) (policy : FetchPolicy) (m : ObjectMeta) :
    Program ReadCtx := do
  let key : ObjectKey := ⟨ns.id, name⟩
  perform (.metaPut key m)
  pure (ReadCtx.new ns key name (some m) policy)

/-- The attempts of a probe; `known` is the metadata that may be out of date. -/
def probeLoop (ns : NamespaceState) (name : Bytes) (indexes : Range) (known : Option ObjectMeta)
    (policy : FetchPolicy) : Nat → Retry → Program (Except NestorError (ReadCtx × List SlotHandle))
  | 0, _ => hang
  | fuel + 1, retry => do
      let key : ObjectKey := ⟨ns.id, name⟩
      let bs := ns.config.blockSize
      let options : GetOptions :=
        ⟨some (bs.span indexes.start (subU32 indexes.stop indexes.start) none), none, known.bind (·.etag)⟩
      let now : Nat ← perform .clock
      match ← originGet (ReadCtx.new ns key name none policy) options (retry.attemptDeadline now) with
      | .ready (.ok response) =>
          let ctx ← buildCtx ns name policy response.meta
          let fetched ← adoptResponse ctx indexes response
          pure (.ok (ctx, fetched))
      | .ready (.error .notModified) =>
          match known with
          | some m =>
              let ctx ← buildCtx ns name policy m
              pure (.ok (ctx, []))
          | none => pure (.error (.origin .notModified))
      | .ready (.error .notFound) =>
          perform (.metaRemove key)
          pure (.error .notFound)
      | .ready (.error e) =>
          match ← pastEnd fuel ns key name (bs.offset indexes.start) with
          | none => hang
          | some (some m) =>
              let ctx ← buildCtx ns name policy m
              pure (.ok (ctx, []))
          | some none =>
              match ← retry.pause e with
              | none => hang
              | some (_, .error e) => pure (.error (.ofOrigin e))
              | some (retry, .ok ()) => probeLoop ns name indexes known policy fuel retry
      | _ => hang

def probe (fuel : Nat) (ns : NamespaceState) (name : Bytes) (indexes : Range) (known : Option ObjectMeta)
    (policy : FetchPolicy) : Program (Except NestorError (ReadCtx × List SlotHandle)) := do
  let now : Nat ← perform .clock
  probeLoop ns name indexes known policy fuel (Retry.new policy now)

end Nestor
