import Nestor.Body.Hedged
import Nestor.Lib.Prog

/-!
# The operations of the engine's tasks

Every access of a task to what it shares with others, every await and everything a caller gets to
see is an operation; what a task does in between is its own. So tasks interleave at each single
access, as they do on a runtime with several threads. An await is answered when the runtime resumes
the task.

The future of a task may be dropped while it awaits. That is an answer where the future owns slots,
which are cancelled then; elsewhere a dropped future is one that is not resumed again.

The semaphores bound how many tasks are busy at once. They are not counted here: `acquire` is
answered whenever the runtime likes.
-/

namespace Nestor

open Lib

abbrev BlockResult := Except NestorError Block

/-- The channel a fetch result is published on, known by the key it was registered for and a number.
The owner of the registration holds it as a `Slot`, everybody else through a handle. -/
structure Slot where
  key : BlockKey
  id : Nat
deriving DecidableEq

inductive SlotHandle where
  | resolved (result : BlockResult)
  | waiting (slot : Slot)
deriving DecidableEq

inductive Registration where
  | owner (slot : Slot)
  | waiter (slot : Slot)
deriving DecidableEq

inductive MetaLookup where
  | fresh (m : ObjectMeta)
  | stale (m : ObjectMeta)
  | missing
deriving DecidableEq

inductive Priority where
  | foreground
  | background
deriving DecidableEq

/-- A request on its way to the origin of a namespace. `since` tells how many versions the object
had seen when it was sent. -/
structure GetRequest where
  «namespace» : Bytes
  object : Bytes
  options : GetOptions
  since : Nat
deriving DecidableEq

structure HeadRequest where
  «namespace» : Bytes
  object : Bytes
  since : Nat
deriving DecidableEq

/-- How an await ends: with a value, by the timeout around it, or because the future is dropped. -/
inductive Awaited (α : Type) where
  | ready (a : α)
  | timeout
  | dropped
deriving DecidableEq

/-- The first of the requests to be answered, or the hedge delay. -/
inductive GetAnswer where
  | answered (i : Nat) (result : Except OriginError GetResponse)
  | stalled
deriving DecidableEq

/-- What runs as a task of its own: the tasks the engine spawns, and the calls of its users. -/
inductive Task where
  | fetchGroup (ctx : ReadCtx) (slots : List Slot) (priority : Priority) (initial : Option GetResponse)
  | readahead (ctx : ReadCtx) (indexes : Range)
  | get (ns : NamespaceState) (object : Bytes) (request : ReadRange) (policy : FetchPolicy)
  | head (ns : NamespaceState) (object : Bytes)
  | insert (ns : NamespaceState) (object : Bytes) (etag : Option Bytes) (data : Bytes)
  | invalidate (ns : NamespaceState) (object : Bytes)
  | write (ns : NamespaceState) (object : Bytes) (v : Version) (populate : Bool)

inductive Op where
  | clock
  | metaLookup (key : ObjectKey) (ttl : Option Nat)
  | metaAny (key : ObjectKey)
  | metaPut (key : ObjectKey) (m : ObjectMeta)
  | metaRemove (key : ObjectKey)
  | readaheadObserve (key : ObjectKey) (range : Range)
  | readaheadForget (key : ObjectKey)
  /-- One of several concurrent lookups completes. -/
  | blocksGet (keys : List BlockKey)
  | blocksContains (key : BlockKey)
  | blocksInsert (key : BlockKey) (block : Block)
  | blocksRemove (key : BlockKey)
  | register (key : BlockKey)
  | unregister (key : BlockKey)
  | publish (slot : Slot) (result : BlockResult)
  | wait (slot : Slot)
  /-- Whether this is the last reference to an error. -/
  | sole
  | acquire (priority : Priority)
  | sendGet («namespace» object : Bytes) (options : GetOptions)
  /-- A second request beside one that is slow, if there is a permit for it. -/
  | hedge (primary : GetRequest)
  | sendHead («namespace» object : Bytes)
  | awaitGet (requests : List GetRequest) (hedge : Bool) (deadline : Nat)
  | awaitHead (request : HeadRequest) (deadline : Nat)
  | awaitBody (body : HedgedBody) (waiting : Waiting) (deadline : Nat)
  | awaitStream (deadline : Nat)
  | sleep (until_ : Nat)
  | spawn (task : Task)
  /-- The origin accepts a write. -/
  | put («namespace» object : Bytes) (v : Version)
  /-- A call returns an error to its caller. -/
  | failed (error : NestorError)
  /-- `get` returns a stream; its range, and what its metadata cell holds. -/
  | opened (range : Range) (known : Option ObjectMeta)
  /-- The stream yields an item; what its metadata cell holds then. -/
  | item (known : Option ObjectMeta) (item : Except NestorError Bytes)
  /-- The stream ends. -/
  | ended
  /-- `head` returns. -/
  | described (m : ObjectMeta)
  /-- A call without a result returns. -/
  | returned
  /-- A future that is not resumed again, or whose further run is not modelled. -/
  | hang

/-- The answers to an operation. -/
abbrev Resp : Op → Type
  | .clock => Nat
  | .metaLookup _ _ => MetaLookup
  | .metaAny _ => Option ObjectMeta
  | .readaheadObserve _ _ => Bool
  | .blocksGet _ => Awaited (Nat × Option Block)
  | .blocksContains _ => Bool
  | .register _ => Registration
  | .wait _ => BlockResult
  | .sole => Bool
  | .acquire _ => Bool
  | .sendGet _ _ _ => GetRequest
  | .hedge _ => Option GetRequest
  | .sendHead _ _ => HeadRequest
  | .awaitGet _ _ _ => Awaited GetAnswer
  | .awaitHead _ _ => Awaited (Except OriginError ObjectMeta)
  | .awaitBody _ _ _ => Awaited BodyEvent
  | .awaitStream _ => Awaited Unit
  | .sleep _ => Awaited Unit
  | .hang => Empty
  | _ => Unit

abbrev Program := Prog Op Resp

/-- Operations done, with their answers. -/
abbrev Trace := List (Done Op Resp)

abbrev perform (o : Op) : Program (Resp o) := Prog.call o

/-- Never answered. -/
abbrev hang {α : Type} : Program α := Prog.op .hang nofun

namespace Slot

/-- `Slot::settle`: the entry leaves the table first, then the result is published. -/
def settle (slot : Slot) (result : BlockResult) : Program Unit := do
  perform (.unregister slot.key)
  perform (.publish slot result)

end Slot

def resolveAll (result : BlockResult) : List Slot → Program Unit
  | [] => pure ()
  | slot :: slots => do
      slot.settle result
      resolveAll result slots

/-- Dropping a queue of slots. -/
def cancelAll (slots : List Slot) : Program Unit := resolveAll (.error .cancelled) slots

def SlotHandle.wait : SlotHandle → Program BlockResult
  | .resolved result => pure result
  | .waiting slot => perform (.wait slot)

end Nestor
