import Nestor.Engine.Op
import Nestor.Lib.Sharded

/-!
# The table of fetches in flight

`inflight.rs`, step by step: the tasks of the engine see `Inflight::register`, the settling of a
slot and `SlotHandle::wait` as single operations, here each of them is taken apart where another
thread may come in between. A channel is one of `tokio::sync::watch`: a value with a version that
counts the sends, closed once its sender is dropped. The hash of a key comes from the crate `ahash`
and is a parameter.
-/

namespace Nestor.Inflight

open Lib

structure Channel where
  value : Option BlockResult
  version : Nat
  closed : Bool
deriving DecidableEq

namespace Channel

/-- `watch::channel`. -/
def new (value : Option BlockResult) : Channel := ⟨value, 0, false⟩

/-- `send_replace`. -/
def send (c : Channel) (result : BlockResult) : Channel :=
  { c with value := some result, version := c.version + 1 }

def close (c : Channel) : Channel := { c with closed := true }

end Channel

/-- The next step of a slot's code. `settle` runs in `resolve`, which drops the slot in the end, and
in `drop`. -/
inductive Stage where
  /-- Its owner holds it. -/
  | held
  | settle (result : BlockResult) (dropping : Bool)
  | remove (result : BlockResult) (dropping : Bool)
  | publish (result : BlockResult) (dropping : Bool)
  /-- `drop` is done, the fields are dropped next. -/
  | release
  | gone
deriving DecidableEq

/-- Where `settle` returns to. -/
def Stage.after (dropping : Bool) : Stage := if dropping then .release else .settle (.error .cancelled) true

structure Slot where
  key : BlockKey
  tx : Nat
  resolved : Bool
  stage : Stage
deriving DecidableEq

/-- The slot has removed its entry from the table. -/
def Slot.removed (slot : Slot) : Bool :=
  match slot.stage with
  | .held | .remove _ _ => false
  | .settle _ _ => slot.resolved
  | .publish _ _ | .release | .gone => true

/-- The next step of `SlotHandle::wait`. -/
inductive Wait where
  | start
  | look
  | changed (seen : Nat)
  | returned (result : BlockResult)
deriving DecidableEq

structure Handle where
  rx : Nat
  wait : Wait
deriving DecidableEq

/-- Whatever refers to a channel has its number. -/
structure State (hash : BlockKey → Nat) where
  table : Sharded BlockKey Nat hash
  channels : List Channel
  slots : List Slot
  handles : List Handle

inductive Event where
  | register (key : BlockKey)
  /-- `Slot::resolve` is called. -/
  | resolve (i : Nat) (result : BlockResult)
  /-- A slot is dropped without being resolved. -/
  | drop (i : Nat)
  /-- The code of a slot goes on. -/
  | settle (i : Nat)
  /-- `SlotHandle::resolved`. -/
  | resolved (result : BlockResult)
  | clone (n : Nat)
  /-- The `wait` of a handle goes on. -/
  | wait (n : Nat)
deriving DecidableEq

namespace State

variable {hash : BlockKey → Nat}

/-- `Inflight::new`. -/
def new (shards : Nat) : State hash where
  table := .empty (max shards 1).nextPowerOfTwo (Nat.pos_of_isPowerOfTwo (Nat.isPowerOfTwo_nextPowerOfTwo _))
  channels := []
  slots := []
  handles := []

def register (s : State hash) (key : BlockKey) : State hash :=
  match s.table.get key with
  | some rx => { s with handles := s.handles ++ [⟨rx, .start⟩] }
  | none =>
      let c := s.channels.length
      { table := s.table.insert key c,
        channels := s.channels ++ [.new none],
        slots := s.slots ++ [⟨key, c, false, .held⟩],
        handles := s.handles ++ [⟨c, .start⟩] }

def setSlot (s : State hash) (i : Nat) (slot : Slot) : State hash := { s with slots := s.slots.set i slot }

/-- The owner gives slot `i` up. -/
def give (s : State hash) (i : Nat) (result : BlockResult) (dropping : Bool) : Option (State hash) :=
  match s.slots[i]? with
  | some ⟨key, tx, resolved, .held⟩ => some (s.setSlot i ⟨key, tx, resolved, .settle result dropping⟩)
  | _ => none

/-- A step of `Slot::settle`, or of what follows it. -/
def settle (s : State hash) (i : Nat) : Option (State hash) :=
  match s.slots[i]? with
  | some ⟨key, tx, resolved, .settle result dropping⟩ =>
      if resolved then some (s.setSlot i ⟨key, tx, resolved, .after dropping⟩)
      else some (s.setSlot i ⟨key, tx, true, .remove result dropping⟩)
  | some ⟨key, tx, resolved, .remove result dropping⟩ =>
      some { s.setSlot i ⟨key, tx, resolved, .publish result dropping⟩ with table := s.table.erase key }
  | some ⟨key, tx, resolved, .publish result dropping⟩ =>
      some
        { s.setSlot i ⟨key, tx, resolved, .after dropping⟩ with channels := s.channels.modify tx (·.send
        result) }
  | some ⟨key, tx, resolved, .release⟩ =>
      some { s.setSlot i ⟨key, tx, resolved, .gone⟩ with channels := s.channels.modify tx .close }
  | _ => none

/-- A step of `SlotHandle::wait` on a channel; `none` while it has to wait. -/
def poll (c : Channel) : Wait → Option Wait
  | .start => some .look
  | .look =>
      match c.value with
      | some result => some (.returned result)
      | none => some (.changed c.version)
  | .changed seen =>
      if c.version ≠ seen then some .look
      else if c.closed then some (.returned (.error .cancelled))
      else none
  | .returned _ => none

def wait (s : State hash) (n : Nat) : Option (State hash) := do
  let handle ← s.handles[n]?
  let c ← s.channels[handle.rx]?
  let next ← poll c handle.wait
  pure { s with handles := s.handles.set n ⟨handle.rx, next⟩ }

def step (s : State hash) : Event → Option (State hash)
  | .register key => some (s.register key)
  | .resolve i result => s.give i result false
  | .drop i => s.give i (.error .cancelled) true
  | .settle i => s.settle i
  | .resolved result =>
      let c : Channel := (Channel.new (some result)).close
      some { s with channels := s.channels ++ [c], handles := s.handles ++ [⟨s.channels.length, .start⟩] }
  | .clone n =>
      match s.handles[n]? with
      | some ⟨rx, .start⟩ => some { s with handles := s.handles ++ [⟨rx, .start⟩] }
      | _ => none
  | .wait n => s.wait n

end State

/-- What an event settles slot `i` with. -/
def Event.settles (i : Nat) : Event → Option BlockResult
  | .resolve j result => if j = i then some result else none
  | .drop j => if j = i then some (.error .cancelled) else none
  | _ => none

/-- The first result that slot `i` is settled with in a run. -/
def firstSettled (es : List Event) (i : Nat) : Option BlockResult := es.findSome? (Event.settles i)

end Nestor.Inflight
