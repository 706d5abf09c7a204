import Nestor.Client.Router

/-!
# Loads on the nodes of a cluster

The nodes with the `Load`s that requests hold on them. A request takes a load with `Ranked::primary`
or `Ranked::secondary` and drops it when it ends, whether with an answer, an error, or because it is
dropped itself.
-/

namespace Nestor.Client

open Lib

structure Pool (Addr : Type) where
  heap : Heap Addr
  now : Nat
  loads : List NodeId

namespace Pool

variable {Addr : Type}

inductive Event
  | tick (nanos : Nat)
  | primary (ranked : List NodeId)
  | secondary (ranked : List NodeId) (primary : NodeId)
  | markDown (id : NodeId) (window : Nat)
  | release (id : NodeId)

/-- A load that was given out, if one was. -/
def take (p : Pool Addr) : Option (NodeId × Heap Addr) → Pool Addr
  | some (id, heap) => { p with heap := heap, loads := id :: p.loads }
  | none => p

/-- A load on the node is dropped. -/
def drop (p : Pool Addr) (id : NodeId) : Pool Addr :=
  { p with heap := Function.update p.heap id (p.heap id).release, loads := p.loads.erase id }

def down (p : Pool Addr) (id : NodeId) (window : Nat) : Pool Addr :=
  { p with heap := Function.update p.heap id ((p.heap id).markDown p.now window) }

def step [LinearOrder Addr] (p : Pool Addr) : Event → Option (Pool Addr)
  | .tick nanos => some { p with now := p.now + nanos }
  | .primary ranked => some (p.take (Ranked.primary p.heap p.now ranked))
  | .secondary ranked primary => some (p.take (Ranked.secondary p.heap p.now ranked primary))
  | .markDown id window => some (p.down id window)
  | .release id => if id ∈ p.loads then some (p.drop id) else none

end Pool

end Nestor.Client
