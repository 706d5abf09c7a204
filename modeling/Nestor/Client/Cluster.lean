import Nestor.Client.Router

/-!
# The cluster

`cluster.rs`: the current nodes and how a resolved list of addresses changes them.
-/

namespace Nestor.Client

open Lib

variable {Addr : Type} [LinearOrder Addr] [RouteHash Addr]

/-- The nodes with the addresses, in their order: a current node where there is one, and else a new
one. The heap is filled up from `fresh`. -/
def nodesFor (config : ClusterConfig) (current : List NodeId) (now : Nat) :
    Heap Addr → NodeId → List Addr → List NodeId × Heap Addr × NodeId
  | heap, fresh, [] => ([], heap, fresh)
  | heap, fresh, addr :: addrs =>
      match current.find? fun id => (heap id).addr = addr with
      | some id =>
          let (ids, heap, fresh) := nodesFor config current now heap fresh addrs
          (id :: ids, heap, fresh)
      | none =>
          let heap := Function.update heap fresh (Node.new addr config now)
          let (ids, heap, next) := nodesFor config current now heap (fresh + 1) addrs
          (fresh :: ids, heap, next)

structure Cluster (Addr : Type) where
  config : ClusterConfig
  heap : Heap Addr
  fresh : NodeId
  nodes : List NodeId

namespace Cluster

/-- A cluster needs a node. What lies on the heap is not looked at. -/
def new (config : ClusterConfig) (heap : Heap Addr) (now : Nat) (addrs : List Addr) : Option (Cluster Addr) :=
  if addrs = [] then none
  else
    let (nodes, heap, fresh) := nodesFor config [] now heap 0 addrs
    some ⟨config, heap, fresh, nodes⟩

def rank (c : Cluster Addr) (object block : Nat) : List NodeId := Ranked.new c.heap c.nodes object block

/-- The binary search for an address in the sorted list finds it if it is there. -/
def apply (c : Cluster Addr) (now : Nat) (addrs : List Addr) : Cluster Addr :=
  let addrs := addrs.insertionSort (· ≤ ·)
  let (next, heap, fresh) := nodesFor c.config c.nodes now c.heap c.fresh addrs
  let added := fresh - c.fresh
  let removed := (c.nodes.filter fun id => (c.heap id).addr ∉ addrs).length
  if 0 < added ∨ 0 < removed then { c with heap := heap, fresh := fresh, nodes := next } else c

end Cluster

end Nestor.Client
