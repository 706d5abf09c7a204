import Mathlib.Logic.Function.Basic
import Nestor.Core.Block

/-!
# Members of a cluster

`node.rs` and the settings of `config.rs` that routing reads. What a node needs to be talked to (its
endpoint, credentials, transport and clients) and its latency estimate, which only times a hedge,
are left out. An `Arc<Node>` is the id of a node on a heap, so that two handles are the same node
exactly if their ids are equal.
-/

namespace Nestor.Client

open Lib

/-- The seeded hasher of `router.rs`, of the crate `ahash`: its value for an address, for an object
and for a node, an object and a block. -/
class RouteHash (Addr : Type) where
  seed : Addr → Nat
  objectHash : Bytes → Bytes → Nat
  score : Nat → Nat → Nat → Nat

namespace RouteSample

/-- A hash to evaluate the model with. -/
scoped instance : RouteHash Nat where
  seed := id
  objectHash := fun bucket key => bucket.length + key.length
  score := fun seed object block => (7 * seed + object + 3 * block) % 5

end RouteSample

/-- Of the hedge configuration only its presence is kept. -/
structure ClusterConfig where
  blockSize : BlockSize
  readWindow : Nat
  loadLimit : Nat
  downFor : Nat
  hedge : Bool

def ClusterConfig.default : ClusterConfig := ⟨BlockSize.default, 16, 256, 5000000000, true⟩

structure Node (Addr : Type) where
  addr : Addr
  seed : Nat
  loadLimit : Nat
  inflight : Nat
  epoch : Nat
  downUntilNanos : Nat
deriving DecidableEq

abbrev NodeId := Nat

abbrev Heap (Addr : Type) := NodeId → Node Addr

namespace Node

variable {Addr : Type}

def new [RouteHash Addr] (addr : Addr) (config : ClusterConfig) (now : Nat) : Node Addr :=
  ⟨addr, RouteHash.seed addr, max config.loadLimit 1, 0, now, 0⟩

def elapsedNanos (node : Node Addr) (now : Nat) : Nat := (now - node.epoch) % 2 ^ 64

def isUp (node : Node Addr) (now : Nat) : Bool :=
  node.downUntilNanos = 0 || node.downUntilNanos ≤ node.elapsedNanos now

def markDown (node : Node Addr) (now window : Nat) : Node Addr :=
  let deadline := max (min (node.elapsedNanos now + window % 2 ^ 64) (2 ^ 64 - 1)) 1
  { node with downUntilNanos := max node.downUntilNanos deadline }

/-- One more request, unless the node has as many as it may have. -/
def tryAcquire (node : Node Addr) : Option (Node Addr) :=
  if node.loadLimit ≤ node.inflight then none else some { node with inflight := node.inflight + 1 }

/-- A process does not hold as many loads as would make the counter wrap. -/
def acquire (node : Node Addr) : Node Addr := { node with inflight := node.inflight + 1 }

/-- A `Load` is dropped. Below zero the counter wraps. -/
def release (node : Node Addr) : Node Addr :=
  { node with inflight := if node.inflight = 0 then 2 ^ 64 - 1 else node.inflight - 1 }

end Node

end Nestor.Client
