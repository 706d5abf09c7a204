import Nestor.Client.Node
import Nestor.Lib.Ranking

/-!
# Rendezvous hashing

`router.rs`: the nodes in the order of their scores for a block, and the choice of a node from it.
-/

namespace Nestor.Client

open Lib

variable {Addr : Type} [LinearOrder Addr]

/-- The order of a ranking: the higher score comes first, and of equal scores the lower address. -/
def rankKey [RouteHash Addr] (heap : Heap Addr) (object block : Nat) (id : NodeId) : Lex (Natᵒᵈ × Addr) :=
  toLex (OrderDual.toDual (RouteHash.score Addr (heap id).seed object block), (heap id).addr)

namespace Ranked

/-- The sort is unstable, which makes no difference as long as no two nodes have the same
address. -/
def new [RouteHash Addr] (heap : Heap Addr) (nodes : List NodeId) (object block : Nat) : List NodeId :=
  rankBy (rankKey heap object block) nodes

/-- The first of the nodes that takes one more request, and the heap after it has. -/
def firstFree (heap : Heap Addr) (nodes : List NodeId) : Option (NodeId × Heap Addr) :=
  nodes.findSome? fun id => (heap id).tryAcquire.map fun node => (id, Function.update heap id node)

/-- A `Load` on the best node that is up and below its limit, or else on the best that is up, or
else on the best. -/
def primary (heap : Heap Addr) (now : Nat) (ranked : List NodeId) : Option (NodeId × Heap Addr) :=
  let up := ranked.filter fun id => (heap id).isUp now
  match firstFree heap up with
  | some load => some load
  | none => (up.head?.or ranked.head?).map fun id => (id, Function.update heap id (heap id).acquire)

def secondary (heap : Heap Addr) (now : Nat) (ranked : List NodeId) (primary : NodeId) :
    Option (NodeId × Heap Addr) :=
  firstFree heap (ranked.filter fun id => (heap id).addr ≠ (heap primary).addr && (heap id).isUp now)

end Ranked

end Nestor.Client
