import Nestor.Client.Hedged
import Nestor.Core.Key
import Nestor.Lib.Buffered

/-!
# Routed reads

`Cluster::get` of `read.rs`. The first block is asked for and answered before the response is there.
The other blocks are asked for while the body is read, at most `read_window` at a time, and come
from whatever nodes the cluster ranks for them at that time.

The body is a state machine: the items of the first response, then of the others in the order of
their blocks.
-/

namespace Nestor.Client

open Lib

variable {Addr : Type} [LinearOrder Addr]

/-- A block of the rest of a read, and what it is asked for with. -/
abbrev Piece := Nat × GetOptions

/-- The items of the first response, the other blocks, the items of the response that is being read,
and all that has been yielded. -/
structure RoutedBody where
  first : List BodyItem
  rest : Buffered Piece (Except OriginError GetResponse)
  current : List BodyItem
  out : List BodyItem

structure RoutedResponse where
  «meta» : ObjectMeta
  range : Range
  body : RoutedBody

namespace ClusterConfig

def readStart (options : GetOptions) : Nat := options.range.elim 0 Range.start

def readLimit (options : GetOptions) : Nat := options.range.elim (2 ^ 64 - 1) Range.stop

def firstIndex (config : ClusterConfig) (options : GetOptions) : Nat :=
  config.blockSize.index (readStart options)

def firstOptions (config : ClusterConfig) (options : GetOptions) : GetOptions where
  range := some ⟨readStart options,
    min (readLimit options) (config.blockSize.offset (addU32 (config.firstIndex options) 1))⟩
  ifMatch := options.ifMatch
  ifNoneMatch := options.ifNoneMatch

def piece (config : ClusterConfig) (stop : Nat) (ifMatch : Option Bytes) (index : Nat) : Piece :=
  (index, ⟨some (config.blockSize.blockRange index (some stop)), ifMatch, none⟩)

/-- The blocks from `first` to `last` of a read that ends at `stop`. -/
def pieces (config : ClusterConfig) (first last stop : Nat) (ifMatch : Option Bytes) : List Piece :=
  (List.range' first (last + 1 - first)).map (config.piece stop ifMatch)

/-- The response once the first block is answered. -/
def respond (config : ClusterConfig) (options : GetOptions) (first : GetResponse) : RoutedResponse :=
  let stop := min (readLimit options) first.meta.size
  let lastIndex := max (config.blockSize.index (stop - 1)) (config.firstIndex options)
  let ifMatch := options.ifMatch.or first.meta.etag
  { «meta» := first.meta
    range := ⟨readStart options, stop⟩
    body := ⟨first.body, ⟨config.pieces (addU32 (config.firstIndex options) 1) lastIndex stop ifMatch, []⟩,
      [], []⟩ }

end ClusterConfig

namespace Cluster

variable [RouteHash Addr]

def block (c : Cluster Addr) (object index : Nat) :
    RouteProgram GetResponse (Except OriginError GetResponse) :=
  hedged c.config.hedge (c.rank object index)

def get (c : Cluster Addr) (object : Nat) (options : GetOptions) :
    RouteProgram GetResponse (Except OriginError RoutedResponse) := do
  if ClusterConfig.readLimit options ≤ ClusterConfig.readStart options then pure (.error .io)
  else
    match ← c.block object (c.config.firstIndex options) with
    | .error e => pure (.error e)
    | .ok first => pure (.ok (c.config.respond options first))

end Cluster

/-! ## Reading the body -/

/-- What may happen while the body is read. -/
inductive BodyEvent where
  | first
  | start
  | finish (k : Nat) (result : Except OriginError GetResponse)
  | take
  | next

namespace RoutedBody

/-- An error of a block's request is an item of the body. -/
def receive (b : RoutedBody) (rest : Buffered Piece (Except OriginError GetResponse)) :
    Except OriginError GetResponse → RoutedBody
  | .ok response => { b with rest := rest, current := response.body }
  | .error e => { b with rest := rest, out := b.out ++ [.error e] }

/-- The other blocks are polled once the first response, and the one being read, have ended. -/
def step (window : Nat) (b : RoutedBody) : BodyEvent → Option RoutedBody
  | .first =>
      match b.first with
      | [] => none
      | item :: first => some { b with first := first, out := b.out ++ [item] }
  | .start =>
      if b.first = [] ∧ b.current = [] then (b.rest.start (max window 1)).map
        fun rest => { b with rest := rest }
      else none
  | .finish k result => (b.rest.finish k result).map fun rest => { b with rest := rest }
  | .take =>
      if b.first = [] ∧ b.current = [] then b.rest.take.map fun taken => b.receive taken.2 taken.1.2 else none
  | .next =>
      match b.current with
      | [] => none
      | item :: current =>
          if b.first = [] then some { b with current := current, out := b.out ++ [item] } else none

/-- The stream has ended. -/
def Ended (b : RoutedBody) : Prop := b.first = [] ∧ b.current = [] ∧ b.rest.items = []

end RoutedBody

end Nestor.Client
