import Nestor.Client.Cluster
import Nestor.Client.Pool
import Nestor.Lib.Runs
import Nestor.Lib.Threads
import Nestor.Store.Error

/-!
# Routed requests

`Cluster::hedged` and `Cluster::attempt` of `read.rs`, as a program over the nodes it shares with
other requests, and the system of all requests of a client. `T` is what a request is for: a response
or metadata.

The future of a request may be dropped while it awaits; that is an answer here, and the loads it
holds are dropped with it. Awaiting two attempts at once gives the one that ends first.
-/

namespace Nestor.Client

open Lib Store

/-- How an attempt ends: the client of its node cannot be built, or the store returns. -/
inductive Outcome (T : Type) where
  | unbuilt
  | done (result : Except StoreError T)

/-- An attempt is awaited beside the hedge delay. -/
inductive Woken (T : Type) where
  | finished (outcome : Outcome T)
  | delayed
  | dropped

/-- Two attempts are awaited. -/
inductive Raced (T : Type) where
  | first (outcome : Outcome T)
  | second (outcome : Outcome T)
  | dropped

inductive RouteOp (T : Type) where
  | primary (ranked : List NodeId)
  | secondary (ranked : List NodeId) (primary : NodeId)
  | finish (id : NodeId)
  | finishOrDelay (id : NodeId)
  | race (first second : NodeId)
  | observe (id : NodeId)
  | markDown (id : NodeId)
  | release (id : NodeId)
  | returned (result : Except OriginError T)
  /-- The rest of a future that was dropped. -/
  | hang

abbrev RouteResp (T : Type) : RouteOp T → Type
  | .primary _ | .secondary _ _ => Option NodeId
  | .finish _ => Option (Outcome T)
  | .finishOrDelay _ => Woken T
  | .race _ _ => Raced T
  | .hang => Empty
  | _ => Unit

abbrev RouteProgram (T : Type) := Prog (RouteOp T) (RouteResp T)

section

variable {T : Type}

abbrev route (o : RouteOp T) : RouteProgram T (RouteResp T o) := Prog.call o

/-- The future is dropped, with the loads it holds. -/
def abandon {α : Type} : List NodeId → RouteProgram T α
  | [] => Prog.op .hang nofun
  | id :: ids => do
      route (.release id)
      abandon ids

/-- What `attempt` does when its request has ended. -/
def settle (id : NodeId) : Outcome T → RouteProgram T (Except OriginError T)
  | .unbuilt => do
      route (.release id)
      pure (.error .io)
  | .done (.ok t) => do
      route (.observe id)
      route (.release id)
      pure (.ok t)
  | .done (.error e) =>
      if fromStore e = .io then do
        route (.markDown id)
        route (.release id)
        pure (.error .io)
      else do
        route (.release id)
        pure (.error (fromStore e))

def attempt (id : NodeId) : RouteProgram T (Except OriginError T) := do
  match ← route (.finish id) with
  | some outcome => settle id outcome
  | none => abandon [id]

/-- The other attempt goes on if this one has ended with an I/O error. -/
def handOver (id other : NodeId) (outcome : Outcome T) : RouteProgram T (Except OriginError T) := do
  match ← settle id outcome with
  | .error .io => attempt other
  | result => do
      route (.release other)
      pure result

/-- The primary's attempt, with a second one beside it when it is slow. -/
def firstResult (hedge : Bool) (ranked : List NodeId) (primary : NodeId) :
    RouteProgram T (Except OriginError T) := do
  if hedge then
    match ← route (.finishOrDelay primary) with
    | .finished outcome => settle primary outcome
    | .dropped => abandon [primary]
    | .delayed =>
        match ← route (.secondary ranked primary) with
        | none => attempt primary
        | some secondary =>
            match ← route (.race primary secondary) with
            | .first outcome => handOver primary secondary outcome
            | .second outcome => handOver secondary primary outcome
            | .dropped => abandon [primary, secondary]
  else attempt primary

def hedged (hedge : Bool) (ranked : List NodeId) : RouteProgram T (Except OriginError T) := do
  match ← route (.primary ranked) with
  | none => pure (.error .io)
  | some primary =>
      match ← firstResult hedge ranked primary with
      | .error .io =>
          match ← route (.secondary ranked primary) with
          | some failover => attempt failover
          | none => pure (.error .io)
      | result => pure result

end

/-! ## The system of all requests -/

/-- A client's state: its cluster, the time and the loads its requests hold. -/
structure Routing (Addr : Type) where
  cluster : Cluster Addr
  now : Nat
  loads : List NodeId

/-- A request for a block, with the ranking of its block when it was made. -/
structure Routed where
  hedge : Bool
  ranked : List NodeId

/-- How the environment answers an operation. -/
inductive RouteChoice (T : Type) where
  | go
  | finished (outcome : Outcome T)
  | delayed
  | second (outcome : Outcome T)
  | dropped

section

variable {Addr : Type} [LinearOrder Addr] {T : Type}

namespace Routing

def pool (s : Routing Addr) : Pool Addr := ⟨s.cluster.heap, s.now, s.loads⟩

def setPool (s : Routing Addr) (p : Pool Addr) : Routing Addr :=
  ⟨{ s.cluster with heap := p.heap }, p.now, p.loads⟩

/-- One operation of a request. -/
def respond (s : Routing Addr) : (o : RouteOp T) → RouteChoice T →
    Option (RouteResp T o × Routing Addr × List Routed)
  | .primary ranked, .go =>
      let load := Ranked.primary s.cluster.heap s.now ranked
      some (load.map Prod.fst, s.setPool (s.pool.take load), [])
  | .secondary ranked primary, .go =>
      let load := Ranked.secondary s.cluster.heap s.now ranked primary
      some (load.map Prod.fst, s.setPool (s.pool.take load), [])
  | .finish _, .finished outcome => some (some outcome, s, [])
  | .finish _, .dropped => some (none, s, [])
  | .finishOrDelay _, .finished outcome => some (.finished outcome, s, [])
  | .finishOrDelay _, .delayed => some (.delayed, s, [])
  | .finishOrDelay _, .dropped => some (.dropped, s, [])
  | .race _ _, .finished outcome => some (.first outcome, s, [])
  | .race _ _, .second outcome => some (.second outcome, s, [])
  | .race _ _, .dropped => some (.dropped, s, [])
  | .observe _, .go => some ((), s, [])
  | .markDown id, .go => some ((), s.setPool (s.pool.down id s.cluster.config.downFor), [])
  | .release id, .go => some ((), s.setPool (s.pool.drop id), [])
  | .returned _, .go => some ((), s, [])
  | _, _ => none

end Routing

/-- The program of a request returns its result to the caller. -/
def Routed.start (task : Routed) : RouteProgram T PUnit := do
  let result ← hedged task.hedge task.ranked
  route (.returned result)

def routeSystem : System (Routing Addr) Routed (RouteChoice T) (RouteOp T) (RouteResp T) where
  start := Routed.start
  respond := Routing.respond

abbrev RouteWorld (Addr T : Type) := Conf (Routing Addr) Routed (RouteOp T) (RouteResp T)

/-- What may happen: time passes, the membership is resolved anew, a request for a block is made, a
request goes on. -/
inductive RouteEvent (Addr T : Type) where
  | tick (nanos : Nat)
  | apply (addrs : List Addr)
  | request (object block : Nat)
  | run (i : Nat) (choice : RouteChoice T)

namespace RouteWorld

variable [RouteHash Addr]

def step (w : RouteWorld Addr T) : RouteEvent Addr T → Option (RouteWorld Addr T)
  | .tick nanos => some { w with shared := { w.shared with now := w.shared.now + nanos } }
  | .apply addrs =>
      some { w with shared := { w.shared with cluster := w.shared.cluster.apply w.shared.now addrs } }
  | .request object block =>
      let task : Routed := ⟨w.shared.cluster.config.hedge, w.shared.cluster.rank object block⟩
      some { w with threads := w.threads ++ [⟨task, task.start, []⟩] }
  | .run i choice => routeSystem.resume w i choice

end RouteWorld

end

end Nestor.Client
