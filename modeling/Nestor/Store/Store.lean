import Nestor.Engine.World
import Nestor.Store.Error

/-!
# The store over the engine

`store.rs` of the store bindings: an `ObjectStore` that hands writes on to the store it wraps,
`inner`, and invalidates what they have changed once `inner` has answered. A request runs as a
program over the answers of `inner` and the calls of the engine. `Clients` adds the requests under
way to the world of the engine, to which `inner` is the origin of the namespace.

The options of a request, the parts of a multipart upload and its abortion go to `inner` as they
are.
-/

namespace Nestor.Store

open Lib

structure PutResult where
  eTag : Option Bytes
deriving DecidableEq

/-- The requests that change objects. -/
inductive Request where
  | putOpts (location : Bytes) (payload : List Bytes)
  | complete (location : Bytes)
  | copyOpts (source target : Bytes)
  | renameOpts (source target : Bytes)
  | deleteStream (locations : List (Except StoreError Bytes))

inductive StoreOp where
  | put (location : Bytes) (payload : List Bytes)
  | complete (location : Bytes)
  | copy (source target : Bytes)
  | rename (source target : Bytes)
  /-- The next item of the stream of `inner`. -/
  | deleted (locations : List (Except StoreError Bytes))
  /-- A call of the engine, and waiting for it to return. -/
  | call (c : Call)
  | join (i : Nat)
  | item (result : Except StoreError Bytes)
  | returned (result : Except StoreError (Option PutResult))

abbrev StoreResp : StoreOp → Type
  | .put _ _ | .complete _ => Except StoreError PutResult
  | .copy _ _ | .rename _ _ => Except StoreError Unit
  | .deleted _ => Option (Except StoreError Bytes)
  | .call _ => Nat
  | .join _ | .item _ | .returned _ => Unit

abbrev StoreProgram := Prog StoreOp StoreResp

def ask (o : StoreOp) : StoreProgram (StoreResp o) := Prog.call o

structure NestorStore where
  ns : NamespaceState
  populateOnWrite : Bool

def payloadBytes : List Bytes → Bytes
  | [] => []
  | [single] => single
  | first :: second :: chunks => chunks.foldl (· ++ ·) (first ++ second)

namespace NestorStore

variable (store : NestorStore)

/-- The engine's calls return to the store, which ignores their result. -/
def invoke (c : Call) : StoreProgram Unit := do
  let i ← ask (.call c)
  ask (.join i)

def invalidate (location : Bytes) : StoreProgram Unit := invoke (.invalidate location)

def populate (location : Bytes) (payload : List Bytes) (result : PutResult) : StoreProgram Unit :=
  if store.populateOnWrite then invoke (.insert location result.eTag (payloadBytes payload)) else pure ()

def putOpts (location : Bytes) (payload : List Bytes) : StoreProgram Unit := do
  match ← ask (.put location payload) with
  | .error e => ask (.returned (.error e))
  | .ok result =>
      invalidate location
      store.populate location payload result
      ask (.returned (.ok (some result)))

/-- `InvalidatingUpload::complete`. -/
def complete (location : Bytes) : StoreProgram Unit := do
  match ← ask (.complete location) with
  | .error e => ask (.returned (.error e))
  | .ok result =>
      invalidate location
      ask (.returned (.ok (some result)))

def copyOpts (source target : Bytes) : StoreProgram Unit := do
  match ← ask (.copy source target) with
  | .error e => ask (.returned (.error e))
  | .ok _ =>
      invalidate target
      ask (.returned (.ok none))

def renameOpts (source target : Bytes) : StoreProgram Unit := do
  match ← ask (.rename source target) with
  | .error e => ask (.returned (.error e))
  | .ok _ =>
      invalidate source
      invalidate target
      ask (.returned (.ok none))

/-- As many items of the stream of `inner` as are left. -/
def deleteItems (locations : List (Except StoreError Bytes)) : Nat → StoreProgram Unit
  | 0 => pure ()
  | left + 1 => do
      match ← ask (.deleted locations) with
      | none => pure ()
      | some (.error e) =>
          ask (.item (.error e))
          deleteItems locations left
      | some (.ok path) =>
          invalidate path
          ask (.item (.ok path))
          deleteItems locations left

/-- `inner` has one item for each location. -/
def deleteStream (locations : List (Except StoreError Bytes)) : StoreProgram Unit := do
  deleteItems locations locations.length
  ask (.returned (.ok none))

def program : Request → StoreProgram Unit
  | .putOpts location payload => store.putOpts location payload
  | .complete location => complete location
  | .copyOpts source target => copyOpts source target
  | .renameOpts source target => renameOpts source target
  | .deleteStream locations => deleteStream locations

end NestorStore

/-! ## The clients of the store -/

/-- What `inner` decides: its answer, the content of a completed upload and the etag of a copy. -/
inductive StoreChoice where
  | go
  | stored (result : Except StoreError PutResult) (data : Bytes)
  | copied (result : Except StoreError (Option Bytes))
  | deleted (item : Option (Except StoreError Bytes))

/-- A change that `inner` makes: the version an object has now, if there is one. -/
abbrev Change := Bytes × Option Version

def current (s : Shared) (ns location : Bytes) : Option Version := ((s.history ns location).head?).join

/-- The answer of `inner` and the changes it has made. A request that fails changes nothing. -/
def inner (s : Shared) (ns : Bytes) : (o : StoreOp) → StoreChoice → Option (StoreResp o × List Change)
  | .put location payload, .stored (.ok r) _ => some (.ok r, [(location, some ⟨payload.flatten, r.eTag⟩)])
  | .put _ _, .stored (.error e) _ => some (.error e, [])
  | .complete location, .stored (.ok r) data => some (.ok r, [(location, some ⟨data, r.eTag⟩)])
  | .complete _, .stored (.error e) _ => some (.error e, [])
  | .copy source target, .copied (.ok etag) =>
      (current s ns source).map fun v => (.ok (), [(target, some ⟨v.data, etag⟩)])
  | .copy _ _, .copied (.error e) => some (.error e, [])
  | .rename source target, .copied (.ok etag) =>
      (current s ns source).map fun v => (.ok (), [(source, none), (target, some ⟨v.data, etag⟩)])
  | .rename _ _, .copied (.error e) => some (.error e, [])
  | .deleted locations, .deleted (some (.ok path)) =>
      if locations.any fun | .ok location => location == path | .error _ => false then
        some (some (.ok path), [(path, none)])
      else none
  | .deleted _, .deleted (some (.error e)) => some (some (.error e), [])
  | .deleted _, .deleted none => some (none, [])
  | .item _, .go | .returned _, .go => some ((), [])
  | _, _ => none

def change (ns : Bytes) (s : Shared) (changes : List Change) : Shared :=
  changes.foldl (fun s p => s.setVersion ns p.1 p.2) s

variable [TagHash]

def respond (fuel : Nat) (store : NestorStore) (w : World) :
    (o : StoreOp) → StoreChoice → Option (StoreResp o × World × List Request)
  | .call c, .go => (World.step fuel w (.call store.ns.id c)).map fun w' => (w.threads.length, w', [])
  | .join i, .go => if (w.threads[i]?).any (·.ended) then some ((), w, []) else none
  | o, x => (inner w.shared store.ns.name o x).map fun (r, changes) =>
      (r, ⟨change store.ns.name w.shared changes, w.threads⟩, [])

def system (fuel : Nat) (store : NestorStore) : System World Request StoreChoice StoreOp StoreResp :=
  ⟨store.program, respond fuel store⟩

abbrev Clients := Conf World Request StoreOp StoreResp

abbrev Client := Thread Request StoreOp StoreResp

inductive StoreEvent where
  | engine (e : Event)
  | request (r : Request)
  | run (i : Nat) (x : StoreChoice)

def step (fuel : Nat) (store : NestorStore) (c : Clients) : StoreEvent → Option Clients
  | .engine e => (World.step fuel c.shared e).map fun w => ⟨w, c.threads⟩
  | .request r => some ⟨c.shared, c.threads ++ [(system fuel store).begin r]⟩
  | .run i x => (system fuel store).resume c i x

end Nestor.Store
