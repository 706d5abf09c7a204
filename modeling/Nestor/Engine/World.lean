import Mathlib.Logic.Function.Basic
import Nestor.Engine.Nestor
import Nestor.Lib.Threads

/-!
# The engine among its callers, its origins and its cache

`Shared` is what the tasks share: the registry, the caches, the table of fetches in flight, and
outside of the engine the clock and the origins. `respond` says what an operation does to it and
which answers the environment may choose; `World.step` adds what happens besides the tasks: calls,
registrations, overwrites at an origin, evictions, and the restart of the process, which keeps
blocks on disk.

The block cache is foyer's. A lookup finds a block inserted under the key and not removed since, or
nothing; which blocks stay in RAM or on disk is up to evictions and restarts.
-/

namespace Nestor

open Lib

structure MetaEntry where
  «meta» : ObjectMeta
  «at» : Nat
deriving DecidableEq

structure Registry where
  byName : Bytes → Option NamespaceId
  states : List NamespaceState

def Registry.empty : Registry := ⟨fun _ => none, []⟩

structure Shared where
  registry : Registry
  metas : ObjectKey → Option MetaEntry
  lastEnd : ObjectKey → Option Nat
  blocks : List (BlockKey × Block)
  inflight : BlockKey → Option Slot
  channels : Slot → Option BlockResult
  nextSlot : Nat
  now : Nat
  /-- The versions of every object at the origin of a namespace, the current one first; `none` where
  the object does not exist. -/
  history : Bytes → Bytes → List (Option Version)
  /-- The contents that calls of `insert` brought in. -/
  inserted : Bytes → Bytes → List Version
  /-- The namespaces registered in this and in all earlier lifetimes of the engine. -/
  registered : List NamespaceState
  /-- The blocks this lifetime found on disk when it started. -/
  recovered : List (BlockKey × Block)

namespace Shared

def init : Shared where
  registry := .empty
  metas := fun _ => none
  lastEnd := fun _ => none
  blocks := []
  inflight := fun _ => none
  channels := fun _ => none
  nextSlot := 0
  now := 0
  history := fun _ _ => []
  inserted := fun _ _ => []
  registered := []
  recovered := []

/-- `Nestor::register`. -/
def registerNamespace (s : Shared) (name : Bytes) (config : NamespaceConfig) : Shared :=
  match s.registry.byName name with
  | some _ => s
  | none =>
      let id := toU32 s.registry.states.length
      let state : NamespaceState := ⟨id, name, config⟩
      { s with
        registry := ⟨Function.update s.registry.byName name (some id), s.registry.states ++ [state]⟩,
        registered := state :: s.registered }

/-- `MetaCache::lookup`. -/
def lookupMeta (s : Shared) (key : ObjectKey) (ttl : Option Nat) : MetaLookup :=
  match s.metas key with
  | none => .missing
  | some entry =>
      match ttl with
      | some ttl => if ttl < s.now - entry.at then .stale entry.meta else .fresh entry.meta
      | none => .fresh entry.meta

def putMeta (s : Shared) (key : ObjectKey) (m : ObjectMeta) : Shared :=
  { s with metas := Function.update s.metas key (some ⟨m, s.now⟩) }

def removeMeta (s : Shared) (key : ObjectKey) : Shared :=
  { s with metas := Function.update s.metas key none }

def insertBlock (s : Shared) (key : BlockKey) (block : Block) : Shared :=
  { s with blocks := (key, block) :: s.blocks }

def removeBlock (s : Shared) (key : BlockKey) : Shared :=
  { s with blocks := s.blocks.filter (·.1 ≠ key) }

/-- `Inflight::register`. -/
def register (s : Shared) (key : BlockKey) : Registration × Shared :=
  match s.inflight key with
  | some slot => (.waiter slot, s)
  | none =>
      let slot : Slot := ⟨key, s.nextSlot⟩
      (.owner slot,
        { s with inflight := Function.update s.inflight key (some slot), nextSlot := s.nextSlot + 1 })

/-- `Inflight::remove`. -/
def unregister (s : Shared) (key : BlockKey) : Shared :=
  { s with inflight := Function.update s.inflight key none }

def publish (s : Shared) (slot : Slot) (result : BlockResult) : Shared :=
  { s with channels := Function.update s.channels slot (some result) }

/-- `Readahead::observe`. -/
def observe (s : Shared) (key : ObjectKey) (range : Range) : Bool × Shared :=
  (decide (s.lastEnd key = some range.start),
    { s with lastEnd := Function.update s.lastEnd key (some range.stop) })

def setVersion (s : Shared) (ns object : Bytes) (v : Option Version) : Shared :=
  let objects := Function.update (s.history ns) object (v :: s.history ns object)
  { s with history := Function.update s.history ns objects }

/-- The versions that were current at some time since the object had seen `since` of them. -/
def currentSince (s : Shared) (ns object : Bytes) (since : Nat) : List (Option Version) :=
  (s.history ns object).take ((s.history ns object).length - since + 1)

/-- The origin may give this answer to the request, when it looks at the version `v`. -/
def answers (s : Shared) (req : GetRequest) (v : Option Version) : Except OriginError GetResponse → Bool
  | .ok response =>
      v.any fun v =>
        decide (some v ∈ s.currentSince req.namespace req.object req.since) && decide (response.Of v) &&
        (req.options.ifMatch.isNone || req.options.ifMatch == v.etag) &&
        (req.options.ifNoneMatch.isNone || req.options.ifNoneMatch != v.etag)
  | .error .notModified =>
      v.any fun v =>
        decide (some v ∈ s.currentSince req.namespace req.object req.since) &&
        req.options.ifNoneMatch.isSome && req.options.ifNoneMatch == v.etag
  | .error _ => true

def describes (s : Shared) (req : HeadRequest) (v : Option Version) : Except OriginError ObjectMeta → Bool
  | .ok m =>
      v.any fun v =>
        decide (some v ∈ s.currentSince req.namespace req.object req.since) && decide (v.Names m)
  | .error _ => true

/-- The response of a backup is one of some version of the object. -/
def backs (s : Shared) (ctx : ReadCtx) (v : Option Version) : BodyEvent → Bool
  | .opened (.ok response) =>
      v.any fun v => decide (some v ∈ s.history ctx.namespace.name ctx.name) && decide (response.Of v)
  | _ => true

end Shared

/-- What the environment decides about an operation. -/
inductive Choice where
  | go
  | flag (b : Bool)
  | found (i : Nat) (block : Option Block)
  | answered (i : Nat) (v : Option Version) (result : Except OriginError GetResponse)
  | described (v : Option Version) (result : Except OriginError ObjectMeta)
  | body (v : Option Version) (ev : BodyEvent)
  | stalled
  | timeout
  | dropped

/-- The answer to an operation, the shared state after it and the tasks it starts; `none` where it
cannot be answered this way. -/
def respond (s : Shared) : (o : Op) → Choice → Option (Resp o × Shared × List Task)
  | .clock, .go => some (s.now, s, [])
  | .metaLookup key ttl, .go => some (s.lookupMeta key ttl, s, [])
  | .metaAny key, .go => some ((s.metas key).map (·.meta), s, [])
  | .metaPut key m, .go => some ((), s.putMeta key m, [])
  | .metaRemove key, .go => some ((), s.removeMeta key, [])
  | .readaheadObserve key range, .go => some ((s.observe key range).1, (s.observe key range).2, [])
  | .readaheadForget key, .go => some ((), { s with lastEnd := Function.update s.lastEnd key none }, [])
  | .blocksGet keys, .found i block =>
      match keys[i]?, block with
      | some _, none => some (.ready (i, none), s, [])
      | some key, some block => if (key, block) ∈ s.blocks then some (.ready (i, some block), s, []) else none
      | none, _ => none
  | .blocksGet _, .dropped => some (.dropped, s, [])
  | .blocksContains _, .flag b => some (b, s, [])
  | .blocksInsert key block, .go => some ((), s.insertBlock key block, [])
  | .blocksRemove key, .go => some ((), s.removeBlock key, [])
  | .register key, .go => some ((s.register key).1, (s.register key).2, [])
  | .unregister key, .go => some ((), s.unregister key, [])
  | .publish slot result, .go => some ((), s.publish slot result, [])
  | .wait slot, .go => (s.channels slot).map fun result => (result, s, [])
  | .sole, .flag b => some (b, s, [])
  | .acquire _, .flag b => some (b, s, [])
  | .sendGet ns object options, .go => some (⟨ns, object, options, (s.history ns object).length⟩, s, [])
  | .hedge primary, .flag permit =>
      let secondary := { primary with since := (s.history primary.namespace primary.object).length }
      some (if permit then some secondary else none, s, [])
  | .sendHead ns object, .go => some (⟨ns, object, (s.history ns object).length⟩, s, [])
  | .awaitGet requests _ _, .answered i v result =>
      match requests[i]? with
      | some req => if s.answers req v result then some (.ready (.answered i result), s, []) else none
      | none => none
  | .awaitGet _ hedge _, .stalled => if hedge then some (.ready .stalled, s, []) else none
  | .awaitGet _ _ deadline, .timeout => if deadline ≤ s.now then some (.timeout, s, []) else none
  | .awaitGet _ _ _, .dropped => some (.dropped, s, [])
  | .awaitHead req _, .described v result =>
      if s.describes req v result then some (.ready result, s, []) else none
  | .awaitHead _ deadline, .timeout => if deadline ≤ s.now then some (.timeout, s, []) else none
  | .awaitHead _ _, .dropped => some (.dropped, s, [])
  | .awaitBody b waiting _, .body v ev =>
      if b.expects waiting ev && s.backs b.ctx v ev then some (.ready ev, s, []) else none
  | .awaitBody _ _ deadline, .timeout => if deadline ≤ s.now then some (.timeout, s, []) else none
  | .awaitBody _ _ _, .dropped => some (.dropped, s, [])
  | .awaitStream _, .go => some (.ready (), s, [])
  | .awaitStream deadline, .timeout => if deadline ≤ s.now then some (.timeout, s, []) else none
  | .awaitStream _, .dropped => some (.dropped, s, [])
  | .sleep until_, .go => if until_ ≤ s.now then some (.ready (), s, []) else none
  | .sleep _, .dropped => some (.dropped, s, [])
  | .spawn task, .go => some ((), s, [task])
  | .put ns object v, .go => some ((), s.setVersion ns object (some v), [])
  | .failed _, .go | .opened _ _, .go | .item _ _, .go | .ended, .go | .described _, .go | .returned, .go =>
      some ((), s, [])
  | _, _ => none

/-! ## The world -/

/-- The calls of the engine's users, on a registered namespace. -/
inductive Call where
  | get (object : Bytes) (request : ReadRange) (policy : FetchPolicy)
  | head (object : Bytes)
  | insert (object : Bytes) (etag : Option Bytes) (data : Bytes)
  | invalidate (object : Bytes)
  | write (object : Bytes) (v : Version) (populate : Bool)

def Call.task (ns : NamespaceState) : Call → Task
  | .get object request policy => .get ns object request policy
  | .head object => .head ns object
  | .insert object etag data => .insert ns object etag data
  | .invalidate object => .invalidate ns object
  | .write object v populate => .write ns object v populate

inductive Event where
  | run (i : Nat) (x : Choice)
  | call (id : NamespaceId) (c : Call)
  | register (name : Bytes) (config : NamespaceConfig)
  | tick (n : Nat)
  | overwrite («namespace» object : Bytes) (v : Option Version)
  | evictBlock (i : Nat)
  | evictMeta (key : ObjectKey)
  | evictLastEnd (key : ObjectKey)
  | restart (kept : List Nat)

/-- The content a call of `insert` brings in. -/
def Shared.noteInsert (s : Shared) (ns : Bytes) : Call → Shared
  | .insert object etag data =>
      let objects := Function.update (s.inserted ns) object (⟨data, etag⟩ :: s.inserted ns object)
      { s with inserted := Function.update s.inserted ns objects }
  | _ => s

/-- The process ends and a new one starts: of the engine only the blocks on disk are kept. -/
def Shared.restarted (s : Shared) (kept : List Nat) : Shared :=
  let blocks := kept.filterMap (s.blocks[·]?)
  { s with
    registry := .empty, metas := fun _ => none, lastEnd := fun _ => none, blocks := blocks,
    inflight := fun _ => none, channels := fun _ => none, recovered := blocks }

abbrev World := Conf Shared Task Op Resp

namespace World

def init : World := ⟨Shared.init, []⟩

variable [TagHash]

def system (fuel : Nat) : System Shared Task Choice Op Resp := ⟨program fuel, respond⟩

def step (fuel : Nat) (w : World) : Event → Option World
  | .run i x => (system fuel).resume w i x
  | .call id c =>
      match w.shared.registry.states[id]? with
      | some ns => some ⟨w.shared.noteInsert ns.name c, w.threads ++ [(system fuel).begin (c.task ns)]⟩
      | none => none
  | .register name config => some { w with shared := w.shared.registerNamespace name config }
  | .tick n => some { w with shared := { w.shared with now := w.shared.now + n } }
  | .overwrite ns object v => some { w with shared := w.shared.setVersion ns object v }
  | .evictBlock i => some { w with shared := { w.shared with blocks := w.shared.blocks.eraseIdx i } }
  | .evictMeta key => some { w with shared := w.shared.removeMeta key }
  | .evictLastEnd key =>
      some { w with shared := { w.shared with lastEnd := Function.update w.shared.lastEnd key none } }
  | .restart kept => some ⟨w.shared.restarted kept, []⟩

end World

end Nestor
