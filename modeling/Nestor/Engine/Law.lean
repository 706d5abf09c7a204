import Mathlib.Algebra.Order.Group.Multiset
import Nestor.Body.Lemmas.Hedged
import Nestor.Core.Lemmas.Block
import Nestor.Engine.Nestor

/-!
# What the tasks guarantee and rely on

A `Universe` collects what there is in a run: the name behind every namespace id, the block sizes in
use, and all versions of all objects that are ever at an origin or inserted. `Exact` is the block an
origin's answer gives: its metadata names a version, its bytes are those of a version with a
matching tag. A `Law` adds what may be relied on of a block that comes out of the cache, which may
have been put there by an earlier process.

`storeSpec` is the contract of every task with the others: what goes into the caches and onto the
channels is lawful, given that what comes out of them is, and slots are settled by their owner only.
-/

namespace Nestor

open Lib

variable [TagHash]

structure Universe where
  name : NamespaceId → Bytes
  sizes : NamespaceId → BlockSize → Prop
  immutable : NamespaceId → Prop
  versions : Bytes → Bytes → Version → Prop

namespace Universe

variable (U : Universe)

structure Knows (ns : NamespaceState) : Prop where
  name : ns.name = U.name ns.id
  size : U.sizes ns.id ns.config.blockSize
  immutable : ns.config.consistency.isImmutable → U.immutable ns.id

/-- The versions of an object of a namespace. -/
def Has (id : NamespaceId) (object : Bytes) (v : Version) : Prop := U.versions (U.name id) object v

/-- The metadata is that of a version of the object. -/
def Describes (key : ObjectKey) (m : ObjectMeta) : Prop := ∃ v, U.Has key.namespace key.object v ∧ v.Names m

/-- Blocks of version `v` may be cached under the tag. -/
def Matches (id : NamespaceId) (tag : Nat) (v : Version) : Prop :=
  tag = immutableTag ∧ U.immutable id ∨ v.tag = tag

/-- The contents a stream of an object may carry, if it is read under the tag. -/
def Content (key : ObjectKey) (tag : Nat) (data : Bytes) : Prop :=
  ∃ w, U.Has key.namespace key.object w ∧ U.Matches key.namespace tag w ∧ data = w.data

/-- A block as it is cut out of an answer of the origin. -/
def Exact (key : BlockKey) (b : Block) : Prop :=
  key.index < maxU32 ∧
  ∃ bs v, U.sizes key.namespace bs ∧ U.Has key.namespace key.object v ∧
    U.Matches key.namespace key.tag v ∧ v.Names b.meta ∧
    CutFrom (U.Content ⟨key.namespace, key.object⟩ key.tag) (key.index * bs.bytes)
      (bs.blockRange key.index (some v.data.length)).count b.data

end Universe

structure Law extends Universe where
  /-- What may be relied on of a block found in the cache. -/
  Fit : BlockKey → Block → Prop
  fit_of_exact : ∀ {key b}, toUniverse.Exact key b → Fit key b
  /-- Its metadata is that of a version that may be read under the key. -/
  names_of_fit : ∀ {key b}, Fit key b → ∃ v, toUniverse.Has key.namespace key.object v ∧
    toUniverse.Matches key.namespace key.tag v ∧ v.Names b.meta

/-- Where all versions of an object that may be read under one tag have one content, and blocks are
cut out of it. -/
structure Law.Coherent (L : Law) (id : NamespaceId) (object : Bytes) : Prop where
  one : ∀ {tag v w}, L.Has id object v → L.Has id object w → L.Matches id tag v → L.Matches id tag w →
    v.data = w.data
  cut : ∀ {tag index b bs v}, L.Fit ⟨id, tag, index, object⟩ b → L.sizes id bs → L.Has id object v →
    L.Matches id tag v → b.data.take bs.bytes = blockOf bs v.data index

/-- The law of a run in which no block is older than the process. -/
def Universe.exactLaw (U : Universe) : Law where
  toUniverse := U
  Fit := U.Exact
  fit_of_exact := id
  names_of_fit := fun ⟨_, _, v, _, hv, ht, hn, _⟩ => ⟨v, hv, ht, hn⟩

/-- The context of a read of a known namespace, with metadata of a version of the object. Without
metadata only immutable objects are read. -/
structure Universe.CtxOk (U : Universe) (ctx : ReadCtx) : Prop where
  knows : U.Knows ctx.namespace
  key : ctx.key = ⟨ctx.namespace.id, ctx.name⟩
  new : ctx = ReadCtx.new ctx.namespace ctx.key ctx.name ctx.meta ctx.policy
  «meta» : ∀ m, ctx.meta = some m → U.Describes ctx.key m
  mode : ctx.meta = none → U.immutable ctx.key.namespace

namespace Universe

variable {U : Universe} {ctx : ReadCtx}

/-- The metadata is that of a version the context may read. -/
def Pinned (U : Universe) (ctx : ReadCtx) (m : ObjectMeta) : Prop :=
  ∃ v, U.Has ctx.key.namespace ctx.key.object v ∧ v.Names m ∧ U.Matches ctx.key.namespace ctx.tag v

namespace CtxOk

theorem sizes (h : U.CtxOk ctx) : U.sizes ctx.key.namespace ctx.namespace.config.blockSize := by
  rw [h.key]
  exact h.knows.size

theorem tag_some (h : U.CtxOk ctx) {m : ObjectMeta} (hm : ctx.meta = some m) :
    ctx.tag = blockTag ctx.namespace.config.consistency m := by
  have := congrArg ReadCtx.tag h.new
  rwa [hm] at this

theorem tag_none (h : U.CtxOk ctx) (hm : ctx.meta = none) : ctx.tag = immutableTag := by
  have := congrArg ReadCtx.tag h.new
  rwa [hm] at this

theorem tag_mutable (h : U.CtxOk ctx) (hi : ¬ U.immutable ctx.namespace.id) {m : ObjectMeta}
    (hm : ctx.meta = some m) : ctx.tag = contentTag m.etag m.size := by
  rw [h.tag_some hm, blockTag, if_neg fun hc => hi (h.knows.immutable hc)]

theorem immutable (h : U.CtxOk ctx) (ht : ctx.tag = immutableTag) : U.immutable ctx.key.namespace := by
  cases hm : ctx.meta with
  | none => exact h.mode hm
  | some m =>
      rw [h.tag_some hm, blockTag] at ht
      split at ht
      · rename_i hi
        rw [h.key]
        exact h.knows.immutable hi
      · exact absurd ht (contentTag_ne_immutable _ _)

theorem matches_of (h : U.CtxOk ctx) {v : Version} (hv : ctx.tag = immutableTag ∨ v.tag = ctx.tag) :
    U.Matches ctx.key.namespace ctx.tag v :=
  hv.imp (fun ht => ⟨ht, h.immutable ht⟩) id

theorem tag_right (h : U.CtxOk ctx) : ctx.tag = immutableTag ∧ U.immutable ctx.namespace.id ∨
    ∃ v, U.Has ctx.namespace.id ctx.name v ∧ v.tag = ctx.tag := by
  by_cases ht : ctx.tag = immutableTag
  · have hi := h.immutable ht
    rw [h.key] at hi
    exact .inl ⟨ht, hi⟩
  · cases hm : ctx.meta with
    | none => exact absurd (h.tag_none hm) ht
    | some m =>
        obtain ⟨v, hv, hn⟩ := h.meta m hm
        rw [h.key] at hv
        rw [h.tag_some hm, blockTag] at ht ⊢
        split at ht
        · exact absurd rfl ht
        · rename_i hc
          rw [if_neg hc]
          exact .inr ⟨v, hv, hn.contentTag_eq.symm⟩

theorem pinned (h : U.CtxOk ctx) {m : ObjectMeta} (hm : ctx.meta = some m) : U.Pinned ctx m := by
  obtain ⟨v, hv, hn⟩ := h.meta m hm
  refine ⟨v, hv, hn, h.matches_of ?_⟩
  rw [h.tag_some hm, blockTag]
  split
  · exact .inl rfl
  · exact .inr hn.contentTag_eq.symm

end CtxOk

end Universe

/-- The slots of consecutive blocks from `first` on. -/
def SlotsFrom (ctx : ReadCtx) : Nat → List Slot → Prop
  | _, [] => True
  | first, slot :: slots =>
      slot.key = BlockKey.new ctx.key ctx.tag first ∧ first < maxU32 ∧ SlotsFrom ctx (first + 1) slots

/-- The task may be started. A fetch group owns its slots from the start. -/
def Universe.TaskOk (U : Universe) : Task → Prop
  | .fetchGroup ctx slots _ initial =>
      U.CtxOk ctx ∧ (∃ first, SlotsFrom ctx first slots) ∧
        ∀ r, initial = some r → ∃ v, U.Has ctx.key.namespace ctx.key.object v ∧ r.Of v
  | .readahead ctx indexes => U.CtxOk ctx ∧ indexes.start ≤ indexes.stop ∧ indexes.stop ≤ maxU32
  | .get ns _ _ _ => U.Knows ns
  | .head ns _ => U.Knows ns
  | .insert ns object etag data => U.Knows ns ∧ U.Has ns.id object ⟨data, etag⟩
  | .invalidate ns _ => U.Knows ns
  | .write ns object v _ => U.Knows ns ∧ U.Has ns.id object v

/-- The slots a task is started with. -/
def Task.slots : Task → List Slot
  | .fetchGroup _ slots _ _ => slots
  | _ => []

/-- The operations that give or take slots, and those of a stream. -/
def Op.moves : Op → Bool
  | .register _ | .publish _ _ | .spawn _ | .wait _ | .opened _ _ | .item _ _ => true
  | _ => false

/-- A loop that waits for an event or sleeps before it goes round again counts its turns here. -/
def Op.turns : (o : Op) → Resp o → Nat
  | .awaitBody _ _ _, .ready _ | .awaitStream _, .ready _ | .sleep _, .ready _ => 1
  | _, _ => 0

/-- The task writes a version with the metadata. -/
def Task.Writes (ns object : Bytes) (m : ObjectMeta) : Task → Prop
  | .insert state name etag data => ns = state.name ∧ object = name ∧ (⟨data, etag⟩ : Version).Names m
  | .write state name v _ => ns = state.name ∧ object = name ∧ v.Names m
  | _ => False

/-- The task waits for somebody else before it is answered. -/
def Op.awaits : Op → Bool
  | .blocksGet _ | .wait _ | .acquire _ | .awaitGet _ _ _ | .awaitHead _ _ | .awaitBody _ _ _ | .awaitStream _
  | .sleep _ | .put _ _ _ | .hang => true
  | _ => false

/-- After it the task goes on when the caller polls the stream. -/
def Op.shows : Op → Bool
  | .opened _ _ | .item _ _ => true
  | _ => false

/-- The origin answers with the metadata of the object, or that it is not modified. -/
def Op.Tells (ns object : Bytes) (m : ObjectMeta) : (o : Op) → Resp o → Prop
  | .awaitGet requests _ _, .ready (.answered i (.ok r)) => m = r.meta ∧
      ∀ req, requests[i]? = some req → req.namespace = ns ∧ req.object = object
  | .awaitGet requests _ _, .ready (.answered i (.error e)) => e = .notModified ∧
      ∀ req, requests[i]? = some req → req.namespace = ns ∧ req.object = object ∧
      m.etag = req.options.ifNoneMatch
  | .awaitHead req _, .ready (.ok m') => req.namespace = ns ∧ req.object = object ∧ m = m'
  | _, _ => False

/-- An answer stays at hand until the task waits again. A fetch group waits for a permit first, and
may have been started with an answer. -/
def Op.keeps : Op → Bool
  | .acquire _ => true
  | o => !o.awaits && !o.shows

/-- The answer a task is started with. -/
def Task.Answered (ns object : Bytes) (m : ObjectMeta) : Task → Prop
  | .fetchGroup ctx _ _ (some r) => ctx.namespace.name = ns ∧ ctx.name = object ∧ m = r.meta
  | _ => False

/-- The task may remove blocks. -/
def Task.removes : Task → Bool
  | .invalidate _ _ => true
  | .write _ _ _ _ => true
  | _ => false

/-- What a stream has shown of itself: how it was opened, the bytes it has yielded, whether it has
yielded anything and whether that was an error, and whether a block was stale before or after it
yielded anything. -/
structure Seen where
  opened : Option (Range × Option ObjectMeta)
  out : Bytes
  yielded : Bool
  failed : Bool
  stale : Bool
  broken : Bool

/-- The ghost state of a task. -/
structure Held where
  task : Task
  /-- The slots it owns. -/
  owned : Multiset Slot
  /-- The slots it has settled with an error. -/
  lost : List Slot
  /-- The metadata it has been told of. -/
  told : List ObjectMeta
  /-- The metadata it may record: that of an answer it has got since it last waited. -/
  hot : Bytes → Bytes → ObjectMeta → Prop
  /-- The requests of the origin call it is in. -/
  gets : List GetRequest
  heads : List HeadRequest
  /-- How often a loop of it may have gone round again. -/
  turns : Nat
  seen : Seen

namespace Held

def start (task : Task) : Held where
  task := task
  owned := task.slots
  lost := []
  told := []
  hot := fun ns object m => task.Answered ns object m
  gets := []
  heads := []
  turns := 0
  seen := ⟨none, [], false, false, false, false⟩

/-- No call to the origin is going on. -/
def quiet (g : Held) : Held := { g with gets := [], heads := [] }

/-- A block that is stale before anything is yielded may start a read anew; later it ends the
read. -/
def waited (seen : Seen) : BlockResult → Seen
  | .ok _ => seen
  | .error e =>
      { seen with
        stale := seen.stale || (e.isStale && !seen.yielded),
        broken := seen.broken || (e.isStale && seen.yielded) }

def yielded (seen : Seen) : Except NestorError Bytes → Seen
  | .ok chunk => { seen with out := seen.out ++ chunk, yielded := true }
  | .error _ => { seen with yielded := true, failed := true }

def note (g : Held) : (o : Op) → Resp o → Held
  | .metaLookup _ _, .fresh m | .metaLookup _ _, .stale m => { g.quiet with told := m :: g.told }
  | .sendGet _ _ _, req => { g.quiet with gets := [req] }
  | .hedge primary, secondary => { g.quiet with gets := primary :: secondary.toList }
  | .awaitGet _ _ _, .ready (.answered _ (.ok r)) => { g.quiet with told := r.meta :: g.told }
  | .awaitGet requests _ _, _ => { g.quiet with gets := requests }
  | .sendHead _ _, req => { g.quiet with heads := [req] }
  | .awaitHead _ _, .ready (.ok m) => { g.quiet with told := m :: g.told }
  | .register _, .owner slot => { g.quiet with owned := slot ::ₘ g.owned }
  | .publish slot (.ok _), _ => { g.quiet with owned := g.owned.erase slot }
  | .publish slot (.error _), _ => { g.quiet with owned := g.owned.erase slot, lost := slot :: g.lost }
  | .spawn task, _ => { g.quiet with owned := g.owned - task.slots }
  | .wait _, result => { g.quiet with seen := waited g.seen result }
  | .opened range known, _ => { g.quiet with seen := { g.seen with opened := some (range, known) } }
  | .item _ item, _ => { g.quiet with seen := yielded g.seen item }
  | _, _ => g.quiet

def after (g : Held) (o : Op) (r : Resp o) : Held :=
  { g.note o r with
    turns := g.turns + o.turns r,
    hot := fun ns object m => o.Tells ns object m r ∨ o.keeps ∧ g.hot ns object m }

end Held

/-- What a contract is about: the law, the slots that were there before the task, how many turns the
loops of the task take at least before it hangs, and whether it may look things up and start other
tasks. -/
structure Terms where
  law : Law
  Old : Slot → Prop
  budget : Nat
  schedules : Prop

/-- The tag a read is bound to is one its object has. A read of a mutable object has been told of
the version it reads, and unless it was started anew it is the one it was opened with. -/
structure Law.Bound (L : Law) (g : Held) (ns : NamespaceState) (object : Bytes) (tag : Nat) : Prop where
  right : tag = immutableTag ∧ L.immutable ns.id ∨ ∃ v, L.Has ns.id object v ∧ v.tag = tag
  told : ¬ L.immutable ns.id → ∃ m ∈ g.told, L.Describes ⟨ns.id, object⟩ m ∧ tag = contentTag m.etag m.size
  kept : ¬ L.immutable ns.id → g.seen.stale = false →
    ∃ range m, g.seen.opened = some (range, some m) ∧ tag = contentTag m.etag m.size

namespace Terms

variable (T : Terms)

/-- A stream is opened with the range its metadata gives. -/
def Opens (g : Held) (range : Range) (known : Option ObjectMeta) : Prop :=
  ∃ ns object request policy, g.task = .get ns object request policy ∧ (¬ T.law.immutable ns.id →
    ∃ m ∈ g.told, known = some m ∧ T.law.Describes ⟨ns.id, object⟩ m ∧ request.resolve m.size = .ok range)

/-- With this chunk, what a stream has yielded is a part of one version from the start of its range
on. -/
def Yields (g : Held) (known : Option ObjectMeta) (chunk : Bytes) : Prop :=
  ∃ ns object request policy tag, g.task = .get ns object request policy ∧ T.law.Bound g ns object tag ∧
    (¬ T.law.immutable ns.id → g.seen.stale = false → ∃ range, g.seen.opened = some (range, known)) ∧
    (T.law.Coherent ns.id object → ∀ v, T.law.Has ns.id object v → T.law.Matches ns.id tag v →
      ∃ a b, g.seen.out ++ chunk = slice v.data a b ∧
        ∀ range, request.resolve v.data.length = .ok range → a = range.start ∧ b ≤ range.stop)

/-- A stream that ends without an error has yielded the range as a whole, if its windows let it. -/
def Ends (g : Held) : Prop :=
  g.seen.failed = false → ∃ ns object request policy tag, g.task = .get ns object request policy ∧
    T.law.Bound g ns object tag ∧
    (ns.config.Windowed → T.law.Coherent ns.id object → ∀ v, T.law.Has ns.id object v →
      T.law.Matches ns.id tag v → v.data.length ≤ maxU32 * ns.config.blockSize.bytes →
      ∀ range, request.resolve v.data.length = .ok range → g.seen.out = slice v.data range.start range.stop)

def guar (g : Held) : Op → Prop
  | .metaPut key m =>
      T.law.Describes key m ∧ (g.hot (T.law.name key.namespace) key.object m ∨
        g.task.Writes (T.law.name key.namespace) key.object m ∨ T.law.immutable key.namespace)
  | .blocksInsert key b => T.law.Exact key b
  | .blocksRemove _ => g.task.removes
  | .unregister key => ∃ slot ∈ g.owned, slot.key = key
  | .publish slot result => slot ∈ g.owned ∧ ∀ b, result = .ok b → T.law.Fit slot.key b
  -- a stream that has yielded something does not start anew
  | .metaLookup _ _ => T.schedules ∧ g.seen.yielded = false
  | .metaAny _ | .blocksGet _ | .wait _ => T.schedules
  | .spawn task => T.schedules ∧ T.law.TaskOk task ∧ (task.slots : Multiset Slot) ≤ g.owned ∧
      ∀ ns object m, task.Answered ns object m → g.hot ns object m
  | .put ns object v => T.law.versions ns object v
  -- the only answer at hand before a permit is the one the task was started with
  | .acquire _ => ∀ ns object m, g.hot ns object m → g.task.Answered ns object m
  -- a new attempt comes only as long as no slot is given up
  | .sendGet _ _ _ => ∀ slot ∈ g.lost, ¬ T.Old slot
  | .hedge primary => primary ∈ g.gets
  | .awaitGet requests _ _ => ∀ req ∈ requests, req ∈ g.gets
  | .awaitHead req _ => req ∈ g.heads
  | .hang => T.budget ≤ g.turns
  | .opened range known => T.Opens g range known
  | .item known (.ok chunk) => T.Yields g known chunk ∧ g.seen.broken = false
  | .ended => T.Ends g
  | _ => True

def rely : (o : Op) → Resp o → Prop
  | .metaLookup key _, .fresh m => T.law.Describes key m
  | .metaLookup key _, .stale m => T.law.Describes key m
  | .metaAny key, some m => T.law.Describes key m
  | .blocksGet keys, .ready (i, some b) => ∃ key, keys[i]? = some key ∧ T.law.Fit key b
  | .register key, .owner slot => slot.key = key ∧ ¬ T.Old slot
  | .register key, .waiter slot => slot.key = key
  | .wait slot, .ok b => T.law.Fit slot.key b
  | .sendGet ns object options, req => req.namespace = ns ∧ req.object = object ∧ req.options = options
  | .hedge primary, some req =>
      req.namespace = primary.namespace ∧ req.object = primary.object ∧ req.options = primary.options
  | .sendHead ns object, req => req.namespace = ns ∧ req.object = object
  | .awaitGet requests _ _, .ready (.answered i (.ok r)) =>
      ∃ req v, requests[i]? = some req ∧ T.law.versions req.namespace req.object v ∧ r.Of v
  | .awaitGet _ hedge _, .ready .stalled => hedge
  | .awaitHead req _, .ready (.ok m) => ∃ v, T.law.versions req.namespace req.object v ∧ v.Names m
  | .awaitBody b waiting _, .ready ev =>
      b.expects waiting ev ∧
        ∀ r, ev = .opened (.ok r) → ∃ v, T.law.versions b.ctx.namespace.name b.ctx.name v ∧ r.Of v
  | _, _ => True

def spec : Spec Op Resp Held where
  guar := T.guar
  rely := fun _ => T.rely
  next := Held.after

variable {T}

/-- The rule for one operation. The ghost state after it is a name, with an equation for those who
need it. -/
theorem wp_step {α : Type} {g : Held} {o : Op} {f : Resp o → Program α} {Q : Held → α → Prop}
    (hg : T.guar g o) (h : ∀ r g', g' = g.after o r → T.rely o r → wp T.spec (f r) Q g') :
    wp T.spec (perform o >>= f) Q g :=
  wp_then hg fun r hr => h r _ rfl hr

end Terms

end Nestor
