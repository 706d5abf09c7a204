import Nestor.Engine.Law

/-!
# What a task owes

Whoever registers a block owes its result to everybody who waits for it. `Duty` keeps account of
that for one task: the slots it owns, those it may wait for, the blocks it has seen in the cache.
The contract asks that a task waits only while it owes nothing, that it takes only slots of its own
out of the table and publishes them next, that a block it publishes is in the cache or empty, and
that it works on one object only.

It counts on nothing but the shape of the answers, so it holds in every run, whatever the origins
and the disk hold.
-/

namespace Nestor

open Lib

variable {o : Op} {α : Type}

/-- The object a task works on, with the name its namespace has at the origin. -/
structure Home where
  origin : Bytes
  key : ObjectKey
deriving DecidableEq

def Home.of (ns : NamespaceState) (object : Bytes) : Home := ⟨ns.name, ⟨ns.id, object⟩⟩

def BlockKey.objectKey (key : BlockKey) : ObjectKey := ⟨key.namespace, key.object⟩

def Task.home : Task → Home
  | .fetchGroup ctx _ _ _ | .readahead ctx _ => .of ctx.namespace ctx.name
  | .get ns object _ _ | .head ns object | .insert ns object _ _ | .invalidate ns object
  | .write ns object _ _ =>
      .of ns object

/-- The context is one for the object. -/
structure ReadCtx.At (ctx : ReadCtx) (home : Home) : Prop where
  key : ctx.key = home.key
  home : .of ctx.namespace ctx.name = home

/-- The context is one for the object, under the name another one has at the origin. -/
structure ReadCtx.Under (ctx : ReadCtx) (asked home : Home) : Prop where
  key : ctx.key = home.key
  asks : ctx.namespace.name = asked.origin ∧ ctx.name = asked.key.object

theorem ReadCtx.At.under {ctx : ReadCtx} {home : Home} (h : ctx.At home) : ctx.Under home home := by
  refine ⟨h.key, ?_⟩
  rw [← h.home]
  exact ⟨rfl, rfl⟩

theorem ReadCtx.At.self {ctx : ReadCtx} {home : Home} (h : ctx.At home) :
    ctx.At (.of ctx.namespace ctx.name) := by
  rw [h.home]
  exact h

/-- A task that is handed a context is handed one for its object. -/
def Task.Proper : Task → Prop
  | .fetchGroup ctx _ _ _ | .readahead ctx _ => ctx.At (.of ctx.namespace ctx.name)
  | _ => True

def Task.isGroup : Task → Bool
  | .fetchGroup _ _ _ _ => true
  | _ => false

/-- The task fetches blocks for a read. -/
def Task.fetches : Task → Bool
  | .fetchGroup _ _ _ _ | .readahead _ _ => true
  | _ => false

/-- The operation is about the object, or a request for the one that is `asked` for. Where it may be
about a block of a slot, that is up to what the task owns. -/
def Op.AboutOr (asked home : Home) : Op → Prop
  | .metaLookup key _ | .metaAny key | .metaPut key _ | .metaRemove key | .readaheadObserve key _
  | .readaheadForget key => key = home.key
  | .blocksContains key | .blocksRemove key | .register key => key.objectKey = home.key
  | .sendGet ns object _ | .sendHead ns object | .put ns object _ =>
      ns = asked.origin ∧ object = asked.key.object
  | .spawn task => task.home = home ∧ task.Proper ∧ task.fetches = true
  | _ => True

abbrev Op.About (home : Home) : Op → Prop := Op.AboutOr home home

structure Duty where
  /-- The slots it has to settle. -/
  owned : Multiset Slot
  /-- The slots it has registered or joined. -/
  known : List Slot
  /-- The blocks it has put into the cache or found there. -/
  stored : List (BlockKey × Block)
  /-- The key it has taken out of the table and whose result it has not published yet. -/
  gap : Option BlockKey
  /-- How often a loop of it may have gone round again. -/
  turns : Nat

namespace Duty

def start (task : Task) : Duty := ⟨task.slots, [], [], none, 0⟩

def note (d : Duty) : (o : Op) → Resp o → Duty
  | .blocksInsert key block, _ => { d with stored := (key, block) :: d.stored }
  | .blocksGet keys, .ready (i, some block) =>
      { d with stored := (keys[i]?).toList.map (·, block) ++ d.stored }
  | .register _, .owner slot => { d with owned := slot ::ₘ d.owned, known := slot :: d.known }
  | .register _, .waiter slot => { d with known := slot :: d.known }
  | .unregister key, _ => { d with gap := some key }
  | .publish slot _, _ => { d with owned := d.owned.erase slot, gap := none }
  | .spawn task, _ => { d with owned := d.owned - task.slots }
  | _, _ => d

def after (d : Duty) (o : Op) (r : Resp o) : Duty := { d.note o r with turns := d.turns + o.turns r }

/-- The block is one of the object's, or the task owns a slot for it. -/
def Near (home : Home) (d : Duty) (key : BlockKey) : Prop :=
  key.objectKey = home.key ∨ ∃ slot ∈ d.owned, slot.key = key

/-- What a task owes when it does the operation. A loop that gives up after `budget` rounds may
leave slots behind. -/
def Pays (budget : Nat) (home : Home) (d : Duty) : Op → Prop
  | .wait slot => d.gap = none ∧ d.owned = 0 ∧ slot ∈ d.known
  | .unregister key => d.gap = none ∧ ∃ slot ∈ d.owned, slot.key = key
  | .publish slot result =>
      d.gap = some slot.key ∧ slot ∈ d.owned ∧ ∀ b, result = .ok b → (slot.key, b) ∈ d.stored ∨ b.data = []
  | .spawn task => d.gap = none ∧ (task.slots : Multiset Slot) ≤ d.owned
  | .blocksGet keys => d.gap = none ∧ keys ≠ [] ∧ ∀ key ∈ keys, d.Near home key
  | .blocksInsert key _ => d.gap = none ∧ d.Near home key
  | .hang => d.gap = none ∧ (d.owned = 0 ∨ budget ≤ d.turns)
  | _ => d.gap = none

def rely : (o : Op) → Resp o → Prop
  | .blocksGet keys, .ready (i, _) => i < keys.length
  | .awaitGet _ hedge _, .ready .stalled => hedge = true
  | .awaitBody b waiting _, .ready ev => b.expects waiting ev = true
  | _, _ => True

def specOf (asked : Home) (budget : Nat) (home : Home) : Spec Op Resp Duty where
  guar d o := o.AboutOr asked home ∧ d.Pays budget home o
  rely := fun _ => rely
  next := after

abbrev spec (budget : Nat) (home : Home) : Spec Op Resp Duty := specOf home budget home

/-- The task comes to own `owned`; what it knows only grows. -/
structure Moves (d : Duty) (owned : Multiset Slot) (d' : Duty) : Prop where
  owned : d'.owned = owned
  gap : d'.gap = none
  known : d.known ⊆ d'.known
  stored : d.stored ⊆ d'.stored
  turns : d.turns ≤ d'.turns

variable {b d d' d'' : Duty} {owned owned' : Multiset Slot} {budget : Nat} {asked home : Home}

theorem Moves.refl (hd : d.gap = none) : d.Moves d.owned d :=
  ⟨rfl, hd, fun _ => id, fun _ => id, Nat.le_refl _⟩

theorem Moves.trans (h : d.Moves owned d') (h' : d'.Moves owned' d'') : d.Moves owned' d'' where
  owned := h'.owned
  gap := h'.gap
  known := fun _ hs => h'.known (h.known hs)
  stored := fun _ hb => h'.stored (h.stored hb)
  turns := h.turns.trans h'.turns

theorem Moves.of_eq (h : d.Moves owned d') (ho : owned = owned') : d.Moves owned' d' := ho ▸ h

theorem Moves.here (h : d.Moves owned d') : d'.Moves owned d' := (Moves.refl h.gap).of_eq h.owned

theorem Moves.mem {slot : Slot} (h : d.Moves (slot ::ₘ owned) d') : slot ∈ d'.owned := by
  rw [h.owned]
  exact Multiset.mem_cons_self slot owned

theorem Moves.uncons {slot : Slot} {slots : List Slot} (h : d.Moves (↑(slot :: slots) + owned) d') :
    d.Moves (slot ::ₘ (↑slots + owned)) d' :=
  h.of_eq (by rw [← Multiset.cons_coe, Multiset.cons_add])

/-- The operations that leave the slots alone and are allowed at any time. -/
def Free (asked home : Home) (o : Op) : Prop :=
  o.AboutOr asked home ∧ match o with
    | .blocksGet _ | .blocksInsert _ _ | .register _ | .unregister _ | .publish _ _ | .wait _ | .spawn _
    | .hang => False
    | _ => True

theorem Moves.after {r : Resp o} (h : b.Moves owned d) (ho : Free asked home o) (heq : d' = d.after o r) :
    b.Moves owned d' := by
  subst heq
  cases o
  case blocksGet | blocksInsert | register | unregister | publish | wait | spawn | hang =>
    exact absurd ho.2 id
  all_goals exact ⟨h.owned, h.gap, h.known, h.stored, h.turns.trans (Nat.le_add_right _ _)⟩

/-! The rules below say how far a task has come since `b`. -/

variable {f : Resp o → Program α} {Q : Duty → α → Prop}

/-- The rule for one operation. The ghost state after it is a name, with an equation for those who
need it. -/
theorem wp_step (ho : o.AboutOr asked home)
    (hp : d.Pays budget home o)
    (h : ∀ r d', d' = d.after o r → rely o r → wp (specOf asked budget home) (f r) Q d') :
    wp (specOf asked budget home) (perform o >>= f) Q d :=
  wp_then ⟨ho, hp⟩ fun r hr => h r _ rfl hr

theorem pays_free (hd : d.gap = none) (ho : Free asked home o) : d.Pays budget home o := by
  cases o
  case blocksGet | blocksInsert | register | unregister | publish | wait | spawn | hang =>
    exact absurd ho.2 id
  all_goals exact hd

theorem wp_free (h : b.Moves owned d)
    (ho : Free asked home o)
    (hk : ∀ r d', b.Moves owned d' → rely o r → wp (specOf asked budget home) (f r) Q d') :
    wp (specOf asked budget home) (perform o >>= f) Q d :=
  wp_step ho.1 (pays_free h.gap ho) fun r d' hd' hr => hk r d' (h.after ho hd') hr

theorem wp_insert {key : BlockKey} {block : Block} {f : Unit → Program α}
    (h : b.Moves owned d) (hkey : d.Near home key)
    (hk : ∀ d', b.Moves owned d' → (key, block) ∈ d'.stored → wp (specOf asked budget home) (f ()) Q d') :
    wp (specOf asked budget home) (perform (.blocksInsert key block) >>= f) Q d := by
  refine wp_step trivial ⟨h.gap, hkey⟩ fun _ d' hd' _ => ?_
  subst hd'
  exact hk _ { h with stored := fun _ hb => List.mem_cons_of_mem _ (h.stored hb) } List.mem_cons_self

theorem wp_register {key : BlockKey} {f : Registration → Program α}
    (h : b.Moves owned d) (hkey : key.objectKey = home.key)
    (howner : ∀ d' slot, b.Moves (slot ::ₘ owned) d' → slot ∈ d'.known →
      wp (specOf asked budget home) (f (.owner slot)) Q d')
    (hwaiter : ∀ d' slot, b.Moves owned d' → slot ∈ d'.known →
      wp (specOf asked budget home) (f (.waiter slot)) Q d') :
    wp (specOf asked budget home) (perform (.register key) >>= f) Q d := by
  refine wp_step hkey h.gap fun registration d' hd' _ => ?_
  subst hd'
  have hknown (slot : Slot) : b.known ⊆ slot :: d.known := fun _ hs => List.mem_cons_of_mem _ (h.known hs)
  cases registration with
  | owner slot =>
      exact howner _ slot { h with owned := congrArg (slot ::ₘ ·) h.owned, known := hknown slot }
        List.mem_cons_self
  | waiter slot => exact hwaiter _ slot { h with known := hknown slot } List.mem_cons_self

theorem free_wp (h : b.Moves owned d) (ho : Free asked home o) :
    wp (specOf asked budget home) (perform o) (fun d' _ => b.Moves owned d') d :=
  wp_call.mpr ⟨⟨ho.1, pays_free h.gap ho⟩, fun _ _ => h.after ho rfl⟩

theorem hang_wp (h : b.Moves owned d) (hf : owned = 0 ∨ budget ≤ b.turns) :
    wp (specOf asked budget home) hang Q d :=
  ⟨⟨trivial, h.gap, hf.imp h.owned.trans h.turns.trans'⟩, nofun⟩

end Duty

end Nestor
