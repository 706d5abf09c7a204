import Nestor.Core.Block
import Nestor.Core.Key

/-!
# Namespaces, fetch policy and read context

`namespace.rs`, `policy.rs` and the `ReadCtx` of `fetch.rs`. Durations and instants are nanoseconds.
Of the hedge configuration only its presence is kept: its delay decides when a stall happens, which
is an event here. Latencies and metrics steer nothing else and are left out.
-/

namespace Nestor

structure FetchPolicy where
  attempts : Nat
  backoff : Nat
  backoffMax : Nat
  firstByte : Nat
  attempt : Nat
  deadline : Nat
  hedge : Bool
deriving DecidableEq, Repr

def FetchPolicy.default : FetchPolicy :=
  ⟨3, milliseconds 50, milliseconds 2000, milliseconds 5000, milliseconds 30000, milliseconds 60000, true⟩

/-- The delay before retry number `attempt`, doubling up to the cap. -/
def FetchPolicy.backoffFor (p : FetchPolicy) (attempt : Nat) : Nat :=
  min (p.backoff * 2 ^ min attempt 16) p.backoffMax

structure Retry where
  policy : FetchPolicy
  attempt : Nat
  deadline : Nat
deriving DecidableEq, Repr

namespace Retry

def new (policy : FetchPolicy) (now : Nat) : Retry := ⟨policy, 0, now + policy.deadline⟩

def attemptDeadline (r : Retry) (now : Nat) : Nat := min (now + r.policy.attempt) r.deadline

/-- Counts a failed attempt: the error to give up with, or the delay before the next attempt. -/
def failed (r : Retry) (now : Nat) (error : OriginError) : Retry × Except OriginError Nat :=
  let r := { r with attempt := r.attempt + 1 }
  if !error.isRetryable || r.policy.attempts ≤ r.attempt then (r, .error error)
  else
    let delay := r.policy.backoffFor (r.attempt - 1)
    if r.deadline ≤ now + delay then (r, .error (.timeout r.policy.deadline)) else (r, .ok delay)

end Retry

structure NamespaceConfig where
  blockSize : BlockSize
  fetchWindow : Nat
  readWindow : Nat
  consistency : Consistency
  readahead : Nat
  fetch : FetchPolicy
deriving DecidableEq

def NamespaceConfig.default : NamespaceConfig :=
  ⟨BlockSize.default, 8, 16, .etag (milliseconds 60000), 8, FetchPolicy.default⟩

namespace NamespaceConfig

/-- With these windows a reader always has room for a block, whether it knows the size or not. The
setters see to it, the fields do not. -/
def Windowed (c : NamespaceConfig) : Prop :=
  0 < c.readWindow ∧ (c.consistency.isImmutable = true → 0 < c.fetchWindow)

def setFetchWindow (c : NamespaceConfig) (blocks : Nat) : NamespaceConfig :=
  { c with fetchWindow := max blocks 1 }

def setReadWindow (c : NamespaceConfig) (blocks : Nat) : NamespaceConfig :=
  { c with readWindow := max blocks 1 }

theorem windowed_of_setters (c : NamespaceConfig) (fetchBlocks readBlocks : Nat) :
    ((c.setFetchWindow fetchBlocks).setReadWindow readBlocks).Windowed :=
  ⟨Nat.lt_of_lt_of_le Nat.zero_lt_one (Nat.le_max_right _ _),
    fun _ => Nat.lt_of_lt_of_le Nat.zero_lt_one (Nat.le_max_right _ _)⟩

end NamespaceConfig

/-- A registered namespace. Its origin is known by the namespace's name. -/
structure NamespaceState where
  id : NamespaceId
  name : Bytes
  config : NamespaceConfig
deriving DecidableEq

def NamespaceState.metaTtl (ns : NamespaceState) : Option Nat := ns.config.consistency.metaTtl

/-- What a read has pinned: the object, the tag its blocks are cached under and the metadata it was
resolved with. -/
structure ReadCtx where
  «namespace» : NamespaceState
  key : ObjectKey
  name : Bytes
  tag : Nat
  ifMatch : Option Bytes
  «meta» : Option ObjectMeta
  policy : FetchPolicy
deriving DecidableEq

namespace ReadCtx

def new [TagHash] (ns : NamespaceState) (key : ObjectKey) (name : Bytes) (m : Option ObjectMeta)
    (policy : FetchPolicy) : ReadCtx :=
  let consistency := ns.config.consistency
  let (tag, ifMatch) := match m with
    | some m => (blockTag consistency m, if consistency.isImmutable then none else m.etag)
    | none => (immutableTag, none)
  ⟨ns, key, name, tag, ifMatch, m, policy⟩

def size (ctx : ReadCtx) : Option Nat := ctx.meta.map (·.size)

end ReadCtx

end Nestor
