import Nestor.Engine.Law
import Nestor.Engine.World

/-!
# Callers of the fetcher

Any number of concurrent calls of `Fetcher::schedule` and the fetch groups they start, step by step
on the shared state of the engine. Nothing is removed from the cache here, so a lookup finds a block
that is there; the origin may change, and time passes.
-/

namespace Nestor

open Lib

inductive Job where
  | schedule (ctx : ReadCtx) (indexes : Range) (priority : Priority)
  | task (t : Task)

/-- The slots a fetch group is handed. -/
def Job.slots : Job → List Slot
  | .schedule _ _ _ => []
  | .task t => t.slots

abbrev Callers := Conf Shared Job Op Resp

/-- What a program is about to settle: it takes the slot's key out of the table, or has just done
so. -/
def settles : Program Unit → Option (Slot × BlockResult)
  | .op (.unregister _) k =>
      match k () with
      | .op (.publish slot result) _ => some (slot, result)
      | _ => none
  | .op (.publish slot result) _ => some (slot, result)
  | _ => none

/-- All versions that may be read under the key reach into its block. -/
def Universe.Inside [TagHash] (U : Universe) (key : BlockKey) : Prop :=
  ∀ bs v, U.sizes key.namespace bs → U.Has key.namespace key.object v → U.Matches key.namespace key.tag v →
    key.index * bs.bytes < v.data.length

namespace Callers

inductive Event where
  | run (i : Nat) (x : Choice)
  | call (ctx : ReadCtx) (indexes : Range) (priority : Priority)
  | tick (n : Nat)
  | overwrite («namespace» object : Bytes) (v : Option Version)

variable [TagHash]

def system (fuel : Nat) : System Shared Job Choice Op Resp where
  start
    | .schedule ctx indexes priority => do
        let _ ← schedule ctx indexes priority
    | .task t => program fuel t
  respond s o x := (respond s o x).map fun (r, s, tasks) => (r, s, tasks.map .task)

def step (fuel : Nat) (c : Callers) : Event → Option Callers
  | .run i x => (system fuel).resume c i x
  | .call ctx indexes priority =>
      some ⟨c.shared, c.threads ++ [(system fuel).begin (.schedule ctx indexes priority)]⟩
  | .tick n => some { c with shared := { c.shared with now := c.shared.now + n } }
  | .overwrite ns object v => some { c with shared := c.shared.setVersion ns object v }

/-- Every fetch succeeds, that is, no slot is settled with an error; a lookup that finds nothing is
one for a block that is not cached. The calls are those of reads, with 32-bit indexes. -/
def Smooth (U : Universe) (c : Callers) : Event → Prop
  | .run i x =>
      ∀ th, c.threads[i]? = some th →
        (∀ slot result, settles th.prog = some (slot, result) → ∃ block, result = .ok block) ∧
        ∀ keys k j key, th.prog = .op (.blocksGet keys) k → x = .found j none → keys[j]? = some key →
          ∀ block, (key, block) ∉ c.shared.blocks
  | .call ctx indexes _ => U.CtxOk ctx ∧ indexes.start ≤ maxU32 ∧ indexes.stop ≤ maxU32
  | .tick _ => True
  | .overwrite ns object v => ∀ v', v = some v' → U.versions ns object v'

end Callers

/-- The keys handed to fetch groups so far, as often as that happened. -/
def Callers.handedKeys (c : Callers) : List BlockKey := c.threads.flatMap fun th => th.task.slots.map (·.key)

/-- If the handle has resolved, then with a block that is cached under the key. -/
def Shared.Resolves (s : Shared) (key : BlockKey) : SlotHandle → Prop
  | .resolved result => ∃ block, result = .ok block ∧ (key, block) ∈ s.blocks
  | .waiting slot =>
      ∀ result, s.channels slot = some result → ∃ block, result = .ok block ∧ (key, block) ∈ s.blocks

/-- The handle has resolved. -/
def Shared.Resolved (s : Shared) : SlotHandle → Prop
  | .resolved _ => True
  | .waiting slot => (s.channels slot).isSome

end Nestor
