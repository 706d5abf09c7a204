import Nestor.Engine.Lemmas.Duties
import Nestor.Engine.Lemmas.World
import Nestor.Read.Lemmas.Brought
import Nestor.Read.Theorems

/-!
# Namespaces across restarts

A block on disk is known by the id of its namespace, and an id is the number of namespaces
registered before it in the same lifetime. Blocks found on disk belong to the namespaces of their
names as long as every id goes to the name it went to before.
-/

namespace Nestor

open Lib

/-- All namespaces of a run up to a state, with the versions their objects may have. -/
def Shared.universeOf (s : Shared) (versions : Bytes → Bytes → Version → Prop) : Universe where
  name id := (s.registered.find? (·.id = id)).elim [] (·.name)
  sizes id bs := ∃ ns ∈ s.registered, ns.id = id ∧ bs = ns.config.blockSize
  immutable id := ∃ ns ∈ s.registered, ns.id = id ∧ ns.config.consistency.isImmutable
  versions := versions

/-- An id stands for one name. -/
def Shared.OneName (s : Shared) : Prop :=
  ∀ ns ∈ s.registered, ∀ ns' ∈ s.registered, ns.id = ns'.id → ns.name = ns'.name

theorem Shared.OneName.knows {s : Shared} (h : s.OneName) {ns : NamespaceState} (hns : ns ∈ s.registered)
    (versions : Bytes → Bytes → Version → Prop) : (s.universeOf versions).Knows ns := by
  refine ⟨?_, ⟨ns, hns, rfl, rfl⟩, fun hi => ⟨ns, hns, rfl, hi⟩⟩
  change ns.name = (s.registered.find? (·.id = ns.id)).elim [] (·.name)
  cases hfind : s.registered.find? (·.id = ns.id) with
  | none =>
      have := List.find?_eq_none.mp hfind ns hns
      simp at this
  | some ns' =>
      have hid : ns'.id = ns.id := by simpa using List.find?_some hfind
      exact h ns hns ns' (List.mem_of_find?_eq_some hfind) hid.symm

namespace World

/-- A new registration is given an id that no other name has had, in this lifetime or in an earlier
one. -/
def SameIds (w : World) : Event → Prop
  | .register name _ => w.shared.registry.byName name = none → ∀ ns ∈ w.shared.registered,
      ns.id = toU32 w.shared.registry.states.length → ns.name = name
  | _ => True

instance (w : World) : (e : Event) → Decidable (w.SameIds e)
  | .register name _ => inferInstanceAs (Decidable (w.shared.registry.byName name = none →
      ∀ ns ∈ w.shared.registered, ns.id = toU32 w.shared.registry.states.length → ns.name = name))
  | .run _ _ | .call _ _ | .tick _ | .overwrite _ _ _ | .evictBlock _ | .evictMeta _ | .evictLastEnd _
  | .restart _ =>
      inferInstanceAs (Decidable True)

variable [TagHash] {fuel : Nat} {w w' : World} {e : Event} {es : List Event}

theorem step_registered (hs : step fuel w e = some w') :
    w'.shared.registered = w.shared.registered ∨
      ∃ name config, e = .register name config ∧ w.shared.registry.byName name = none ∧
        w'.shared.registered = ⟨toU32 w.shared.registry.states.length, name, config⟩
          :: w.shared.registered := by
  cases e with
  | run i x =>
      obtain ⟨_, o, _, _, _, _, -, rfl⟩ := step_run hs
      exact .inl (w.shared.after_frame o).2.2
  | call id c =>
      obtain ⟨_, -, rfl⟩ := step_call hs
      cases c <;> exact .inl rfl
  | register name config =>
      cases hs
      simp only [Shared.registerNamespace]
      cases hb : w.shared.registry.byName name with
      | some id => exact .inl rfl
      | none => exact .inr ⟨name, config, rfl, hb, rfl⟩
  | _ => cases hs; exact .inl rfl

theorem oneName_step (h : w.shared.OneName) (hok : w.SameIds e) (hs : step fuel w e = some w') :
    w'.shared.OneName := by
  obtain heq | ⟨name, config, rfl, hb, heq⟩ := step_registered hs
  · unfold Shared.OneName
    rw [heq]
    exact h
  · have hnew := hok hb
    unfold Shared.OneName
    rw [heq]
    intro ns hns ns' hns' hid
    rcases List.mem_cons.mp hns with rfl | hns
    · rcases List.mem_cons.mp hns' with rfl | hns'
      · rfl
      · exact (hnew ns' hns' hid.symm).symm
    · rcases List.mem_cons.mp hns' with rfl | hns'
      · exact hnew ns hns hid
      · exact h ns hns ns' hns' hid

theorem registered_subset {Ok : World → Event → Prop} (h : Run (step fuel) Ok w es w') :
    w.shared.registered ⊆ w'.shared.registered := by
  induction h with
  | nil => exact fun _ => id
  | cons _ hs _ ih =>
      obtain heq | ⟨_, _, -, -, heq⟩ := step_registered hs
      · rwa [heq] at ih
      · rw [heq] at ih
        exact fun ns hns => ih (List.mem_cons_of_mem _ hns)

theorem lifetimes_admit {versions : Bytes → Bytes → Version → Prop}
    (h : Run (step fuel) (fun w e => w.Brings versions e ∧ w.SameIds e) w es w') (hw : w.shared.OneName) :
    Run (step fuel) ((w'.shared.universeOf versions).exactLaw.Admits) w es w' := by
  have hend : w'.shared.OneName := h.invariant (fun _ _ _ hi hok hs => oneName_step hi hok.2 hs) hw
  induction h with
  | nil => exact .nil
  | cons hok hs hrest ih =>
      refine .cons ⟨hok.1, ?_⟩ hs (ih (oneName_step hw hok.2 hs) hend)
      rintro name config rfl hb
      obtain heq | ⟨_, _, heq, -, hcons⟩ := step_registered hs
      · cases hs
        simp only [Shared.registerNamespace, hb] at heq
        exact absurd (congrArg List.length heq) (Nat.succ_ne_self _)
      · cases heq
        exact hend.knows (registered_subset hrest (hcons ▸ List.mem_cons_self)) versions

end World

/-! ## Blocks given to a read -/

/-- A lookup or a fetch in flight gave the block. -/
def Given (tr : Trace) (block : Block) : Prop :=
  (∃ keys i, ⟨.blocksGet keys, .ready (i, some block)⟩ ∈ tr) ∨ ∃ slot, ⟨.wait slot, .ok block⟩ ∈ tr

/-- The metadata and the bytes of the block are those of versions of the object. -/
structure BlockFrom (versions : Version → Prop) (block : Block) : Prop where
  describes : ∃ v, versions v ∧ v.Names block.meta
  bytes : ∃ v a b, versions v ∧ block.data = slice v.data a b

theorem supplies_given {tr : Trace} {d : Done Op Resp} (hd : d ∈ tr)
    (hno : ∀ key block, d.1 ≠ .blocksInsert key block) : Supplies (fun _ => Given tr) d.1 d.2 := by
  obtain ⟨o, r⟩ := d
  cases o
  case blocksInsert key block => exact absurd rfl (hno key block)
  case blocksGet keys =>
    rcases r with ⟨i, _ | block⟩ | _ | _
    case ready.some => exact fun _ _ => .inl ⟨keys, i, hd⟩
    all_goals trivial
  case wait slot =>
    cases r with
    | error e => trivial
    | ok block => exact .inl (.inr ⟨slot, hd⟩)
  all_goals trivial

theorem Universe.Exact.blockFrom [TagHash] {U : Universe} {key : BlockKey} {block : Block}
    (h : U.Exact key block) :
    BlockFrom (U.Has key.namespace key.object) block := by
  obtain ⟨-, bs, v, -, hv, -, hn, ⟨⟨_, ⟨v', hv', -, rfl⟩, hcut⟩, -⟩⟩ := h
  exact ⟨⟨v, hv, hn⟩, v', _, _, hv', hcut⟩

namespace World

variable [TagHash]

/-- In every run of any number of lifetimes in which an id goes to one name only: every block that a
read is given, out of the cache or by a fetch, is one of a version of its object in the namespace of
its name, and what the read yields is cut out of such blocks. -/
theorem reads_own_blocks {versions : Bytes → Bytes → Version → Prop} {fuel : Nat} {es : List Event}
    {w : World} (hrun : Run (step fuel) (fun w e => w.Brings versions e ∧ w.SameIds e) init es w)
    {th : Thread Task Op Resp} (hth : th ∈ w.threads) {ns : NamespaceState} {object : Bytes}
    {request : ReadRange} {policy : FetchPolicy} (htask : th.task = .get ns object request policy) :
    (∀ block, Given th.trace block → BlockFrom (versions ns.name object) block) ∧
    ∀ known chunk, ⟨.item known (.ok chunk), ()⟩ ∈ th.trace →
      ∃ block a b, Given th.trace block ∧ chunk = slice block.data a b := by
  have hadmit := lifetimes_admit hrun (List.forall_mem_nil _)
  have hsound := (run_sound hadmit init_sound).threads th hth
  have hknows : (w.shared.universeOf versions).Knows ns := by
    have hok := run_tasks hadmit init_sound (List.forall_mem_nil _) th hth
    rwa [htask] at hok
  have hrelied := hsound.relied
  have hduties : (duties fuel).Sound w := hrun.invariant (fun _ _ _ hi _ hs => duties_step hi hs) duties_init
  have hkeys := blockKeys_of_sound hduties hth (by rw [htask]; rfl)
  have hruns := hsound.runs
  rw [htask] at hkeys hruns
  have hfrom {key : BlockKey} {block : Block} (hown : key.objectKey = ⟨ns.id, object⟩)
      (hfit : (w.shared.universeOf versions).Exact key block) :
      BlockFrom (versions ns.name object) block := by
    obtain ⟨hid, hobject⟩ := ObjectKey.mk.inj hown
    have hb := hfit.blockFrom
    rw [hid, hobject] at hb
    change BlockFrom (versions ((w.shared.universeOf versions).name ns.id) object) block at hb
    rwa [← hknows.name] at hb
  refine ⟨fun block hgiven => ?_, fun known chunk hitem => ?_⟩
  · obtain ⟨keys, i, hd⟩ | ⟨slot, hd⟩ := hgiven
    · obtain ⟨_, _, -, key, hkey, hfit⟩ := hrelied.of_mem hd
      exact hfrom (hkeys _ hd key (List.mem_of_getElem? hkey)) hfit
    · obtain ⟨_, _, -, hfit⟩ := hrelied.of_mem hd
      exact hfrom (hkeys _ hd slot.key List.mem_cons_self) hfit
  · have hcuts := Brought.of_runs Brought.getOpts_cuts hruns (sight_of_sound hduties hth)
      fun _ => supplies_given
    obtain ⟨-, block, a, b, hgiven, hcut⟩ := hcuts chunk (List.mem_filterMap.mpr ⟨_, hitem, rfl⟩)
    exact ⟨block, a, b, hgiven, hcut⟩

end World

section

open Sample World

def immutableConfig : NamespaceConfig := { NamespaceConfig.default with consistency := .immutable }

/-- An object is inserted, and the process ends with its block on disk. -/
def firstLifetime : List Event :=
  [.register [97] immutableConfig, .call 0 (.insert [111] none [1]), .run 0 .go, .run 0 .go, .run 0 .go,
    .run 0 .go, .restart [0]]

/-- The object of the same name is read in the first namespace that is registered. -/
def secondLifetime (name : Bytes) : List Event :=
  [.register name immutableConfig, .call 0 (.get [111] (.bounded ⟨0, 1⟩) FetchPolicy.default), .run 0 .go,
    .run 0 .go, .run 0 .go, .run 0 .go, .run 0 (.found 0 (some ⟨⟨1, none, some 0⟩, [1]⟩)), .run 0 .go,
    .run 0 .go]

/-- What is inserted there. -/
abbrev insertedOnly (ns object : Bytes) (v : Version) : Prop := ns = [97] ∧ object = [111] ∧ v = ⟨[1], none⟩

/-- A lookup has given the block. -/
def found (block : Block) : Done Op Resp → Bool
  | ⟨.blocksGet _, .ready (_, some block')⟩ => decide (block' = block)
  | _ => false

theorem given_of_found {block : Block} {tr : Trace} (h : tr.any (found block) = true) :
    Given tr block := by
  obtain ⟨⟨o, r⟩, hd, hfound⟩ := List.any_eq_true.mp h
  cases o
  case blocksGet keys =>
    rcases r with ⟨i, _ | block'⟩ | _ | _
    case ready.some =>
      cases of_decide_eq_true hfound
      exact .inl ⟨keys, i, hd⟩
    all_goals cases hfound
  all_goals cases hfound

theorem reads_own_blocks_again : ∃ (w : World) (th : Thread Task Op Resp), th ∈ w.threads ∧
    Given th.trace ⟨⟨1, none, some 0⟩, [1]⟩ ∧ BlockFrom (insertedOnly [97] [111])
      ⟨⟨1, none, some 0⟩, [1]⟩ := by
  obtain ⟨w, hw, th, hth, hreads, hfound⟩ :
      ∃ w ∈ runEvents (checked (fun w e => decide (Brings insertedOnly w e ∧ SameIds w e)) (step 5)) init
        (firstLifetime ++ secondLifetime [97]),
      ∃ th ∈ w.threads[0]?, th.task.reads ⟨0, [97], immutableConfig⟩ [111] (.bounded ⟨0, 1⟩) = true ∧
        th.trace.any (found ⟨⟨1, none, some 0⟩, [1]⟩) = true := by
    decide
  obtain ⟨policy, htask⟩ := Task.reads_iff.mp hreads
  have hmem := List.mem_of_getElem? hth
  have hgiven := given_of_found hfound
  have hown := reads_own_blocks (.of_decided hw) hmem htask
  exact ⟨w, th, hmem, hgiven, hown.1 _ hgiven⟩

/-- Where another namespace is registered first after the restart, it takes over the id and with it
the blocks on disk: its read yields what was inserted in the first namespace. -/
theorem other_namespace_read :
    ∃ (w : World) (th : Thread Task Op Resp) (request : ReadRange) (policy : FetchPolicy),
    runEvents (step 5) init (firstLifetime ++ secondLifetime [98]) = some w ∧ th ∈ w.threads ∧
    th.task = .get ⟨0, [98], immutableConfig⟩ [111] request policy ∧ w.shared.history [98] [111] = [] ∧
    w.shared.inserted [98] [111] = [] ∧ w.shared.inserted [97] [111] = [⟨[1], none⟩] ∧
    yieldedBytes th.trace = [1] := by
  obtain ⟨w, hw, hhistory, hother, hinserted, th, hth, hreads, hbytes⟩ :
      ∃ w ∈ runEvents (step 5) init (firstLifetime ++ secondLifetime [98]), w.shared.history [98] [111] = [] ∧
        w.shared.inserted [98] [111] = [] ∧ w.shared.inserted [97] [111] = [⟨[1], none⟩] ∧
        ∃ th ∈ w.threads[0]?, th.task.reads ⟨0, [98], immutableConfig⟩ [111] (.bounded ⟨0, 1⟩) = true ∧
          yieldedBytes th.trace = [1] := by
    decide
  obtain ⟨policy, htask⟩ := Task.reads_iff.mp hreads
  exact ⟨w, th, _, policy, hw, List.mem_of_getElem? hth, htask, hhistory, hother, hinserted, hbytes⟩

end

end Nestor
