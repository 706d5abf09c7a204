import Nestor.Engine.Lemmas.Duties
import Nestor.Engine.Lemmas.Lifetime

/-!
# Objects do not touch each other

All objects share one engine: one table of fetches in flight, one block cache, one cache of
metadata. What it holds of an object changes only by the tasks that work on that object, by its
origin and by evictions, however these are interleaved with the tasks of other objects.
-/

namespace Nestor

open Lib

/-- What the two states hold of the object is the same. -/
structure Shared.SameFor (home : Home) (s s' : Shared) : Prop where
  metas : s'.metas home.key = s.metas home.key
  lastEnd : s'.lastEnd home.key = s.lastEnd home.key
  blocks : s'.blocks.filter (·.1.objectKey = home.key) = s.blocks.filter (·.1.objectKey = home.key)
  inflight : ∀ key : BlockKey, key.objectKey = home.key → s'.inflight key = s.inflight key
  channels : ∀ slot : Slot, slot.key.objectKey = home.key → s'.channels slot = s.channels slot
  history : s'.history home.origin home.key.object = s.history home.origin home.key.object

/-- The objects differ, in the engine and at the origin. -/
structure Home.Apart (home home' : Home) : Prop where
  key : home.key ≠ home'.key
  origin : ¬ (home.origin = home'.origin ∧ home.key.object = home'.key.object)

namespace Shared.SameFor

variable {home home' : Home} {s s' s'' : Shared}

theorem refl (home : Home) (s : Shared) : s.SameFor home s :=
  ⟨rfl, rfl, rfl, fun _ _ => rfl, fun _ _ => rfl, rfl⟩

theorem trans (h : s.SameFor home s') (h' : s'.SameFor home s'') : s.SameFor home s'' where
  metas := h'.metas.trans h.metas
  lastEnd := h'.lastEnd.trans h.lastEnd
  blocks := h'.blocks.trans h.blocks
  inflight key hkey := (h'.inflight key hkey).trans (h.inflight key hkey)
  channels slot hslot := (h'.channels slot hslot).trans (h.channels slot hslot)
  history := h'.history.trans h.history

variable {key : ObjectKey} {block : BlockKey}

theorem update_metas (hkey : key ≠ home.key) (entry : Option MetaEntry) :
    s.SameFor home { s with metas := Function.update s.metas key entry } :=
  { refl home s with metas := Function.update_of_ne hkey.symm .. }

theorem update_lastEnd (hkey : key ≠ home.key) (last : Option Nat) :
    s.SameFor home { s with lastEnd := Function.update s.lastEnd key last } :=
  { refl home s with lastEnd := Function.update_of_ne hkey.symm .. }

theorem update_inflight (hkey : block.objectKey ≠ home.key) (entry : Option Slot) (n : Nat) :
    s.SameFor home { s with inflight := Function.update s.inflight block entry, nextSlot := n } := by
  refine { refl home s with inflight := fun key' hkey' => Function.update_of_ne ?_ .. }
  rintro rfl
  exact hkey hkey'

theorem insertBlock (hkey : block.objectKey ≠ home.key) (b : Block) :
    s.SameFor home (s.insertBlock block b) := by
  refine { refl home s with blocks := ?_ }
  simp [Shared.insertBlock, hkey]

theorem removeBlock (hkey : block.objectKey ≠ home.key) : s.SameFor home (s.removeBlock block) := by
  refine { refl home s with blocks := ?_ }
  simp only [Shared.removeBlock, List.filter_filter]
  refine List.filter_congr fun e _ => ?_
  have hne : e.1.objectKey = home.key → e.1 ≠ block := by
    rintro he rfl
    exact hkey he
  simpa using hne

theorem publish {slot : Slot} (hslot : slot.key.objectKey ≠ home.key) (result : BlockResult) :
    s.SameFor home (s.publish slot result) := by
  refine { refl home s with channels := fun slot' hslot' => Function.update_of_ne ?_ .. }
  rintro rfl
  exact hslot hslot'

theorem setVersion {ns object : Bytes} (hne : ¬ (ns = home.origin ∧ object = home.key.object))
    (v : Option Version) :
    s.SameFor home (s.setVersion ns object v) := by
  refine { refl home s with history := ?_ }
  obtain ⟨rfl, rfl, -⟩ | heq := s.history_setVersion ns object home.origin home.key.object v
  · exact absurd ⟨rfl, rfl⟩ hne
  · exact heq

theorem after {fuel : Nat} {d : Duty} {o : Op} (ha : home'.Apart home) (hg : (Duty.spec fuel home').guar d o)
    (hv : d.View s home') : s.SameFor home (s.after o) := by
  have howned {slot : Slot} (hs : slot ∈ d.owned) : slot.key.objectKey ≠ home.key := fun h =>
    ha.key ((hv.here slot hs).symm.trans h)
  have hnear {key : BlockKey} (hkey : d.Near home' key) : key.objectKey ≠ home.key := by
    rcases hkey with hkey | ⟨slot, hs, rfl⟩
    · exact fun h => ha.key (hkey.symm.trans h)
    · exact howned hs
  obtain ⟨habout, hpays⟩ := hg
  have hkey {key : ObjectKey} (hkey : key = home'.key) : key ≠ home.key := fun h => ha.key (hkey.symm.trans h)
  cases o
  case metaPut key m => exact update_metas (hkey habout) _
  case metaRemove key => exact update_metas (hkey habout) _
  case readaheadObserve key range => exact update_lastEnd (hkey habout) _
  case readaheadForget key => exact update_lastEnd (hkey habout) _
  case blocksInsert key block => exact insertBlock (hnear hpays.2) block
  case blocksRemove key => exact removeBlock (hkey habout)
  case register key =>
    simp only [Shared.after, Shared.register]
    cases s.inflight key with
    | some slot => exact refl home s
    | none => exact update_inflight (hkey habout) _ _
  case unregister key =>
    obtain ⟨-, slot, hs, rfl⟩ := hpays
    exact update_inflight (howned hs) _ _
  case publish slot result => exact publish (howned hpays.2.1) result
  case put ns object v =>
    refine setVersion (fun h => ha.origin ?_) (some v)
    rw [← habout.1, ← habout.2]
    exact h
  all_goals exact refl home s

end Shared.SameFor

/-! ## Namespaces of tasks -/

/-- The object is one of a registered namespace. -/
def Registry.Homes (R : Registry) (home : Home) : Prop := ∃ ns ∈ R.states, ∃ object, home = .of ns object

theorem Registry.Homes.apart {R : Registry} (hnumbered : R.Numbered) (hnamed : R.Named) {home home' : Home}
    (h : R.Homes home) (h' : R.Homes home') (hne : home ≠ home') : home.Apart home' := by
  obtain ⟨ns, hns, object, rfl⟩ := h
  obtain ⟨ns', hns', object', rfl⟩ := h'
  refine ⟨fun hkey => hne ?_, fun ⟨hname, hobject⟩ => hne ?_⟩
  · obtain ⟨hid, rfl⟩ := (ObjectKey.mk.injEq ..).mp hkey
    have hget := hnumbered.get hns
    rw [hid, hnumbered.get hns'] at hget
    rw [Option.some.inj hget]
  · have hid := hnamed.id_eq hns hns' (Eq.symm hname)
    have hget := hnumbered.get hns
    rw [← hid, hnumbered.get hns'] at hget
    obtain rfl : object = object' := hobject
    rw [Option.some.inj hget]

namespace World

/-- The threads work on objects of registered namespaces, which are told apart by their ids and by
their names. -/
structure Housed (w : World) : Prop where
  numbered : w.shared.registry.Numbered
  named : w.shared.registry.Named
  homes : ∀ th ∈ w.threads, w.shared.registry.Homes th.task.home

/-- Nothing happens to the object: the thread that goes on works on another one, and so it is with
overwrites and evictions. -/
def Elsewhere (home : Home) (w : World) : Event → Prop
  | .run i _ => ∀ th ∈ w.threads[i]?, th.task.home ≠ home
  | .overwrite ns object _ => ¬ (ns = home.origin ∧ object = home.key.object)
  | .evictBlock i => ∀ entry ∈ w.shared.blocks[i]?, entry.1.objectKey ≠ home.key
  | .evictMeta key | .evictLastEnd key => key ≠ home.key
  | e => w.OneLife e

instance (home : Home) (w : World) : (e : Event) → Decidable (w.Elsewhere home e)
  | .run i _ => inferInstanceAs (Decidable (∀ th ∈ w.threads[i]?, th.task.home ≠ home))
  | .overwrite ns object _ => inferInstanceAs (Decidable (¬ (ns = home.origin ∧ object = home.key.object)))
  | .evictBlock i => inferInstanceAs (Decidable (∀ entry ∈ w.shared.blocks[i]?, entry.1.objectKey ≠ home.key))
  | .evictMeta key | .evictLastEnd key => inferInstanceAs (Decidable (key ≠ home.key))
  | .call id c => inferInstanceAs (Decidable (w.OneLife (.call id c)))
  | .register name config => inferInstanceAs (Decidable (w.OneLife (.register name config)))
  | .tick n => inferInstanceAs (Decidable (w.OneLife (.tick n)))
  | .restart kept => inferInstanceAs (Decidable (w.OneLife (.restart kept)))

section

variable [TagHash] {fuel : Nat} {w w' : World} {e : Event} {es es' : List Event} {home : Home}

omit [TagHash] in
theorem Elsewhere.oneLife (h : w.Elsewhere home e) : w.OneLife e := by
  cases e with
  | register name config => exact h
  | restart kept => exact h
  | _ => trivial

omit [TagHash] in
theorem call_home (ns : NamespaceState) (c : Call) : ∃ object, (c.task ns).home = .of ns object := by
  cases c <;> exact ⟨_, rfl⟩

theorem homes_step (hok : w.OneLife e) (hs : step fuel w e = some w') (h : w.shared.registry.Homes home) :
    w'.shared.registry.Homes home := by
  obtain ⟨ns, hns, object, rfl⟩ := h
  exact ⟨ns, (states_kept (.cons hok hs .nil)).subset hns, object, rfl⟩

theorem housed_step (hd : (duties fuel).Sound w) (h : w.Housed) (hok : w.OneLife e)
    (hs : step fuel w e = some w') :
    w'.Housed := by
  refine ⟨numbered_step h.numbered hok hs, named_step h.named hok hs, fun th hth => ?_⟩
  have hkept (home : Home) : w.shared.registry.Homes home → w'.shared.registry.Homes home := homes_step hok hs
  cases e with
  | run i x =>
      obtain ⟨t, o, k, tr, r, hi, -, rfl⟩ := step_run hs
      have hmem := List.mem_of_getElem? hi
      obtain ⟨-, -, hcases⟩ := System.mem_resume hi ⟨t, k r, tr ++ [⟨o, r⟩]⟩ (o.tasks.map (system fuel).begin)
      have hmover := hkept _ (h.homes _ hmem)
      rcases hcases th hth with hth | rfl | hth
      · exact hkept _ (h.homes th hth)
      · exact hmover
      · obtain ⟨task, htask, rfl⟩ := List.mem_map.mp hth
        obtain rfl := Op.eq_spawn htask
        obtain ⟨⟨hhome, -⟩, -⟩ := pays_next hd hmem rfl
        change Registry.Homes _ task.home
        rw [hhome]
        exact hmover
  | call id c =>
      obtain ⟨ns, hns, rfl⟩ := step_call hs
      rcases List.mem_append.mp hth with hth | hth
      · exact hkept _ (h.homes th hth)
      · obtain rfl := List.mem_singleton.mp hth
        obtain ⟨object, hhome⟩ := call_home ns c
        exact hkept _ ⟨ns, List.mem_of_getElem? hns, object, hhome⟩
  | restart kept => exact hok.elim
  | _ => cases hs; exact hkept _ (h.homes th hth)

omit [TagHash] in
theorem filter_eraseIdx {α : Type} {p : α → Bool} {l : List α} {i : Nat}
    (h : ∀ a, l[i]? = some a → p a = false) :
    (l.eraseIdx i).filter p = l.filter p := by
  induction l generalizing i with
  | nil => rfl
  | cons a l ih =>
      cases i with
      | zero => rw [List.eraseIdx_cons_zero, List.filter_cons_of_neg (by simp [h a rfl])]
      | succ i => rw [List.eraseIdx_cons_succ, List.filter_cons, List.filter_cons, ih h]

theorem sameFor_step (hd : (duties fuel).Sound w) (h : w.Housed) (hhome : w.shared.registry.Homes home)
    (hok : w.Elsewhere home e) (hs : step fuel w e = some w') : w.shared.SameFor home w'.shared := by
  cases e with
  | run i x =>
      obtain ⟨t, o, k, tr, r, hi, -, rfl⟩ := step_run hs
      have hmem := List.mem_of_getElem? hi
      have hv := (hd.threads _ hmem).view
      rw [duties_at] at hv
      exact .after ((h.homes _ hmem).apart h.numbered h.named hhome (hok _ hi)) (pays_next hd hmem rfl) hv
  | call id c =>
      obtain ⟨ns, -, rfl⟩ := step_call hs
      cases c <;> exact { Shared.SameFor.refl home w.shared with }
  | register name config =>
      cases hs
      unfold Shared.registerNamespace
      split <;> exact { Shared.SameFor.refl home w.shared with }
  | tick n => cases hs; exact { Shared.SameFor.refl home w.shared with }
  | overwrite ns object v => cases hs; exact .setVersion hok v
  | evictBlock i =>
      cases hs
      refine { Shared.SameFor.refl home w.shared with blocks := filter_eraseIdx ?_ }
      intro entry hi
      simpa using hok entry hi
  | evictMeta key => cases hs; exact .update_metas hok none
  | evictLastEnd key => cases hs; exact .update_lastEnd hok none
  | restart kept => exact hok.elim

/-- As long as nothing happens to an object itself, whatever the tasks of other objects do, in
whatever order, what the engine and the origin hold of it stays as it is. -/
theorem others_keep_object (h : Run (step fuel) OneLife init es w) {ns : NamespaceState}
    (hns : ns ∈ w.shared.registry.states) (object : Bytes)
    (hrun : Run (step fuel) (Elsewhere (.of ns object)) w es' w') :
    w.shared.SameFor (.of ns object) w'.shared := by
  have hstart : (duties fuel).Sound w ∧ w.Housed :=
    h.invariant (fun _ _ _ hi hok hs => (⟨duties_step hi.1 hs, housed_step hi.1 hi.2 hok hs⟩ : _ ∧ _))
      ⟨duties_init, numbered_empty, named_empty, List.forall_mem_nil _⟩
  have hhome : w.shared.registry.Homes (.of ns object) := ⟨ns, hns, object, rfl⟩
  clear h hns
  induction hrun with
  | nil => exact .refl _ _
  | cons hok hs _ ih =>
      have hlife := hok.oneLife
      exact (sameFor_step hstart.1 hstart.2 hhome hok hs).trans
        (ih ⟨duties_step hstart.1 hs, housed_step hstart.1 hstart.2 hlife hs⟩ (homes_step hlife hs hhome))

end

open Sample

def sharedNamespace : NamespaceState :=
  ⟨0, [97], { NamespaceConfig.default with consistency := .immutable, readahead := 0 }⟩

def oneInserted : List Event :=
  [.register [97] sharedNamespace.config, .call 0 (.insert [111] none [1]), .run 0 .go, .run 0 .go,
    .run 0 .go, .run 0 .go]

/-- Another object is read, up to the wait for its block, and overwritten; then it is
invalidated. -/
def otherUsed : List Event :=
  [.call 0 (.get [112] (.bounded ⟨0, 1⟩) FetchPolicy.default), .run 1 .go, .run 1 .go, .run 1 .go,
    .run 1 (.found 0 none), .run 1 .go, .run 1 (.found 0 none), .run 1 .go, .tick 5,
    .overwrite [97] [112] none, .call 0 (.invalidate [112]), .run 3 .go, .run 3 .go, .run 3 .go]

theorem others_keep_inserted : ∃ w w' : World, Run (step 5) OneLife init oneInserted w ∧
    Run (step 5) (Elsewhere (.of sharedNamespace [111])) w otherUsed w' ∧ w.shared.metas ⟨0, [111]⟩ ≠ none ∧
    w.shared.blocks ≠ [] ∧ w.shared.SameFor (.of sharedNamespace [111]) w'.shared := by
  obtain ⟨w, hw, hns, hmeta, hblocks, w', hw', -⟩ :
      ∃ w ∈ runEvents (checked (fun w e => decide (OneLife w e)) (step 5)) init oneInserted,
      sharedNamespace ∈ w.shared.registry.states ∧ w.shared.metas ⟨0, [111]⟩ ≠ none ∧ w.shared.blocks ≠ [] ∧
      ∃ w' ∈ runEvents (checked (fun w e => decide (Elsewhere (.of sharedNamespace [111]) w e)) (step 5)) w
        otherUsed, True := by
    decide
  have hrun : Run (step 5) OneLife init oneInserted w := .of_decided hw
  have hrun' : Run (step 5) (Elsewhere (.of sharedNamespace [111])) w otherUsed w' := .of_decided hw'
  exact ⟨w, w', hrun, hrun', hmeta, hblocks, others_keep_object hrun hns [111] hrun'⟩

end World

end Nestor
