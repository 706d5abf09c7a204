import Nestor.Engine.Lemmas.World
import Nestor.Inflight.Theorems

/-!
# The table as the engine sees it

The tasks of the engine register a key, take it out again, publish a result and wait for one in
single operations. Every step of the table is one of them or changes nothing they can see, so its
runs are runs of those operations.
-/

namespace Nestor.Inflight.State

open Lib

variable {hash : BlockKey → Nat} {s s' : State hash} {es : List Event} {e : Event} {sh : Shared}
  {slot slot' : Slot} {i : Nat}

/-- The keys and the channels of the slots, in the order of their registrations. -/
def ids (s : State hash) : List (BlockKey × Nat) := s.slots.map fun slot => (slot.key, slot.tx)

/-- The engine holds the entries and the results of the state; a slot is known by the number of its
registration. -/
structure Refines (s : State hash) (sh : Shared) : Prop where
  inflight : ∀ key id, sh.inflight key = some id ↔
    ∃ i tx, s.ids[i]? = some (key, tx) ∧ s.table.get key = some tx ∧ id = ⟨key, i⟩
  channels : ∀ i key tx c, s.ids[i]? = some (key, tx) → s.channels[tx]? = some c →
    sh.channels ⟨key, i⟩ = c.value
  fresh : ∀ id, s.ids.length ≤ id.id → sh.channels id = none
  next : sh.nextSlot = s.ids.length

/-- The operation of the engine that an event stands for. -/
def operation (s : State hash) : Event → Option Op
  | .register key => some (.register key)
  | .settle i =>
      match s.slots[i]? with
      | some ⟨key, _, _, .remove _ _⟩ => some (.unregister key)
      | some ⟨key, _, _, .publish result _⟩ => some (.publish ⟨key, i⟩ result)
      | _ => none
  | _ => none

/-- The operations that a run stands for. -/
def operations (s : State hash) : List Event → List Op
  | [] => []
  | e :: es => (s.operation e).toList ++ (s.step e).elim [] (·.operations es)

theorem ids_get (hi : s.slots[i]? = some slot) : s.ids[i]? = some (slot.key, slot.tx) := by
  rw [ids, List.getElem?_map, hi]
  rfl

theorem get_of_ids {id : BlockKey × Nat} (hi : s.ids[i]? = some id) :
    ∃ slot, s.slots[i]? = some slot ∧ (slot.key, slot.tx) = id := by
  rw [ids, List.getElem?_map] at hi
  exact Option.map_eq_some_iff.mp hi

theorem ids_setSlot (hi : s.slots[i]? = some slot) (hkey : slot'.key = slot.key) (htx : slot'.tx = slot.tx) :
    (s.setSlot i slot').ids = s.ids := by
  obtain ⟨hlt, heq⟩ := List.getElem?_eq_some_iff.mp (ids_get hi)
  rw [ids, State.setSlot, List.map_set, hkey, htx, ← heq]
  exact List.set_getElem_self hlt

theorem Inv.ids_lt (h : s.Inv es) {key : BlockKey} {tx : Nat} (hi : s.ids[i]? = some (key, tx)) :
    tx < s.channels.length := by
  obtain ⟨slot, hslot, ⟨⟩⟩ := get_of_ids hi
  exact h.tx_lt hslot

theorem Inv.ids_entry (h : s.Inv es) {key : BlockKey} {tx : Nat} (hget : s.table.get key = some tx) :
    ∃ i : Nat, s.ids[i]? = some (key, tx) := by
  obtain ⟨i, slot, hi, rfl, rfl, -⟩ := (h.entry key tx).mp hget
  exact ⟨i, ids_get hi⟩

theorem new_refines (shards : Nat) : (new shards : State hash).Refines Shared.init where
  inflight := by simp [new, ids, Shared.init]
  channels := by simp [new, ids]
  fresh := fun _ _ => rfl
  next := rfl

namespace Refines

theorem setSlot (h : s.Refines sh) (hi : s.slots[i]? = some slot) (hkey : slot'.key = slot.key)
    (htx : slot'.tx = slot.tx) : (s.setSlot i slot').Refines sh := by
  have hids := ids_setSlot hi hkey htx
  constructor
  all_goals rw [hids]
  exacts [h.inflight, h.channels, h.fresh, h.next]

theorem idle (h : s.Refines sh) {key : BlockKey} (hget : s.table.get key = none) :
    sh.inflight key = none := by
  refine Option.eq_none_iff_forall_ne_some.mpr fun id hid => ?_
  obtain ⟨_, _, -, hsome, -⟩ := (h.inflight key id).mp hid
  cases hget.symm.trans hsome

theorem register (h : s.Refines sh) (hinv : s.Inv es) (key : BlockKey) :
    (s.register key).Refines (sh.register key).2 := by
  unfold State.register Shared.register
  cases hget : s.table.get key with
  | some rx =>
      obtain ⟨i, hi⟩ := hinv.ids_entry hget
      rw [(h.inflight key ⟨key, i⟩).mpr ⟨i, rx, hi, hget, rfl⟩]
      exact ⟨h.inflight, h.channels, h.fresh, h.next⟩
  | none =>
      have hids : (⟨s.table.insert key s.channels.length, s.channels ++ [.new none],
          s.slots ++ [⟨key, s.channels.length, false, .held⟩], s.handles ++ [⟨s.channels.length, .start⟩]⟩ :
            State hash).ids = s.ids ++ [(key, s.channels.length)] := List.map_append
      rw [h.idle hget]
      refine ⟨fun key' id => ?_, fun i key' tx c hi hc => ?_, fun id hid => ?_, ?_⟩
      all_goals rw [hids] at *
      · simp only [Sharded.get_insert, Function.update_apply, h.next]
        split
        · rename_i hkey
          subst hkey
          constructor
          · rintro ⟨⟩
            exact ⟨_, _, List.getElem?_concat_length, rfl, rfl⟩
          · rintro ⟨i, _, hi, ⟨⟩, rfl⟩
            -- only the new slot has the new channel
            obtain hi | ⟨rfl, -⟩ := getElem?_snoc hi
            · exact absurd (hinv.ids_lt hi) (Nat.lt_irrefl _)
            · rfl
        · rename_i hkey
          refine (h.inflight key' id).trans ⟨?_, ?_⟩
          · rintro ⟨i, tx, hi, hrest⟩
            exact ⟨i, tx, getElem?_keep hi, hrest⟩
          · rintro ⟨i, tx, hi, hrest⟩
            obtain hi | ⟨-, ⟨⟩⟩ := getElem?_snoc hi
            · exact ⟨i, tx, hi, hrest⟩
            · exact absurd rfl hkey
      · obtain hi | ⟨rfl, ⟨⟩⟩ := getElem?_snoc hi
        · rw [List.getElem?_append_left (hinv.ids_lt hi)] at hc
          exact h.channels i key' tx c hi hc
        · rw [List.getElem?_concat_length] at hc
          cases hc
          exact h.fresh _ (Nat.le_refl _)
      · rw [List.length_append] at hid
        exact h.fresh id (by omega)
      · rw [List.length_append, h.next, List.length_singleton]

theorem unregister (h : s.Refines sh) (key : BlockKey) :
    Refines { s with table := s.table.erase key } (sh.unregister key) := by
  refine ⟨fun key' id => ?_, h.channels, h.fresh, h.next⟩
  simp only [Shared.unregister, Function.update_apply, Sharded.get_erase]
  split
  · simp
  · exact h.inflight key' id

theorem close (h : s.Refines sh) (tx : Nat) :
    Refines { s with channels := s.channels.modify tx .close } sh := by
  refine ⟨h.inflight, fun i key tx' c hi hc => ?_, h.fresh, h.next⟩
  rw [List.getElem?_modify] at hc
  obtain ⟨c', hc', rfl⟩ := Option.map_eq_some_iff.mp hc
  rw [h.channels i key tx' c' hi hc']
  split <;> rfl

theorem publish (h : s.Refines sh) (hinv : s.Inv es) (hi : s.slots[i]? = some slot) (result : BlockResult) :
    Refines { s with channels := s.channels.modify slot.tx (·.send result) }
    (sh.publish ⟨slot.key, i⟩ result) := by
  refine ⟨h.inflight, fun j key tx c hj hc => ?_, fun id hid => ?_, h.next⟩
  · rw [List.getElem?_modify] at hc
    obtain ⟨c', hc', rfl⟩ := Option.map_eq_some_iff.mp hc
    by_cases hij : i = j
    · subst hij
      cases (ids_get hi).symm.trans hj
      rw [if_pos rfl]
      exact Function.update_self ..
    · obtain ⟨b, hb, ⟨⟩⟩ := get_of_ids hj
      rw [if_neg fun htx => hij (hinv.own i j slot b hi hb htx)]
      refine (Function.update_of_ne (fun heq => ?_) ..).trans (h.channels j _ _ c' hj hc')
      exact hij (congrArg Nestor.Slot.id heq).symm
  · refine (Function.update_of_ne ?_ ..).trans (h.fresh id hid)
    rintro rfl
    exact absurd (List.getElem?_eq_some_iff.mp (ids_get hi)).1 (Nat.not_lt.mpr hid)

theorem settle (h : s.Refines sh) (hinv : s.Inv es) (hs : s.settle i = some s') :
    s'.Refines ((s.operation (.settle i)).toList.foldl Shared.after sh) := by
  unfold State.settle at hs
  unfold operation
  cases hi : s.slots[i]? with
  | none => simp [hi] at hs
  | some slot =>
      obtain ⟨key, tx, resolved, stage⟩ := slot
      have hmove (stage' : Stage) (resolved' : Bool) :
          (s.setSlot i ⟨key, tx, resolved', stage'⟩).Refines sh :=
        h.setSlot hi rfl rfl
      simp only [hi] at hs ⊢
      cases stage with
      | held | gone => cases hs
      | settle result dropping =>
          dsimp only at hs
          split at hs <;> cases hs <;> exact hmove _ _
      | remove result dropping =>
          cases hs
          exact (hmove _ _).unregister key
      | publish result dropping =>
          cases hs
          exact (h.publish hinv hi result).setSlot hi rfl rfl
      | release =>
          cases hs
          exact (hmove _ _).close tx

theorem step (h : s.Refines sh) (hinv : s.Inv es) (hs : s.step e = some s') :
    s'.Refines ((s.operation e).toList.foldl Shared.after sh) := by
  cases e with
  | register key =>
      cases hs
      exact h.register hinv key
  | resolve | drop =>
      obtain ⟨_, _, hi, hkey, htx, rfl⟩ := give_move hs
      exact h.setSlot hi hkey htx
  | settle i => exact h.settle hinv hs
  | resolved | clone | wait =>
      obtain ⟨channels, handles, rfl⟩ := step_quiet hs rfl
      refine ⟨h.inflight, fun i key tx c hi hc => ?_, h.fresh, h.next⟩
      rw [List.getElem?_append_left (hinv.ids_lt hi)] at hc
      exact h.channels i key tx c hi hc

end Refines

/-- A handle is given out for the slot the engine names, which is a new one where the caller becomes
its owner. -/
theorem register_answers (h : s.Refines sh) (hinv : s.Inv es) (key : BlockKey) :
    ∃ i tx, (s.register key).ids[i]? = some (key, tx) ∧
      (s.register key).handles = s.handles ++ [⟨tx, .start⟩] ∧
      (sh.register key).1 = if i < s.ids.length then .waiter ⟨key, i⟩ else .owner ⟨key, i⟩ := by
  unfold State.register Shared.register
  cases hget : s.table.get key with
  | some rx =>
      obtain ⟨i, hi⟩ := hinv.ids_entry hget
      refine ⟨i, rx, hi, rfl, ?_⟩
      rw [if_pos (List.getElem?_eq_some_iff.mp hi).1, (h.inflight key ⟨key, i⟩).mpr ⟨i, rx, hi, hget, rfl⟩]
  | none =>
      refine ⟨s.ids.length, s.channels.length, ?_, rfl, ?_⟩
      · simp [ids]
      · rw [if_neg (Nat.lt_irrefl _), h.idle hget, h.next]

theorem run_refines {before : List Event} (h : s.Refines sh) (hinv : s.Inv before)
    (hrun : runEvents step s es = some s') : s'.Refines ((s.operations es).foldl Shared.after sh) := by
  induction es generalizing s before sh with
  | nil =>
      cases hrun
      exact h
  | cons e es ih =>
      obtain ⟨s₁, hs, hrun⟩ := Option.bind_eq_some_iff.mp hrun
      rw [operations, hs, List.foldl_append]
      exact ih (h.step hinv hs) (hinv.step hs) hrun

/-- Every run of the table is a run of the engine's operations, which answer the waits with the
results they return. -/
theorem table_refines (shards : Nat) (h : runEvents step (new shards) es = some s) :
    s.Refines ((operations (new shards : State hash) es).foldl Shared.after Shared.init) ∧
    ∀ (n i : Nat) key tx result, s.ids[i]? = some (key, tx) → s.handles[n]? = some ⟨tx, .returned result⟩ →
      ((operations (new shards : State hash) es).foldl Shared.after Shared.init).Answers
        (.wait ⟨key, i⟩) result := by
  have hrun : Run step (fun _ _ => True) (new shards) es s := .of_events h fun _ _ _ => trivial
  have hinv : s.Inv ([] ++ es) := hrun.invariant_events (fun _ _ _ _ hi _ hs => hi.step hs) (new_inv shards)
  have hrefines := run_refines (new_refines shards) (new_inv shards) h
  refine ⟨hrefines, fun n i key tx result hi hn => ?_⟩
  obtain ⟨c, hc, hvalue⟩ := hinv.handles n _ hn
  exact (hrefines.channels i key tx c hi hc).trans hvalue

end Nestor.Inflight.State
