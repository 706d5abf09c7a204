import Mathlib.Algebra.Order.Group.Multiset
import Nestor.Engine.Lemmas.World

/-!
# The slots of a thread

A thread comes to own a slot by registering its key, and has it in the table until it takes the key
out to publish the result. What it owns it loses only by the publication, or to a task it starts.
-/

namespace Nestor

open Lib

/-- The slots owned after an operation. -/
def Op.owned (owned : Multiset Slot) : (o : Op) → Resp o → Multiset Slot
  | .register _, .owner slot => slot ::ₘ owned
  | .publish slot _, _ => owned.erase slot
  | .spawn task, _ => owned - task.slots
  | _, _ => owned

/-- The slots registered or joined after an operation. -/
def Op.known (known : List Slot) : (o : Op) → Resp o → List Slot
  | .register _, .owner slot | .register _, .waiter slot => slot :: known
  | _, _ => known

variable {s s' : Shared} {owned owned' : Multiset Slot} {gap gap' : Option BlockKey} {key : BlockKey}
  {slot slot' : Slot}
    {o : Op} {r : Resp o}

theorem Op.mem_owned (r : Resp o) (hn : owned.Nodup) (h : slot ∈ owned) :
    (∃ result, o = .publish slot result) ∨ (∃ task, o = .spawn task ∧ slot ∈ task.slots) ∨
    slot ∈ o.owned owned r := by
  cases o
  case register =>
    cases r with
    | owner slot' => exact .inr (.inr (Multiset.mem_cons_of_mem h))
    | waiter slot' => exact .inr (.inr h)
  case publish slot' result =>
    by_cases heq : slot = slot'
    · exact .inl ⟨result, by rw [heq]⟩
    · exact .inr (.inr ((Multiset.mem_erase_of_ne heq).mpr h))
  case spawn task =>
    by_cases hin : slot ∈ task.slots
    · exact .inr (.inl ⟨task, rfl, hin⟩)
    · exact .inr (.inr ((Multiset.mem_sub_of_nodup hn).mpr ⟨h, hin⟩))
  all_goals exact .inr (.inr h)

namespace Shared

theorem register_waiter (hi : s.inflight key = some slot) : s.register key = (.waiter slot, s) := by
  simp [register, hi]

theorem register_owner (hi : s.inflight key = none) : (s.register key).1 = .owner ⟨key, s.nextSlot⟩ := by
  simp [register, hi]

/-- A slot that is known now was known before, was in the table, or has just been registered. -/
theorem mem_known {known : List Slot} (ha : s.Answers o r) (h : slot ∈ o.known known r) :
    slot ∈ known ∨ (∃ key, s.inflight key = some slot) ∨ slot ∈ o.owned owned r := by
  cases o
  case register key =>
    obtain rfl : r = (s.register key).1 := ha
    cases hi : s.inflight key with
    | some slot' =>
        rw [register_waiter hi] at h
        rcases List.mem_cons.mp h with rfl | h
        · exact .inr (.inl ⟨key, hi⟩)
        · exact .inl h
    | none =>
        rw [register_owner hi] at h ⊢
        rcases List.mem_cons.mp h with rfl | h
        · exact .inr (.inr (Multiset.mem_cons_self _ _))
        · exact .inl h
  all_goals exact .inl h

/-- An entry of the table was there before, or the thread that has just registered it owns it. -/
theorem inflight_after (h : (s.after o).inflight key = some slot) (ha : s.Answers o r) :
    s.inflight key = some slot ∨ slot ∈ o.owned owned r := by
  cases o
  case register key' =>
    obtain rfl : r = (s.register key').1 := ha
    simp only [Shared.after] at h
    cases hi : s.inflight key' with
    | some slot' =>
        rw [register_waiter hi] at h
        exact .inl h
    | none =>
        rw [register_owner hi]
        simp only [register, hi] at h
        obtain ⟨-, heq⟩ | ⟨-, h⟩ := update_eq_some h
        · cases heq
          exact .inr (Multiset.mem_cons_self _ _)
        · exact .inl h
  case unregister key' =>
    obtain ⟨-, heq⟩ | ⟨-, h⟩ := update_eq_some h
    · cases heq
    · exact .inl h
  all_goals exact .inl h

theorem channels_after (h : s.channels slot ≠ none) : (s.after o).channels slot ≠ none := by
  cases o
  case publish slot' result =>
    simp only [Shared.after, Shared.publish]
    by_cases heq : slot = slot'
    · subst heq
      simp
    · rwa [Function.update_of_ne heq]
  case register key =>
    simp only [Shared.after, Shared.register]
    cases s.inflight key <;> exact h
  all_goals exact h

/-- The slots are in the table, each under its own key, but for one that is about to be
published. -/
structure Owns (s : Shared) (owned : Multiset Slot) (gap : Option BlockKey) : Prop where
  ids : ∀ slot ∈ owned, slot.id < s.nextSlot
  nodup : owned.Nodup
  keys : ∀ slot ∈ owned, ∀ slot' ∈ owned, slot.key = slot'.key → slot = slot'
  entry : ∀ slot ∈ owned, gap ≠ some slot.key → s.inflight slot.key = some slot

namespace Owns

theorem entry_of_idle (h : s.Owns owned gap) (hgap : gap = none) (hs : slot ∈ owned) :
    s.inflight slot.key = some slot := h.entry slot hs (by simp [hgap])

theorem not_mem_new (h : s.Owns owned gap) (key : BlockKey) : (⟨key, s.nextSlot⟩ : Slot) ∉ owned :=
  fun hs => Nat.lt_irrefl _ (h.ids _ hs)

theorem of_entry (h : s.Owns owned gap) (hn : s.nextSlot ≤ s'.nextSlot)
    (he : ∀ slot ∈ owned, gap ≠ some slot.key → s'.inflight slot.key = some slot) : s'.Owns owned gap :=
  { h with ids := fun slot hs => (h.ids slot hs).trans_le hn, entry := he }

theorem of_le (h : s.Owns owned gap) (hle : owned' ≤ owned) : s.Owns owned' gap where
  ids slot hs := h.ids slot (Multiset.mem_of_le hle hs)
  nodup := Multiset.nodup_of_le hle h.nodup
  keys slot hs slot' hs' := h.keys slot (Multiset.mem_of_le hle hs) slot' (Multiset.mem_of_le hle hs')
  entry slot hs := h.entry slot (Multiset.mem_of_le hle hs)

theorem registered (h : s.Owns owned gap) (hgap : gap = none) (hnone : s.inflight key = none) :
    (s.register key).2.Owns (⟨key, s.nextSlot⟩ ::ₘ owned) none := by
  have hother : ∀ slot ∈ owned, slot.key ≠ key := by
    rintro slot hs rfl
    rw [h.entry_of_idle hgap hs] at hnone
    cases hnone
  simp only [register, hnone]
  refine ⟨fun slot hs => ?_, ?_, fun slot hs slot' hs' heq => ?_, fun slot hs _ => ?_⟩
  · rcases Multiset.mem_cons.mp hs with rfl | hs
    · exact Nat.lt_succ_self _
    · exact Nat.lt_succ_of_lt (h.ids slot hs)
  · exact Multiset.nodup_cons.mpr ⟨h.not_mem_new key, h.nodup⟩
  · rcases Multiset.mem_cons.mp hs with rfl | hs <;> rcases Multiset.mem_cons.mp hs' with rfl | hs'
    · rfl
    · exact absurd heq.symm (hother slot' hs')
    · exact absurd heq (hother slot hs)
    · exact h.keys slot hs slot' hs' heq
  · rcases Multiset.mem_cons.mp hs with rfl | hs
    · exact Function.update_self ..
    · exact (Function.update_of_ne (hother slot hs) ..).trans (h.entry_of_idle hgap hs)

theorem register_stable (h : s.Owns owned gap) (hnone : s.inflight key = none) :
    (s.register key).2.Owns owned gap := by
  simp only [register, hnone]
  refine h.of_entry (Nat.le_succ _) fun slot hs hg => ?_
  have hentry := h.entry slot hs hg
  refine (Function.update_of_ne ?_ ..).trans hentry
  rintro rfl
  rw [hnone] at hentry
  cases hentry

theorem unregistered (h : s.Owns owned gap) (hgap : gap = none) :
    (s.unregister key).Owns owned (some key) := by
  refine { h with entry := fun slot hs hg => (Function.update_of_ne ?_ ..).trans (h.entry_of_idle hgap hs) }
  rintro rfl
  exact hg rfl

theorem unregister_stable (h : s.Owns owned gap) (h' : s.Owns owned' gap')
    (ha : ∀ slot ∈ owned, slot ∉ owned') (hgap : gap = none) (hs : slot ∈ owned) :
    (s.unregister slot.key).Owns owned' gap' := by
  refine h'.of_entry (Nat.le_refl _) fun slot' hs' hg => ?_
  have hentry := h'.entry slot' hs' hg
  refine (Function.update_of_ne ?_ ..).trans hentry
  intro hkey
  rw [hkey, h.entry_of_idle hgap hs] at hentry
  cases hentry
  exact ha slot hs hs'

theorem gap_ne (h : s.Owns owned gap) (hgap : gap = some slot.key) (hs : slot ∈ owned)
    (hs' : slot' ∈ owned.erase slot) :
    gap ≠ some slot'.key := by
  obtain ⟨hne, hs'⟩ := h.nodup.mem_erase_iff.mp hs'
  rw [hgap]
  intro heq
  exact hne (h.keys slot' hs' slot hs (Option.some.inj heq).symm)

theorem published (h : s.Owns owned gap) (hgap : gap = some slot.key) (hs : slot ∈ owned)
    (result : BlockResult) :
    (s.publish slot result).Owns (owned.erase slot) none :=
  { h.of_le (Multiset.erase_le slot owned) with
    entry := fun slot' hs' _ => h.entry slot' (Multiset.mem_of_mem_erase hs') (h.gap_ne hgap hs hs') }

end Owns

end Shared

end Nestor
