import Nestor.Fetch.Lemmas.Callers

/-!
# Slots are not lost

A slot somebody may wait for has been published, or it is in the hands of a thread that is going to
publish it: of its fetch group, or of the call that registered it.
-/

namespace Nestor.Callers

open Lib

theorem sight_known (f : Sight) (o : Op) (r : Resp o) : (f.after o r).known = o.known f.known r := by
  cases o
  case register => cases r <;> rfl
  case blocksGet keys =>
    rcases r with ⟨i, found⟩ | _ | _
    · change ((keys[i]?).elim f (f.looked · found)).known = f.known
      cases keys[i]? <;> cases found <;> rfl
    · rfl
    · rfl
  all_goals rfl

variable [TagHash] {U : Universe} {fuel : Nat} {c c' : Callers}

def Pending (U : Universe) (fuel : Nat) (c : Callers) (slot : Slot) : Prop :=
  c.shared.channels slot ≠ none ∨ ∃ th ∈ c.threads, slot ∈ ((outline U fuel).at_ th).1.owned

/-- The slots somebody may wait for are those in the table and those a thread knows. -/
structure Unlost (U : Universe) (fuel : Nat) (c : Callers) : Prop where
  table : ∀ key slot, c.shared.inflight key = some slot → Pending U fuel c slot
  known : ∀ th ∈ c.threads, ∀ slot ∈ ((outline U fuel).at_ th).2.known, Pending U fuel c slot

theorem Unlost.resume {i : Nat} {x : Choice} (h : Unlost U fuel c) (hsound : (outline U fuel).Sound c)
    (hs : (system fuel).resume c i x = some c') : Unlost U fuel c' := by
  obtain ⟨t, o, k, tr, r, s, ts, ht, hanswer, rfl⟩ := System.resume_cases hs
  obtain ⟨⟨r', s', tasks⟩, hresp, heq⟩ := Option.map_eq_some_iff.mp hanswer
  cases heq
  obtain ⟨rfl, rfl, ha⟩ := respond_spec hresp
  let A := outline U fuel
  let th : Thread Job Op Resp := ⟨t, .op o k, tr⟩
  let th' : Thread Job Op Resp := ⟨t, k r, tr ++ [⟨o, r⟩]⟩
  have hnext : Party.of (A.at_ th') = (Party.of (A.at_ th)).after o r := by
    rw [← Party.of_after]
    exact congrArg Party.of (Spec.ghost_snoc ..)
  have hnodup := (hsound.threads th (List.mem_of_getElem? ht)).view.nodup
  obtain ⟨hold, hnew, hall⟩ := System.mem_resume ht th' ((o.tasks.map Job.task).map (system fuel).begin)
  have howned {slot : Slot} (ho : slot ∈ ((Party.of (A.at_ th)).after o r).owned) : Pending U fuel
      ⟨c.shared.after o, c.threads.set i th' ++ (o.tasks.map Job.task).map (system fuel).begin⟩ slot := by
    rw [← hnext] at ho
    exact .inr ⟨th', hnew, ho⟩
  have hpending {slot : Slot} (hp : Pending U fuel c slot) : Pending U fuel
      ⟨c.shared.after o, c.threads.set i th' ++ (o.tasks.map Job.task).map (system fuel).begin⟩ slot := by
    rcases hp with hp | ⟨th₀, hin, ho⟩
    · exact .inl (Shared.channels_after hp)
    · rcases hold th₀ hin with rfl | hin
      · rcases Op.mem_owned r hnodup ho with ⟨result, rfl⟩ | ⟨task, rfl, hslot⟩ | ho
        · exact .inl (by simp [Shared.after, Shared.publish])
        · exact .inr ⟨(system fuel).begin (.task task), List.mem_append_right _ List.mem_cons_self, hslot⟩
        · exact howned ho
      · exact .inr ⟨th₀, hin, ho⟩
  refine ⟨fun key slot hk => ?_, fun th₀ hin slot hk => ?_⟩
  · rcases Shared.inflight_after hk ha with hk | ho
    · exact hpending (h.table key slot hk)
    · exact howned ho
  · rcases hall th₀ hin with hin | rfl | hin
    · exact hpending (h.known th₀ hin slot hk)
    · have hk : slot ∈ (Party.of (A.at_ th')).sight.known := hk
      rw [hnext] at hk
      rcases Shared.mem_known ha (sight_known _ o r ▸ hk) with hk | ⟨key, hkey⟩ | ho
      · exact hpending (h.known th (List.mem_of_getElem? ht) slot hk)
      · exact hpending (h.table key slot hkey)
      · exact howned ho
    · obtain ⟨job, hjob, rfl⟩ := List.mem_map.mp hin
      obtain ⟨task, -, rfl⟩ := List.mem_map.mp hjob
      cases hk

theorem Unlost.step {e : Event} (h : Unlost U fuel c) (hsound : (outline U fuel).Sound c)
    (hs : step fuel c e = some c') : Unlost U fuel c' := by
  cases e with
  | run i x => exact h.resume hsound hs
  | call ctx indexes priority =>
      cases hs
      have hpending {slot : Slot} (hp : Pending U fuel c slot) : Pending U fuel
          ⟨c.shared, c.threads ++ [(system fuel).begin (.schedule ctx indexes priority)]⟩ slot :=
        hp.imp id fun hp => by
          obtain ⟨th, hin, ho⟩ := hp
          exact ⟨th, List.mem_append_left _ hin, ho⟩
      refine ⟨fun key slot hk => hpending (h.table key slot hk), fun th hin slot hk => ?_⟩
      rcases List.mem_append.mp hin with hin | hin
      · exact hpending (h.known th hin slot hk)
      · rw [List.mem_singleton.mp hin] at hk
        cases hk
  | tick n =>
      cases hs
      exact ⟨h.table, h.known⟩
  | overwrite ns object v =>
      cases hs
      exact ⟨h.table, h.known⟩

end Nestor.Callers
