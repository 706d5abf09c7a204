import Nestor.Engine.Lemmas.Duties
import Nestor.Fetch.Lemmas.Rest

/-!
# Nobody waits in vain

A reader that waits for a block waits for a slot in the hands of another thread. That thread is not
waiting for anybody itself, so it can always go on, if only when its timeout comes. So no threads
wait for each other, and an entry does not outlive its owner.
-/

namespace Nestor

open Lib

/-- Every operation but a wait and a hang can be answered once enough time has passed, without
dropping the future; a request or a body of a fetch group with a final answer. -/
theorem respond_in_time (s : Shared) {o : Op} (hwait : ∀ slot, o ≠ .wait slot) (hhang : o ≠ .hang)
    (hget : ∀ keys, o = .blocksGet keys → keys ≠ []) :
    ∃ n x r s' ts, x ≠ .dropped ∧ respond { s with now := s.now + n } o x = some (r, s', ts) ∧
      ∀ k, Rest.guar k o → o.final r = true := by
  have hlate (deadline : Nat) : deadline ≤ s.now + deadline := Nat.le_add_left _ _
  cases o
  case wait slot => exact absurd rfl (hwait slot)
  case hang => exact absurd rfl hhang
  case blocksGet keys =>
    cases keys with
    | nil => exact absurd rfl (hget [] rfl)
    | cons key keys => exact ⟨0, .found 0 none, _, _, _, by simp, rfl, fun _ _ => rfl⟩
  case blocksContains => exact ⟨0, .flag true, _, _, _, by simp, rfl, fun _ _ => rfl⟩
  case sole => exact ⟨0, .flag true, _, _, _, by simp, rfl, fun _ _ => rfl⟩
  case acquire => exact ⟨0, .flag true, _, _, _, by simp, rfl, fun _ _ => rfl⟩
  case hedge => exact ⟨0, .flag true, _, _, _, by simp, rfl, fun _ _ => rfl⟩
  case awaitGet requests hedge deadline =>
    cases requests with
    | nil =>
        exact ⟨deadline, .timeout, _, _, _, by simp, if_pos (hlate deadline), fun _ hne => absurd rfl hne⟩
    | cons request requests =>
        exact ⟨0, .answered 0 none (.error .notFound), _, _, _, by simp, rfl, fun _ _ => rfl⟩
  case awaitHead => exact ⟨0, .described none (.error .notFound), _, _, _, by simp, rfl, fun _ _ => rfl⟩
  case awaitBody body waiting deadline =>
    exact ⟨deadline, .timeout, _, _, _, by simp, if_pos (hlate deadline), fun _ _ => rfl⟩
  case awaitStream deadline =>
    exact ⟨deadline, .timeout, _, _, _, by simp, if_pos (hlate deadline), fun _ _ => rfl⟩
  case sleep until_ => exact ⟨until_, .go, _, _, _, by simp, if_pos (hlate until_), fun _ _ => rfl⟩
  all_goals exact ⟨0, .go, _, _, _, by simp, rfl, fun _ _ => rfl⟩

/-- Time passes, or a thread goes on without being dropped. -/
def Event.Calm : Event → Prop
  | .tick _ => True
  | .run _ x => x ≠ .dropped
  | _ => False

namespace World

section

variable [TagHash] {fuel : Nat} {w : World} {slot : Slot}

/-- The thread can go on when enough time has passed, without being dropped. -/
def CanGo (fuel : Nat) (w : World) (i : Nat) : Prop :=
  ∃ n x w₁ w₂, x ≠ .dropped ∧ step fuel w (.tick n) = some w₁ ∧ step fuel w₁ (.run i x) = some w₂

/-- The thread owes the result of the slot and nobody else does. It has not ended; it can go on,
unless a loop of it has gone round `fuel` times. -/
structure Serves (fuel : Nat) (w : World) (slot : Slot) (i : Nat) (th : Thread Task Op Resp) : Prop where
  thread : w.threads[i]? = some th
  owns : slot ∈ (Duty.of th).owned
  alone : ∀ j th', w.threads[j]? = some th' → slot ∈ (Duty.of th').owned → j = i
  waitless : ∀ slot' k, th.prog ≠ .op (.wait slot') k
  goes : w.CanGo fuel i ∨ fuel ≤ (Duty.of th).turns

theorem canGo_of_respond {i : Nat} {th : Thread Task Op Resp} {o : Op} {k : Resp o → Program Unit}
    {n : Nat} {x : Choice} {out : Resp o × Shared × List Task} (hi : w.threads[i]? = some th)
    (hp : th.prog = .op o k) (hx : x ≠ .dropped)
    (hr : respond { w.shared with now := w.shared.now + n } o x = some out) : w.CanGo fuel i := by
  obtain ⟨task, prog, trace⟩ := th
  obtain rfl : prog = .op o k := hp
  exact ⟨n, x, _, _, hx, rfl, System.resume_eq hi hr⟩

theorem serves_of_owed (h : (duties fuel).Sound w) (ho : w.Owed slot) : ∃ i th, w.Serves fuel slot i th := by
  obtain ⟨th, hmem, hslot⟩ := ho
  obtain ⟨i, hi⟩ := List.mem_iff_getElem?.mp hmem
  obtain ⟨o, k, hp⟩ := unfinished_of_owned h hmem hslot
  obtain ⟨-, hpays⟩ := pays_next h hmem hp
  have hne : (Duty.of th).owned ≠ 0 := fun hzero => Multiset.notMem_zero slot (hzero ▸ hslot)
  have hwaitless : ∀ slot', o ≠ .wait slot' := by
    rintro slot' rfl
    exact hne hpays.2.1
  refine ⟨i, th, hi, hslot, fun j th' hj hslot' => ?_, ?_, ?_⟩
  · by_contra hji
    obtain ⟨hlti, hgeti⟩ := List.getElem?_eq_some_iff.mp hi
    obtain ⟨hltj, hgetj⟩ := List.getElem?_eq_some_iff.mp hj
    have hapart := List.pairwise_iff_getElem.mp h.apart
    rcases Nat.lt_or_gt_of_ne hji with hlt | hlt
    · have hji := (hapart j i hltj hlti hlt).1
      rw [hgeti, hgetj, duties_at, duties_at] at hji
      exact hji slot hslot' hslot
    · have hij := (hapart i j hlti hltj hlt).1
      rw [hgeti, hgetj, duties_at, duties_at] at hij
      exact hij slot hslot hslot'
  · rintro slot' k' heq
    cases hp.symm.trans heq
    exact hwaitless slot' rfl
  · by_cases hhang : o = .hang
    · subst hhang
      exact .inr (hpays.2.resolve_left hne)
    · obtain ⟨n, x, r, s, ts, hx, hr, -⟩ :=
        respond_in_time w.shared hwaitless hhang (by rintro keys rfl; exact hpays.2.1)
      exact .inl (canGo_of_respond hi hp hx hr)

/-! ## Every wait can end -/

/-- By calm events alone a world can be reached in which the slot has its result. -/
def Answerable (fuel : Nat) (w : World) (slot : Slot) : Prop :=
  ∃ es w', (∀ e ∈ es, e.Calm) ∧ runEvents (step fuel) w es = some w' ∧ w'.shared.channels slot ≠ none

theorem Answerable.of_step {w' : World} {e : Event} (he : e.Calm) (hs : step fuel w e = some w')
    (h : w'.Answerable fuel slot) : w.Answerable fuel slot := by
  obtain ⟨es, w'', hes, hrun, hend⟩ := h
  refine ⟨e :: es, w'', List.forall_mem_cons.mpr ⟨he, hes⟩, ?_, hend⟩
  rw [runEvents, hs]
  exact hrun

/-- A thread that owes the slot does its next operation; afterwards the slot has its result, or the
thread or a task it has started owes it. -/
theorem answerable_of_next {i : Nat} {t : Task} {o : Op} {k : Resp o → Program Unit} {tr : Trace}
    (h : (duties fuel).Sound w) (hi : w.threads[i]? = some ⟨t, .op o k, tr⟩)
    (hslot : slot ∈ (Duty.of ⟨t, .op o k, tr⟩).owned) (hhang : o ≠ .hang)
    (hnext : ∀ (w' : World) r, (duties fuel).Sound w' → w'.threads[i]? = some ⟨t, k r, tr ++ [⟨o, r⟩]⟩ →
      slot ∈ (Duty.of ⟨t, k r, tr ++ [⟨o, r⟩]⟩).owned → (∀ n, Rest.guar n o → o.final r = true) →
      w'.Answerable fuel slot)
    (hspawn : ∀ (w' : World) (j : Nat) task, (duties fuel).Sound w' → o = .spawn task →
      w'.threads[j]? = some ((system fuel).begin task) → slot ∈ task.slots → w'.Answerable fuel slot) :
    w.Answerable fuel slot := by
  have hmem := List.mem_of_getElem? hi
  obtain ⟨-, hpays⟩ := pays_next h hmem rfl
  have hwaitless : ∀ slot', o ≠ .wait slot' := by
    rintro slot' rfl
    exact Multiset.notMem_zero slot (hpays.2.1 ▸ hslot)
  obtain ⟨n, x, r, s, ts, hx, hr, hfinal⟩ :=
    respond_in_time w.shared hwaitless hhang (by rintro keys rfl; exact hpays.2.1)
  have hrun : step fuel ⟨{ w.shared with now := w.shared.now + n }, w.threads⟩ (.run i x) = some _ :=
    System.resume_eq hi hr
  refine .of_step (e := .tick n) trivial rfl (.of_step (e := .run i x) hx hrun ?_)
  have h₂ := duties_step (e := .run i x) (duties_step (e := .tick n) h rfl) hrun
  obtain ⟨rfl, rfl, -⟩ := respond_spec hr
  obtain ⟨hlt, -⟩ := List.getElem?_eq_some_iff.mp hi
  have hv := (h.threads _ hmem).view
  rw [duties_at] at hv
  obtain ⟨result, rfl⟩ | ⟨task, rfl, hin⟩ | hstays := Op.mem_owned r hv.nodup hslot
  · refine ⟨[], _, nofun, rfl, ?_⟩
    simp [Shared.after, Shared.publish]
  · refine hspawn _ w.threads.length task h₂ rfl ?_ hin
    simp [Op.tasks]
  · refine hnext _ r h₂ ?_ (duty_owned ▸ hstays) hfinal
    rw [List.getElem?_append_left (by rwa [List.length_set]), List.getElem?_set_self hlt]

section

variable {t : Task} {ctx : ReadCtx} {slots : List Slot} {priority : Priority} {initial : Option GetResponse}
    (ht : t = .fetchGroup ctx slots priority initial) {p : Program Unit} {tr : Trace}

include ht

/-- A fetch group waits at most twice more if its answers are final from now on. -/
theorem group_rests {s : Shared} (h : (duties fuel).ThreadSound s ⟨t, p, tr⟩) :
    Rest.spec.ghost 0 tr ≤ 2 ∧ wp Rest.spec p (fun _ _ => True) (Rest.spec.ghost 0 tr) := by
  have hruns := h.runs
  rw [ht] at hruns
  obtain ⟨hkept, hwp⟩ := wp_runs Rest.fetchGroup_wp hruns (h.relied.imp (fun _ _ _ _ _ => trivial) 0)
  exact ⟨hkept.invariant (fun _ _ _ => Rest.after_le) (Nat.zero_le 2), hwp⟩

/-- Its turns count against its rounds only as far as its waits do. -/
theorem answerable_of_group {i : Nat} (h : (duties fuel).Sound w) (hi : w.threads[i]? = some ⟨t, p, tr⟩)
    (hslot : slot ∈ (Duty.of ⟨t, p, tr⟩).owned)
    (hturns : (Duty.of ⟨t, p, tr⟩).turns + 2 < fuel + Rest.spec.ghost 0 tr) : w.Answerable fuel slot := by
  induction p generalizing w tr with
  | pure u =>
      obtain ⟨o, k, hp⟩ := unfinished_of_owned h (List.mem_of_getElem? hi) hslot
      cases hp
  | op o k ih =>
      have hth := h.threads _ (List.mem_of_getElem? hi)
      obtain ⟨hle, hguar, -⟩ := group_rests ht hth
      refine answerable_of_next h hi hslot ?_ (fun w' r h' hi' hslot' hfinal => ih r h' hi' hslot' ?_)
        fun w' j task _ hspawn _ _ => ?_
      · rintro rfl
        obtain ⟨-, -, hzero | hlong⟩ := pays_next h (List.mem_of_getElem? hi) rfl
        · exact Multiset.notMem_zero slot (hzero ▸ hslot)
        · omega
      · have hghost : Rest.spec.ghost 0 (tr ++ [⟨o, r⟩]) = Rest.spec.ghost 0 tr + o.turns r :=
          (Spec.ghost_snoc ..).trans (if_pos (hfinal _ hguar))
        have hduty : (Duty.of ⟨t, k r, tr ++ [⟨o, r⟩]⟩).turns = (Duty.of ⟨t, .op o k, tr⟩).turns +
            o.turns r := by
          rw [duty_snoc]
          rfl
        omega
      · subst hspawn
        exact hguar.elim

end

/-- A task that is no fetch group never gives up while it owes something, so the tree of its program
bounds its way to the fetch group it hands the slot to. -/
theorem answerable_of_caller {t : Task} (hproper : t.Proper) (hgroup : t.isGroup = false) (hfuel : 2 < fuel)
    {i : Nat} {p : Program Unit} {tr : Trace} (h : (duties fuel).Sound w)
    (hi : w.threads[i]? = some ⟨t, p, tr⟩) (hslot : slot ∈ (Duty.of ⟨t, p, tr⟩).owned) :
    w.Answerable fuel slot := by
  induction p generalizing w tr with
  | pure u =>
      obtain ⟨o, k, hp⟩ := unfinished_of_owned h (List.mem_of_getElem? hi) hslot
      cases hp
  | op o k ih =>
      refine answerable_of_next h hi hslot ?_ (fun w' r h' hi' hslot' _ => ih r h' hi' hslot')
        fun w' j task h' _ hj hin => ?_
      · rintro rfl
        have hth := h.threads _ (List.mem_of_getElem? hi)
        -- the contract holds for any number of rounds, also for one more than there were
        have hwp : wp (Duty.spec ((Duty.of ⟨t, .op .hang k, tr⟩).turns + 1) t.home) (program fuel t)
            _ (.start t) :=
          Duty.program_wp hproper (by simp [hgroup])
        obtain ⟨-, ⟨-, -, hzero | hlong⟩, -⟩ :=
          wp_runs hwp hth.runs (hth.relied.imp (fun _ _ _ _ hr => hr.1) _)
        · exact Multiset.notMem_zero slot (hzero ▸ hslot)
        · exact absurd hlong (Nat.not_succ_le_self _)
      · cases task with
        | fetchGroup ctx slots priority initial =>
            exact answerable_of_group rfl h' hj hin (Nat.lt_of_lt_of_le hfuel (Nat.le_add_right _ _))
        | _ => cases hin

/-! ## The length of a run -/

omit [TagHash] in
theorem turns_le_length (th : Thread Task Op Resp) : (Duty.of th).turns ≤ th.trace.length := by
  have hfold (d : Duty) (tr : Trace) : (tr.foldl (fun d done => d.after done.1 done.2) d).turns ≤
      d.turns + tr.length := by
    induction tr generalizing d with
    | nil => exact Nat.le_refl _
    | cons done tr ih =>
        have hone := Op.turns_le done.2
        have hturns : (d.after done.1 done.2).turns = d.turns + done.1.turns done.2 := rfl
        have := ih (d.after done.1 done.2)
        rw [List.foldl_cons, List.length_cons]
        omega
  exact (hfold _ _).trans_eq (Nat.zero_add _)

/-- A thread does at most one operation with every event. -/
structure Paced (fuel : Nat) (es : List Event) (w : World) : Prop where
  sound : (duties fuel).Sound w
  threads : ∀ th ∈ w.threads, th.task.Proper ∧ th.trace.length ≤ es.length

theorem Paced.step {es : List Event} {e : Event} {w' : World} (h : Paced fuel es w)
    (hs : step fuel w e = some w') :
    Paced fuel (es ++ [e]) w' := by
  refine ⟨duties_step h.sound hs, fun th hth => ?_⟩
  rw [List.length_append]
  obtain ⟨j, hj⟩ := List.mem_iff_getElem?.mp hth
  obtain hold | ⟨o, k, r, tr, hold, heq, -⟩ | ⟨i, t, task, k, tr, hi, rfl⟩ | ⟨id, c, ns, -, -, -, rfl⟩ :=
    step_origin hs hj
  · exact (h.threads th (List.mem_of_getElem? hold)).imp_right Nat.le_succ_of_le
  · obtain ⟨hproper, hle⟩ := h.threads _ (List.mem_of_getElem? hold)
    rw [heq]
    exact ⟨hproper, by simpa using hle⟩
  · exact ⟨(pays_next h.sound (List.mem_of_getElem? hi) rfl).1.2.1, Nat.zero_le _⟩
  · exact ⟨(call_proper ns c).1, Nat.zero_le _⟩

theorem paced_run {es : List Event} (h : runEvents (step fuel) init es = some w) : Paced fuel es w := by
  have hrun : Run (World.step fuel) (fun _ _ => True) init es w := .of_events h fun _ _ _ => trivial
  have hinit : Paced fuel [] init := ⟨duties_init, List.forall_mem_nil _⟩
  exact hrun.invariant_events (fun _ _ _ _ hi _ hs => hi.step hs) hinit

/-- In every world that can be reached, a thread that waits for a block that has not come yet waits
for one other thread, which waits for nobody and can go on when time passes; and from there on the
block can come without any further call, before a loop has gone round more than twice more than
there were events. -/
theorem waits_served {es : List Event} (h : runEvents (step fuel) init es = some w)
    (hfuel : es.length + 2 < fuel) {i : Nat} {th : Thread Task Op Resp} {k : Resp (.wait slot) → Program Unit}
    (hi : w.threads[i]? = some th) (hwait : th.prog = .op (.wait slot) k)
    (hnone : w.shared.channels slot = none) :
    (∃ j th', j ≠ i ∧ w.Serves fuel slot j th' ∧ w.CanGo fuel j) ∧ w.Answerable fuel slot := by
  obtain ⟨hsound, hcovered⟩ := duties_run h
  have hmem := List.mem_of_getElem? hi
  obtain ⟨-, -, howned, hknown⟩ := pays_next hsound hmem hwait
  obtain ⟨j, th', hserves⟩ := serves_of_owed hsound ((hcovered.known th hmem slot hknown).resolve_left
    (absurd hnone))
  obtain ⟨hproper, hlength⟩ := (paced_run h).threads th' (List.mem_of_getElem? hserves.thread)
  have hturns := turns_le_length th'
  refine ⟨⟨j, th', ?_, hserves, hserves.goes.resolve_right (by omega)⟩, ?_⟩
  · rintro rfl
    cases hi.symm.trans hserves.thread
    exact absurd (howned ▸ hserves.owns) (Multiset.notMem_zero slot)
  · obtain ⟨t, p, tr⟩ := th'
    cases t with
    | fetchGroup ctx slots priority initial =>
        exact answerable_of_group rfl hsound hserves.thread hserves.owns (by omega)
    | _ => exact answerable_of_caller hproper rfl (by omega) hsound hserves.thread hserves.owns

end

open Sample

/-- A read of an immutable object registers its block, starts a fetch group and waits. -/
def waitingEvents : List Event :=
  [.register [97] { NamespaceConfig.default with consistency := .immutable, readahead := 0 },
    .call 0 (.get [111] (.bounded ⟨0, 1⟩) FetchPolicy.default), .run 0 .go, .run 0 .go, .run 0 .go,
    .run 0 (.found 0 none), .run 0 .go, .run 0 (.found 0 none), .run 0 .go]

/-- The slot the thread waits for. -/
def waitsFor (th : Thread Task Op Resp) : Option Slot :=
  match th.prog with
  | .op (.wait slot) _ => some slot
  | _ => none

theorem eq_wait_of_waitsFor {th : Thread Task Op Resp} {slot : Slot} (h : waitsFor th = some slot) :
    ∃ k, th.prog = .op (.wait slot) k := by
  unfold waitsFor at h
  split at h
  · rename_i k hp
    cases h
    exact ⟨k, hp⟩
  · cases h

theorem waits_served_first_read : ∃ (w : World) (th : Thread Task Op Resp) (slot : Slot),
    runEvents (step 12) init waitingEvents = some w ∧ w.threads[0]? = some th ∧ waitsFor th = some slot ∧
    w.shared.channels slot = none ∧ (∃ j th', j ≠ 0 ∧ w.Serves 12 slot j th' ∧ w.CanGo 12 j) ∧
    w.Answerable 12 slot := by
  obtain ⟨w, hw, th, hth, slot, hslot, hnone⟩ : ∃ w ∈ runEvents (step 12) init waitingEvents,
      ∃ th ∈ w.threads[0]?, ∃ slot ∈ waitsFor th, w.shared.channels slot = none := by
    decide
  obtain ⟨k, hk⟩ := eq_wait_of_waitsFor hslot
  exact ⟨w, th, slot, hw, hth, hslot, hnone, waits_served hw (by decide) hth hk hnone⟩

/-- An entry of the table of fetches in flight is there for a slot without a result, which one
thread owns that has not ended and can go on. So when all threads have ended, the table is empty. -/
theorem entries_served [TagHash] {fuel : Nat} {es : List Event} {w : World}
    (h : runEvents (step fuel) init es = some w) {key : BlockKey} {slot : Slot}
    (hentry : w.shared.inflight key = some slot) :
    slot.key = key ∧ w.shared.channels slot = none ∧ ∃ i th, w.Serves fuel slot i th ∧
    ∃ o k, th.prog = .op o k := by
  obtain ⟨hsound, hcovered⟩ := duties_run h
  obtain ⟨i, th, hserves⟩ := serves_of_owed hsound (hcovered.table key slot hentry)
  exact ⟨hsound.inv.key key slot hentry, hsound.inv.pending key slot hentry, i, th, hserves,
    unfinished_of_owned hsound (List.mem_of_getElem? hserves.thread) hserves.owns⟩

theorem entries_served_first_read :
    ∃ (w : World) (slot : Slot), runEvents (step 3) init waitingEvents = some w ∧
    w.shared.inflight ⟨0, immutableTag, 0, [111]⟩ = some slot ∧ ∃ i th, w.Serves 3 slot i th := by
  obtain ⟨w, hw, slot, hslot, -⟩ : ∃ w ∈ runEvents (step 3) init waitingEvents,
      ∃ slot ∈ w.shared.inflight ⟨0, immutableTag, 0, [111]⟩, True := by
    decide
  obtain ⟨-, -, i, th, hserves, -⟩ := entries_served hw hslot
  exact ⟨w, slot, hw, hslot, i, th, hserves⟩

end World

end Nestor
