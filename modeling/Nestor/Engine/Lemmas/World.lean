import Nestor.Engine.Lemmas.Calls
import Nestor.Engine.World
import Nestor.Lib.Runs

/-!
# What the world does, and what it keeps

`Shared.after` and `Shared.Answers` say once what an operation does to the shared state and what its
answer tells of it. A shared state is lawful if the caches and the channels hold what the law
allows; tasks that keep their contract keep it so.
-/

namespace Nestor

open Lib

variable {task : Task} {x : Choice} {object ns : Bytes} {key : ObjectKey} {i : Nat}

namespace Shared

/-- The shared state after an operation; the environment's choice has no part in it. -/
def after (s : Shared) : Op → Shared
  | .metaPut key m => s.putMeta key m
  | .metaRemove key => s.removeMeta key
  | .readaheadObserve key range => (s.observe key range).2
  | .readaheadForget key => { s with lastEnd := Function.update s.lastEnd key none }
  | .blocksInsert key block => s.insertBlock key block
  | .blocksRemove key => s.removeBlock key
  | .register key => (s.register key).2
  | .unregister key => s.unregister key
  | .publish slot result => s.publish slot result
  | .put ns object v => s.setVersion ns object (some v)
  | _ => s

/-- What an answer tells of the shared state. -/
def Answers (s : Shared) : (o : Op) → Resp o → Prop
  | .clock, now => now = s.now
  | .metaLookup key ttl, found => found = s.lookupMeta key ttl
  | .metaAny key, found => found = (s.metas key).map (·.meta)
  | .blocksGet keys, .ready (i, some block) => ∃ key, keys[i]? = some key ∧ (key, block) ∈ s.blocks
  | .register key, registration => registration = (s.register key).1
  | .wait slot, result => s.channels slot = some result
  | .sendGet ns object options, req => req = ⟨ns, object, options, (s.history ns object).length⟩
  | .hedge primary, some req =>
      req = { primary with since := (s.history primary.namespace primary.object).length }
  | .sendHead ns object, req => req = ⟨ns, object, (s.history ns object).length⟩
  | .awaitGet requests _ _, .ready (.answered i result) =>
      ∃ req v, requests[i]? = some req ∧ s.answers req v result
  | .awaitGet _ hedge _, .ready .stalled => hedge
  | .awaitHead req _, .ready result => ∃ v, s.describes req v result
  | .awaitBody b waiting _, .ready ev => b.expects waiting ev ∧ ∃ v, s.backs b.ctx v ev
  | _, _ => True

end Shared

def Op.tasks : Op → List Task
  | .spawn task => [task]
  | _ => []

theorem Op.eq_spawn {o : Op} (h : task ∈ o.tasks) : o = .spawn task := by
  cases o
  case spawn task' => rw [List.mem_singleton.mp h]
  all_goals cases h

theorem Op.pairwise_tasks (o : Op) {R : Task → Task → Prop} : o.tasks.Pairwise R := by
  cases o
  case spawn task => exact List.pairwise_singleton R task
  all_goals exact .nil

theorem respond_spec {s s' : Shared} {o : Op} {r : Resp o} {ts : List Task}
    (h : respond s o x = some (r, s', ts)) : s' = s.after o ∧ ts = o.tasks ∧ s.Answers o r := by
  cases o <;> cases x <;> first | (cases h; done) | skip
  case blocksGet.found keys i block =>
    simp only [respond] at h
    split at h
    · cases h
      exact ⟨rfl, rfl, trivial⟩
    · rename_i key block hkey
      split at h
      · cases h
        exact ⟨rfl, rfl, key, hkey, ‹_›⟩
      · cases h
    · cases h
  case wait.go slot =>
    obtain ⟨result, hc, heq⟩ := Option.map_eq_some_iff.mp h
    cases heq
    exact ⟨rfl, rfl, hc⟩
  case hedge.flag primary permit =>
    cases permit <;> cases h
    · exact ⟨rfl, rfl, trivial⟩
    · exact ⟨rfl, rfl, rfl⟩
  case awaitGet.answered requests _ _ i v result =>
    simp only [respond] at h
    split at h
    · rename_i req hreq
      split at h
      · cases h
        exact ⟨rfl, rfl, req, v, hreq, ‹_›⟩
      · cases h
    · cases h
  case awaitGet.stalled requests hedge _ =>
    simp only [respond] at h
    split at h
    · cases h
      exact ⟨rfl, rfl, ‹_›⟩
    · cases h
  case awaitHead.described req _ v result =>
    simp only [respond] at h
    split at h
    · cases h
      exact ⟨rfl, rfl, v, ‹_›⟩
    · cases h
  case awaitBody.body b waiting _ v ev =>
    simp only [respond] at h
    split at h
    · rename_i hev
      cases h
      rw [Bool.and_eq_true] at hev
      exact ⟨rfl, rfl, hev.1, v, hev.2⟩
    · cases h
  case awaitGet.timeout | awaitHead.timeout | awaitBody.timeout | awaitStream.timeout | sleep.go =>
    simp only [respond] at h
    split at h
    · cases h
      exact ⟨rfl, rfl, trivial⟩
    · cases h
  all_goals
    cases h
    exact ⟨rfl, rfl, by first | rfl | trivial⟩

namespace Shared

/-- The operations of a trace, done one after the other. -/
inductive Does : Shared → Trace → Shared → Prop
  | nil {s} : Does s [] s
  | cons {s s' s'' tr o r x tasks} : respond s o x = some (r, s', tasks) → Does s' tr s'' →
      Does s (⟨o, r⟩ :: tr) s''

variable {s s' : Shared} {tr tr' : Trace}

theorem Does.of_cons {o : Op} {r : Resp o} (h : s.Does (⟨o, r⟩ :: tr) s') :
    s.Answers o r ∧ (s.after o).Does tr s' := by
  cases h with
  | cons hr h =>
      obtain ⟨rfl, -, hans⟩ := respond_spec hr
      exact ⟨hans, h⟩

theorem Does.of_append (h : s.Does (tr ++ tr') s') : ∃ s₁, s.Does tr s₁ ∧ s₁.Does tr' s' := by
  induction tr generalizing s with
  | nil => exact ⟨s, .nil, h⟩
  | cons d tr ih =>
      cases h with
      | cons hr h =>
          obtain ⟨s₁, h₁, h₂⟩ := ih h
          exact ⟨s₁, .cons hr h₁, h₂⟩

theorem Does.append {s₁ : Shared} (h : s.Does tr s₁) (h' : s₁.Does tr' s') : s.Does (tr ++ tr') s' := by
  induction h with
  | nil => exact h'
  | cons hr _ ih => exact .cons hr (ih h')

end Shared

/-- The task is a read of the range. -/
def Task.reads (ns : NamespaceState) (object : Bytes) (request : ReadRange) : Task → Bool
  | .get ns' object' request' _ => decide (ns' = ns ∧ object' = object ∧ request' = request)
  | _ => false

theorem Task.reads_iff {ns : NamespaceState} {request : ReadRange} :
    task.reads ns object request = true ↔ ∃ policy, task = .get ns object request policy := by
  unfold reads
  cases task <;> simp

theorem update_eq_some {α β : Type} [DecidableEq α] {f : α → Option β} {a a' : α} {b : Option β} {c : β}
    (h : Function.update f a b a' = some c) : a' = a ∧ b = some c ∨ a' ≠ a ∧ f a' = some c := by
  by_cases ha : a' = a
  · subst a'
    rw [Function.update_self] at h
    exact .inl ⟨rfl, h⟩
  · rw [Function.update_of_ne ha] at h
    exact .inr ⟨ha, h⟩

theorem Shared.history_setVersion (s : Shared) (ns object ns' object' : Bytes) (v : Option Version) :
    ns' = ns ∧ object' = object ∧ (s.setVersion ns object v).history ns' object' =
      v :: s.history ns' object' ∨ (s.setVersion ns object v).history ns' object' =
        s.history ns' object' := by
  simp only [setVersion]
  by_cases hn : ns' = ns
  · subst ns'
    rw [Function.update_self]
    by_cases ho : object' = object
    · subst object'
      exact .inl ⟨rfl, rfl, Function.update_self ..⟩
    · exact .inr (Function.update_of_ne ho ..)
  · rw [Function.update_of_ne hn]
    exact .inr rfl

theorem Shared.mem_setVersion {s : Shared} {ns' object' : Bytes} {v v' : Option Version}
    (h : v' ∈ (s.setVersion ns object v).history ns' object') :
    ns' = ns ∧ object' = object ∧ v' = v ∨ v' ∈ s.history ns' object' := by
  obtain ⟨hns, hobject, heq⟩ | heq := s.history_setVersion ns object ns' object' v
  · rw [heq, List.mem_cons] at h
    exact h.imp (⟨hns, hobject, ·⟩) fun h => h
  · rw [heq] at h
    exact .inr h

theorem Shared.suffix_setVersion (s : Shared) (ns object ns' object' : Bytes) (v : Option Version) :
    s.history ns' object' <:+ (s.setVersion ns object v).history ns' object' := by
  obtain ⟨-, -, heq⟩ | heq := s.history_setVersion ns object ns' object' v
  · exact heq ▸ List.suffix_cons v _
  · exact heq ▸ List.suffix_rfl

theorem Shared.after_frame (s : Shared) (o : Op) :
    (s.after o).now = s.now ∧ (s.after o).registry = s.registry ∧ (s.after o).registered = s.registered := by
  cases o
  case register key =>
    simp only [after, register]
    cases s.inflight key <;> exact ⟨rfl, rfl, rfl⟩
  all_goals exact ⟨rfl, rfl, rfl⟩

/-- The origin's versions are never forgotten. -/
theorem Shared.suffix_after (s : Shared) (o : Op) (ns object : Bytes) :
    s.history ns object <:+ (s.after o).history ns object := by
  cases o
  case put ns' object' v => exact s.suffix_setVersion ns' object' ns object (some v)
  case register key =>
    simp only [after, register]
    cases s.inflight key <;> exact List.suffix_rfl
  all_goals exact List.suffix_rfl

theorem Shared.after_metas {s : Shared} {o : Op} {entry : MetaEntry}
    (h : (s.after o).metas key = some entry) :
    s.metas key = some entry ∨ o = .metaPut key entry.meta ∧ entry.at = s.now := by
  cases o
  case metaPut key' m =>
    obtain ⟨rfl, heq⟩ | ⟨-, h⟩ := update_eq_some h
    · cases heq
      exact .inr ⟨rfl, rfl⟩
    · exact .inl h
  case metaRemove key' =>
    obtain ⟨-, hnone⟩ | ⟨-, h⟩ := update_eq_some h
    · cases hnone
    · exact .inl h
  case register key' =>
    simp only [after, register] at h
    cases hi : s.inflight key' <;> rw [hi] at h <;> exact .inl h
  all_goals exact .inl h

theorem Shared.entry_of_lookupMeta {s : Shared} {ttl : Option Nat} {m : ObjectMeta}
    (hm : s.lookupMeta key ttl = .fresh m ∨ s.lookupMeta key ttl = .stale m) :
    ∃ entry, s.metas key = some entry ∧ entry.meta = m := by
  unfold lookupMeta at hm
  cases he : s.metas key with
  | none => simp [he] at hm
  | some entry =>
      refine ⟨entry, rfl, ?_⟩
      cases ttl with
      | none => simpa [he] using hm
      | some ttl =>
          simp only [he] at hm
          split at hm <;> simpa using hm

section

variable [TagHash]

/-- The caches, the channels and the origins hold what the law allows. -/
structure Law.Lawful (L : Law) (s : Shared) : Prop where
  spaces : ∀ ns ∈ s.registry.states, L.Knows ns
  metas : ∀ key entry, s.metas key = some entry → L.Describes key entry.meta
  blocks : ∀ key block, (key, block) ∈ s.blocks → L.Fit key block
  inflight : ∀ key slot, s.inflight key = some slot → slot.key = key
  channels : ∀ slot block, s.channels slot = some (.ok block) → L.Fit slot.key block
  history : ∀ ns object v, some v ∈ s.history ns object → L.versions ns object v

/-- The terms of the tasks of an engine under a law. -/
def Law.terms (L : Law) : Terms := ⟨L, fun _ => False, 0, True⟩

theorem Law.terms_running (L : Law) : L.terms.Running := ⟨trivial, fun _ => id, rfl⟩

variable {L : Law} {s : Shared} {g : Held} {o : Op} {r : Resp o}

namespace Law.Lawful

theorem setVersion (h : L.Lawful s) {v : Option Version}
    (hv : ∀ w, v = some w → L.versions ns object w) : L.Lawful (s.setVersion ns object v) := by
  refine { h with history := fun ns' object' w hw => ?_ }
  obtain ⟨rfl, rfl, heq⟩ | hw := Shared.mem_setVersion hw
  · exact hv w heq.symm
  · exact h.history ns' object' w hw

theorem removeMeta (h : L.Lawful s) (key : ObjectKey) : L.Lawful (s.removeMeta key) := by
  refine { h with metas := fun key' entry he => ?_ }
  obtain ⟨-, hnone⟩ | ⟨-, he⟩ := update_eq_some he
  · cases hnone
  · exact h.metas key' entry he

theorem after (h : L.Lawful s) (hg : L.terms.guar g o) : L.Lawful (s.after o) := by
  cases o
  case metaPut key m =>
    refine { h with metas := fun key' entry he => ?_ }
    obtain ⟨rfl, heq⟩ | ⟨-, he⟩ := update_eq_some he
    · cases heq
      exact hg.1
    · exact h.metas key' entry he
  case metaRemove key => exact h.removeMeta key
  case blocksInsert key block =>
    refine { h with blocks := fun key' block' hb => ?_ }
    rcases List.mem_cons.mp hb with heq | hb
    · cases heq
      exact L.fit_of_exact hg
    · exact h.blocks key' block' hb
  case blocksRemove key =>
    exact { h with blocks := fun key' block' hb => h.blocks key' block' (List.mem_filter.mp hb).1 }
  case register key =>
    simp only [Shared.after, Shared.register]
    cases hi : s.inflight key with
    | some slot => exact h
    | none =>
        refine { h with inflight := fun key' slot hs => ?_ }
        obtain ⟨rfl, heq⟩ | ⟨-, hs⟩ := update_eq_some hs
        · cases heq
          rfl
        · exact h.inflight key' slot hs
  case unregister key =>
    refine { h with inflight := fun key' slot hs => ?_ }
    obtain ⟨-, hnone⟩ | ⟨-, hs⟩ := update_eq_some hs
    · cases hnone
    · exact h.inflight key' slot hs
  case publish slot result =>
    refine { h with channels := fun slot' block hb => ?_ }
    obtain ⟨rfl, heq⟩ | ⟨-, hb⟩ := update_eq_some hb
    · exact hg.2 block (Option.some.inj heq)
    · exact h.channels slot' block hb
  case put ns object v =>
    refine h.setVersion fun w hw => ?_
    cases hw
    exact hg
  case readaheadObserve key range => exact { h with }
  case readaheadForget key => exact { h with }
  all_goals exact h

theorem lookupMeta (h : L.Lawful s) {ttl : Option Nat} {m : ObjectMeta}
    (hm : s.lookupMeta key ttl = .fresh m ∨ s.lookupMeta key ttl = .stale m) : L.Describes key m := by
  obtain ⟨entry, hentry, rfl⟩ := Shared.entry_of_lookupMeta hm
  exact h.metas key entry hentry

theorem currentSince (h : L.Lawful s) {since : Nat} {v : Version}
    (hv : some v ∈ s.currentSince ns object since) : L.versions ns object v :=
  h.history ns object v (List.mem_of_mem_take hv)

theorem rely (h : L.Lawful s) (ha : s.Answers o r) : L.terms.rely o r := by
  cases o
  case metaLookup key ttl =>
    cases r with
    | fresh m => exact h.lookupMeta (.inl ha.symm)
    | stale m => exact h.lookupMeta (.inr ha.symm)
    | missing => trivial
  case metaAny key =>
    cases r with
    | none => trivial
    | some m =>
        obtain ⟨entry, he, rfl⟩ := Option.map_eq_some_iff.mp ha.symm
        exact h.metas key entry he
  case blocksGet keys =>
    rcases r with ⟨i, _ | block⟩ | _ | _
    case ready.some =>
      obtain ⟨key, hkey, hb⟩ := ha
      exact ⟨key, hkey, h.blocks key block hb⟩
    all_goals trivial
  case register key =>
    obtain rfl : r = (s.register key).1 := ha
    unfold Shared.register
    cases hi : s.inflight key with
    | some slot => exact h.inflight key slot hi
    | none => exact ⟨rfl, id⟩
  case wait slot =>
    cases r with
    | ok block => exact h.channels slot block ha
    | error e => trivial
  case sendGet ns object options =>
    obtain rfl : r = _ := ha
    exact ⟨rfl, rfl, rfl⟩
  case hedge primary =>
    cases r with
    | none => trivial
    | some req =>
        obtain rfl : req = _ := ha
        exact ⟨rfl, rfl, rfl⟩
  case sendHead ns object =>
    obtain rfl : r = _ := ha
    exact ⟨rfl, rfl⟩
  case awaitGet requests hedge deadline =>
    rcases r with (⟨i, e | response⟩ | _) | _ | _
    case ready.answered.ok =>
      obtain ⟨req, v, hreq, hans⟩ := ha
      cases v with
      | none => cases hans
      | some v =>
          simp only [Shared.answers, Option.any_some, Bool.and_eq_true, decide_eq_true_eq] at hans
          exact ⟨req, v, hreq, h.currentSince hans.1.1.1, hans.1.1.2⟩
    case ready.stalled => exact ha
    all_goals trivial
  case awaitHead req deadline =>
    rcases r with (e | m) | _ | _
    case ready.ok =>
      obtain ⟨v, hans⟩ := ha
      cases v with
      | none => cases hans
      | some v =>
          simp only [Shared.describes, Option.any_some, Bool.and_eq_true, decide_eq_true_eq] at hans
          exact ⟨v, h.currentSince hans.1, hans.2⟩
    all_goals trivial
  case awaitBody b waiting deadline =>
    cases r with
    | ready ev =>
        obtain ⟨hexpects, v, hbacks⟩ := ha
        refine ⟨hexpects, ?_⟩
        rintro response rfl
        cases v with
        | none => cases hbacks
        | some v =>
            simp only [Shared.backs, Option.any_some, Bool.and_eq_true, decide_eq_true_eq] at hbacks
            exact ⟨v, h.history _ _ v hbacks.1, hbacks.2⟩
    | timeout => trivial
    | dropped => trivial
  all_goals trivial

end Law.Lawful

/-! ## What one event does -/

namespace World

variable {fuel : Nat} {w w' : World} {e : Event} {es : List Event}

theorem step_run (hs : step fuel w (.run i x) = some w') :
    ∃ t o k tr r, w.threads[i]? = some ⟨t, .op o k, tr⟩ ∧ w.shared.Answers o r ∧
      w' =
        ⟨w.shared.after o, w.threads.set i ⟨t, k r, tr ++ [⟨o, r⟩]⟩ ++ o.tasks.map (system fuel).begin⟩ := by
  obtain ⟨t, o, k, tr, r, s, ts, hi, hresp, rfl⟩ := System.resume_cases hs
  obtain ⟨rfl, rfl, hans⟩ := respond_spec hresp
  exact ⟨t, o, k, tr, r, hi, hans, rfl⟩

theorem step_call {id : NamespaceId} {c : Call} (hs : step fuel w (.call id c) = some w') :
    ∃ ns, w.shared.registry.states[id]? = some ns ∧
      w' = ⟨w.shared.noteInsert ns.name c, w.threads ++ [(system fuel).begin (c.task ns)]⟩ := by
  simp only [step] at hs
  split at hs
  · rename_i ns hns
    cases hs
    exact ⟨ns, hns, rfl⟩
  · cases hs

theorem step_origin {j : Nat} {th : Thread Task Op Resp} (hs : step fuel w e = some w')
    (hj : w'.threads[j]? = some th) :
    w.threads[j]? = some th ∨
    (∃ o k r tr, w.threads[j]? = some ⟨th.task, .op o k, tr⟩ ∧ th = ⟨th.task, k r, tr ++ [⟨o, r⟩]⟩ ∧
      w.shared.Answers o r ∧ w'.shared = w.shared.after o) ∨
    (∃ (i : Nat) (t task : Task) (k : Unit → Program Unit) (tr : Trace),
      w.threads[i]? = some ⟨t, .op (.spawn task) k, tr⟩ ∧ th = (system fuel).begin task) ∨
    ∃ id c ns, e = .call id c ∧ w.shared.registry.states[id]? = some ns ∧ j = w.threads.length ∧
      th = (system fuel).begin (c.task ns) := by
  cases e with
  | run i x =>
      obtain ⟨t, o, k, tr, r, hi, hans, rfl⟩ := step_run hs
      have hlt := (List.getElem?_eq_some_iff.mp hi).1
      rw [List.getElem?_append] at hj
      split at hj
      · rw [List.getElem?_set] at hj
        split at hj
        · rename_i hij
          subst hij
          obtain rfl := Option.some.inj hj
          exact .inr (.inl ⟨o, k, r, tr, hi, rfl, hans, rfl⟩)
        · exact .inl hj
      · obtain ⟨task, htask, rfl⟩ := List.mem_map.mp (List.mem_of_getElem? hj)
        obtain rfl := Op.eq_spawn htask
        exact .inr (.inr (.inl ⟨i, t, task, k, tr, hi, rfl⟩))
  | call id c =>
      obtain ⟨ns, hns, rfl⟩ := step_call hs
      rw [List.getElem?_append] at hj
      split at hj
      · exact .inl hj
      · rw [List.getElem?_singleton] at hj
        split at hj
        · cases hj
          exact .inr (.inr (.inr ⟨id, c, ns, rfl, hns, by omega, rfl⟩))
        · cases hj
  | restart kept => cases hs; cases hj
  | _ => cases hs; exact .inl hj

theorem step_threads {j : Nat} {th : Thread Task Op Resp} (hs : step fuel w e = some w')
    (hj : w'.threads[j]? = some th) :
    w.threads[j]? = some th ∨ th.trace = [] ∨
      ∃ o k r tr, w.threads[j]? = some ⟨th.task, .op o k, tr⟩ ∧ th.trace = tr ++ [⟨o, r⟩] ∧
        w.shared.Answers o r ∧ w'.shared = w.shared.after o := by
  obtain hold | ⟨o, k, r, tr, hold, hth, hans⟩ | ⟨-, -, -, -, -, -, rfl⟩ | ⟨-, -, -, -, -, -, rfl⟩ :=
    step_origin hs hj
  · exact .inl hold
  · exact .inr (.inr ⟨o, k, r, tr, hold, by rw [hth], hans⟩)
  · exact .inr (.inl rfl)
  · exact .inr (.inl rfl)

/-- An entry of the metadata cache was there before the step, or a task has recorded it. -/
theorem step_metas {entry : MetaEntry} (hs : step fuel w e = some w')
    (hentry : w'.shared.metas key = some entry) :
    w.shared.metas key = some entry ∨
      ∃ i x t k tr, e = .run i x ∧ w.threads[i]? = some ⟨t, .op (.metaPut key entry.meta) k, tr⟩ := by
  cases e with
  | run i x =>
      obtain ⟨t, o, k, tr, r, hi, -, rfl⟩ := step_run hs
      obtain hold | ⟨rfl, -⟩ := Shared.after_metas hentry
      · exact .inl hold
      · exact .inr ⟨i, x, t, k, tr, rfl, hi⟩
  | call id c =>
      obtain ⟨_, -, rfl⟩ := step_call hs
      cases c <;> exact .inl hentry
  | register name config =>
      cases hs
      simp only [Shared.registerNamespace] at hentry
      split at hentry <;> exact .inl hentry
  | evictMeta key' =>
      cases hs
      obtain ⟨-, hnone⟩ | ⟨-, hold⟩ := update_eq_some hentry
      · cases hnone
      · exact .inl hold
  | restart kept => cases hs; cases hentry
  | _ => cases hs; exact .inl hentry

theorem step_history (hs : step fuel w e = some w') (ns object : Bytes) :
    w.shared.history ns object <:+ w'.shared.history ns object := by
  cases e with
  | run i x =>
      obtain ⟨t, o, k, tr, r, hi, -, rfl⟩ := step_run hs
      exact w.shared.suffix_after o ns object
  | call id c =>
      obtain ⟨_, -, rfl⟩ := step_call hs
      cases c <;> exact List.suffix_rfl
  | register name config =>
      cases hs
      simp only [Shared.registerNamespace]
      split <;> exact List.suffix_rfl
  | overwrite ns' object' v => cases hs; exact w.shared.suffix_setVersion ns' object' ns object v
  | _ => cases hs; exact List.suffix_rfl

theorem run_history {Ok : World → Event → Prop} (h : Run (step fuel) Ok w es w') (ns object : Bytes) :
    w.shared.history ns object <:+ w'.shared.history ns object := by
  induction h with
  | nil => exact List.suffix_rfl
  | cons _ hs _ ih => exact (step_history hs ns object).trans ih

end World

/-! ## Runs -/

/-- The contents an event brings into the world are among the versions. -/
def World.Brings (versions : Bytes → Bytes → Version → Prop) (w : World) : Event → Prop
  | .call id (.insert object etag data) =>
      ∀ ns, w.shared.registry.states[id]? = some ns → versions ns.name object ⟨data, etag⟩
  | .call id (.write object v _) => ∀ ns, w.shared.registry.states[id]? = some ns → versions ns.name object v
  | .overwrite ns object v => ∀ v', v = some v' → versions ns object v'
  | _ => True

instance (versions : Bytes → Bytes → Version → Prop) [∀ ns object v, Decidable (versions ns object v)]
    (w : World) :
    (e : Event) → Decidable (w.Brings versions e)
  | .call id (.insert object etag data) =>
      inferInstanceAs (Decidable (∀ ns ∈ w.shared.registry.states[id]?, versions ns.name object ⟨data, etag⟩))
  | .call id (.write object v _) =>
      inferInstanceAs (Decidable (∀ ns ∈ w.shared.registry.states[id]?, versions ns.name object v))
  | .overwrite ns object v => inferInstanceAs (Decidable (∀ v' ∈ v, versions ns object v'))
  | .call _ (.get _ _ _) | .call _ (.head _) | .call _ (.invalidate _) | .run _ _ | .register _ _ | .tick _
  | .evictBlock _ | .evictMeta _ | .evictLastEnd _ | .restart _ => inferInstanceAs (Decidable True)

/-- What an event brings into the world is in the universe of the law. -/
def Law.Admits (L : Law) (w : World) (e : Event) : Prop :=
  w.Brings L.versions e ∧ ∀ name config, e = .register name config → w.shared.registry.byName name = none →
    L.Knows ⟨toU32 w.shared.registry.states.length, name, config⟩

namespace World

/-- Every task keeps its contract under the law. -/
def outline (L : Law) (fuel : Nat) : Outline (system fuel) Held where
  spec := L.terms.spec
  init := Held.start
  post := fun _ g => g.owned = 0
  inv := L.Lawful
  view := fun _ _ => True
  apart := fun _ _ => True

variable {fuel : Nat} {w w' : World} {e : Event}

theorem outline_starts {s : Shared} (h : L.TaskOk task) : (outline L fuel).Starts s task :=
  ⟨program_wp L.terms_running h, trivial⟩

theorem init_sound : (outline L fuel).Sound init :=
  ⟨⟨by simp [init, Shared.init, Registry.empty], by simp [init, Shared.init], by simp [init, Shared.init],
    by simp [init, Shared.init], by simp [init, Shared.init], by simp [init, Shared.init]⟩, by simp [init],
    .nil⟩

theorem resume_sound (h : (outline L fuel).Sound w)
    (hs : (system fuel).resume w i x = some w') : (outline L fuel).Sound w' := by
  refine h.resume hs fun th o k r s ts _ _ _ hresp _ hg => ?_
  obtain ⟨rfl, rfl, ha⟩ := respond_spec hresp
  have hstarts : ∀ t ∈ o.tasks, L.TaskOk t := by
    intro t ht
    obtain rfl := Op.eq_spawn ht
    exact hg.2.1
  exact ⟨h.inv.after hg, h.inv.rely ha, trivial, fun _ _ _ => trivial, fun _ _ _ => ⟨trivial, trivial⟩,
    fun t ht => ⟨outline_starts (hstarts t ht), trivial, trivial⟩, fun _ _ _ _ _ => ⟨trivial, trivial⟩,
    o.pairwise_tasks⟩

theorem call_ok (h : (outline L fuel).Sound w) {id : NamespaceId} {c : Call} {ns : NamespaceState}
    (hns : w.shared.registry.states[id]? = some ns) (hok : L.Admits w (.call id c)) :
    L.TaskOk (c.task ns) := by
  have hk := h.inv.spaces ns (List.mem_of_getElem? hns)
  cases c with
  | get object request policy => exact hk
  | head object => exact hk
  | insert object etag data =>
      refine ⟨hk, ?_⟩
      rw [Universe.Has, ← hk.name]
      exact hok.1 ns hns
  | invalidate object => exact hk
  | write object v populate =>
      refine ⟨hk, ?_⟩
      rw [Universe.Has, ← hk.name]
      exact hok.1 ns hns

/-- Every event that brings in what the law knows keeps the world sound. -/
theorem step_sound (h : (outline L fuel).Sound w) (hok : L.Admits w e) (hs : step fuel w e = some w') :
    (outline L fuel).Sound w' := by
  cases e with
  | run i x => exact resume_sound h hs
  | call id c =>
      obtain ⟨ns, hns, rfl⟩ := step_call hs
      have hnote : L.Lawful (w.shared.noteInsert ns.name c) := by
        cases c <;> exact { h.inv with }
      exact (h.env hnote fun _ hv => hv).spawn (outline_starts (call_ok h hns hok))
        fun _ _ => ⟨trivial, trivial⟩
  | register name config =>
      cases hs
      refine h.env ?_ fun _ hv => hv
      unfold Shared.registerNamespace
      cases hb : w.shared.registry.byName name with
      | some id => exact h.inv
      | none =>
          refine { h.inv with spaces := fun ns hns => ?_ }
          rcases List.mem_append.mp hns with hns | hns
          · exact h.inv.spaces ns hns
          · rw [List.mem_singleton.mp hns]
            exact hok.2 name config rfl hb
  | tick n =>
      cases hs
      exact h.env { h.inv with } fun _ hv => hv
  | overwrite ns object v =>
      cases hs
      exact h.env (h.inv.setVersion hok.1) fun _ hv => hv
  | evictBlock i =>
      cases hs
      refine h.env { h.inv with blocks := fun key block hb => ?_ } fun _ hv => hv
      exact h.inv.blocks key block (List.mem_of_mem_eraseIdx hb)
  | evictMeta key =>
      cases hs
      exact h.env (h.inv.removeMeta key) fun _ hv => hv
  | evictLastEnd key =>
      cases hs
      exact h.env { h.inv with } fun _ hv => hv
  | restart kept =>
      cases hs
      refine ⟨⟨by simp [Shared.restarted, Registry.empty], by simp [Shared.restarted], fun key block hb => ?_,
        by simp [Shared.restarted], by simp [Shared.restarted], h.inv.history⟩, by simp, .nil⟩
      obtain ⟨i, -, hi⟩ := List.mem_filterMap.mp hb
      exact h.inv.blocks key block (List.mem_of_getElem? hi)

theorem step_tasks (h : (outline L fuel).Sound w) (ht : ∀ th ∈ w.threads, L.TaskOk th.task)
    (hok : L.Admits w e) (hs : step fuel w e = some w') : ∀ th ∈ w'.threads, L.TaskOk th.task := by
  cases e with
  | run i x =>
      obtain ⟨t, o, k, tr, r, hi, -, rfl⟩ := step_run hs
      have hmem := List.mem_of_getElem? hi
      intro th hth
      obtain hth | rfl | hth := (System.mem_resume hi _ _).2.2 th hth
      · exact ht th hth
      · exact ht ⟨t, .op o k, tr⟩ hmem
      · obtain ⟨task, htask, rfl⟩ := List.mem_map.mp hth
        have hguar := (h.threads _ hmem).wp.1
        obtain rfl := Op.eq_spawn htask
        exact hguar.2.1
  | call id c =>
      obtain ⟨ns, hns, rfl⟩ := step_call hs
      intro th hth
      rcases List.mem_append.mp hth with hth | hth
      · exact ht th hth
      · rw [List.mem_singleton.mp hth]
        exact call_ok h hns hok
  | restart kept =>
      cases hs
      exact List.forall_mem_nil _
  | _ => cases hs; exact ht

theorem run_tasks {es : List Event} (h : Run (step fuel) L.Admits w es w') (hw : (outline L fuel).Sound w)
    (ht : ∀ th ∈ w.threads, L.TaskOk th.task) : ∀ th ∈ w'.threads, L.TaskOk th.task :=
  (h.invariant (fun _ _ _ hi hok hs => (⟨step_sound hi.1 hok hs, step_tasks hi.1 hi.2 hok hs⟩ : _ ∧ _))
    ⟨hw, ht⟩).2

/-- What a thread can do on the shared state by itself is a run. -/
theorem run_of_does (fuel : Nat) (Ok : World → Event → Prop) (hok : ∀ w x, Ok w (.run i x))
    {th : Thread Task Op Resp} {tr : Trace} {p : Program Unit} {s : Shared} (hi : w.threads[i]? = some th)
    (hrun : Runs th.prog tr p) (hdo : w.shared.Does tr s) :
    ∃ es w', Run (step fuel) Ok w es w' ∧ w'.shared = s ∧
    w'.threads[i]? = some ⟨th.task, p, th.trace ++ tr⟩ := by
  obtain ⟨task, q, trace⟩ := th
  dsimp only at hrun
  induction hrun generalizing w trace with
  | nil =>
      cases hdo
      exact ⟨[], w, .nil, rfl, by rwa [List.append_nil]⟩
  | @cons o k r tr p _ ih =>
      cases hdo with
      | @cons _ s₁ _ _ _ _ x tasks hresp hdo =>
          obtain ⟨hlt, -⟩ := List.getElem?_eq_some_iff.mp hi
          have hnew : (w.threads.set i ⟨task, k r, trace ++ [⟨o, r⟩]⟩ ++ tasks.map (system fuel).begin)[i]? =
              some ⟨task, k r, trace ++ [⟨o, r⟩]⟩ := by
            rw [List.getElem?_append_left (by rwa [List.length_set]), List.getElem?_set_self hlt]
          obtain ⟨es, w', hruns, hs, hth⟩ := ih (w := ⟨s₁, _⟩) hdo _ hnew
          refine ⟨.run i x :: es, w', .cons (hok w x) (System.resume_eq hi hresp) hruns, hs, ?_⟩
          rw [hth, List.append_assoc]
          rfl

theorem run_sound {es : List Event} (h : Run (step fuel) L.Admits w es w') (hw : (outline L fuel).Sound w) :
    (outline L fuel).Sound w' :=
  h.invariant (fun _ _ _ hi hok hs => step_sound hi hok hs) hw

end World

end

end Nestor
