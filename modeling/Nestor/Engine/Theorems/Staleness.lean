import Nestor.Engine.Lemmas.Lifetime
import Nestor.Read.Theorems

/-!
# How old fresh metadata can be

The age of an entry of the metadata cache counts from its last record, and a record is made when an
answer is processed. Where no time passes in between, metadata found fresh has been confirmed within
the time to live. A response that waits with its fetch group for a permit is recorded when the
permit comes, however long ago it was given.
-/

namespace Nestor

open Lib

/-- Time may pass where the task is: it waits for somebody else, it has not begun, or its caller has
yet to poll the stream. -/
def resting (th : Thread Task Op Resp) : Bool :=
  (match th.prog with
    | .op o _ => o.awaits
    | .pure _ => true) || th.trace.isEmpty || (th.trace.getLast?).any (·.1.shows)

/-- A fetch group that was started with a response waits for its permit. -/
def queued (th : Thread Task Op Resp) : Bool :=
  match th.prog, th.task with
  | .op (.acquire _) _, .fetchGroup _ _ _ (some _) => true
  | _, _ => false

theorem Task.Answered.group {task : Task} {ns object : Bytes} {m : ObjectMeta}
    (h : task.Answered ns object m) :
    ∃ ctx slots priority r, task = .fetchGroup ctx slots priority (some r) := by
  cases task with
  | fetchGroup ctx slots priority initial =>
      cases initial with
      | some r => exact ⟨ctx, slots, priority, r, rfl⟩
      | none => exact h.elim
  | _ => exact h.elim

theorem queued_of_answered {th : Thread Task Op Resp} {priority : Priority} {k : Bool → Program Unit}
    {ns object : Bytes} {m : ObjectMeta} (hprog : th.prog = .op (.acquire priority) k)
    (h : th.task.Answered ns object m) : queued th = true := by
  obtain ⟨ctx, slots, priority', r, htask⟩ := h.group
  simp [queued, hprog, htask]

namespace World

/-- The tasks take no time but where they wait. -/
def Timed (w : World) : Event → Prop
  | .tick _ => ∀ th ∈ w.threads, resting th
  | _ => True

instance (w : World) : (e : Event) → Decidable (w.Timed e)
  | .tick _ => inferInstanceAs (Decidable (∀ th ∈ w.threads, resting th))
  | .run _ _ | .call _ _ | .register _ _ | .overwrite _ _ _ | .evictBlock _ | .evictMeta _ | .evictLastEnd _
  | .restart _ => inferInstanceAs (Decidable True)

/-- No time passes while a response waits for a permit. -/
def Unqueued (w : World) : Event → Prop
  | .tick _ => ∀ th ∈ w.threads, queued th = false
  | _ => True

instance (w : World) : (e : Event) → Decidable (w.Unqueued e)
  | .tick _ => inferInstanceAs (Decidable (∀ th ∈ w.threads, queued th = false))
  | .run _ _ | .call _ _ | .register _ _ | .overwrite _ _ _ | .evictBlock _ | .evictMeta _ | .evictLastEnd _
  | .restart _ => inferInstanceAs (Decidable True)

/-- In this step the origin answers a task with the metadata of the object, or that it is not
modified, or a write through the engine records its own. -/
inductive Confirms (w : World) (ns object : Bytes) (m : ObjectMeta) : Event → Prop
  | answered {i j th requests hedge deadline k req v response} : w.threads[i]? = some th →
      th.prog = .op (.awaitGet requests hedge deadline) k → requests[j]? = some req → req.namespace = ns →
      req.object = object → w.shared.answers req v (.ok response) → m = response.meta →
      Confirms w ns object m (.run i (.answered j v (.ok response)))
  | unchanged {i j th requests hedge deadline k req v} : w.threads[i]? = some th →
      th.prog = .op (.awaitGet requests hedge deadline) k → requests[j]? = some req → req.namespace = ns →
      req.object = object → w.shared.answers req v (.error .notModified) → m.etag = req.options.ifNoneMatch →
      Confirms w ns object m (.run i (.answered j v (.error .notModified)))
  | described {i th req deadline k v} : w.threads[i]? = some th → th.prog = .op (.awaitHead req deadline) k →
      req.namespace = ns → req.object = object → w.shared.describes req v (.ok m) →
      Confirms w ns object m (.run i (.described v (.ok m)))
  | written {i th key k} : w.threads[i]? = some th → th.prog = .op (.metaPut key m) k →
      th.task.Writes ns object m → Confirms w ns object m (.run i .go)

variable [TagHash] {fuel : Nat} {w w' : World} {e : Event} {es : List Event}

/-- At time `t` of the run the metadata was confirmed. -/
def Confirmed (fuel : Nat) (es : List Event) (t : Nat) (ns object : Bytes) (m : ObjectMeta) : Prop :=
  ∃ before e after w, es = before ++ e :: after ∧ Run (step fuel) (fun _ _ => True) init before w ∧
    w.Confirms ns object m e ∧ w.shared.now = t

variable {t : Nat} {ns object : Bytes} {m : ObjectMeta}

theorem Confirmed.snoc (h : Confirmed fuel es t ns object m) (e : Event) :
    Confirmed fuel (es ++ [e]) t ns object m := by
  obtain ⟨before, e', after, w, rfl, hrun, hc, ht⟩ := h
  exact ⟨before, e', after ++ [e], w, by simp, hrun, hc, ht⟩

theorem Confirms.now (hrun : Run (step fuel) (fun _ _ => True) init es w) (h : w.Confirms ns object m e) :
    Confirmed fuel (es ++ [e]) w.shared.now ns object m :=
  ⟨es, e, [], w, rfl, hrun, h, rfl⟩

/-- Every entry of the metadata cache was confirmed at its time, and every answer a task may still
record is one of this instant. -/
structure Kept (L : Law) (fuel : Nat) (es : List Event) (w : World) : Prop where
  run : Run (step fuel) (fun _ _ => True) init es w
  sound : (outline L fuel).Sound w
  recorded : ∀ key entry, w.shared.metas key = some entry → L.immutable key.namespace ∨
    Confirmed fuel es entry.at (L.name key.namespace) key.object entry.meta
  atHand : ∀ th ∈ w.threads, ∀ o k, th.prog = .op o k → o.keeps → ∀ ns object m,
    ((outline L fuel).at_ th).hot ns object m → Confirmed fuel es w.shared.now ns object m

end World

namespace Shared

theorem lookupMeta_fresh {s : Shared} {key : ObjectKey} {ttl : Nat} {m : ObjectMeta}
    (h : s.lookupMeta key (some ttl) = .fresh m) :
    ∃ entry, s.metas key = some entry ∧ entry.meta = m ∧ s.now - entry.at ≤ ttl := by
  unfold lookupMeta at h
  cases he : s.metas key with
  | none => simp [he] at h
  | some entry =>
      simp only [he] at h
      split at h
      · cases h
      · cases h
        exact ⟨entry, rfl, rfl, by omega⟩

end Shared

namespace World

theorem confirms_of_tells {w : World} {i : Nat} {x : Choice} {th : Thread Task Op Resp} {o : Op}
    {k : Resp o → Program Unit} {r : Resp o} {s : Shared} {ts : List Task} {ns object : Bytes}
    {m : ObjectMeta} (hth : w.threads[i]? = some th) (hprog : th.prog = .op o k)
    (hresp : respond w.shared o x = some (r, s, ts)) (h : o.Tells ns object m r) :
    w.Confirms ns object m (.run i x) := by
  cases o
  case awaitGet requests hedge deadline =>
    cases x
    case answered j v result =>
      simp only [respond] at hresp
      split at hresp
      · rename_i req hreq
        split at hresp
        · rename_i hans
          cases hresp
          cases result with
          | ok response =>
              obtain ⟨hm, hreqs⟩ := h
              obtain ⟨h1, h2⟩ := hreqs req hreq
              exact .answered hth hprog hreq h1 h2 hans hm
          | error error =>
              obtain ⟨rfl, hreqs⟩ := h
              obtain ⟨h1, h2, h3⟩ := hreqs req hreq
              exact .unchanged hth hprog hreq h1 h2 hans h3
        · cases hresp
      · cases hresp
    case stalled | timeout =>
      simp only [respond] at hresp
      split at hresp
      · cases hresp
        exact h.elim
      · cases hresp
    all_goals
      cases hresp
      try exact h.elim
  case awaitHead req deadline =>
    cases x
    case described v result =>
      simp only [respond] at hresp
      split at hresp
      · rename_i hans
        cases hresp
        cases result with
        | ok m' =>
            obtain ⟨h1, h2, rfl⟩ := h
            exact .described hth hprog h1 h2 hans
        | error error => exact h.elim
      · cases hresp
    case timeout =>
      simp only [respond] at hresp
      split at hresp
      · cases hresp
        exact h.elim
      · cases hresp
    all_goals
      cases hresp
      try exact h.elim
  all_goals exact h.elim

variable [TagHash] {L : Law} {fuel : Nat} {w w' : World} {e : Event} {es : List Event}

theorem at_task (th : Thread Task Op Resp) : ((outline L fuel).at_ th).task = th.task := Terms.ghost_task ..

namespace Kept

theorem same (h : Kept L fuel es w) (hs : step fuel w e = some w') (hsound : (outline L fuel).Sound w')
    (hmetas : ∀ key entry, w'.shared.metas key = some entry → w.shared.metas key = some entry)
    (hthreads : w'.threads = w.threads) (hnow : w'.shared.now = w.shared.now) :
    Kept L fuel (es ++ [e]) w' where
  run := h.run.append (.cons trivial hs .nil)
  sound := hsound
  recorded key entry he := (h.recorded key entry (hmetas key entry he)).imp id (·.snoc e)
  atHand th hth o k hprog ho ns object m hm := by
    rw [hnow]
    exact (h.atHand th (hthreads ▸ hth) o k hprog ho ns object m hm).snoc e

/-- A task that rests, and is no group that waits with a response, has nothing to record from
before. -/
theorem not_hot (h : Kept L fuel es w) {th : Thread Task Op Resp} (hth : th ∈ w.threads) (hrest : resting th)
    (hqueued : queued th = false) {o : Op} {k : Resp o → Program Unit} (hprog : th.prog = .op o k)
    (ho : o.keeps) {ns object : Bytes} {m : ObjectMeta} : ¬ ((outline L fuel).at_ th).hot ns object m := by
  intro hhot
  have hsound := h.sound.threads th hth
  simp only [resting, hprog, Bool.or_eq_true] at hrest
  rcases hrest with (hawaits | hstart) | hshows
  · -- the only operation that waits and keeps an answer is the one for a permit
    have hguar := hsound.wp
    rw [hprog] at hguar
    cases o <;> simp [Op.keeps, Op.awaits, Op.shows] at ho hawaits
    have hanswered := hguar.1 ns object m hhot
    rw [at_task] at hanswered
    exact absurd (queued_of_answered hprog hanswered) (by simp [hqueued])
  · have htrace : th.trace = [] := by simpa using hstart
    have hanswered : th.task.Answered ns object m := by
      rw [Outline.at_, htrace] at hhot
      exact hhot
    obtain ⟨ctx, slots, priority, r, htask⟩ := hanswered.group
    have hruns := hsound.runs
    rw [htrace] at hruns
    have hbegin := hruns.eq_of_nil
    rw [htask] at hbegin
    exact absurd (queued_of_answered hbegin hanswered) (by simp [hqueued])
  · obtain ⟨d, hlast, hshows⟩ := (Option.any_eq_true _ _).mp hshows
    obtain ⟨o', r⟩ := d
    obtain ⟨before, htrace⟩ := List.getLast?_eq_some_iff.mp hlast
    rw [Outline.at_, htrace, Spec.ghost_snoc] at hhot
    cases o' <;> simp [Op.shows] at hshows
    all_goals
      rcases hhot with htold | ⟨hkeeps, -⟩
      · exact htold
      · cases hkeeps

theorem resume (h : Kept L fuel es w) {i : Nat} {x : Choice} (hs : step fuel w (.run i x) = some w') :
    Kept L fuel (es ++ [.run i x]) w' := by
  obtain ⟨t, o, k, tr, r, s, ts, hth, hresp, rfl⟩ := System.resume_cases hs
  obtain ⟨rfl, rfl, -⟩ := respond_spec hresp
  have hmem := List.mem_of_getElem? hth
  have hguar : L.terms.guar ((outline L fuel).at_ ⟨t, .op o k, tr⟩) o := (h.sound.threads _ hmem).wp.1
  have hold := h.atHand _ hmem o k rfl
  refine ⟨h.run.append (.cons trivial hs .nil), resume_sound h.sound hs, fun key entry he => ?_, ?_⟩
  · obtain he | ⟨rfl, hat⟩ := Shared.after_metas he
    · exact (h.recorded key entry he).imp id (·.snoc _)
    · rw [hat]
      rcases hguar.2 with hhot | hwrites | himm
      · exact .inr ((hold rfl _ _ _ hhot).snoc _)
      · rw [at_task] at hwrites
        have hgo : x = .go := by cases x <;> first | rfl | cases hresp
        subst hgo
        exact .inr (Confirms.now h.run (.written hth rfl hwrites))
      · exact .inl himm
  · intro th hin o' k' hprog ho ns object m hhot
    change Confirmed fuel _ (w.shared.after o).now ns object m
    rw [(w.shared.after_frame o).1]
    obtain hin | rfl | hin := (System.mem_resume hth _ _).2.2 th hin
    · exact (h.atHand th hin o' k' hprog ho ns object m hhot).snoc _
    · rw [Outline.at_, Spec.ghost_snoc] at hhot
      rcases hhot with htold | ⟨hkeeps, hhot⟩
      · exact (confirms_of_tells hth rfl hresp htold).now h.run
      · exact (hold hkeeps _ _ _ hhot).snoc _
    · -- a group is started with a response its task has got at this instant
      obtain ⟨task, htask, rfl⟩ := List.mem_map.mp hin
      obtain rfl := Op.eq_spawn htask
      exact (hold rfl _ _ _ (hguar.2.2.2 ns object m hhot)).snoc _

theorem step (h : Kept L fuel es w) (hok : L.Admits w e) (htimed : w.Timed e) (hunqueued : w.Unqueued e)
    (hs : step fuel w e = some w') : Kept L fuel (es ++ [e]) w' := by
  have hsound := step_sound h.sound hok hs
  cases e with
  | run i x => exact h.resume hs
  | call ns c =>
      have hrun := h.run.append (.cons trivial hs .nil)
      obtain ⟨state, hns, rfl⟩ := step_call hs
      refine ⟨hrun, hsound, fun key entry he => ?_, ?_⟩
      · have he : w.shared.metas key = some entry := by cases c <;> exact he
        exact (h.recorded key entry he).imp id (·.snoc _)
      · intro th hin o k hprog ho ns' object m hhot
        have hnow : (w.shared.noteInsert state.name c).now = w.shared.now := by cases c <;> rfl
        change Confirmed fuel _ (w.shared.noteInsert state.name c).now ns' object m
        rw [hnow]
        rcases List.mem_append.mp hin with hin | hin
        · exact (h.atHand th hin o k hprog ho ns' object m hhot).snoc _
        · rw [List.mem_singleton.mp hin] at hhot
          cases c <;> exact hhot.elim
  | register name config =>
      refine h.same hs hsound ?_ ?_ ?_ <;> cases hs <;>
        simp only [Shared.registerNamespace] <;> split <;> first | rfl | exact fun _ _ => id
  | tick n =>
      refine ⟨h.run.append (.cons trivial hs .nil), hsound, ?_, ?_⟩ <;> cases hs
      · exact fun key entry he => (h.recorded key entry he).imp id (·.snoc _)
      · intro th hth o k hprog ho ns object m hhot
        exact absurd hhot (h.not_hot hth (htimed th hth) (hunqueued th hth) hprog ho)
  | overwrite ns object v => cases hs; exact h.same rfl hsound (fun _ _ => id) rfl rfl
  | evictBlock i => cases hs; exact h.same rfl hsound (fun _ _ => id) rfl rfl
  | evictMeta key =>
      cases hs
      refine h.same rfl hsound (fun key' entry he => ?_) rfl rfl
      obtain ⟨-, hnone⟩ | ⟨-, he⟩ := update_eq_some he
      · cases hnone
      · exact he
  | evictLastEnd key => cases hs; exact h.same rfl hsound (fun _ _ => id) rfl rfl
  | restart kept =>
      cases hs
      refine ⟨h.run.append (.cons trivial rfl .nil), hsound, ?_, ?_⟩
      · simp [Shared.restarted]
      · simp

end Kept

/-- The law of the namespaces registered in the end is that of the whole lifetime. -/
theorem kept_run (hrun : Run (step fuel) (fun w e => w.OneLife e ∧ w.Timed e ∧ w.Unqueued e) init es w) :
    Kept (w.shared.registry.universeOf fun _ _ _ => True).exactLaw fuel es w := by
  have hadmits : Run (step fuel) (w.shared.registry.universeOf fun _ _ _ => True).exactLaw.Admits init es w :=
    run_admits (fun _ => Registry.knows_universeOf) (hrun.mono fun w e h => ⟨w.brings_any e, h.1⟩)
  have hinit : Kept (w.shared.registry.universeOf fun _ _ _ => True).exactLaw fuel [] init :=
    ⟨.nil, init_sound, by simp [init, Shared.init], by simp [init]⟩
  exact (hadmits.and hrun).invariant_events (fun _ _ _ _ h hok hs => h.step hok.1 hok.2.2.1 hok.2.2.2 hs)
    hinit

/-- In a state of a lifetime whose tasks take no time but where they wait, and in which no response
waits for a permit: metadata of an etag namespace that is found fresh was confirmed by the origin,
or is that of a write through the engine, no longer ago than the namespace's time to live. -/
theorem fresh_within_ttl (hrun : Run (step fuel) (fun w e => w.OneLife e ∧ w.Timed e ∧ w.Unqueued e)
      init es w)
    {ns : NamespaceState} (hns : ns ∈ w.shared.registry.states) {ttl : Nat}
    (hetag : ns.config.consistency = .etag ttl) {object : Bytes} {m : ObjectMeta}
    (hfresh : w.shared.lookupMeta ⟨ns.id, object⟩ ns.metaTtl = .fresh m) :
    ∃ before e after w₁, es = before ++ e :: after ∧ Run (step fuel) (fun _ _ => True) init before w₁ ∧
      w₁.Confirms ns.name object m e ∧ w.shared.now ≤ w₁.shared.now + ttl := by
  have hlife : Run (step fuel) OneLife init es w := hrun.mono fun _ _ h => h.1
  have hget := (numbered_run hlife numbered_empty).get hns
  have hkept := kept_run hrun
  rw [NamespaceState.metaTtl, hetag] at hfresh
  obtain ⟨entry, hentry, rfl, hage⟩ := Shared.lookupMeta_fresh hfresh
  rcases hkept.recorded _ entry hentry with ⟨ns', hns', himm⟩ | ⟨before, e, after, w₁, hes, hrun₁, hc, hat⟩
  · rw [hget] at hns'
    cases hns'
    rw [hetag] at himm
    cases himm
  · have hname : (w.shared.registry.universeOf fun _ _ _ => True).name ns.id = ns.name := by
      simp [Registry.universeOf, hget]
    refine ⟨before, e, after, w₁, hes, hrun₁, hname ▸ hc, ?_⟩
    omega

end World

namespace World

open Sample

/-- An object is read for the first time. The probe is answered, and its response waits for a permit
for `queueing` milliseconds; then it is recorded, and `later` milliseconds pass. -/
def probeEvents (queueing later : Nat) : List Event :=
  [.overwrite [97] [111] (some ⟨[1, 2], some [9]⟩), .call 0 (.get [111] .full FetchPolicy.default),
    .run 0 .go, .run 0 .go, .run 0 .go, .run 0 .go, .run 0 .go,
    .run 0 (.answered 0 (some ⟨[1, 2], some [9]⟩) (.ok ⟨⟨2, some [9], none⟩, ⟨0, 2⟩, [.ok [1, 2]]⟩)),
    .run 0 .go, .run 0 .go, .run 0 .go, .run 0 .go, .run 0 .go] ++
  (if queueing = 0 then [] else [.tick (milliseconds queueing)]) ++
  [.run 1 (.flag true), .run 1 .go, .run 1 .go, .run 1 .go, .tick (milliseconds later)]

def probeNamespace : NamespaceState := ⟨0, [97], NamespaceConfig.default⟩

def writes : Task → Bool
  | .insert _ _ _ _ | .write _ _ _ _ => true
  | _ => false

/-- The event may confirm metadata. -/
def mayConfirm (w : World) : Event → Bool
  | .run _ (.answered _ _ _) | .run _ (.described _ _) => true
  | .run i .go => (w.threads[i]?).any fun th => writes th.task
  | _ => false

theorem mayConfirm_of_confirms {w : World} {ns object : Bytes} {m : ObjectMeta} {e : Event}
    (h : w.Confirms ns object m e) : mayConfirm w e = true := by
  cases h with
  | answered => rfl
  | unchanged => rfl
  | described => rfl
  | @written i th _ _ hth _ hw =>
      simp only [mayConfirm, hth, Option.any_some]
      cases htask : th.task <;> rw [htask] at hw <;> first | rfl | exact hw.elim

/-- Metadata may be confirmed at time `t` or later. -/
def mayConfirmSince [TagHash] (fuel t : Nat) : World → List Event → Bool
  | _, [] => false
  | w, e :: es =>
      decide (t ≤ w.shared.now) && mayConfirm w e || (step fuel w e).any (mayConfirmSince fuel t · es)

theorem mayConfirmSince_of_run [TagHash] {fuel t : Nat} {w w₁ : World} {ns object : Bytes} {m : ObjectMeta}
    {e : Event} {before after : List Event} (hrun : Run (step fuel) (fun _ _ => True) w before w₁)
    (h : w₁.Confirms ns object m e) (ht : t ≤ w₁.shared.now) :
    mayConfirmSince fuel t w (before ++ e :: after) = true := by
  induction hrun with
  | nil => simp [mayConfirmSince, ht, mayConfirm_of_confirms h]
  | cons _ hs _ ih => simp [mayConfirmSince, hs, ih h ht]

/-- A response that waited for its permit for longer than the time to live is recorded as if it were
new. -/
theorem fresh_beyond_ttl : ∃ (es : List Event) (w : World),
    Run (step 5) (fun w e => w.OneLife e ∧ w.Timed e) init es w ∧ probeNamespace ∈ w.shared.registry.states ∧
    probeNamespace.config.consistency = .etag (milliseconds 60000) ∧
    w.shared.lookupMeta ⟨0, [111]⟩ probeNamespace.metaTtl = .fresh ⟨2, some [9], none⟩ ∧
    ¬ ∃ before e after w₁, es = before ++ e :: after ∧ Run (step 5) (fun _ _ => True) init before w₁ ∧
      w₁.Confirms [97] [111] ⟨2, some [9], none⟩ e ∧ w.shared.now ≤ w₁.shared.now + milliseconds 60000 := by
  obtain ⟨w, hw, hns, hnow, hfresh⟩ :
      ∃ w ∈ runEvents (checked (fun w e => decide (OneLife w e ∧ Timed w e)) (step 5)) init
        (.register [97] NamespaceConfig.default :: probeEvents 100000 50000),
      probeNamespace ∈ w.shared.registry.states ∧ w.shared.now = milliseconds 150000 ∧
        w.shared.lookupMeta ⟨0, [111]⟩ probeNamespace.metaTtl = .fresh ⟨2, some [9], none⟩ := by
    decide
  have hlate : mayConfirmSince 5 (milliseconds 90000) init
      (.register [97] NamespaceConfig.default :: probeEvents 100000 50000) = false := by decide
  refine ⟨_, w, .of_decided hw, hns, rfl, hfresh, ?_⟩
  rintro ⟨before, e, after, w₁, hes, hrun, hc, hage⟩
  have hmay : mayConfirmSince 5 (milliseconds 90000) init (before ++ e :: after) = true :=
    mayConfirmSince_of_run hrun hc (by unfold milliseconds at *; omega)
  rw [← hes, hlate] at hmay
  cases hmay

theorem fresh_within_ttl_probed : ∃ (es : List Event) (w : World),
    w.shared.lookupMeta ⟨0, [111]⟩ probeNamespace.metaTtl = .fresh ⟨2, some [9], none⟩ ∧
    ∃ before e after w₁, es = before ++ e :: after ∧ Run (step 5) (fun _ _ => True) init before w₁ ∧
      w₁.Confirms [97] [111] ⟨2, some [9], none⟩ e ∧ w.shared.now ≤ w₁.shared.now + milliseconds 60000 := by
  obtain ⟨w, hw, hns, hfresh⟩ :
      ∃ w ∈ runEvents (checked (fun w e => decide (OneLife w e ∧ Timed w e ∧ Unqueued w e)) (step 5)) init
        (.register [97] NamespaceConfig.default :: probeEvents 0 50000),
      probeNamespace ∈ w.shared.registry.states ∧
        w.shared.lookupMeta ⟨0, [111]⟩ probeNamespace.metaTtl = .fresh ⟨2, some [9], none⟩ := by
    decide
  exact ⟨_, w, hfresh, fresh_within_ttl (.of_decided hw) hns rfl hfresh⟩

end World

end Nestor
