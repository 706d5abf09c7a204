import Nestor.Engine.Theorems.Objects
import Nestor.Engine.Theorems.Writes

/-!
# An object that does not change

As long as an object keeps its current version and the engine has recorded no other, its tasks are
told of no other version, by the cache or by the origin. So what they record is the current version
again.
-/

namespace Nestor

open Lib

variable {m : ObjectMeta} {tr : Trace}

/-! ## What a task is told -/

section

variable [TagHash] (L : Law) (ns : NamespaceState) (object : Bytes) (hist : List (Option Version))

/-- A task has got timely answers only, and has no version but the current one at hand. -/
structure Held.Timely (g : Held) : Prop extends g.Late ns object hist where
  hot : ∀ m, g.hot ns.name object m → L.Describes ⟨ns.id, object⟩ m → IsCurrent hist m

/-- Versions of the object with one etag have one content. -/
def Law.ByEtag (L : Law) (ns : NamespaceState) (object : Bytes) : Prop :=
  ∀ v v', L.Has ns.id object v → L.Has ns.id object v' → v.etag = v'.etag → v.etag.isSome → v.data = v'.data

end

section

variable [TagHash] {L : Law} {ns : NamespaceState} {object : Bytes} {hist : List (Option Version)}
  {o : Op} {r : Resp o}

/-- An answer that nothing has changed speaks of the current version. -/
theorem Fresh.current {requests : List GetRequest} {i : Nat} (hetags : L.ByEtag ns object)
    (hhas : ∀ v, hist.head? = some (some v) → L.Has ns.id object v)
    (h : Fresh hist requests i (.error .notModified))
    (hm : ∀ req, requests[i]? = some req → m.etag = req.options.ifNoneMatch)
    (hd : L.Describes ⟨ns.id, object⟩ m) : IsCurrent hist m := by
  obtain ⟨req, v, hreq, hv, hetag, hsome⟩ := h
  obtain ⟨v', hv', hsize, hnames⟩ := hd
  have hsame : v.etag = v'.etag := hetag.trans ((hm req hreq).symm.trans hnames)
  have hdata := hetags v v' (hhas v hv) hv' hsame hsome
  exact ⟨v, hv, hsize.trans (congrArg List.length hdata.symm), hnames.trans hsame.symm⟩

variable {T : Terms} {g : Held} (h : g.Timely T.law ns object hist) (hetags : T.law.ByEtag ns object)
  (hhas : ∀ v, hist.head? = some (some v) → T.law.Has ns.id object v)

include h hetags hhas

theorem Held.Timely.hot_after (hguar : T.guar g o)
    (ht : Nestor.Timely ns object hist o r) (hm : (g.after o r).hot ns.name object m)
    (hd : T.law.Describes ⟨ns.id, object⟩ m) : IsCurrent hist m := by
  obtain htells | ⟨-, hold⟩ := hm
  · cases o
    case awaitGet requests hedge deadline =>
      have hlate : ∀ req ∈ requests, LateGet ns object hist.length req :=
        fun req hreq => h.gets req (hguar req hreq)
      rcases r with (⟨i, e | response⟩ | _) | _ | _
      · obtain ⟨rfl, hreqs⟩ := htells
        exact (ht hlate).current hetags hhas (fun req hreq => (hreqs req hreq).2.2) hd
      · obtain ⟨rfl, -⟩ := htells
        exact ht hlate
      all_goals cases htells
    case awaitHead req deadline =>
      rcases r with (e | m') | _ | _
      · cases htells
      · obtain ⟨-, -, rfl⟩ := htells
        exact ht (h.heads req hguar)
      all_goals cases htells
    all_goals cases htells
  · exact h.hot m hold hd

theorem Held.Timely.after (hguar : T.guar g o)
    (habout : o.About (.of ns object)) (ht : Nestor.Timely ns object hist o r) :
    (g.after o r).Timely T.law ns object hist :=
  ⟨h.toLate.after hguar habout ht, fun _ => h.hot_after hetags hhas hguar ht⟩

theorem Held.Timely.ghost (hkept : T.spec.Kept g tr)
    (habout : ∀ d ∈ tr, d.1.About (.of ns object)) (ht : ∀ d ∈ tr, Nestor.Timely ns object hist d.1 d.2) :
    (T.spec.ghost g tr).Timely T.law ns object hist := by
  induction tr generalizing g with
  | nil => exact h
  | cons d tr ih =>
      obtain ⟨hasked, habout⟩ := List.forall_mem_cons.mp habout
      obtain ⟨hanswer, ht⟩ := List.forall_mem_cons.mp ht
      exact ih (h.after hetags hhas hkept.1 hasked hanswer) hkept.2 habout ht

end

/-! ## The world -/

/-- The call changes nothing about an object with the history. -/
def Call.Leaves (object : Bytes) (hist : List (Option Version)) : Call → Prop
  | .insert o etag data => o = object → hist.head? = some (some ⟨data, etag⟩)
  | .write o _ _ => o ≠ object
  | _ => True

namespace World

variable [TagHash]

/-- The law of a world, with the versions its events have brought in. -/
abbrev lawOf (versions : Bytes → Bytes → Version → Prop) (w : World) : Law :=
  (w.shared.registry.universeOf versions).exactLaw

/-- A world that can be reached in one lifetime, whose events bring in the versions. -/
def Lived (versions : Bytes → Bytes → Version → Prop) (fuel : Nat) (w : World) : Prop :=
  ∃ es, Run (step fuel) (fun w e => w.Brings versions e ∧ w.OneLife e) init es w

section

variable (versions : Bytes → Bytes → Version → Prop) (ns : NamespaceState) (object : Bytes)
  (hist : List (Option Version))

/-- Versions of the object with one etag have one content. -/
def ByEtag : Prop :=
  ∀ v v', versions ns.name object v → versions ns.name object v' → v.etag = v'.etag → v.etag.isSome →
    v.data = v'.data

/-- The thread was started since the object has the history. -/
structure Since (th : Thread Task Op Resp) : Prop where
  trace : ∀ d ∈ th.trace, Timely ns object hist d.1 d.2
  start : ∀ m v, th.task.Answered ns.name object m → versions ns.name object v → v.Names m → IsCurrent hist m
  writes : ∀ m, th.task.Writes ns.name object m → IsCurrent hist m

/-- The object has the history, no other version is recorded, and its threads have ended or were
started since. -/
structure Calm (w : World) : Prop where
  still : w.shared.Still ns object hist
  threads : ∀ th ∈ w.threads, th.task.home = .of ns object → th.ended = true ∨
    Since versions ns object hist th

/-- The event changes nothing about the object. -/
def Leaves (w : World) : Event → Prop
  | .run i _ => ∀ t v k tr, w.threads[i]? ≠ some ⟨t, .op (.put ns.name object v) k, tr⟩
  | .call id c => id = ns.id → c.Leaves object hist
  | .overwrite name o _ => ¬ (name = ns.name ∧ o = object)
  | .restart _ => False
  | _ => True

end

section

variable {versions : Bytes → Bytes → Version → Prop} {fuel : Nat} {w w' : World} {e : Event}

theorem Lived.step (h : w.Lived versions fuel) (hok : w.Brings versions e ∧ w.OneLife e)
    (hs : World.step fuel w e = some w') : w'.Lived versions fuel := by
  obtain ⟨es, hrun⟩ := h
  exact ⟨es ++ [e], hrun.append (.cons hok hs .nil)⟩

theorem Lived.sound (h : w.Lived versions fuel) :
    (outline (w.lawOf versions) fuel).Sound w ∧ w.shared.registry.Numbered := by
  obtain ⟨es, hrun⟩ := h
  exact lifetime_sound hrun

theorem Lived.housed (h : w.Lived versions fuel) : (duties fuel).Sound w ∧ w.Housed := by
  obtain ⟨es, hrun⟩ := h
  have hall : (duties fuel).Sound w ∧ w.Housed :=
    hrun.invariant (fun _ _ _ hi hok hs => (⟨duties_step hi.1 hs, housed_step hi.1 hi.2 hok.2 hs⟩ : _ ∧ _))
      ⟨duties_init, numbered_empty, named_empty, List.forall_mem_nil _⟩
  exact hall

/-- Where no task has been started, nothing is recorded. -/
def Untouched (w : World) : Prop := w.threads = [] → ∀ key, w.shared.metas key = none

theorem untouched_step (h : w.Untouched) (hlife : w.OneLife e) (hs : World.step fuel w e = some w') :
    w'.Untouched := by
  intro hnil key
  have hbefore : w.threads = [] := by
    refine List.eq_nil_iff_forall_not_mem.mpr fun th hth => ?_
    obtain ⟨th', hth', -⟩ := step_keeps hlife hs hth
    exact List.not_mem_nil (hnil ▸ hth')
  refine Option.eq_none_iff_forall_ne_some.mpr fun entry hentry => ?_
  obtain hold | ⟨i, x, t, k, tr, -, hi⟩ := step_metas hs hentry
  · cases (h hbefore key).symm.trans hold
  · rw [hbefore] at hi
    cases hi

theorem Lived.untouched (h : w.Lived versions fuel) : w.Untouched := by
  obtain ⟨es, hrun⟩ := h
  exact hrun.invariant (fun _ _ _ hi hok hs => untouched_step hi hok.2 hs) fun _ _ => rfl

variable {ns : NamespaceState} {object : Bytes} {hist : List (Option Version)} {th : Thread Task Op Resp}

omit [TagHash] in
theorem Housed.home_eq (h : w.Housed) (hns : ns ∈ w.shared.registry.states) (hth : th ∈ w.threads)
    (hkey : ⟨ns.id, object⟩ = th.task.home.key) : th.task.home = .of ns object := by
  by_contra hne
  exact ((h.homes th hth).apart h.numbered h.named ⟨ns, hns, object, rfl⟩ hne).key hkey.symm

/-- What a thread that was started since has been told, and what it has at hand. -/
theorem Lived.timely (h : w.Lived versions fuel) (hns : ns ∈ w.shared.registry.states)
    (hetags : ByEtag versions ns object) (hth : th ∈ w.threads) (hhome : th.task.home = .of ns object)
    (hsince : Since versions ns object hist th) (hhist : hist <:+ w.shared.history ns.name object)
    (htr : tr <+: th.trace) :
    ((w.lawOf versions).terms.spec.ghost (.start th.task) tr).Timely (w.lawOf versions) ns object hist := by
  obtain ⟨hsound, hnumbered⟩ := h.sound
  have hget := hnumbered.get hns
  have hkept := (hsound.threads th hth).kept
  have hhas (v : Version) : (w.lawOf versions).Has ns.id object v ↔ versions ns.name object v :=
    Registry.has_universeOf hget v
  have habout : ∀ d ∈ tr, d.1.About (.of ns object) := fun d hd =>
    hhome ▸ about_of_sound h.housed.1 hth d (htr.subset hd)
  have hstart : (Held.start th.task).Timely (w.lawOf versions) ns object hist := by
    refine ⟨⟨List.forall_mem_nil _, List.forall_mem_nil _, List.forall_mem_nil _⟩, ?_⟩
    rintro m hm ⟨v, hv, hnames⟩
    exact hsince.start m v hm ((hhas v).mp hv) hnames
  obtain ⟨rest, htrace⟩ := htr
  rw [← htrace] at hkept
  refine hstart.ghost (fun v v' hv hv' => hetags v v' ((hhas v).mp hv) ((hhas v').mp hv')) (fun v hv => ?_)
    ((w.lawOf versions).terms.spec.kept_append.mp hkept).1 habout fun d hd => hsince.trace d ?_
  · exact (hhas v).mpr (hsound.inv.history ns.name object v (hhist.subset (List.mem_of_mem_head? hv)))
  · rw [← htrace]
    exact List.mem_append_left _ hd

theorem step_stays {j : Nat} (hlife : w.OneLife e) (hs : World.step fuel w e = some w')
    (hj : w.threads[j]? = some th) :
    ∃ th', w'.threads[j]? = some th' ∧ th'.task = th.task ∧
      (th' = th ∨ ∃ o k r, th = ⟨th.task, .op o k, th.trace⟩ ∧ th' = ⟨th.task, k r, th.trace ++ [⟨o, r⟩]⟩ ∧
        w.shared.Answers o r ∧ w'.shared = w.shared.after o) := by
  have hlt := (List.getElem?_eq_some_iff.mp hj).1
  cases e with
  | run i x =>
      obtain ⟨t, o, k, tr, r, hi, hans, rfl⟩ := step_run hs
      rw [List.getElem?_append_left (by rwa [List.length_set]), List.getElem?_set]
      split
      · rename_i hij
        subst hij
        cases hj.symm.trans hi
        exact ⟨_, if_pos hlt, rfl, .inr ⟨o, k, r, rfl, rfl, hans, rfl⟩⟩
      · exact ⟨th, hj, rfl, .inl rfl⟩
  | call id c =>
      obtain ⟨ns, -, rfl⟩ := step_call hs
      exact ⟨th, (List.getElem?_append_left hlt).trans hj, rfl, .inl rfl⟩
  | restart kept => exact hlife.elim
  | _ => cases hs; exact ⟨th, hj, rfl, .inl rfl⟩

theorem Leaves.history (hok : w.Leaves ns object hist e) (hs : World.step fuel w e = some w') :
    w'.shared.history ns.name object = w.shared.history ns.name object := by
  have hset {name o : Bytes} (v : Option Version) (hne : ¬ (name = ns.name ∧ o = object)) :
      (w.shared.setVersion name o v).history ns.name object = w.shared.history ns.name object := by
    obtain ⟨hname, ho, -⟩ | heq := w.shared.history_setVersion name o ns.name object v
    · exact absurd ⟨hname.symm, ho.symm⟩ hne
    · exact heq
  cases e with
  | run i x =>
      obtain ⟨t, o, k, tr, r, hi, -, rfl⟩ := step_run hs
      cases o
      case put name o v =>
        refine hset (some v) ?_
        rintro ⟨rfl, rfl⟩
        exact hok t v k tr hi
      case register key =>
        simp only [Shared.after, Shared.register]
        cases w.shared.inflight key <;> rfl
      all_goals rfl
  | call id c =>
      obtain ⟨_, -, rfl⟩ := step_call hs
      cases c <;> rfl
  | register name config =>
      cases hs
      simp only [Shared.registerNamespace]
      split <;> rfl
  | overwrite name o v => cases hs; exact hset v hok
  | restart kept => exact hok.elim
  | _ => cases hs; rfl

theorem registered_step (hns : ns ∈ w.shared.registry.states) (hlife : w.OneLife e)
    (hs : World.step fuel w e = some w') : ns ∈ w'.shared.registry.states :=
  (states_kept (.cons hlife hs .nil)).subset hns

omit [TagHash] in
theorem Since.moved {o : Op} {k : Resp o → Program Unit} {r : Resp o} {t : Task}
    (h : Since versions ns object hist ⟨t, .op o k, tr⟩) (hc : w.Calm versions ns object hist)
    (hth : th = ⟨t, k r, tr ++ [⟨o, r⟩]⟩) (hans : w.shared.Answers o r) :
    Since versions ns object hist th := by
  subst hth
  refine ⟨List.forall_mem_append.mpr ⟨h.trace, List.forall_mem_singleton.mpr ?_⟩, h.start, h.writes⟩
  exact hc.still.timely hans

section

variable (h : w.Lived versions fuel) (hns : ns ∈ w.shared.registry.states)
  (hetag : ns.config.consistency.isImmutable = false) (hetags : ByEtag versions ns object)

include h hns hetags

/-- A thread of the object that goes on was started since, and its operation is about the object. -/
theorem Calm.next (hc : w.Calm versions ns object hist) {o : Op} {k : Resp o → Program Unit}
    (hth : th ∈ w.threads) (hprog : th.prog = .op o k) (hhome : th.task.home = .of ns object) :
    Since versions ns object hist th ∧
      (w.lawOf versions).terms.guar ((outline (w.lawOf versions) fuel).at_ th) o ∧
      ((outline (w.lawOf versions) fuel).at_ th).Timely (w.lawOf versions) ns object hist := by
  have hsince : Since versions ns object hist th := by
    refine (hc.threads th hth hhome).resolve_left fun hended => ?_
    simp [Thread.ended, hprog] at hended
  have hwp := (h.sound.1.threads th hth).wp
  rw [hprog] at hwp
  exact ⟨hsince, hwp.1, h.timely hns hetags hth hhome hsince (hc.still.history ▸ List.suffix_rfl)
    List.prefix_rfl⟩

include hetag in
theorem Calm.recorded (hc : w.Calm versions ns object hist)
    {k : Resp (.metaPut ⟨ns.id, object⟩ m) → Program Unit} (hth : th ∈ w.threads)
    (hprog : th.prog = .op (.metaPut ⟨ns.id, object⟩ m) k) : IsCurrent hist m := by
  obtain ⟨hduties, hhoused⟩ := h.housed
  have hhome := hhoused.home_eq hns hth (pays_next hduties hth hprog).1
  obtain ⟨hsince, ⟨hdescribes, hput⟩, htimely⟩ := hc.next h hns hetags hth hprog hhome
  have hget := h.sound.2.get hns
  have hname : (w.shared.registry.universeOf versions).name ns.id = ns.name :=
    (Registry.knows_universeOf hget).name.symm
  rcases hput with hhot | hwrites | himm
  · change Held.hot _ ((w.shared.registry.universeOf versions).name ns.id) object m at hhot
    rw [hname] at hhot
    exact htimely.hot m hhot hdescribes
  · have htask : ((outline (w.lawOf versions) fuel).at_ th).task = th.task := Terms.ghost_task ..
    change Task.Writes ((w.shared.registry.universeOf versions).name ns.id) object m _ at hwrites
    rw [hname, htask] at hwrites
    exact hsince.writes m hwrites
  · exact absurd himm (Registry.mutable_universeOf hget hetag)

/-- A task that a thread of the object starts is one of the object, and what it is started with is
current. -/
theorem Calm.spawned (hc : w.Calm versions ns object hist) {task : Task}
    {k : Resp (.spawn task) → Program Unit} (hth : th ∈ w.threads) (hprog : th.prog = .op (.spawn task) k)
    (hhome : task.home = .of ns object) :
    Since versions ns object hist ((system fuel).begin task) := by
  obtain ⟨habout, -⟩ := pays_next h.housed.1 hth hprog
  obtain ⟨hsince, ⟨-, -, -, hanswered⟩, htimely⟩ := hc.next h hns hetags hth hprog (habout.1.symm.trans hhome)
  have hget := h.sound.2.get hns
  refine ⟨List.forall_mem_nil _, fun m v hm hv hnames => ?_, fun m hm => ?_⟩
  · exact htimely.hot m (hanswered _ _ m hm) ⟨v, (Registry.has_universeOf hget v).mpr hv, hnames⟩
  · have hfetches : task.fetches = true := habout.2.2
    have hm : task.Writes ns.name object m := hm
    cases task with
    | fetchGroup | readahead => cases hm
    | _ => cases hfetches

omit hns hetags in
theorem Calm.called {id : NamespaceId} {c : Call} {ns' : NamespaceState}
    (hok : w.Leaves ns object hist (.call id c)) (hns' : w.shared.registry.states[id]? = some ns')
    (hhome : (c.task ns').home = .of ns object) :
    Since versions ns object hist ((system fuel).begin (c.task ns')) := by
  obtain ⟨-, hhoused⟩ := h.housed
  have hid : id = ns.id := by
    have hkey : (c.task ns').home.key.namespace = ns.id := by rw [hhome]; rfl
    have hid' := hhoused.numbered id ns' hns'
    cases c <;> exact hid'.symm.trans hkey
  have hleaves := hok hid
  refine ⟨List.forall_mem_nil _, fun m v hm => ?_, fun m hm => ?_⟩
  · cases c <;> cases hm
  · cases c with
    | insert o etag data =>
        obtain ⟨-, rfl, hnames⟩ := hm
        exact ⟨_, hleaves rfl, hnames⟩
    | write o v populate =>
        obtain ⟨-, rfl, -⟩ := hm
        exact absurd rfl hleaves
    | _ => cases hm

include hetag in
/-- An event that leaves the object as it is keeps it so that all there is to know of it is its
current version. -/
theorem Calm.step (hc : w.Calm versions ns object hist) (hok : w.Leaves ns object hist e)
    (hs : World.step fuel w e = some w') : w'.Calm versions ns object hist := by
  refine ⟨⟨(hok.history hs).trans hc.still.history, fun entry hentry => ?_⟩, fun th hth hhome => ?_⟩
  · obtain hold | ⟨i, x, t, k, tr, -, hi⟩ := step_metas hs hentry
    · exact hc.still.metas entry hold
    · exact hc.recorded h hns hetag hetags (List.mem_of_getElem? hi) rfl
  · obtain ⟨j, hj⟩ := List.mem_iff_getElem?.mp hth
    obtain hold | ⟨o, k, r, tr, hold, hmoved, hans, -⟩ | ⟨i, t, task, k, tr, hi, rfl⟩ | ⟨id, c, ns', rfl,
        hns', -, rfl⟩ :=
      step_origin hs hj
    · exact hc.threads th (List.mem_of_getElem? hold) hhome
    · have hsince := (hc.next h hns hetags (List.mem_of_getElem? hold) rfl hhome).1
      exact .inr (hsince.moved hc hmoved hans)
    · exact .inr (hc.spawned h hns hetags (List.mem_of_getElem? hi) rfl hhome)
    · exact .inr (Calm.called h hok hns' hhome)

end

/-! ## What a read yields -/

end

end World

end Nestor
