import Nestor.Store.Lemmas.Clients

/-!
# The store serves what the store it wraps holds

A client that lets the requests for an object end before it changes the object, and lets the change
return before it reads the object again, sees the store it wraps: a read yields what `inner` holds,
whatever else goes on in the engine.
-/

namespace Nestor.Store

open Lib

variable {o : StoreOp} {call : Call} {th : Thread Task Op Resp} {changes : List Change} {w : World}
    {x : StoreChoice}

def Account.of (cl : Client) : Account :=
  cl.trace.foldl (fun a d => a.after d.1 d.2) .start

theorem Account.of_snoc (t : Request) (p q : StoreProgram Unit) (tr : List (Done StoreOp StoreResp))
    (r : StoreResp o) : Account.of ⟨t, p, tr ++ [⟨o, r⟩]⟩ = (Account.of ⟨t, q, tr⟩).after o r := by
  simp [Account.of]

/-- The request may change the object and has not returned yet. -/
def Busy (object : Bytes) (cl : Client) : Prop :=
  object ∈ cl.task.touches ∧ (Account.of cl).done = false

instance (object : Bytes) (cl : Client) : Decidable (Busy object cl) := instDecidableAnd

def objectOf : Call → Bytes
  | .get object _ _ | .head object | .insert object _ _ | .invalidate object | .write object _ _ => object

/-- The call changes nothing: it reads, or forgets what is cached. -/
def reads : Call → Bool
  | .get _ _ _ | .head _ | .invalidate _ => true
  | _ => false

section

variable (store : NestorStore) (versions : Bytes → Bytes → Version → Prop)

/-- The objects of the store are changed by nobody else, and no object is read while it is being
changed. -/
def Outside (c : Clients) : Event → Prop
  | .run i _ => ∀ t object v k tr, c.shared.threads[i]? ≠ some ⟨t, .op (.put store.ns.name object v) k, tr⟩
  | .call id call => id = store.ns.id → reads call = true ∧ ∀ cl ∈ c.threads, ¬ Busy (objectOf call) cl
  | .overwrite name _ _ => name ≠ store.ns.name
  | _ => True

/-- What a step of a request brings in is among the versions. -/
def Brings (w : World) : StoreOp → StoreChoice → Prop
  | .call c, _ => w.Brings versions (.call store.ns.id c)
  | o, x => ∀ r changes, inner w.shared store.ns.name o x = some (r, changes) →
      ∀ l v, (l, some v) ∈ changes → versions store.ns.name l v

/-- One thing at a time is done to an object: a request that may change it starts when no other does
and all tasks of the object have ended. -/
def Serial (c : Clients) : StoreEvent → Prop
  | .engine e => c.shared.Brings versions e ∧ c.shared.OneLife e ∧ Outside store c e
  | .request r => ∀ object ∈ r.touches, (∀ cl ∈ c.threads, ¬ Busy object cl) ∧
      ∀ th ∈ c.shared.threads, th.task.home = .of store.ns object → th.ended = true
  | .run i x => ∀ t o k tr, c.threads[i]? = some ⟨t, .op o k, tr⟩ → Brings store versions c.shared o x

variable (fuel : Nat) (object : Bytes)

structure AtWork (w : World) (cl : Client) : Prop where
  /-- Of the tasks of the object only the one the request waits for goes on. -/
  quiet : ∀ j th, w.threads[j]? = some th → th.task.home = .of store.ns object →
    th.ended = true ∨ ∃ call, (Account.of cl).running = some (j, call)
  running : ∀ j call, (Account.of cl).running = some (j, call) → IsOwn call ∧
    ∃ th, w.threads[j]? = some th ∧ th.task = call.task store.ns ∧
      (call = .invalidate object → ⟨.metaRemove ⟨store.ns.id, object⟩, ()⟩ ∈ th.trace →
        w.shared.metas ⟨store.ns.id, object⟩ = none)
  wrote : ∀ v, (Account.of cl).wrote = some (object, v) →
    (w.shared.history store.ns.name object).head? = some (some v)

/-- What is true of an object at all times: unless a request has changed it and not invalidated it
yet, all there is to know of it is its current version. -/
structure Tidy [TagHash] (c : Clients) : Prop where
  lived : c.shared.Lived versions fuel
  registered : store.ns ∈ c.shared.shared.registry.states
  sound : ∀ cl ∈ c.threads, wp (Account.spec cl.task.touches) cl.prog (fun a _ => a.done = true) (.of cl)
  calm : (∀ cl ∈ c.threads, Busy object cl → object ∉ (Account.of cl).stale) →
    c.shared.Calm versions store.ns object (c.shared.shared.history store.ns.name object)
  work : ∀ cl ∈ c.threads, Busy object cl → AtWork store object c.shared cl
  alone : ∀ (i j : Nat) cl cl', c.threads[i]? = some cl → c.threads[j]? = some cl' → Busy object cl →
    Busy object cl' → i = j

end

section

variable [TagHash] {store : NestorStore} {versions : Bytes → Bytes → Version → Prop} {fuel : Nat}
  {object : Bytes} {c : Clients} {w' : World} {e : Event}

omit [TagHash] in
theorem call_home_eq {ns : NamespaceState} (h : (call.task ns).home = .of store.ns object) :
    ns.id = store.ns.id ∧ objectOf call = object := by
  have hkey : (call.task ns).home.key = ⟨store.ns.id, object⟩ := by rw [h]; rfl
  cases call <;> exact (ObjectKey.mk.injEq ..).mp hkey

omit [TagHash] in
theorem Outside.leaves (h : Outside store c e) (hlife : c.shared.OneLife e) (object : Bytes)
    (hist : List (Option Version)) : c.shared.Leaves store.ns object hist e := by
  cases e with
  | run i x => exact fun t v k tr => h t object v k tr
  | call id call =>
      intro hid
      obtain ⟨hreads, -⟩ := h hid
      cases call with
      | insert | write => cases hreads
      | _ => trivial
  | overwrite name o v => exact fun heq => h heq.1
  | restart kept => exact hlife.elim
  | _ => trivial

section

variable (h : Tidy store versions fuel object c)
  (hetag : store.ns.config.consistency.isImmutable = false) (hetags : World.ByEtag versions store.ns object)

include h

theorem Tidy.own {cl : Client} (hcl : cl ∈ c.threads) (hbusy : Busy object cl)
    {i : Nat} {o : Op} {k : Resp o → Program Unit} (hi : c.shared.threads[i]? = some th)
    (hprog : th.prog = .op o k) (hhome : th.task.home = .of store.ns object) :
    ∃ call, (Account.of cl).running = some (i, call) ∧ IsOwn call ∧ th.task = call.task store.ns := by
  have hwork := h.work cl hcl hbusy
  obtain hended | ⟨call, hrunning⟩ := hwork.quiet i th hi hhome
  · simp [Thread.ended, hprog] at hended
  · obtain ⟨hown, th', hth', htask, -⟩ := hwork.running i call hrunning
    cases hi.symm.trans hth'
    exact ⟨call, hrunning, hown, htask⟩

include hetag

theorem Tidy.starts_nothing (hth : th ∈ c.shared.threads) (hown : IsOwn call)
    (htask : th.task = call.task store.ns) {o : Op} {k : Resp o → Program Unit} (hprog : th.prog = .op o k) :
    o.tasks = [] := by
  have hruns := (h.lived.housed.1.threads th hth).runs
  rw [htask, hprog] at hruns
  exact ((own_starts_nothing hetag hown).rest hruns).1

/-- Where the object is being invalidated and no metadata is recorded, none will be. -/
theorem Tidy.metas_step {cl : Client} (hcl : cl ∈ c.threads) (hbusy : Busy object cl) {j : Nat}
    (hrunning : (Account.of cl).running = some (j, .invalidate object))
    (hs : World.step fuel c.shared e = some w') (hnone : c.shared.shared.metas ⟨store.ns.id, object⟩ = none) :
    w'.shared.metas ⟨store.ns.id, object⟩ = none := by
  refine Option.eq_none_iff_forall_ne_some.mpr fun entry hentry => ?_
  obtain hold | ⟨i, x, t, k, tr, -, hi⟩ := World.step_metas hs hentry
  · cases hnone.symm.trans hold
  · have hmem := List.mem_of_getElem? hi
    obtain ⟨hduties, hhoused⟩ := h.lived.housed
    have hhome := hhoused.home_eq h.registered hmem (World.pays_next hduties hmem rfl).1
    obtain ⟨call, hcall, -, htask⟩ := h.own hcl hbusy hi rfl hhome
    cases hrunning.symm.trans hcall
    have hruns := (hduties.threads _ hmem).runs
    rw [htask] at hruns
    exact ((invalidate_only fuel hetag object).rest hruns).1.2 _ _ rfl

include hetags

/-- An event that leaves the object as it is, and starts no task of it while a request is at it. -/
theorem Tidy.world (hbrings : c.shared.Brings versions e) (hlife : c.shared.OneLife e)
    (hleaves : c.shared.Leaves store.ns object (c.shared.shared.history store.ns.name object) e)
    (hfree : ∀ id call, e = .call id call → id = store.ns.id → objectOf call = object →
      ∀ cl ∈ c.threads, ¬ Busy object cl)
    (hs : World.step fuel c.shared e = some w') : Tidy store versions fuel object ⟨w', c.threads⟩ := by
  have hhist := hleaves.history hs
  refine ⟨h.lived.step ⟨hbrings, hlife⟩ hs, World.registered_step h.registered hlife hs, h.sound,
    fun hclean => ?_, fun cl hcl hbusy => ⟨fun j th hj hhome => ?_, fun j call hrunning => ?_,
    fun v hv => ?_⟩, h.alone⟩
  · rw [hhist]
    exact (h.calm hclean).step h.lived h.registered hetag hetags hleaves hs
  · obtain hold | ⟨o, k, r, tr, hold, -⟩ | ⟨i, t, task, k, tr, hi, rfl⟩ | ⟨id, call, ns, rfl, hns, -, rfl⟩ :=
      World.step_origin hs hj
    · exact (h.work cl hcl hbusy).quiet j th hold hhome
    · obtain ⟨call, hcall, -⟩ := h.own hcl hbusy hold rfl hhome
      exact .inr ⟨call, hcall⟩
    · have hmem := List.mem_of_getElem? hi
      have habout := (World.pays_next h.lived.housed.1 hmem rfl).1
      obtain ⟨call, -, hown, htask⟩ := h.own hcl hbusy hi rfl (habout.1.symm.trans hhome)
      cases h.starts_nothing hetag hmem hown htask rfl
    · obtain ⟨hid, hobject⟩ := call_home_eq hhome
      exact absurd hbusy (hfree id call rfl ((h.lived.housed.2.numbered id ns hns).symm.trans hid)
        hobject cl hcl)
  · obtain ⟨hown, th, hj, htask, hcleared⟩ := (h.work cl hcl hbusy).running j call hrunning
    obtain ⟨th', hj', htask', hstep⟩ := World.step_stays hlife hs hj
    refine ⟨hown, th', hj', htask'.trans htask, ?_⟩
    rintro rfl hremoved
    obtain rfl | ⟨o, k, r, -, rfl, -, hshared⟩ := hstep
    · exact h.metas_step hetag hcl hbusy hrunning hs (hcleared rfl hremoved)
    · rcases List.mem_append.mp hremoved with hremoved | hnow
      · exact h.metas_step hetag hcl hbusy hrunning hs (hcleared rfl hremoved)
      · cases List.mem_singleton.mp hnow
        rw [hshared]
        exact Function.update_self ..
  · rw [hhist]
    exact (h.work cl hcl hbusy).wrote v hv

omit hetag hetags in
theorem Tidy.request {r : Request} (hok : Serial store versions c (.request r)) :
    Tidy store versions fuel object ⟨c.shared, c.threads ++ [(system fuel store).begin r]⟩ := by
  have hnew {cl : Client} (hcl : cl ∈ c.threads ++ [(system fuel store).begin r]) :
      cl ∈ c.threads ∨ cl = (system fuel store).begin r :=
    (List.mem_append.mp hcl).imp_right List.mem_singleton.mp
  refine { h with
    sound := fun cl hcl => ?_
    calm := fun hclean => h.calm fun cl hcl => hclean cl (List.mem_append_left _ hcl)
    work := fun cl hcl hbusy => ?_
    alone := fun i j cl cl' hi hj hbusy hbusy' => ?_ }
  · obtain hold | rfl := hnew hcl
    · exact h.sound cl hold
    · exact Account.program_wp store r
  · obtain hold | rfl := hnew hcl
    · exact h.work cl hold hbusy
    · -- the new request has done nothing yet
      refine ⟨fun j th hj hhome => .inl ((hok object hbusy.1).2 th (List.mem_of_getElem? hj) hhome), ?_, ?_⟩
      · rintro j call ⟨⟩
      · rintro v ⟨⟩
  · rw [List.getElem?_append] at hi hj
    split at hi <;> split at hj
    · exact h.alone i j cl cl' hi hj hbusy hbusy'
    · obtain rfl := List.mem_singleton.mp (List.mem_of_getElem? hj)
      exact absurd hbusy ((hok object hbusy'.1).1 cl (List.mem_of_getElem? hi))
    · obtain rfl := List.mem_singleton.mp (List.mem_of_getElem? hi)
      exact absurd hbusy' ((hok object hbusy.1).1 cl' (List.mem_of_getElem? hj))
    · have hi' := (List.getElem?_eq_some_iff.mp hi).1
      have hj' := (List.getElem?_eq_some_iff.mp hj).1
      simp only [List.length_singleton] at hi' hj'
      omega

theorem Tidy.engine (hok : Serial store versions c (.engine e))
    (hs : World.step fuel c.shared e = some w') : Tidy store versions fuel object ⟨w', c.threads⟩ := by
  obtain ⟨hbrings, hlife, houtside⟩ := hok
  refine h.world hetag hetags hbrings hlife (houtside.leaves hlife object _) ?_ hs
  rintro id call rfl hid rfl
  exact (houtside hid).2

end

/-! ## Steps of a request -/

theorem lived_change {ns : Bytes} (h : w.Lived versions fuel)
    (hbrings : ∀ l v, (l, some v) ∈ changes → versions ns l v) :
    World.Lived versions fuel ⟨change ns w.shared changes, w.threads⟩ := by
  induction changes generalizing w with
  | nil => exact h
  | cons p changes ih =>
      have hstep : World.Lived versions fuel ⟨w.shared.setVersion ns p.1 p.2, w.threads⟩ := by
        refine h.step (e := .overwrite ns p.1 p.2) ⟨fun v hv => ?_, trivial⟩ rfl
        exact hbrings p.1 v (hv ▸ List.mem_cons_self)
      exact ih hstep fun l v hp => hbrings l v (List.mem_cons_of_mem _ hp)

theorem Tidy.changed (h : Tidy store versions fuel object c)
    (hne : ∀ p ∈ changes, p.1 ≠ object)
    (hbrings : ∀ l v, (l, some v) ∈ changes → versions store.ns.name l v) :
    Tidy store versions fuel object
      ⟨⟨change store.ns.name c.shared.shared changes, c.shared.threads⟩, c.threads⟩ := by
  obtain ⟨hmetas, hregistry⟩ := change_frame store.ns.name c.shared.shared changes
  have hhist : (change store.ns.name c.shared.shared changes).history store.ns.name object = _ :=
    history_change_of_ne hne
  refine ⟨lived_change h.lived hbrings, hregistry ▸ h.registered, h.sound, fun hclean => ?_,
    fun cl hcl hbusy => ?_, h.alone⟩
  · obtain ⟨⟨-, hcurrent⟩, hthreads⟩ := h.calm hclean
    rw [hhist]
    exact ⟨⟨hhist, by rw [hmetas]; exact hcurrent⟩, hthreads⟩
  · obtain ⟨hquiet, hrunning, hwrote⟩ := h.work cl hcl hbusy
    exact ⟨hquiet, by rw [hmetas]; exact hrunning, by rw [hhist]; exact hwrote⟩

variable {cl cl' : Client} {i : Nat}

omit [TagHash] in
theorem getElem?_set_cases {j : Nat} {cl₂ : Client} (h : (c.threads.set i cl')[j]? = some cl₂) :
    j = i ∧ cl₂ = cl' ∨ j ≠ i ∧ c.threads[j]? = some cl₂ := by
  rw [List.getElem?_set] at h
  split at h
  · rename_i hij
    split at h
    · cases h
      exact .inl ⟨hij.symm, rfl⟩
    · cases h
  · rename_i hij
    exact .inr ⟨fun heq => hij heq.symm, h⟩

theorem Tidy.sound_set (h : Tidy store versions fuel object c)
    (hsound : wp (Account.spec cl'.task.touches) cl'.prog (fun a _ => a.done = true) (.of cl')) :
    ∀ cl ∈ c.threads.set i cl', wp (Account.spec cl.task.touches) cl.prog (fun a _ => a.done = true)
    (.of cl) := by
  intro cl hcl
  obtain ⟨j, hj⟩ := List.mem_iff_getElem?.mp hcl
  obtain ⟨-, rfl⟩ | ⟨-, hj⟩ := getElem?_set_cases hj
  · exact hsound
  · exact h.sound cl (List.mem_of_getElem? hj)

theorem Tidy.of_idle (h : Tidy store versions fuel object ⟨w', c.threads⟩) (hi : c.threads[i]? = some cl)
    (hidle : object ∉ cl.task.touches) (htask : cl'.task = cl.task)
    (hsound : wp (Account.spec cl'.task.touches) cl'.prog (fun a _ => a.done = true) (.of cl')) :
    Tidy store versions fuel object ⟨w', c.threads.set i cl'⟩ := by
  have hback {j : Nat} {cl₂ : Client} (hj : (c.threads.set i cl')[j]? = some cl₂) (hbusy : Busy object cl₂) :
      c.threads[j]? = some cl₂ := by
    obtain ⟨-, rfl⟩ | ⟨-, hj⟩ := getElem?_set_cases hj
    · exact absurd hbusy.1 (htask ▸ hidle)
    · exact hj
  refine { h with
    sound := h.sound_set hsound
    calm := fun hclean => h.calm fun cl₂ hcl hbusy => hclean cl₂ ?_ hbusy
    work := fun cl₂ hcl hbusy => h.work cl₂ ?_ hbusy
    alone := fun j j' cl₁ cl₂ hj hj' hbusy hbusy' =>
      h.alone j j' cl₁ cl₂ (hback hj hbusy) (hback hj' hbusy') hbusy hbusy' }
  · obtain ⟨j, hj⟩ := List.mem_iff_getElem?.mp hcl
    refine List.mem_of_getElem? (i := j) ((List.getElem?_set_ne ?_).trans hj)
    rintro rfl
    cases hi.symm.trans hj
    exact hidle hbusy.1
  · obtain ⟨j, hj⟩ := List.mem_iff_getElem?.mp hcl
    exact List.mem_of_getElem? (hback hj hbusy)

theorem Tidy.of_busy (h : Tidy store versions fuel object c) (hi : c.threads[i]? = some cl)
    (hbusy : Busy object cl) (hlived : w'.Lived versions fuel)
    (hregistered : store.ns ∈ w'.shared.registry.states)
    (hsound : wp (Account.spec cl'.task.touches) cl'.prog (fun a _ => a.done = true) (.of cl'))
    (hcalm : (Busy object cl' → object ∉ (Account.of cl').stale) →
      w'.Calm versions store.ns object (w'.shared.history store.ns.name object))
    (hwork : AtWork store object w' cl') : Tidy store versions fuel object ⟨w', c.threads.set i cl'⟩ := by
  -- no other request is at the object
  have honly {j : Nat} {cl₂ : Client} (hj : (c.threads.set i cl')[j]? = some cl₂) (hbusy₂ : Busy object cl₂) :
      j = i ∧ cl₂ = cl' := by
    obtain hsame | ⟨hne, hj⟩ := getElem?_set_cases hj
    · exact hsame
    · exact absurd (h.alone j i cl₂ cl hj hi hbusy₂ hbusy) hne
  refine ⟨hlived, hregistered, h.sound_set hsound, fun hclean => hcalm (hclean cl' ?_),
    fun cl₂ hcl hbusy₂ => ?_, fun j j' cl₁ cl₂ hj hj' hbusy₁ hbusy₂ => (honly hj hbusy₁).1.trans
    (honly hj' hbusy₂).1.symm⟩
  · exact List.mem_set (List.getElem?_eq_some_iff.mp hi).1 cl'
  · obtain ⟨j, hj⟩ := List.mem_iff_getElem?.mp hcl
    obtain ⟨-, rfl⟩ := honly hj hbusy₂
    exact hwork

theorem Tidy.calm_of (h : Tidy store versions fuel object c) (hi : c.threads[i]? = some cl)
    (hbusy : Busy object cl) (hclean : object ∉ (Account.of cl).stale) :
    c.shared.Calm versions store.ns object (c.shared.shared.history store.ns.name object) := by
  refine h.calm fun cl₂ hcl hbusy₂ => ?_
  obtain ⟨j, hj⟩ := List.mem_iff_getElem?.mp hcl
  obtain rfl := h.alone j i cl₂ cl hj hi hbusy₂ hbusy
  cases hi.symm.trans hj
  exact hclean

omit [TagHash] in
theorem AtWork.ended (h : AtWork store object w cl) (hnone : (Account.of cl).running = none) {j : Nat}
    (hj : w.threads[j]? = some th) (hhome : th.task.home = .of store.ns object) :
    th.ended = true := by
  refine (h.quiet j th hj hhome).resolve_right ?_
  rintro ⟨call, hrunning⟩
  cases hnone.symm.trans hrunning

section

variable {t : Request} {tr : List (Done StoreOp StoreResp)} (h : Tidy store versions fuel object c)
  (hetag : store.ns.config.consistency.isImmutable = false) (hetags : World.ByEtag versions store.ns object)

include h in
theorem Tidy.sound_next {k : StoreResp o → StoreProgram Unit}
    (hi : c.threads[i]? = some ⟨t, .op o k, tr⟩) (r : StoreResp o) (hr : Account.rely o r) :
    wp (Account.spec t.touches) (k r) (fun a _ => a.done = true) (.of ⟨t, k r, tr ++ [⟨o, r⟩]⟩) := by
  rw [Account.of_snoc t (k r) (.op o k) tr r]
  exact (h.sound _ (List.mem_of_getElem? hi)).2 r hr

include h in
/-- The calls of a request are about what it may change, and leave the object as it is. -/
theorem Tidy.leaves {k : Nat → StoreProgram Unit} (hi : c.threads[i]? = some ⟨t, .op (.call call) k, tr⟩) :
    objectOf call ∈ t.touches ∧ IsOwn call ∧
      c.shared.Leaves store.ns object (c.shared.shared.history store.ns.name object)
      (.call store.ns.id call) := by
  have hmem := List.mem_of_getElem? hi
  obtain ⟨⟨hdone, -, hcalls⟩, -⟩ := h.sound _ hmem
  cases call with
  | invalidate l => exact ⟨hcalls, trivial, fun _ => trivial⟩
  | insert l etag data =>
      refine ⟨hcalls.1, trivial, ?_⟩
      rintro - rfl
      exact (h.work _ hmem ⟨hcalls.1, hdone⟩).wrote _ hcalls.2.1
  | _ => cases hcalls

include h hetag hetags in
theorem Tidy.called {k : Nat → StoreProgram Unit}
    (hi : c.threads[i]? = some ⟨t, .op (.call call) k, tr⟩)
    (hbrings : c.shared.Brings versions (.call store.ns.id call))
    (hs : World.step fuel c.shared (.call store.ns.id call) = some w') :
    Tidy store versions fuel object ⟨w', c.threads.set i
      ⟨t, k c.shared.threads.length, tr ++ [⟨.call call, c.shared.threads.length⟩]⟩⟩ := by
  have hmem := List.mem_of_getElem? hi
  obtain ⟨⟨hdone, hnone, -⟩, -⟩ := h.sound _ hmem
  have hafter := Account.of_snoc t (k c.shared.threads.length) (.op (.call call) k) tr
    (o := .call call) c.shared.threads.length
  have hsound := h.sound_next hi c.shared.threads.length trivial
  obtain ⟨htouches, hown, hleaves⟩ := h.leaves hi
  by_cases hobject : object ∈ t.touches
  · have hbusy : Busy object ⟨t, .op (.call call) k, tr⟩ := ⟨hobject, hdone⟩
    have hwork := h.work _ hmem hbusy
    have hhist := hleaves.history hs
    have hregistered := World.registered_step (e := .call store.ns.id call) h.registered trivial hs
    have hlast : w'.threads = c.shared.threads ++ [(World.system fuel).begin (call.task store.ns)] := by
      obtain ⟨ns, hns, rfl⟩ := World.step_call hs
      cases hns.symm.trans (h.lived.sound.2.get h.registered)
      rfl
    refine h.of_busy hi hbusy (h.lived.step ⟨hbrings, trivial⟩ hs) hregistered hsound (fun hclean => ?_)
      ⟨fun j th hj hhome => ?_, fun j call' hrunning => ?_, fun v hv => ?_⟩
    · rw [hafter] at hclean
      rw [hhist]
      exact (h.calm_of hi hbusy (hclean ⟨hobject, hafter ▸ hdone⟩)).step h.lived h.registered hetag
        hetags hleaves hs
    · rw [hlast, List.getElem?_append] at hj
      split at hj
      · exact .inl (hwork.ended hnone hj hhome)
      · rename_i hge
        rw [List.getElem?_singleton] at hj
        split at hj
        · rename_i hzero
          obtain rfl : j = c.shared.threads.length := by omega
          exact .inr ⟨call, by rw [hafter]; rfl⟩
        · cases hj
    · rw [hafter] at hrunning
      cases hrunning
      refine ⟨hown, _, by rw [hlast]; exact List.getElem?_concat_length, rfl, fun _ hremoved => ?_⟩
      cases hremoved
    · rw [hafter] at hv
      rw [hhist]
      exact hwork.wrote v hv
  · refine Tidy.of_idle (h.world hetag hetags hbrings trivial hleaves ?_ hs) hi hobject rfl hsound
    rintro _ _ ⟨⟩ _ rfl
    exact absurd htouches hobject

include h hetag in
theorem Tidy.joined {n : Nat} {k : Unit → StoreProgram Unit}
    (hi : c.threads[i]? = some ⟨t, .op (.join n) k, tr⟩) (hn : c.shared.threads[n]? = some th)
    (hended : th.ended = true) :
    Tidy store versions fuel object ⟨c.shared, c.threads.set i ⟨t, k (), tr ++ [⟨.join n, ()⟩]⟩⟩ := by
  have hmem := List.mem_of_getElem? hi
  obtain ⟨⟨hdone, call, hrunning⟩, -⟩ := h.sound _ hmem
  have hafter := Account.of_snoc t (k ()) (.op (.join n) k) tr (o := .join n) ()
  have hsound := h.sound_next hi () trivial
  obtain ⟨hnone, hwrote, hdone', hcleared⟩ := Account.returned_spec (.of ⟨t, .op (.join n) k, tr⟩)
  by_cases hobject : object ∈ t.touches
  · have hbusy : Busy object ⟨t, .op (.join n) k, tr⟩ := ⟨hobject, hdone⟩
    have hwork := h.work _ hmem hbusy
    have hquiet (j : Nat) (th' : Thread Task Op Resp) (hj : c.shared.threads[j]? = some th')
        (hhome : th'.task.home = .of store.ns object) : th'.ended = true := by
      obtain hended' | ⟨call', hrunning'⟩ := hwork.quiet j th' hj hhome
      · exact hended'
      · cases hrunning.symm.trans hrunning'
        cases hn.symm.trans hj
        exact hended
    refine h.of_busy hi hbusy h.lived h.registered hsound (fun hclean => ?_)
      ⟨fun j th' hj hhome => .inl (hquiet j th' hj hhome), fun j call' hrunning' => ?_, fun v hv => ?_⟩
    · by_cases hstale : object ∈ (Account.of ⟨t, .op (.join n) k, tr⟩).stale
      · -- the object has been invalidated, and no task of it goes on
        rw [hafter] at hclean
        obtain ⟨j, hrunning'⟩ := hcleared object hstale (hclean ⟨hobject, hafter ▸ hdone'.trans hdone⟩)
        cases hrunning.symm.trans hrunning'
        obtain ⟨-, th', hn', htask, hremoved⟩ := hwork.running n _ hrunning
        cases hn.symm.trans hn'
        have hruns := (h.lived.housed.1.threads th (List.mem_of_getElem? hn)).runs
        obtain ⟨u, hpure⟩ := Thread.prog_of_ended hended
        rw [htask, hpure] at hruns
        have hmetas := hremoved rfl (removed_of_ended fuel hetag hruns)
        refine ⟨⟨rfl, fun entry hentry => ?_⟩, fun th' hth' hhome => .inl ?_⟩
        · cases hmetas.symm.trans hentry
        · obtain ⟨j, hj⟩ := List.mem_iff_getElem?.mp hth'
          exact hquiet j th' hj hhome
      · exact h.calm_of hi hbusy hstale
    · rw [hafter] at hrunning'
      cases hnone.symm.trans hrunning'
    · rw [hafter] at hv
      exact hwork.wrote v (hwrote.symm.trans hv)
  · exact Tidy.of_idle h hi hobject rfl hsound

include h in
theorem Tidy.answered {k : StoreResp o → StoreProgram Unit} {r : StoreResp o}
    (hi : c.threads[i]? = some ⟨t, .op o k, tr⟩)
    (hr : inner c.shared.shared store.ns.name o x = some (r, changes))
    (hbrings : ∀ l v, (l, some v) ∈ changes → versions store.ns.name l v) :
    Tidy store versions fuel object ⟨⟨change store.ns.name c.shared.shared changes, c.shared.threads⟩,
      c.threads.set i ⟨t, k r, tr ++ [⟨o, r⟩]⟩⟩ := by
  have hmem := List.mem_of_getElem? hi
  obtain ⟨⟨hdone, hsettles⟩, -⟩ := h.sound _ hmem
  have hafter := Account.of_snoc t (k r) (.op o k) tr r
  have hbooked := inner_booked hr (.of ⟨t, .op o k, tr⟩)
  have hsound := h.sound_next hi r hbooked.rely
  obtain ⟨hnone, htouches⟩ := hbooked.touches _ hsettles
  by_cases hobject : object ∈ t.touches
  · have hbusy : Busy object ⟨t, .op o k, tr⟩ := ⟨hobject, hdone⟩
    have hwork := h.work _ hmem hbusy
    obtain ⟨-, hregistry⟩ := change_frame store.ns.name c.shared.shared changes
    refine h.of_busy hi hbusy (lived_change h.lived hbrings) (hregistry ▸ h.registered) hsound
      (fun hclean => ?_) ⟨fun j th hj hhome => .inl (hwork.ended hnone hj hhome), fun j call hrunning => ?_,
      fun v hv => ?_⟩
    · rw [Busy, hafter, hbooked.stale] at hclean
      obtain hsame | ⟨rfl, hnil⟩ := hbooked.last
      · obtain ⟨hchanged, hstale⟩ := not_or.mp (mt List.mem_append.mpr (hclean ⟨hobject, hsame.trans hdone⟩))
        refine (h.changed (fun p hp heq => hchanged ?_) hbrings).calm_of hi hbusy hstale
        exact List.mem_map.mpr ⟨p, hp, heq⟩
      · refine h.calm_of hi hbusy ?_
        rw [hnil _ hsettles]
        exact List.not_mem_nil
    · rw [hafter, hbooked.running] at hrunning
      cases hnone.symm.trans hrunning
    · rw [hafter] at hv
      obtain rfl | ⟨rfl, hold⟩ := hbooked.wrote object v hv
      · exact head_change_singleton (some v)
      · exact hwork.wrote v hold
  · refine Tidy.of_idle (h.changed (fun p hp heq => hobject (heq ▸ htouches p hp)) hbrings) hi
      hobject rfl hsound

include h hetag hetags in
theorem Tidy.step {e : StoreEvent} {c' : Clients} (hok : Serial store versions c e)
    (hs : step fuel store c e = some c') :
    Tidy store versions fuel object c' := by
  cases e with
  | engine e =>
      obtain ⟨w', hw, rfl⟩ := Option.map_eq_some_iff.mp hs
      exact h.engine hetag hetags hok hw
  | request r =>
      cases hs
      exact h.request hok
  | run i x =>
      obtain ⟨t, o, k, tr, r, w', ts, hi, hr, rfl⟩ := System.resume_cases hs
      obtain ⟨rfl, hmoves⟩ := respond_spec hr
      have hbrings := hok t o k tr hi
      rw [List.map_nil, List.append_nil]
      cases o
      case call call =>
        obtain ⟨rfl, hw⟩ := hmoves
        exact h.called hetag hetags hi hbrings hw
      case join n =>
        obtain ⟨rfl, th, hn, hended⟩ := hmoves
        exact h.joined hetag hi hn hended
      all_goals
        obtain ⟨changes, hinner, rfl⟩ := hmoves
        exact h.answered hi hinner (hbrings r changes hinner)

end

theorem Tidy.start (h : w.Lived versions fuel) (hns : store.ns ∈ w.shared.registry.states)
    (hnil : w.threads = []) (object : Bytes) : Tidy store versions fuel object ⟨w, []⟩ where
  lived := h
  registered := hns
  sound := List.forall_mem_nil _
  calm _ := ⟨⟨rfl, fun entry hentry => by cases (h.untouched hnil _).symm.trans hentry⟩,
    fun th hth => absurd (hnil ▸ hth) List.not_mem_nil⟩
  work := List.forall_mem_nil _
  alone i j cl cl' hi := by cases hi

/-! ## Reads -/

/-- A read that was called when the object had the history. The object keeps it as long as the read
goes on. -/
def Reading (store : NestorStore) (versions : Bytes → Bytes → Version → Prop) (object : Bytes)
    (request : ReadRange) (policy : FetchPolicy) (hist : List (Option Version)) (j : Nat) (c : Clients) :
    Prop :=
  ∃ th, c.shared.threads[j]? = some th ∧ th.task = .get store.ns object request policy ∧
    World.Since versions store.ns object hist th ∧ hist <:+ c.shared.shared.history store.ns.name object ∧
    (th.ended = false → c.shared.shared.history store.ns.name object = hist)

variable {request : ReadRange} {policy : FetchPolicy} {hist : List (Option Version)} {j : Nat}

theorem Tidy.idle (h : Tidy store versions fuel object c) (hj : c.shared.threads[j]? = some th)
    (htask : th.task = .get store.ns object request policy) (hended : th.ended = false) :
    ∀ cl ∈ c.threads, ¬ Busy object cl := by
  intro cl hcl hbusy
  have hhome : th.task.home = .of store.ns object := by rw [htask]; rfl
  obtain hended' | ⟨call, hrunning⟩ := (h.work cl hcl hbusy).quiet j th hj hhome
  · cases hended.symm.trans hended'
  · obtain ⟨hown, th', hj', htask', -⟩ := (h.work cl hcl hbusy).running j call hrunning
    cases hj.symm.trans hj'
    rw [htask] at htask'
    cases call with
    | get => cases hown
    | _ => cases htask'

theorem Reading.engine (h : Tidy store versions fuel object c)
    (hr : Reading store versions object request policy hist j c) {cs : List (Client)}
    (hlife : c.shared.OneLife e)
    (hleaves : c.shared.Leaves store.ns object (c.shared.shared.history store.ns.name object) e)
    (hs : World.step fuel c.shared e = some w') :
    Reading store versions object request policy hist j ⟨w', cs⟩ := by
  obtain ⟨th, hj, htask, hsince, hsuffix, hsame⟩ := hr
  have hhist := hleaves.history hs
  obtain ⟨th', hj', htask', rfl | ⟨o, k, r, hth, rfl, hans, -⟩⟩ := World.step_stays hlife hs hj
  · exact ⟨th', hj', htask, hsince, hhist ▸ hsuffix, fun hended => hhist.trans (hsame hended)⟩
  · have hended : th.ended = false := by rw [hth]; rfl
    have hcalm := h.calm fun cl hcl hbusy => absurd hbusy (h.idle hj htask hended cl hcl)
    rw [hsame hended] at hcalm
    rw [hth] at hsince
    exact ⟨_, hj', htask, hsince.moved hcalm rfl hans, hhist ▸ hsuffix, fun _ => hhist.trans (hsame hended)⟩

theorem Reading.changed (h : Tidy store versions fuel object c)
    (hr : Reading store versions object request policy hist j c) {t : Request}
    {tr : List (Done StoreOp StoreResp)} {k : StoreResp o → StoreProgram Unit}
    {r : StoreResp o} {cs : List (Client)} (hi : c.threads[i]? = some ⟨t, .op o k, tr⟩)
    (hinner : inner c.shared.shared store.ns.name o x = some (r, changes)) :
    Reading store versions object request policy hist j
      ⟨⟨change store.ns.name c.shared.shared changes, c.shared.threads⟩, cs⟩ := by
  obtain ⟨th, hj, htask, hsince, hsuffix, hsame⟩ := hr
  refine ⟨th, hj, htask, hsince, hsuffix.trans (suffix_change ..), fun hended => ?_⟩
  have hmem := List.mem_of_getElem? hi
  obtain ⟨⟨hdone, hsettles⟩, -⟩ := h.sound _ hmem
  obtain ⟨-, htouches⟩ := (inner_booked hinner (.of ⟨t, .op o k, tr⟩)).touches _ hsettles
  refine (history_change_of_ne fun p hp heq => ?_).trans (hsame hended)
  exact h.idle hj htask hended _ hmem ⟨heq ▸ htouches p hp, hdone⟩

theorem Reading.step (h : Tidy store versions fuel object c)
    (hr : Reading store versions object request policy hist j c) {e : StoreEvent} {c' : Clients}
    (hok : Serial store versions c e) (hs : step fuel store c e = some c') :
    Reading store versions object request policy hist j c' := by
  cases e with
  | engine e =>
      obtain ⟨w', hw, rfl⟩ := Option.map_eq_some_iff.mp hs
      exact hr.engine h hok.2.1 (hok.2.2.leaves hok.2.1 object _) hw
  | request r =>
      cases hs
      exact hr
  | run i x =>
      obtain ⟨t, o, k, tr, r, w', ts, hi, hresp, rfl⟩ := System.resume_cases hs
      obtain ⟨rfl, hmoves⟩ := respond_spec hresp
      cases o
      case call call =>
        have hlife : c.shared.OneLife (.call store.ns.id call) := trivial
        exact hr.engine h hlife (h.leaves hi).2.2 hmoves.2
      case join n =>
        obtain ⟨rfl, -⟩ := hmoves
        exact hr
      all_goals
        obtain ⟨changes, hinner, rfl⟩ := hmoves
        exact hr.changed h hi hinner

end

section

open Sample

end

end Nestor.Store
