import Nestor.Fetch.Lemmas.Pending
import Nestor.Fetch.Theorems

/-!
# One fetch for a block

However the calls of `schedule` and their fetch groups interleave, a block of the object is handed
to one fetch group at most, and every handle for it resolves to a block in the cache. Past the end
of the object there is no block to cache; such a key may be handed out again.
-/

namespace Nestor

open Lib

theorem count_flatMap_le_one {α β : Type} [DecidableEq β] {f : α → List β} {l : List α} {b : β}
    (hone : ∀ a ∈ l, (f a).Nodup) (hpair : l.Pairwise fun a a' => b ∈ f a → b ∉ f a') :
    (l.flatMap f).count b ≤ 1 := by
  induction l with
  | nil => simp
  | cons a l ih =>
      obtain ⟨hfirst, hpair⟩ := List.pairwise_cons.mp hpair
      rw [List.flatMap_cons, List.count_append]
      by_cases hb : b ∈ f a
      · have hrest : (l.flatMap f).count b = 0 := by
          refine List.count_eq_zero.mpr fun hin => ?_
          obtain ⟨a', ha', hb'⟩ := List.mem_flatMap.mp hin
          exact hfirst a' ha' hb hb'
        rw [hrest]
        exact List.nodup_iff_count_le_one.mp (hone a List.mem_cons_self) b
      · rw [List.count_eq_zero.mpr hb, Nat.zero_add]
        exact ih (fun a' ha' => hone a' (List.mem_cons_of_mem _ ha')) hpair

namespace Callers

section

variable [TagHash] {U : Universe} {fuel : Nat} {c : Callers}

theorem init_sound {s : Shared} (hlaw : U.exactLaw.Lawful s) (hquiet : ∀ slot, s.channels slot = none) :
    (outline U fuel).Sound ⟨s, []⟩ :=
  ⟨⟨hlaw, by simp [Published, hquiet]⟩, by simp, .nil⟩

theorem init_unlost {s : Shared} (hidle : ∀ key, s.inflight key = none) : Unlost U fuel ⟨s, []⟩ :=
  ⟨by simp [hidle], by simp⟩

theorem at_eq (th : Thread Job Op Resp) : (outline U fuel).at_ th =
    (U.exactLaw.terms.spec.ghost (.start th.task.contract) th.trace, Sight.spec.ghost
      th.task.sight th.trace) :=
  Spec.ghost_prod ..

theorem at_slots (th : Thread Job Op Resp) : ((outline U fuel).at_ th).1.task.slots = th.task.slots := by
  rw [at_eq, Terms.ghost_task]
  cases th.task <;> rfl

theorem handed_once (h : (outline U fuel).Sound c) {key : BlockKey} (hin : U.Inside key) :
    c.handedKeys.count key ≤ 1 := by
  refine count_flatMap_le_one (fun th hth => ?_) (h.apart.imp fun {th th'} ha hk hk' => ?_)
  · rw [← at_slots]
    exact (h.threads th hth).view.handed
  · obtain ⟨slot, hs, rfl⟩ := List.mem_map.mp hk
    obtain ⟨slot', hs', heq⟩ := List.mem_map.mp hk'
    rw [← at_slots] at hs hs'
    exact ha.1.handed slot hs slot' hs' hin heq.symm

/-- What a thread has seen by the time its call of `schedule` returns. -/
theorem handles_given {s : Shared} {ctx : ReadCtx} {indexes : Range} {priority : Priority}
    {th : Thread Job Op Resp} (h : (outline U fuel).ThreadSound s th)
    (htask : th.task = .schedule ctx indexes priority) {before after : Trace} {handles : List SlotHandle}
    (htrace : th.trace = before ++ after)
    (hruns : Runs (schedule ctx indexes priority) before (pure handles)) :
    List.Forall₂ ((outline U fuel).at_ th).2.Gives
      ((List.range' indexes.start indexes.count).map (BlockKey.new ctx.key ctx.tag)) handles := by
  have hrelied : Sight.spec.Relied th.task.sight th.trace := h.relied.right
  rw [at_eq]
  rw [htask, htrace] at hrelied ⊢
  obtain ⟨-, -, hgives⟩ := wp_runs (Sight.schedule_wp rfl rfl) hruns (Sight.spec.relied_append.mp hrelied).1
  have hghost : Sight.spec.ghost (Job.schedule ctx indexes priority).sight (before ++ after) =
      Sight.spec.ghost (Sight.spec.ghost ⟨false, [], [], [], none⟩ before) after := Spec.ghost_append ..
  rw [hghost]
  obtain ⟨hstored, hknown⟩ := Sight.subset_ghost (Sight.spec.ghost ⟨false, [], [], [], none⟩ before) after
  exact hgives.imp fun _ _ hg => hg.mono hstored hknown

theorem not_owned_of_ended {s : Shared} {th : Thread Job Op Resp} (h : (outline U fuel).ThreadSound s th)
    (hend : th.prog = pure ()) (slot : Slot) : slot ∉ ((outline U fuel).at_ th).1.owned := by
  have hpost := h.wp
  rw [hend] at hpost
  rw [hpost.1]
  exact Multiset.notMem_zero slot

/-- In a smooth run that starts with nothing in flight, a key inside the object is handed to at most
one fetch group. Every handle a call returns for it resolves, if at all, to a block that is cached
under the key, and it has resolved when all threads have ended. -/
theorem one_fetch_per_block {s : Shared} (hlaw : U.exactLaw.Lawful s) (hidle : ∀ key, s.inflight key = none)
    (hquiet : ∀ slot, s.channels slot = none) {es : List Event}
    (hrun : Run (step fuel) (Smooth U) ⟨s, []⟩ es c) {key : BlockKey} (hin : U.Inside key) :
    c.handedKeys.count key ≤ 1 ∧ (∀ block, (key, block) ∈ c.shared.blocks → U.Exact key block) ∧
    ∀ th ∈ c.threads, ∀ ctx indexes priority, th.task = .schedule ctx indexes priority →
      ∀ before after handles, th.trace = before ++ after → Runs (schedule ctx indexes priority)
        before (pure handles) → ∀ n handle, handles[n]? = some handle →
          BlockKey.new ctx.key ctx.tag (indexes.start + n) = key → c.shared.Resolves key handle ∧
            ((∀ th' ∈ c.threads, th'.prog = pure ()) → c.shared.Resolved handle) := by
  have hstep : ∀ c e c', (outline U fuel).Sound c ∧ Unlost U fuel c → Smooth U c e → step fuel c e = some c' →
      (outline U fuel).Sound c' ∧ Unlost U fuel c' :=
    fun _ _ _ h hok hs => ⟨step_sound h.1 hok hs, h.2.step h.1 hs⟩
  obtain ⟨hsound, hunlost⟩ := hrun.invariant hstep ⟨init_sound hlaw hquiet, init_unlost hidle⟩
  refine ⟨handed_once hsound hin, fun block hb => hsound.inv.1.blocks key block hb, ?_⟩
  intro th hth ctx indexes priority htask before after handles htrace hruns n handle hn hkey
  have hgives := handles_given (hsound.threads th hth) htask htrace hruns
  have hgive : ((outline U fuel).at_ th).2.Gives key handle := by
    obtain ⟨hlen, hall⟩ := List.forall₂_iff_get.mp hgives
    obtain ⟨hlt, rfl⟩ := List.getElem?_eq_some_iff.mp hn
    have := hall n (hlen ▸ hlt) hlt
    simpa [hkey] using this
  cases handle with
  | resolved result =>
      obtain ⟨block, rfl, hb⟩ := hgive
      exact ⟨⟨block, rfl, (hsound.threads th hth).view.stored hb⟩, fun _ => trivial⟩
  | waiting slot =>
      obtain ⟨hknown, rfl⟩ := hgive
      refine ⟨fun result hr => ?_, fun hend => ?_⟩
      · obtain ⟨block, rfl, hb⟩ := hsound.inv.2 slot result hr
        exact ⟨block, rfl, hb hin⟩
      · rcases hunlost.known th hth slot hknown with hsome | ⟨th', hth', howned⟩
        · exact Option.isSome_iff_ne_none.mpr hsome
        · exact absurd howned (not_owned_of_ended (hsound.threads th' hth') (hend th' hth') slot)

end

section

open Sample

/-- The condition of a smooth run, checked. -/
def smoothCheck (ctx : ReadCtx) (c : Callers) : Event → Bool
  | .run i x =>
      (c.threads[i]?).all fun th =>
        ((settles th.prog).all fun p => p.2.isOk) &&
        match th.prog, x with
        | .op (.blocksGet keys) _, .found j none =>
            (keys[j]?).all fun key => c.shared.blocks.all fun p => p.1 ≠ key
        | _, _ => true
  | .call ctx' indexes _ => decide (ctx' = ctx ∧ indexes.start ≤ maxU32 ∧ indexes.stop ≤ maxU32)
  | .tick _ => true
  | .overwrite _ _ v => v.isNone

theorem smooth_of_check {U : Universe} {ctx : ReadCtx} (hctx : U.CtxOk ctx) (c : Callers) (e : Event)
    (h : smoothCheck ctx c e = true) : Smooth U c e := by
  cases e with
  | run i x =>
      intro th hth
      simp only [smoothCheck, hth, Option.all_some, Bool.and_eq_true] at h
      refine ⟨fun slot result hs => ?_, fun keys k j key hprog hx hj block hb => ?_⟩
      · rw [hs] at h
        cases result with
        | ok block => exact ⟨block, rfl⟩
        | error e => cases h.1
      · rw [hprog, hx] at h
        simp only [hj, Option.all_some, List.all_eq_true, decide_eq_true_eq] at h
        exact h.2 _ hb rfl
  | call ctx' indexes priority =>
      obtain ⟨rfl, hbounds⟩ := of_decide_eq_true h
      exact ⟨hctx, hbounds⟩
  | tick n => exact trivial
  | overwrite ns object v =>
      rintro v' rfl
      cases h

def sharedCtx : ReadCtx :=
  ReadCtx.new sampleNamespace ⟨0, [111]⟩ [111] (some ⟨3, some [9], none⟩) FetchPolicy.default

theorem sharedCtx_ok : (soleUniverse sampleOrigin sampleNamespace).CtxOk sharedCtx where
  knows := ⟨rfl, ⟨rfl, rfl⟩, fun _ => trivial⟩
  key := rfl
  new := rfl
  «meta» := by
    rintro m ⟨⟩
    exact ⟨_, rfl, rfl, rfl⟩
  mode := fun _ => trivial

def sharedState : Shared := { Shared.init with history := fun ns object => [some (sampleOrigin ns object)] }

theorem sharedState_lawful : (soleUniverse sampleOrigin sampleNamespace).exactLaw.Lawful sharedState where
  spaces := by simp [sharedState, Shared.init, Registry.empty]
  metas := by simp [sharedState, Shared.init]
  blocks := by simp [sharedState, Shared.init]
  inflight := by simp [sharedState, Shared.init]
  channels := by simp [sharedState, Shared.init]
  history := by
    intro ns object v hv
    exact Option.some.inj (List.mem_singleton.mp hv)

/-- A call, another one that joins it, and the fetch group of both. -/
def joinedEvents : List Event :=
  [.call sharedCtx ⟨0, 1⟩ .foreground, .run 0 (.found 0 none), .run 0 .go, .run 0 (.found 0 none), .run 0 .go,
    .call sharedCtx ⟨0, 1⟩ .foreground, .run 2 (.found 0 none), .run 2 .go, .run 1 (.flag true), .run 1 .go,
    .run 1 .go, .run 1 .go, .run 1 .go,
    .run 1 (.answered 0 (some ⟨[1, 2, 3], some [9]⟩) (.ok ⟨⟨3, some [9], none⟩, ⟨0, 3⟩, [.ok [1, 2, 3]]⟩)),
    .run 1 .go, .run 1 (.body none .primary), .run 1 .go, .run 1 .go, .run 1 .go]

theorem one_fetch_per_block_joined : ∃ c : Callers, c.threads.length = 3 ∧
    c.handedKeys.count (BlockKey.new sharedCtx.key sharedCtx.tag 0) ≤ 1 ∧
    ∃ block, (BlockKey.new sharedCtx.key sharedCtx.tag 0, block) ∈ c.shared.blocks ∧
      (soleUniverse sampleOrigin sampleNamespace).Exact (BlockKey.new sharedCtx.key sharedCtx.tag 0)
        block := by
  obtain ⟨c, hc, hthreads, hblock⟩ : ∃ c ∈ runEvents (checked (smoothCheck sharedCtx) (step 5)) ⟨sharedState,
      []⟩ joinedEvents, c.threads.length = 3 ∧
        (BlockKey.new sharedCtx.key sharedCtx.tag 0, ⟨⟨3, some [9], none⟩, [1, 2, 3]⟩) ∈ c.shared.blocks := by
    decide
  have hinside : (soleUniverse sampleOrigin sampleNamespace).Inside
      (BlockKey.new sharedCtx.key sharedCtx.tag 0) := by
    rintro bs v - rfl -
    simp only [BlockKey.new, Nat.zero_mul, sampleOrigin]
    decide
  obtain ⟨hcount, hexact, -⟩ := one_fetch_per_block sharedState_lawful (fun _ => rfl) (fun _ => rfl)
    (.of_checked (smooth_of_check sharedCtx_ok) hc) hinside
  exact ⟨c, hthreads, hcount, _, hblock, hexact _ hblock⟩

/-- Two calls for a block past the end of the object, one after the other. -/
def pastEndEvents : List Event :=
  [.call sharedCtx ⟨1, 2⟩ .foreground, .run 0 (.found 0 none), .run 0 .go, .run 0 (.found 0 none), .run 0 .go,
    .run 1 (.flag true), .run 1 .go, .run 1 .go, .run 1 .go, .run 1 .go,
    .call sharedCtx ⟨1, 2⟩ .foreground, .run 2 (.found 0 none), .run 2 .go, .run 2 (.found 0 none),
    .run 2 .go]

/-- The empty block past the end is not cached, and the key is handed to a second fetch group. -/
theorem handed_twice_past_end : ∃ c : Callers,
    Run (step 5) (Smooth (soleUniverse sampleOrigin sampleNamespace)) ⟨sharedState, []⟩ pastEndEvents c ∧
      c.handedKeys.count (BlockKey.new sharedCtx.key sharedCtx.tag 1) = 2 := by
  obtain ⟨c, hc, hcount⟩ : ∃ c ∈ runEvents (checked (smoothCheck sharedCtx) (step 5)) ⟨sharedState, []⟩
      pastEndEvents, c.handedKeys.count (BlockKey.new sharedCtx.key sharedCtx.tag 1) = 2 := by
    decide
  exact ⟨c, .of_checked (smooth_of_check sharedCtx_ok) hc, hcount⟩

end

end Callers

end Nestor
