import Nestor.Fetch.Lemmas.Sight

/-!
# The slots of a fetch group

`schedule` cuts the blocks it has to fetch into groups and hands each group its slots by number
alone. The slots are in the order of the blocks, so each group gets the slots of its own blocks.
-/

namespace Nestor

open Lib

variable {ctx : ReadCtx} {priority : Priority}

/-- The start of the task that fetches the blocks of some slots. -/
def startGroup (ctx : ReadCtx) (priority : Priority) (slots : List Slot) : Done Op Resp :=
  ⟨.spawn (.fetchGroup ctx slots priority none), ()⟩

/-- Slots in the order of the groups' blocks are dealt out so that each group gets its own. -/
theorem spawnGroups_runs {groups : List FetchGroup} {owners : List Slot}
    (h : owners.map (·.key.index) = groups.flatMap FetchGroup.indexes) :
    ∃ dealt : List (List Slot), dealt.flatten = owners ∧
      List.Forall₂ (fun group slots => slots.map (·.key.index) = group.indexes) groups dealt ∧
      Runs (spawnGroups ctx priority groups owners) (dealt.map (startGroup ctx priority)) (pure ()) := by
  induction groups generalizing owners with
  | nil =>
      rw [List.flatMap_nil, List.map_eq_nil_iff] at h
      exact ⟨[], h.symm, .nil, .nil⟩
  | cons group groups ih =>
      rw [List.flatMap_cons] at h
      obtain ⟨htake, hdrop⟩ := FetchGroup.dealt h
      obtain ⟨dealt, hflat, hown, hruns⟩ := ih hdrop
      refine ⟨owners.take group.count :: dealt, ?_, .cons htake hown, .cons hruns⟩
      rw [List.flatten_cons, hflat, List.take_append_drop]

/-! ## Scheduling -/

/-- The task fetches the blocks of a read that follow each other in one window, for slots of
theirs. -/
def FetchesRun (ctx : ReadCtx) (priority : Priority) (task : Task) : Prop :=
  ∃ (slots : List Slot) (group : FetchGroup), task = .fetchGroup ctx slots priority none ∧
    group.InWindow (max ctx.namespace.config.fetchWindow 1) ∧
    slots.map (·.key) = group.indexes.map (BlockKey.new ctx.key ctx.tag)

/-- Every task that is started fetches a run of blocks; a registration is answered with a slot for
the key. -/
def runsOnly (ctx : ReadCtx) (priority : Priority) : Spec Op Resp Unit where
  guar _ o := ∀ task, o = .spawn task → FetchesRun ctx priority task
  rely _ o r := Sight.rely o r
  next _ _ _ := ()

def Op.starts : Op → Bool
  | .spawn _ => true
  | _ => false

theorem guar_of_not_starts {o : Op} (h : o.starts = false) : (runsOnly ctx priority).guar () o := by
  rintro task rfl
  cases h

theorem hang_starts_none {α : Type} {Q : Unit → α → Prop} : wp (runsOnly ctx priority) hang Q () :=
  ⟨guar_of_not_starts rfl, fun r => Empty.elim r⟩

theorem looks_starts_none :
    Looks (runsOnly ctx priority) (fun _ => True) (fun _ => True) (fun _ => True) fun _ _ _ => True where
  asks := fun _ _ _ => guar_of_not_starts rfl
  finds := fun _ _ _ => ⟨trivial, trivial, fun _ _ => id⟩
  strays := fun _ _ _ => guar_of_not_starts rfl
  fails := fun _ _ _ => trivial

theorem registerMisses_keys (results : List (BlockKey × Option Block)) :
    wp (runsOnly ctx priority) (registerMisses results)
      (fun _ out => (out.2.map (·.key)).Sublist (results.map (·.1))) () := by
  induction results with
  | nil => exact .slnil
  | cons result results ih =>
      obtain ⟨key, found⟩ := result
      cases found with
      | some block => exact wp_seq ih fun _ out h => h.cons _
      | none =>
          refine wp_then (guar_of_not_starts rfl) fun registration hr => ?_
          cases registration with
          | owner slot =>
              refine wp_seq ih fun _ out h => ?_
              have hkey : slot.key = key := hr
              change (slot.key :: out.2.map (·.key)).Sublist _
              rw [hkey]
              exact h.cons_cons _
          | waiter slot => exact wp_seq ih fun _ out h => h.cons _

theorem settle_starts_none (slot : Slot) (result : BlockResult) :
    wp (runsOnly ctx priority) (slot.settle result) (fun _ _ => True) () :=
  wp_then (guar_of_not_starts rfl) fun _ _ => ⟨guar_of_not_starts rfl, fun _ _ => trivial⟩

theorem resolveAll_starts_none (result : BlockResult) (slots : List Slot) :
    wp (runsOnly ctx priority) (resolveAll result slots) (fun _ _ => True) () := by
  induction slots with
  | nil => trivial
  | cons slot slots ih => exact wp_seq (settle_starts_none slot result) fun _ _ _ => ih

theorem resolveLanded_sublist (landed : List (Slot × Option Block)) :
    wp (runsOnly ctx priority) (resolveLanded landed)
    (fun _ owners => owners.Sublist (landed.map (·.1))) () := by
  induction landed with
  | nil => exact .slnil
  | cons pair landed ih =>
      obtain ⟨slot, found⟩ := pair
      cases found with
      | some block => exact wp_seq (settle_starts_none slot _) fun _ _ _ => wp_mono ih fun _ _ h => h.cons _
      | none => exact wp_seq ih fun _ _ h => h.cons_cons _

theorem map_key_eq {slots : List Slot} {indexes : List Nat}
    (hkeys : ∀ slot ∈ slots, slot.key = BlockKey.new ctx.key ctx.tag slot.key.index)
    (h : slots.map (·.key.index) = indexes) :
    slots.map (·.key) = indexes.map (BlockKey.new ctx.key ctx.tag) := by
  rw [← h, List.map_map]
  exact List.map_congr_left hkeys

theorem spawnGroups_fetchesRun {groups : List FetchGroup} {owners : List Slot}
    (hin : ∀ group ∈ groups, group.InWindow (max ctx.namespace.config.fetchWindow 1))
    (hkeys : ∀ slot ∈ owners, slot.key = BlockKey.new ctx.key ctx.tag slot.key.index)
    (h : owners.map (·.key.index) = groups.flatMap FetchGroup.indexes) :
    wp (runsOnly ctx priority) (spawnGroups ctx priority groups owners) (fun _ _ => True) () := by
  induction groups generalizing owners with
  | nil => trivial
  | cons group groups ih =>
      rw [List.flatMap_cons] at h
      obtain ⟨htake, hdrop⟩ := FetchGroup.dealt h
      refine wp_then ?_ fun _ _ => ih (fun g hg => hin g (List.mem_cons_of_mem _ hg))
        (fun slot hs => hkeys slot (List.mem_of_mem_drop hs)) hdrop
      rintro _ ⟨⟩
      exact ⟨_, group, rfl, hin group List.mem_cons_self,
        map_key_eq (fun slot hs => hkeys slot (List.mem_of_mem_take hs)) htake⟩

theorem schedule_fetchesRun {indexes : Range} (hmax : indexes.stop ≤ 2 ^ 32) :
    wp (runsOnly ctx priority) (schedule ctx indexes priority) (fun _ _ => True) () := by
  refine wp_seq (looks_starts_none.joinAll_wp (fun _ _ => trivial) trivial) fun _ out hout => ?_
  cases out with
  | none => exact hang_starts_none
  | some results =>
      refine wp_seq (registerMisses_keys results) fun _ out hsub => ?_
      obtain ⟨handles, owners⟩ := out
      rw [hout.2.1] at hsub
      dsimp only at hsub ⊢
      split
      · trivial
      · refine wp_seq (looks_starts_none.joinAll_wp (fun _ _ => trivial) trivial) fun _ out hland => ?_
        cases out with
        | none => exact wp_seq (resolveAll_starts_none _ _) fun _ _ _ => hang_starts_none
        | some landed =>
            have hzip := map_fst_zip_snd hland.2.1
            refine wp_seq (resolveLanded_sublist _) fun _ owners' hsub' => ?_
            rw [hzip] at hsub'
            -- what is left of the slots is in the order of the blocks
            have hsub : (owners'.map (·.key)).Sublist
                ((List.range' indexes.start indexes.count).map (BlockKey.new ctx.key ctx.tag)) :=
              (hsub'.map _).trans hsub
            have hidx : (owners'.map (·.key.index)).Sublist (List.range' indexes.start indexes.count) := by
              have := hsub.map BlockKey.index
              rw [List.map_map, List.map_map] at this
              simpa [Function.comp_def, BlockKey.new] using this
            have hkeys : ∀ slot ∈ owners', slot.key = BlockKey.new ctx.key ctx.tag slot.key.index := by
              intro slot hs
              obtain ⟨i, -, hi⟩ := List.mem_map.mp (hsub.subset (List.mem_map_of_mem hs))
              rw [← hi]
              rfl
            have hlt : ∀ i ∈ owners'.map (·.key.index), i < 2 ^ 32 := by
              intro i hi
              have := List.mem_range'_1.mp (hidx.subset hi)
              rw [Range.count] at this
              omega
            obtain ⟨hflat, hin, -⟩ := groupMisses_spec (.sublist hidx (List.pairwise_lt_range' 1 Nat.one_pos))
              hlt ctx.namespace.config.fetchWindow
            exact wp_seq (spawnGroups_fetchesRun hin hkeys hflat.symm) fun _ _ _ => trivial

/-- Cutting increasing misses into groups keeps them all, in order. A group is a run of at most
`window` blocks, one at least, that lies in one window. No two groups that follow each other could
be one. Slots for the misses are dealt out so that each group gets those of its own blocks, and
whatever a call of `schedule` is answered, the tasks it starts fetch such runs for slots of
theirs. -/
theorem groupMisses_partitions :
    (∀ (misses : List Nat) (window : Nat), misses.Pairwise (· < ·) → (∀ i ∈ misses, i < 2 ^ 32) →
      (groupMisses misses window).flatMap FetchGroup.indexes = misses ∧
      (∀ g ∈ groupMisses misses window, 0 < g.count ∧ g.count ≤ max window 1 ∧
        ∀ i ∈ g.indexes, i / max window 1 = g.first / max window 1) ∧
      (groupMisses misses window).IsChain (FetchGroup.Apart (max window 1)) ∧
      ∀ (ctx : ReadCtx) (priority : Priority) (owners : List Slot), owners.map (·.key.index) = misses →
        ∃ dealt : List (List Slot), dealt.flatten = owners ∧
          List.Forall₂ (fun group slots => slots.map (·.key.index) = group.indexes)
          (groupMisses misses window) dealt ∧
            Runs (spawnGroups ctx priority (groupMisses misses window) owners)
            (dealt.map (startGroup ctx priority)) (pure ())) ∧
    ∀ (ctx : ReadCtx) (indexes : Range) (priority : Priority), indexes.stop ≤ 2 ^ 32 →
      ∀ tr p, Runs (schedule ctx indexes priority) tr p → (∀ d ∈ tr, Sight.rely d.1 d.2) →
        ∀ task r, ⟨.spawn task, r⟩ ∈ tr → FetchesRun ctx priority task := by
  refine ⟨fun misses window hinc hidx => ?_, fun ctx indexes priority hmax tr p hruns hrely task r htask =>
    ?_⟩
  · obtain ⟨hflat, hin, hapart⟩ := groupMisses_spec hinc hidx window
    refine ⟨hflat, fun g hg => ⟨(hin g hg).count, (hin g hg).count_le (by omega), (hin g hg).window⟩,
      hapart, ?_⟩
    intro ctx priority owners howners
    exact spawnGroups_runs (howners.trans hflat.symm)
  · obtain ⟨hkept, -⟩ := wp_runs_of (fun _ _ _ _ h => h) (schedule_fetchesRun hmax) hruns hrely
    obtain ⟨_, _, _, hguar⟩ := hkept.of_mem htask
    exact hguar task rfl

end Nestor
