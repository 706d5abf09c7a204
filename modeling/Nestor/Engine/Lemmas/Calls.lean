import Nestor.Read.Lemmas.Stream

/-!
# Every task keeps the contract

The calls of the engine's users and the tasks it starts, each from its start on. A task ends without
slots.
-/

namespace Nestor

open Lib Terms

variable {ctx : ReadCtx} {range : Range} {request : ReadRange} {fetched : List SlotHandle}
    {policy : FetchPolicy} {v : Version}

theorem readaheadBlocks_stop {ns : NamespaceState} :
    (readaheadBlocks ns ctx range).stop ≤ maxU32 := by
  have hm : maxU32 = 2 ^ 32 - 1 := rfl
  have hadd : addU32 (ns.config.blockSize.count range.stop) ns.config.readahead ≤ maxU32 := by
    have : addU32 (ns.config.blockSize.count range.stop) ns.config.readahead < 2 ^ 32 :=
      Nat.mod_lt _ (by decide)
    omega
  unfold readaheadBlocks
  cases ctx.size with
  | none => exact hadd
  | some size => exact (Nat.min_le_left _ _).trans hadd

variable [TagHash] {T : Terms} {g : Held} {ns : NamespaceState} {object : Bytes} {fuel : Nat}

theorem Terms.wp_last {o : Op} (hg : T.guar g o) (ho : g.owned = 0) (hmoves : o.moves = false) :
    wp T.spec (perform o) (fun g' _ => g'.owned = 0) g :=
  wp_call.mpr ⟨hg, fun r _ => (Held.Hears.after (g := g) (o := o) (r := r) rfl hmoves).owned.trans ho⟩

/-! ## Reading -/

theorem spawnReadahead_wp (hT : T.Running) (h : T.law.CtxOk ctx) :
    wp T.spec (spawnReadahead ns ctx range) (fun g' _ => g.Moves g.owned g') g := by
  unfold spawnReadahead
  dsimp only
  split
  · exact (Held.Hears.refl g).toMoves
  · rename_i hne
    have hle : (readaheadBlocks ns ctx range).start ≤ (readaheadBlocks ns ctx range).stop := by
      simp only [Range.isEmpty, decide_eq_true_eq] at hne
      omega
    refine wp_call.mpr ⟨⟨hT.schedules, ⟨h, hle, readaheadBlocks_stop⟩,
      Multiset.zero_le _, by simp [Task.Answered]⟩, fun _ _ => ?_⟩
    exact ⟨tsub_zero _, rfl, rfl, fun _ => id, Nat.le_refl _⟩

theorem Law.ResolvedFor.told_of {L : Law} {g' : Held}
    (h : L.ResolvedFor ns object request g ctx fetched) (ht : ∀ m ∈ g.told, m ∈ g'.told) :
    L.ResolvedFor ns object request g' ctx fetched :=
  { h with
    told := fun hi => by
      obtain ⟨m, hmem, hm⟩ := h.told hi
      exact ⟨m, ht m hmem, hm⟩ }

theorem Terms.ReaderOk.start (hres : T.law.ResolvedFor ns object request g ctx fetched)
    (hrange : readRange ctx request = some (.ok range)) (htask : g.task = .get ns object request policy)
    (hseen : g.seen = ⟨some (range, ctx.meta), [], false, false, false, false⟩) :
    T.ReaderOk g (Reader.new request ctx range fetched) (Reader.new request ctx range fetched).emit := by
  have hgives : request.Gives ctx.meta range := .of_readRange hrange
  have hmeta (hi : ¬ T.law.immutable ctx.namespace.id) : ∃ m ∈ g.told, ctx.meta = some m ∧
      T.law.Describes ⟨ctx.namespace.id, ctx.name⟩ m ∧ ctx.tag = contentTag m.etag m.size := hres.told_tag hi
  refine .fresh hgives hres.ok ?_ ⟨policy, ?_⟩ rfl (fun hm => .inr (hres.space ▸ (hres.sized hm).2)) rfl
    rfl rfl rfl rfl ⟨hres.ok.tag_right, fun hi => ?_, fun hi _ => ?_⟩
    (fun _ _ => ⟨range, by rw [hseen]; rfl⟩) (by rw [hseen]; exact ⟨rfl, rfl⟩) (by rw [hseen])
  · have hhandles := hres.handles_of_gives hgives
    rw [← hres.space] at hhandles
    change T.law.HandlesFrom ctx (ctx.namespace.config.blockSize.blocks range).start fetched
    rwa [BlockSize.blocks_eq _ hgives.shape]
  · rw [htask, ← hres.space, ← hres.object]
    rfl
  · obtain ⟨m, hmem, -, htag⟩ := hmeta hi
    exact ⟨m, hmem, htag⟩
  · obtain ⟨m, -, hm, -, htag⟩ := hmeta hi
    exact ⟨range, m, by rw [hseen, hm], htag⟩

theorem opened_wp (fuel : Nat) (hT : T.Running) (hres : T.law.ResolvedFor ns object request g ctx fetched)
    (hrange : readRange ctx request = some (.ok range)) (htask : g.task = .get ns object request policy)
    (ho : g.owned = 0) (hseen : g.seen = ⟨none, [], false, false, false, false⟩) :
    wp T.spec (do
      perform (.opened range ctx.meta)
      (Reader.new request ctx range fetched).stream fuel fuel) (fun g' _ => g'.owned = 0) g := by
  refine wp_step ⟨ns, object, request, policy, htask, fun hi => ?_⟩ fun _ g₁ hg₁ _ => ?_
  · obtain ⟨m, hmem, hm⟩ := hres.told hi
    refine ⟨m, hmem, hm, ?_, ?_⟩
    · have := hres.ok.meta m hm
      rwa [hres.ok.key, hres.space, hres.object] at this
    · simp only [readRange, ReadCtx.size, hm] at hrange
      exact Option.some.inj hrange
  · subst hg₁
    have hseen₁ : (g.after (.opened range ctx.meta) ()).seen =
        ⟨some (range, ctx.meta), [], false, false, false, false⟩ := by
      simp only [Held.after, Held.note, hseen]
    have hok : T.ReaderOk (g.after (.opened range ctx.meta) ()) (Reader.new request ctx range fetched) _ :=
      .start (hres.told_of fun _ => id) hrange htask hseen₁
    exact wp_mono (stream_wp hT (.inl hok)) fun g₂ _ h₂ => h₂.1.trans ho

theorem getOpts_wp (hT : T.Running) (hk : T.law.Knows ns)
    (htask : g.task = .get ns object request policy) (ho : g.owned = 0)
    (hseen : g.seen = ⟨none, [], false, false, false, false⟩) :
    wp T.spec (getOpts fuel ns object request policy) (fun g' _ => g'.owned = 0) g := by
  unfold getOpts
  refine wp_seq (resolveCtx_wp hT hk (by rw [hseen])) fun g₁ out h₁ => ?_
  obtain ⟨h₁, hres⟩ := h₁
  rw [ho] at h₁
  cases out with
  | error e => exact wp_last trivial h₁.owned rfl
  | ok out =>
      obtain ⟨ctx, fetched⟩ := out
      have hres := hres ctx fetched rfl
      dsimp only
      cases hrange : readRange ctx request with
      | none => exact hT.hang_wp
      | some result =>
          cases result with
          | error e => exact wp_last trivial h₁.owned rfl
          | ok range =>
              have hopen {g₂ : Held} (h₂ : g.Moves 0 g₂) (ht : ∀ m ∈ g₁.told, m ∈ g₂.told) :
                  wp T.spec _ (fun g' _ => g'.owned = 0) g₂ :=
                opened_wp fuel hT (hres.told_of ht) hrange (h₂.task.trans htask) h₂.owned
                  (h₂.seen.trans hseen)
              dsimp only
              split
              · refine wp_quiet trivial rfl fun sequential g₂ h₂ _ => ?_
                have hm₂ := h₁.trans h₂.toMoves
                rw [h₁.owned] at hm₂
                split
                · refine wp_seq (spawnReadahead_wp hT hres.ok) fun g₃ _ h₃ => ?_
                  have hm₃ := hm₂.trans h₃
                  rw [hm₂.owned] at hm₃
                  exact hopen hm₃ fun m hm => h₃.told m (h₂.told m hm)
                · exact hopen hm₂ h₂.told
              · exact hopen h₁ fun _ => id

theorem headCall_wp (hT : T.Running) (hk : T.law.Knows ns) (ho : g.owned = 0) (hy : g.seen.yielded = false) :
    wp T.spec (headCall fuel ns object) (fun g' _ => g'.owned = 0) g := by
  unfold headCall
  refine wp_quiet ⟨hT.schedules, hy⟩ rfl fun found g₁ h₁ _ => ?_
  have ho₁ := h₁.owned.trans ho
  cases found with
  | fresh m => exact wp_last trivial ho₁ rfl
  | _ =>
      refine wp_seq (head_wp hk (hT.enough _)) fun g₂ out h₂ => ?_
      obtain _ | e | m := out
      · exact hT.hang_wp
      · exact wp_last trivial (h₂.1.owned.trans ho₁) rfl
      · exact wp_last trivial (h₂.1.owned.trans ho₁) rfl

/-! ## Writing -/

/-- The blocks of a content under its own tag. -/
theorem Universe.exact_blockOf {U : Universe} (hk : U.Knows ns) (hv : U.Has ns.id object v)
    {m : ObjectMeta} (hn : v.Names m) {i : Nat} (hi : i < ns.config.blockSize.count m.size) :
    U.Exact (BlockKey.new ⟨ns.id, object⟩ (blockTag ns.config.consistency m) i)
      ⟨m, slice v.data (ns.config.blockSize.blockRange i (some m.size)).start
        (ns.config.blockSize.blockRange i (some m.size)).stop⟩ := by
  obtain ⟨hmax, -⟩ := ns.config.blockSize.lt_count_iff.mp hi
  have ht : U.Matches ns.id (blockTag ns.config.consistency m) v := by
    unfold blockTag
    split
    · rename_i hc
      exact .inl ⟨rfl, hk.immutable hc⟩
    · exact .inr hn.contentTag_eq.symm
  refine U.exact_of_blockOf hmax hk.size hv ht hn ?_
  change slice v.data _ _ = blockOf ns.config.blockSize v.data i
  rw [hn.1, ns.config.blockSize.blockRange_eq hmax, blockOf]
  exact slice_min_length ..

theorem insertBlocks_wp (hk : T.law.Knows ns) (hv : T.law.Has ns.id object v) {m : ObjectMeta}
    (hn : v.Names m) {indexes : List Nat} (hi : ∀ i ∈ indexes, i < ns.config.blockSize.count m.size) :
    wp T.spec (insertBlocks ns.config.blockSize ⟨ns.id, object⟩ (blockTag ns.config.consistency m) m
      v.data indexes) (fun g' _ => g.Hears g') g := by
  induction indexes generalizing g with
  | nil => exact .refl g
  | cons index indexes ih =>
      unfold insertBlocks
      refine wp_quiet (T.law.exact_blockOf hk hv hn (hi index List.mem_cons_self)) rfl fun _ g₁ h₁ _ => ?_
      refine wp_mono (ih fun i h => hi i (List.mem_cons_of_mem _ h)) fun g₂ _ h₂ => h₁.trans h₂

theorem insert_wp (hk : T.law.Knows ns) (hv : T.law.Has ns.id object v)
    (hown : ∀ m, v.Names m → g.task.Writes ns.name object m) :
    wp T.spec (insert ns object v.etag v.data) (fun g' _ => g.Hears g') g := by
  unfold insert
  refine wp_quiet trivial rfl fun now g₁ h₁ _ => ?_
  have hn : v.Names ⟨v.data.length, v.etag, some now⟩ := ⟨rfl, rfl⟩
  refine wp_seq (insertBlocks_wp hk hv hn fun i hi => List.mem_range.mp hi) fun g₂ _ h₂ => ?_
  have h₂ := h₁.trans h₂
  have hwrites : g₂.task.Writes (T.law.name ns.id) object ⟨v.data.length, v.etag, some now⟩ := by
    rw [h₂.task, ← hk.name]
    exact hown _ hn
  exact wp_call.mpr ⟨⟨⟨v, hv, hn⟩, .inr (.inl hwrites)⟩, fun _ _ => h₂.trans (.after rfl rfl)⟩

theorem removeBlocks_wp {key : ObjectKey} {indexes : List Nat} (hr : g.task.removes) :
    wp T.spec (removeBlocks key indexes) (fun g' _ => g.Hears g') g := by
  induction indexes generalizing g with
  | nil => exact .refl g
  | cons index indexes ih =>
      unfold removeBlocks
      refine wp_quiet hr rfl fun _ g₁ h₁ _ => ?_
      exact wp_mono (ih (h₁.task ▸ hr)) fun g₂ _ h₂ => h₁.trans h₂

theorem invalidate_wp (hT : T.Running) (hr : g.task.removes) (hy : g.seen.yielded = false) :
    wp T.spec (invalidate ns object) (fun g' _ => g.Hears g') g := by
  unfold invalidate
  refine wp_quiet trivial rfl fun _ g₁ h₁ _ => ?_
  have hremove : ∀ {g₂ : Held}, g.Hears g₂ →
      wp T.spec (perform (.metaRemove ⟨ns.id, object⟩)) (fun g' _ => g.Hears g') g₂ :=
    fun h₂ => wp_call.mpr ⟨trivial, fun _ _ => h₂.trans (.after rfl rfl)⟩
  split
  · refine wp_quiet ⟨hT.schedules, h₁.seen ▸ hy⟩ rfl fun found g₂ h₂ _ => ?_
    have h₂ := h₁.trans h₂
    cases found with
    | fresh m =>
        refine wp_seq (removeBlocks_wp (h₂.task ▸ hr)) fun g₃ _ h₃ => ?_
        exact hremove (h₂.trans h₃)
    | stale m => exact hremove h₂
    | missing => exact hremove h₂
  · exact hremove h₁

theorem write_wp (hT : T.Running) (hk : T.law.Knows ns) {populate : Bool} (hv : T.law.Has ns.id object v)
    (htask : g.task = .write ns object v populate) (ho : g.owned = 0) (hy : g.seen.yielded = false) :
    wp T.spec (write ns object v populate) (fun g' _ => g'.owned = 0) g := by
  unfold write
  have hput : T.law.versions ns.name object v := by
    rw [hk.name]
    exact hv
  refine wp_quiet hput rfl fun _ g₁ h₁ _ => ?_
  have hremoves : g₁.task.removes := by
    rw [h₁.task, htask]
    rfl
  refine wp_seq (invalidate_wp hT hremoves (h₁.seen ▸ hy)) fun g₂ _ h₂ => ?_
  have h₂ := h₁.trans h₂
  split
  · have hown : ∀ m, v.Names m → g₂.task.Writes ns.name object m := by
      rw [h₂.task, htask]
      exact fun m hm => ⟨rfl, rfl, hm⟩
    refine wp_seq (insert_wp hk hv hown) fun g₃ _ h₃ => ?_
    exact wp_last trivial ((h₂.trans h₃).owned.trans ho) rfl
  · exact wp_last trivial (h₂.owned.trans ho) rfl

/-! ## All tasks -/

theorem program_wp (hT : T.Running) {task : Task} (h : T.law.TaskOk task) :
    wp T.spec (program fuel task) (fun g' _ => g'.owned = 0) (.start task) := by
  cases task with
  | fetchGroup ctx slots priority initial =>
      obtain ⟨hctx, ⟨first, hslots⟩, hinit⟩ := h
      refine fetchGroup_wp hctx hslots rfl (by simp [Held.start]) (fun _ _ _ => id) (fun r hr => ?_)
        (hT.enough _)
      subst hr
      exact ⟨⟨rfl, rfl, rfl⟩, hinit r rfl⟩
  | readahead ctx indexes =>
      obtain ⟨hctx, hle, hmax⟩ := h
      have hcount : indexes.start + indexes.count ≤ maxU32 := by
        rw [Range.count]
        omega
      exact wp_seq (schedule_wp hT hctx hcount) fun g₁ _ h₁ => h₁.1.owned
  | get ns object request policy => exact getOpts_wp hT h rfl rfl rfl
  | head ns object => exact headCall_wp hT h rfl rfl
  | insert ns object etag data =>
      refine wp_seq (insert_wp (v := ⟨data, etag⟩) h.1 h.2 fun _ hm => ⟨rfl, rfl, hm⟩) fun g₁ _ h₁ => ?_
      exact wp_last trivial h₁.owned rfl
  | invalidate ns object =>
      refine wp_seq (invalidate_wp hT rfl rfl) fun g₁ _ h₁ => ?_
      exact wp_last trivial h₁.owned rfl
  | write ns object v populate => exact write_wp hT h.1 h.2 rfl rfl rfl

end Nestor
