import Nestor.Fetch.Lemmas.Duty
import Nestor.Fetch.Lemmas.Schedule

/-!
# Registering blocks and handing them over

`schedule` and a probe register the blocks nobody fetches yet. Before they return they have settled
every such slot or handed it to a fetch group, and the handles they return are of blocks that were
found or of slots they know.
-/

namespace Nestor

open Lib

variable {handles : List SlotHandle} {keys : List BlockKey} {indexes : Range} {policy : FetchPolicy}
    {known : Option ObjectMeta}

namespace Duty

variable {b d d' : Duty} {owned : Multiset Slot} {budget fuel : Nat} {home : Home} {ctx : ReadCtx}

/-- The task may wait for the slots among the handles. -/
def Handles (d : Duty) (handles : List SlotHandle) : Prop := ∀ slot, .waiting slot ∈ handles → slot ∈ d.known

theorem Handles.nil : d.Handles [] := nofun

theorem Handles.mono (h : d.Handles handles) (hk : d.known ⊆ d'.known) :
    d'.Handles handles := fun slot hs => hk (h slot hs)

theorem Handles.append {handles' : List SlotHandle} (h : d.Handles handles) (h' : d.Handles handles') :
    d.Handles (handles ++ handles') := fun slot hs => (List.mem_append.mp hs).elim (h slot) (h' slot)

theorem Handles.tail {handle : SlotHandle} (h : d.Handles (handle :: handles)) :
    d.Handles handles := fun slot hs => h slot (List.mem_cons_of_mem _ hs)

/-! ## Lookups -/

/-- The blocks that are found have been seen in the cache. -/
theorem looks : Looks (spec budget home) (b.Moves owned) (b.Moves owned)
    (fun key => key.objectKey = home.key ∨ ∃ slot ∈ owned, slot.key = key)
    fun d key found => ∀ block, found = some block → (key, block) ∈ d.stored where
  asks := by
    intro d keys h hne hnear
    refine ⟨trivial, h.gap, hne, ?_⟩
    rw [← h.owned] at hnear
    exact hnear
  finds := by
    intro d keys i key found h _ hi
    cases found with
    | none => exact ⟨h, nofun, fun _ _ => id⟩
    | some block =>
        have hstored : d.stored ⊆ (keys[i]?).toList.map (·, block) ++ d.stored :=
          fun _ => List.mem_append_right _
        refine ⟨{ h with stored := fun _ hb => hstored (h.stored hb) }, ?_,
          fun _ _ hs block' hb => hstored (hs block' hb)⟩
        rintro _ ⟨⟩
        change _ ∈ (keys[i]?).toList.map (·, block) ++ d.stored
        rw [hi]
        exact List.mem_append_left _ List.mem_cons_self
  strays := fun _ hr hi => absurd hr (Nat.not_lt.mpr (List.getElem?_eq_none_iff.mp hi))
  fails := by
    rintro d keys _ h - (rfl | rfl) <;> exact h

theorem joinAll_wp (h : b.Moves owned d) (hnear : ∀ key ∈ keys, d.Near home key) :
    wp (spec budget home) (joinAll keys) (Looked (b.Moves owned) fun d' results => b.Moves owned d' ∧
      results.map (·.1) = keys ∧ ∀ p ∈ results, ∀ block, p.2 = some block → (p.1, block) ∈ d'.stored) d :=
  looks.joinAll_wp (h.owned ▸ hnear) h

/-! ## Misses -/

theorem Handles.waiting {slot : Slot} (h : d.Handles handles) (hs : slot ∈ d.known) :
    d.Handles (.waiting slot :: handles) := by
  intro slot' hs'
  rcases List.mem_cons.mp hs' with heq | hs'
  · cases heq
    exact hs
  · exact h slot' hs'

theorem registerMisses_wp {results : List (BlockKey × Option Block)} (h : b.Moves owned d)
    (hkeys : ∀ p ∈ results, p.1.objectKey = home.key) :
    wp (spec budget home) (registerMisses results)
      (fun d' out => b.Moves (↑out.2 + owned) d' ∧ d'.Handles out.1) d := by
  induction results generalizing b d owned with
  | nil => exact ⟨h.of_eq (zero_add _).symm, .nil⟩
  | cons p results ih =>
      obtain ⟨key, found⟩ := p
      obtain ⟨hkey, hrest⟩ := List.forall_mem_cons.mp hkeys
      cases found with
      | some block =>
          refine wp_seq (ih h hrest) fun d₁ out h₁ => ⟨h₁.1, fun slot hs => ?_⟩
          exact h₁.2 slot ((List.mem_cons.mp hs).resolve_left (by simp))
      | none =>
          refine wp_register h hkey (fun d₁ slot h₁ hk => ?_) fun d₁ slot h₁ hk => ?_
          · refine wp_seq (ih h₁.here hrest) fun d₂ out h₂ => ⟨(h₁.trans h₂.1).of_eq ?_,
              h₂.2.waiting (h₂.1.known hk)⟩
            rw [← Multiset.cons_coe, Multiset.cons_add, ← Multiset.add_cons]
          · exact wp_seq (ih h₁.here hrest) fun d₂ out h₂ => ⟨h₁.trans h₂.1, h₂.2.waiting (h₂.1.known hk)⟩

theorem resolveLanded_wp {landed : List (Slot × Option Block)} (h : b.Moves (↑(landed.map (·.1)) + owned) d)
    (hfound : ∀ slot block, (slot, some block) ∈ landed → (slot.key, block) ∈ b.stored) :
    wp (spec budget home) (resolveLanded landed) (fun d' owners => b.Moves (↑owners + owned) d') d := by
  induction landed generalizing d owned with
  | nil => exact h
  | cons p landed ih =>
      obtain ⟨slot, found⟩ := p
      have hrest : ∀ slot block, (slot, some block) ∈ landed → (slot.key, block) ∈ b.stored :=
        fun slot block hb => hfound slot block (List.mem_cons_of_mem _ hb)
      cases found with
      | some block =>
          refine wp_seq (settle_wp h.uncons ?_) fun d₁ _ h₁ => ih h₁ hrest
          rintro _ ⟨⟩
          exact .inl (h.stored (hfound slot block List.mem_cons_self))
      | none =>
          refine wp_seq (ih (h.uncons.of_eq (Multiset.add_cons ..).symm) hrest) fun d₁ owners h₁ =>
            h₁.of_eq ?_
          rw [← Multiset.cons_coe, Multiset.cons_add, ← Multiset.add_cons]

/-! ## Starting fetch groups -/

theorem wp_spawn {α : Type} {task : Task} {f : Unit → Program α} {Q : Duty → α → Prop}
    (h : b.Moves (↑task.slots + owned) d) (htask : task.home = home ∧ task.Proper ∧ task.fetches = true)
    (hk : ∀ d', b.Moves owned d' → wp (spec budget home) (f ()) Q d') :
    wp (spec budget home) (perform (.spawn task) >>= f) Q d := by
  refine wp_step htask ⟨h.gap, by rw [h.owned]; exact Multiset.le_add_right _ _⟩ fun _ d₁ hd₁ _ => hk d₁ ?_
  subst hd₁
  refine { h with owned := ?_ }
  change d.owned - ↑task.slots = owned
  rw [h.owned, add_tsub_cancel_left]

theorem spawnGroups_wp {priority : Priority} {groups : List FetchGroup} {owners : List Slot}
    (hctx : ctx.At home) (h : b.Moves (↑owners + owned) d)
    (hcount : (groups.flatMap FetchGroup.indexes).length = owners.length) :
    wp (spec budget home) (spawnGroups ctx priority groups owners) (fun d' _ => b.Moves owned d') d := by
  induction groups generalizing d owners with
  | nil =>
      obtain rfl : owners = [] := List.length_eq_zero_iff.mp hcount.symm
      exact h.of_eq (zero_add _)
  | cons group groups ih =>
      have h : b.Moves (↑(owners.take group.count) + (↑(owners.drop group.count) + owned)) d :=
        h.of_eq (by rw [← add_assoc, Multiset.coe_add, List.take_append_drop])
      rw [List.flatMap_cons, List.length_append, FetchGroup.indexes, List.length_range'] at hcount
      have hcount' : (groups.flatMap FetchGroup.indexes).length = (owners.drop group.count).length := by
        rw [List.length_drop]
        omega
      exact wp_spawn h ⟨hctx.home, hctx.self, rfl⟩ fun d₁ h₁ => ih h₁ hcount'

theorem schedule_wp {priority : Priority} (hctx : ctx.At home) (h : b.Moves 0 d) :
    wp (spec budget home) (schedule ctx indexes priority)
    (fun d' handles => b.Moves 0 d' ∧ d'.Handles handles) d := by
  unfold schedule
  have hkeys : ∀ key ∈ (List.range' indexes.start indexes.count).map (BlockKey.new ctx.key ctx.tag),
      key.objectKey = home.key := by
    intro key hk
    obtain ⟨i, -, rfl⟩ := List.mem_map.mp hk
    exact hctx.key
  refine wp_seq (joinAll_wp h fun key hk => .inl (hkeys key hk)) fun d₁ out h₁ => ?_
  cases out with
  | none => exact hang_wp h₁ (.inl rfl)
  | some results =>
      obtain ⟨h₁, hfst, -⟩ := h₁
      have hresults : ∀ p ∈ results, p.1.objectKey = home.key :=
        fun p hp => hkeys _ (hfst ▸ List.mem_map_of_mem hp)
      refine wp_seq (registerMisses_wp h₁ hresults) fun d₂ out h₂ => ?_
      obtain ⟨handles, owners⟩ := out
      obtain ⟨h₂, hhandles⟩ := h₂
      have h₂ : b.Moves ↑owners d₂ := h₂.of_eq (add_zero _)
      dsimp only
      split
      · rename_i hnil
        subst hnil
        exact ⟨h₂, hhandles⟩
      · have hnear : ∀ key ∈ owners.map (·.key), d₂.Near home key := by
          intro key hk
          obtain ⟨slot, hs, rfl⟩ := List.mem_map.mp hk
          exact .inr ⟨slot, by rw [h₂.owned]; exact hs, rfl⟩
        refine wp_seq (joinAll_wp h₂.here hnear) fun d₃ out h₃ => ?_
        cases out with
        | none => exact wp_seq (cancelAll_end h₃) fun d₄ _ h₄ => hang_wp h₄ (.inl rfl)
        | some landed =>
            obtain ⟨h₃, hfst, hfound⟩ := h₃
            have hzip := map_fst_zip_snd hfst
            have ho₃ : d₃.Moves (↑((owners.zip (landed.map (·.2))).map (·.1)) + 0) d₃ :=
              h₃.here.of_eq (by rw [hzip, add_zero])
            refine wp_seq (resolveLanded_wp ho₃ fun slot block hb => hfound _ (mem_of_mem_zip_snd hfst hb)
              block rfl) fun d₄ owners' h₄ => ?_
            have hgroups := length_groupMisses (owners'.map (·.key.index)) ctx.namespace.config.fetchWindow
            rw [List.length_map] at hgroups
            refine wp_seq (spawnGroups_wp hctx h₄ hgroups) fun d₅ _ h₅ => ?_
            exact ⟨(h₂.trans h₃).trans h₅, (hhandles.mono h₃.known).mono h₅.known⟩

/-! ## Probing -/

theorem registerWhile_wp {indexes : List Nat} (hctx : ctx.At home) (h : b.Moves owned d) :
    wp (spec budget home) (registerWhile ctx indexes)
      (fun d' slots => b.Moves (↑slots + owned) d' ∧ ∀ slot ∈ slots, slot ∈ d'.known) d := by
  induction indexes generalizing b d owned with
  | nil => exact ⟨h.of_eq (zero_add _).symm, by simp⟩
  | cons index indexes ih =>
      refine wp_register h hctx.key (fun d₁ slot h₁ hk => ?_) fun d₁ slot h₁ _ => ?_
      · refine wp_seq (ih h₁.here) fun d₂ slots h₂ => ⟨(h₁.trans h₂.1).of_eq ?_, ?_⟩
        · rw [← Multiset.cons_coe, Multiset.cons_add, ← Multiset.add_cons]
        · exact List.forall_mem_cons.mpr ⟨h₂.1.known hk, h₂.2⟩
      · exact ⟨h₁.of_eq (zero_add _).symm, by simp⟩

theorem adoptResponse_wp {response : GetResponse} (hctx : ctx.At home) (h : b.Moves 0 d) :
    wp (spec budget home) (adoptResponse ctx indexes response)
    (fun d' handles => b.Moves 0 d' ∧ d'.Handles handles) d := by
  refine wp_seq (registerWhile_wp hctx h) fun d₁ slots h₁ => ?_
  obtain ⟨h₁, hknown⟩ := h₁
  split
  · rename_i hnil
    subst hnil
    exact ⟨h₁, .nil⟩
  · refine wp_spawn h₁.here ⟨hctx.home, hctx.self, rfl⟩ fun d₂ h₂ => ⟨h₁.trans h₂,
      fun slot hs => h₂.known (hknown slot ?_)⟩
    simpa using hs

end Duty

variable [TagHash]

namespace Duty

variable {b d : Duty} {owned : Multiset Slot} {budget fuel : Nat} {home : Home} {ns : NamespaceState}
  {name : Bytes}

/-- What a read starts with: a context for its object and the handles of the first blocks. -/
def Resolved (home : Home) (d : Duty) : Except NestorError (ReadCtx × List SlotHandle) → Prop
  | .error _ => True
  | .ok (ctx, handles) => ctx.At home ∧ d.Handles handles

theorem at_new (m : Option ObjectMeta) (policy : FetchPolicy) :
    (ReadCtx.new ns ⟨ns.id, name⟩ name m policy).At (.of ns name) := ⟨rfl, rfl⟩

theorem buildCtx_wp {m : ObjectMeta} (h : b.Moves owned d) :
    wp (spec budget (.of ns name)) (buildCtx ns name policy m)
      (fun d' ctx => b.Moves owned d' ∧ ctx.At (.of ns name)) d :=
  wp_free h ⟨rfl, trivial⟩ fun _ _ h₁ _ => ⟨h₁, at_new (some m) policy⟩

theorem buildOnly_wp {m : ObjectMeta} (h : b.Moves 0 d) :
    wp (spec budget (.of ns name)) (do let ctx ← buildCtx ns name policy m; pure (Except.ok (ctx, [])))
      (fun d' out => b.Moves 0 d' ∧ Resolved (.of ns name) d' out) d :=
  wp_seq (buildCtx_wp h) fun _ _ h₁ => ⟨h₁.1, h₁.2, .nil⟩

theorem probeRetry_wp {retry : Retry} {start : Nat} {e : OriginError} (h : b.Moves 0 d)
    (ih : ∀ {d : Duty} {retry : Retry}, b.Moves 0 d →
      wp (spec budget (.of ns name)) (probeLoop ns name indexes known policy fuel retry)
        (fun d' out => b.Moves 0 d' ∧ Resolved (.of ns name) d' out) d) :
    wp (spec budget (.of ns name)) (do
      match ← pastEnd fuel ns ⟨ns.id, name⟩ name start with
      | none => hang
      | some (some m) =>
          let ctx ← buildCtx ns name policy m
          pure (.ok (ctx, []))
      | some none =>
          match ← retry.pause e with
          | none => hang
          | some (_, .error e) => pure (.error (.ofOrigin e))
          | some (retry, .ok ()) => probeLoop ns name indexes known policy fuel retry)
      (fun d' out => b.Moves 0 d' ∧ Resolved (.of ns name) d' out) d := by
  refine wp_seq (pastEnd_wp rfl ⟨rfl, rfl⟩ h (.inl rfl)) fun d₁ out h₁ => ?_
  obtain _ | _ | m := out
  · exact hang_wp h₁ (.inl rfl)
  · refine wp_seq (pause_wp h₁) fun d₂ out h₂ => ?_
    obtain ⟨h₂, -⟩ := h₂
    obtain _ | ⟨retry', e' | ⟨⟩⟩ := out
    · exact hang_wp h₂ (.inl rfl)
    · exact ⟨h₂, trivial⟩
    · exact ih h₂
  · exact buildOnly_wp h₁

theorem probeLoop_wp {retry : Retry} (h : b.Moves 0 d) :
    wp (spec budget (.of ns name)) (probeLoop ns name indexes known policy fuel retry)
      (fun d' out => b.Moves 0 d' ∧ Resolved (.of ns name) d' out) d := by
  induction fuel generalizing d retry with
  | zero => exact hang_wp h (.inl rfl)
  | succ fuel ih =>
      refine wp_free h ⟨trivial, trivial⟩ fun now d₁ h₁ _ => ?_
      refine wp_seq (originGet_wp (at_new none policy).under h₁) fun d₂ answer h₂ => ?_
      obtain (e | response) | _ | _ := answer
      case ready.ok =>
        refine wp_seq (buildCtx_wp h₂) fun d₃ ctx h₃ => ?_
        obtain ⟨h₃, hctx⟩ := h₃
        exact wp_seq (adoptResponse_wp hctx h₃) fun d₄ handles h₄ => ⟨h₄.1, hctx, h₄.2⟩
      case ready.error =>
        cases e with
        | notModified =>
            cases known with
            | some m => exact buildOnly_wp h₂
            | none => exact ⟨h₂, trivial⟩
        | notFound => exact wp_free h₂ ⟨rfl, trivial⟩ fun _ d₃ h₃ _ => ⟨h₃, trivial⟩
        | _ => exact probeRetry_wp h₂ ih
      all_goals exact hang_wp h₂ (.inl rfl)

theorem probe_wp (h : b.Moves 0 d) :
    wp (spec budget (.of ns name)) (probe fuel ns name indexes known policy)
      (fun d' out => b.Moves 0 d' ∧ Resolved (.of ns name) d' out) d :=
  wp_free h ⟨trivial, trivial⟩ fun _ _ h₁ _ => probeLoop_wp h₁

end Duty

end Nestor
