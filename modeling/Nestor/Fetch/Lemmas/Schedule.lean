import Nestor.Fetch.Lemmas.Group
import Nestor.Fetch.Lemmas.Lookup

/-!
# Scheduling

`schedule` gives a handle for every block it is asked for, and hands the slots it comes to own over
to fetch groups of consecutive blocks. Beside these slots it leaves its caller's alone.
-/

namespace Nestor

open Lib Terms

variable {first n : Nat} {α : Type} {rest : Multiset Slot} {indexes : Range} {ns : NamespaceState}
    {name : Bytes} {policy : FetchPolicy}

theorem SlotsFrom.of_indexes {ctx : ReadCtx} {slots : List Slot}
    (hk : ∀ slot ∈ slots, slot.key = BlockKey.new ctx.key ctx.tag slot.key.index ∧ slot.key.index < maxU32)
    (hi : slots.map (·.key.index) = List.range' first n) : SlotsFrom ctx first slots := by
  induction slots generalizing first n with
  | nil => exact trivial
  | cons slot slots ih =>
      cases n with
      | zero => cases hi
      | succ n =>
          rw [List.map_cons, List.range'_succ, List.cons.injEq] at hi
          obtain ⟨hkey, hlt⟩ := hk slot List.mem_cons_self
          rw [hi.1] at hkey hlt
          exact ⟨hkey, hlt, ih (fun s hs => hk s (List.mem_cons_of_mem _ hs)) hi.2⟩

theorem FetchGroup.dealt {group : FetchGroup} {owners : List Slot} {rest : List Nat}
    (h : owners.map (·.key.index) = group.indexes ++ rest) :
    (owners.take group.count).map (·.key.index) = group.indexes ∧
    (owners.drop group.count).map (·.key.index) = rest := by
  have hlen : group.indexes.length = group.count := List.length_range'
  exact ⟨by rw [List.map_take, h, List.take_left' hlen], by rw [List.map_drop, h, List.drop_left' hlen]⟩

theorem registerWhile_keeps (ctx : ReadCtx) (indexes : List Nat) :
    (registerWhile ctx indexes).Only (·.keeps = true) := by
  induction indexes with
  | nil => trivial
  | cons index indexes ih =>
      refine .step rfl fun registration => ?_
      cases registration with
      | owner slot => exact ih.bind fun _ => trivial
      | waiter slot => trivial

variable [TagHash]

/-- The terms of the tasks of a running engine. -/
structure Terms.Running (T : Terms) : Prop where
  schedules : T.schedules
  old : ∀ slot, ¬ T.Old slot
  budget : T.budget = 0

namespace Law

/-- The handle is one for the block. -/
def HandleOk (L : Law) (key : BlockKey) : SlotHandle → Prop
  | .resolved (.ok b) => L.Fit key b
  | .resolved (.error _) => False
  | .waiting slot => slot.key = key

/-- The handles of consecutive blocks from `first` on. -/
def HandlesFrom (L : Law) (ctx : ReadCtx) : Nat → List SlotHandle → Prop
  | _, [] => True
  | first, handle :: handles =>
      L.HandleOk (BlockKey.new ctx.key ctx.tag first) handle ∧ first < maxU32 ∧
        L.HandlesFrom ctx (first + 1) handles

end Law

variable {T : Terms} {g : Held} {ctx : ReadCtx}

theorem Terms.Running.enough (hT : T.Running) (n : Nat) : T.budget ≤ n := hT.budget ▸ Nat.zero_le n

theorem Terms.Running.hang_wp (hT : T.Running) {Q : Held → α → Prop} : wp T.spec hang Q g :=
  ⟨hT.enough _, nofun⟩

/-! ## Lookups -/

theorem Terms.Running.looks (hT : T.Running) (g : Held) :
    Looks T.spec g.Hears g.Hears (fun _ => True) fun _ key found => ∀ b, found = some b →
    T.law.Fit key b where
  asks := fun _ _ _ => hT.schedules
  finds := by
    intro g' keys i key found h hr hi
    refine ⟨h.trans (.after rfl rfl), ?_, fun _ _ => id⟩
    rintro b rfl
    obtain ⟨key', hk, hfit⟩ := hr
    cases hi.symm.trans hk
    exact hfit
  strays := fun _ _ _ => hT.enough _
  fails := fun h _ _ => h.trans (.after rfl rfl)

theorem joinAll_wp (hT : T.Running) (keys : List BlockKey) :
    wp T.spec (joinAll keys) (Looked g.Hears fun g' results => g.Hears g' ∧ results.map (·.1) = keys ∧
      ∀ p ∈ results, ∀ b, p.2 = some b → T.law.Fit p.1 b) g :=
  (hT.looks g).joinAll_wp (fun _ _ => trivial) (.refl g)

/-! ## Misses -/

/-- The slots of blocks of the read. -/
def OwnedBy (ctx : ReadCtx) (slots : List Slot) : Prop :=
  ∀ slot ∈ slots, slot.key = BlockKey.new ctx.key ctx.tag slot.key.index ∧ slot.key.index < maxU32

theorem registerMisses_wp {results : List (BlockKey × Option Block)}
    (hkeys : results.map (·.1) = (List.range' first results.length).map (BlockKey.new ctx.key ctx.tag))
    (hmax : first + results.length ≤ maxU32) (hfit : ∀ key b, (key, some b) ∈ results → T.law.Fit key b) :
    wp T.spec (registerMisses results)
      (fun g' out => g.Moves (↑out.2 + g.owned) g' ∧ T.law.HandlesFrom ctx first out.1 ∧
        out.1.length = results.length ∧ OwnedBy ctx out.2) g := by
  induction results generalizing first g with
  | nil => exact ⟨by simpa using (Held.Hears.refl g).toMoves, trivial, rfl, nofun⟩
  | cons result results ih =>
      obtain ⟨key, found⟩ := result
      rw [List.length_cons, List.range'_succ, List.map_cons, List.map_cons, List.cons.injEq] at hkeys
      rw [List.length_cons] at hmax
      obtain ⟨hkey, hkeys⟩ := hkeys
      dsimp only at hkey
      have hrest {g₁ : Held} := ih (g := g₁) hkeys (by omega) fun key b hb =>
        hfit key b (List.mem_cons_of_mem _ hb)
      unfold registerMisses
      match found with
      | some block =>
          refine wp_seq hrest fun g₁ out h₁ => ?_
          obtain ⟨h₁, hh, hl, ho⟩ := h₁
          refine ⟨h₁, ⟨?_, by omega, hh⟩, by simp [hl], ho⟩
          exact hkey ▸ hfit key block List.mem_cons_self
      | none =>
          refine register_owner_wp ?_ ?_
          · intro g₁ slot h₁ hk _
            refine wp_seq hrest fun g₂ out h₂ => ?_
            obtain ⟨h₂, hh, hl, ho⟩ := h₂
            refine ⟨?_, ⟨hk.trans hkey, by omega, hh⟩, by simp [hl], fun s hs => ?_⟩
            · have h := h₁.toMoves.trans h₂
              rw [h₁.owned] at h
              rwa [← Multiset.cons_coe, Multiset.cons_add, ← Multiset.add_cons]
            · rcases List.mem_cons.mp hs with rfl | hs
              · rw [hk, hkey]
                exact ⟨rfl, by simp only [BlockKey.new]; omega⟩
              · exact ho s hs
          · intro g₁ slot h₁ hk
            refine wp_seq hrest fun g₂ out h₂ => ?_
            obtain ⟨h₂, hh, hl, ho⟩ := h₂
            refine ⟨?_, ⟨hk.trans hkey, by omega, hh⟩, by simp [hl], ho⟩
            have h := h₁.toMoves.trans h₂
            rwa [h₁.owned] at h

theorem resolveLanded_wp {landed : List (Slot × Option Block)} (ho : g.owned = ↑(landed.map (·.1)) + rest)
    (hfit : ∀ slot b, (slot, some b) ∈ landed → T.law.Fit slot.key b) :
    wp T.spec (resolveLanded landed)
      (fun g' owners => g.Moves (↑owners + rest) g' ∧ ∀ slot ∈ owners, slot ∈ landed.map (·.1)) g := by
  induction landed generalizing g rest with
  | nil => exact ⟨ho ▸ (Held.Hears.refl g).toMoves, nofun⟩
  | cons pair landed ih =>
      obtain ⟨slot, found⟩ := pair
      have hfit' : ∀ slot b, (slot, some b) ∈ landed → T.law.Fit slot.key b :=
        fun s b hb => hfit s b (List.mem_cons_of_mem _ hb)
      rw [List.map_cons, ← Multiset.cons_coe, Multiset.cons_add] at ho
      unfold resolveLanded
      match found with
      | some block =>
          refine wp_seq (settle_ok_wp (by simp [ho]) (hfit slot block List.mem_cons_self)) fun g₁ _ h₁ => ?_
          rw [ho, Multiset.erase_cons_head] at h₁
          refine wp_mono (ih h₁.owned hfit') fun g₂ owners h₂ => ?_
          exact ⟨h₁.toMoves.trans h₂.1, fun s hs => List.mem_cons_of_mem _ (h₂.2 s hs)⟩
      | none =>
          have ho' : g.owned = ↑(landed.map (·.1)) + slot ::ₘ rest := by rw [ho, Multiset.add_cons]
          refine wp_seq (ih ho' hfit') fun g₁ owners h₁ => ?_
          refine ⟨?_, fun s hs => ?_⟩
          · rw [← Multiset.cons_coe, Multiset.cons_add, ← Multiset.add_cons]
            exact h₁.1
          · rcases List.mem_cons.mp hs with rfl | hs
            · exact List.mem_cons_self
            · exact List.mem_cons_of_mem _ (h₁.2 s hs)

/-! ## Starting fetch groups -/

theorem spawn_wp (hT : T.Running) {task : Task} {f : Unit → Program α}
    {Q : Held → α → Prop} (ht : T.law.TaskOk task) (ho : g.owned = ↑task.slots + rest)
    (hhot : ∀ ns object m, task.Answered ns object m → g.hot ns object m)
    (h : ∀ g', g.Moves rest g' → wp T.spec (f ()) Q g') : wp T.spec (perform (.spawn task) >>= f) Q g := by
  refine wp_step ⟨hT.schedules, ht, by rw [ho]; exact Multiset.le_add_right _ _,
    hhot⟩ fun _ g₁ hg₁ _ => h g₁ ?_
  subst hg₁
  refine ⟨?_, rfl, rfl, fun _ h => h, Nat.le_add_right _ _⟩
  change g.owned - ↑task.slots = rest
  rw [ho, add_tsub_cancel_left]

theorem spawnGroups_wp (hT : T.Running) (h : T.law.CtxOk ctx) {priority : Priority} {groups : List FetchGroup}
    {owners : List Slot} (hown : OwnedBy ctx owners)
    (hi : owners.map (·.key.index) = groups.flatMap FetchGroup.indexes) (ho : g.owned = ↑owners + rest) :
    wp T.spec (spawnGroups ctx priority groups owners) (fun g' _ => g.Moves rest g') g := by
  induction groups generalizing owners g with
  | nil =>
      rw [List.flatMap_nil, List.map_eq_nil_iff] at hi
      subst hi
      exact (by simpa using ho : g.owned = rest) ▸ (Held.Hears.refl g).toMoves
  | cons group groups ih =>
      rw [List.flatMap_cons] at hi
      obtain ⟨htake, hdrop⟩ := FetchGroup.dealt hi
      have hslots : SlotsFrom ctx group.first (owners.take group.count) :=
        .of_indexes (fun s hs => hown s (List.mem_of_mem_take hs)) htake
      unfold spawnGroups
      have ho' : g.owned = ↑(owners.take group.count) + (↑(owners.drop group.count) + rest) := by
        rw [ho, ← add_assoc, Multiset.coe_add, List.take_append_drop]
      refine spawn_wp hT ⟨h, ⟨_, hslots⟩, by simp⟩ ho' (by simp [Task.Answered]) fun g₁ h₁ => ?_
      refine wp_mono (ih (fun s hs => hown s (List.mem_of_mem_drop hs)) hdrop h₁.owned) fun g₂ _ h₂ => ?_
      exact h₁.trans h₂

theorem schedule_wp (hT : T.Running) (h : T.law.CtxOk ctx) {priority : Priority}
    (hi : indexes.start + indexes.count ≤ maxU32) :
    wp T.spec (schedule ctx indexes priority)
      (fun g' handles => g.Moves g.owned g' ∧ T.law.HandlesFrom ctx indexes.start handles ∧
        handles.length = indexes.count) g := by
  unfold schedule
  refine wp_seq (joinAll_wp hT _) fun g₁ out h₁ => ?_
  cases out with
  | none => exact hT.hang_wp
  | some results =>
      obtain ⟨h₁, hkeys, hfit⟩ := h₁
      have hlen : results.length = indexes.count := by
        have := congrArg List.length hkeys
        simpa using this
      refine wp_seq (registerMisses_wp (by rw [hkeys, hlen]) (by omega) fun key b hb => hfit _ hb b rfl)
        fun g₂ out h₂ => ?_
      obtain ⟨handles, owners⟩ := out
      obtain ⟨h₂, hh, hl, hown⟩ := h₂
      have h₂ := h₁.toMoves.trans h₂
      rw [h₁.owned] at h₂
      dsimp only at *
      split
      · rename_i hnil
        subst hnil
        exact ⟨by simpa using h₂, hh, hl.trans hlen⟩
      · refine wp_seq (joinAll_wp hT _) fun g₃ out h₃ => ?_
        cases out with
        | none =>
            have h₃ := h₂.trans (Held.Hears.toMoves h₃)
            rw [h₂.owned] at h₃
            exact wp_seq (resolveAll_wp h₃.owned nofun) fun _ _ _ => hT.hang_wp
        | some landed =>
            obtain ⟨h₃, hkeys, hfit⟩ := h₃
            have h₃ := h₂.trans h₃.toMoves
            rw [h₂.owned] at h₃
            have hzip := map_fst_zip_snd hkeys
            have ho₃ : g₃.owned = ↑((owners.zip (landed.map (·.2))).map (·.1)) + g.owned := by
              rw [hzip]
              exact h₃.owned
            refine wp_seq (resolveLanded_wp ho₃ fun slot b hb => hfit _ (mem_of_mem_zip_snd hkeys hb) b rfl)
              fun g₄ owners' h₄ => ?_
            obtain ⟨h₄, hsub⟩ := h₄
            rw [hzip] at hsub
            have hown' : OwnedBy ctx owners' := fun s hs => hown s (hsub s hs)
            have hbound : ∀ i ∈ owners'.map (·.key.index), i < maxU32 := by
              intro i hi
              obtain ⟨s, hs, rfl⟩ := List.mem_map.mp hi
              exact (hown' s hs).2
            have hgroups := groupMisses_indexes hbound ctx.namespace.config.fetchWindow
            refine wp_seq (spawnGroups_wp hT h hown' hgroups.symm h₄.owned) fun g₅ _ h₅ => ?_
            exact ⟨(h₃.trans h₄).trans h₅, hh, hl.trans hlen⟩

/-! ## Probing -/

theorem registerWhile_wp (hmax : n ≠ 0 → first + n ≤ maxU32) :
    wp T.spec (registerWhile ctx (List.range' first n))
      (fun g' slots => g.Moves (↑slots + g.owned) g' ∧ SlotsFrom ctx first slots ∧ slots.length ≤ n) g := by
  induction n generalizing first g with
  | zero => exact ⟨by simpa using (Held.Hears.refl g).toMoves, trivial, Nat.le_refl _⟩
  | succ n ih =>
      rw [List.range'_succ]
      unfold registerWhile
      refine register_owner_wp ?_ ?_
      · intro g₁ slot h₁ hk _
        have hmax := hmax (Nat.succ_ne_zero n)
        refine wp_seq (ih fun _ => by omega) fun g₂ slots h₂ => ?_
        obtain ⟨h₂, hs, hl⟩ := h₂
        refine ⟨?_, ⟨hk, by omega, hs⟩, by rw [List.length_cons]; omega⟩
        have h := h₁.toMoves.trans h₂
        rw [h₁.owned] at h
        rwa [← Multiset.cons_coe, Multiset.cons_add, ← Multiset.add_cons]
      · intro g₁ slot h₁ _
        exact ⟨by simpa using h₁.toMoves, trivial, Nat.zero_le _⟩

theorem SlotsFrom.handles {slots : List Slot} (h : SlotsFrom ctx first slots) :
    T.law.HandlesFrom ctx first (slots.map .waiting) := by
  induction slots generalizing first with
  | nil => exact trivial
  | cons slot slots ih => exact ⟨h.1, h.2.1, ih h.2.2⟩

theorem adoptResponse_wp (hT : T.Running) (h : T.law.CtxOk ctx) {response : GetResponse}
    (hr : ∃ v, T.law.Has ctx.key.namespace ctx.key.object v ∧ response.Of v)
    (hhot : g.hot ctx.namespace.name ctx.name response.meta) (hmax : indexes.stop ≤ maxU32) :
    wp T.spec (adoptResponse ctx indexes response)
      (fun g' handles => g.Moves g.owned g' ∧ T.law.HandlesFrom ctx indexes.start handles) g := by
  unfold adoptResponse
  refine wp_seq (wp_hot (registerWhile_keeps _ _) hhot (registerWhile_wp fun _ => by omega))
    fun g₁ slots h₁ => ?_
  obtain ⟨⟨h₁, hs, -⟩, hhot⟩ := h₁
  split
  · rename_i hnil
    subst hnil
    exact ⟨by simpa using h₁, trivial⟩
  · refine spawn_wp hT ⟨h, ⟨_, hs⟩, ?_⟩ h₁.owned ?_ fun g₂ h₂ => ⟨h₁.trans h₂, hs.handles⟩
    · rintro _ ⟨⟩
      exact hr
    · rintro _ _ _ ⟨rfl, rfl, rfl⟩
      exact hhot

/-- A context that has been resolved for a read, and the handles of the first blocks. In a mutable
namespace the read has been told of the version the context is for. -/
structure Law.Resolved (L : Law) (ns : NamespaceState) (name : Bytes) (first : Nat) (g : Held) (ctx : ReadCtx)
    (fetched : List SlotHandle) : Prop where
  ok : L.CtxOk ctx
  space : ctx.namespace = ns
  object : ctx.name = name
  told : ¬ L.immutable ns.id → ∃ m ∈ g.told, ctx.meta = some m
  handles : L.HandlesFrom ctx first fetched

/-- What a read with the context has been told of its version. -/
theorem Law.Resolved.told_tag {L : Law}
    {fetched : List SlotHandle} (h : L.Resolved ns name first g ctx fetched)
    (hi : ¬ L.immutable ctx.namespace.id) :
    ∃ m ∈ g.told, ctx.meta = some m ∧ L.Describes ⟨ctx.namespace.id, ctx.name⟩ m ∧
      ctx.tag = contentTag m.etag m.size := by
  obtain ⟨m, hmem, hm⟩ := h.told (h.space ▸ hi)
  exact ⟨m, hmem, hm, h.ok.key ▸ h.ok.meta m hm, h.ok.tag_mutable hi hm⟩

theorem buildCtx_wp {m : ObjectMeta} (hk : T.law.Knows ns)
    (hhot : g.hot ns.name name m) (htold : m ∈ g.told) (hd : T.law.Describes ⟨ns.id, name⟩ m) :
    wp T.spec (buildCtx ns name policy m)
      (fun g' ctx => g.Hears g' ∧ g'.hot ns.name name m ∧ ctx.meta = some m ∧
        ∀ first fetched, T.law.HandlesFrom ctx first fetched →
        T.law.Resolved ns name first g' ctx fetched) g := by
  unfold buildCtx
  refine wp_step ⟨hd, .inl (hk.name ▸ hhot)⟩ fun _ g₁ hg₁ _ => ?_
  have h₁ := Held.Hears.after hg₁ rfl
  refine ⟨h₁, Held.hot_after hg₁ hhot rfl, rfl, fun first fetched hh => ?_⟩
  refine ⟨⟨hk, rfl, rfl, ?_, nofun⟩, rfl, rfl, fun _ => ⟨m, h₁.told m htold, rfl⟩, hh⟩
  rintro _ ⟨⟩
  exact hd

theorem Law.Resolved.moves {g' : Held} {owned : Multiset Slot}
    {fetched : List SlotHandle} (h : T.law.Resolved ns name first g ctx fetched) (hm : g.Moves owned g') :
    T.law.Resolved ns name first g' ctx fetched :=
  { h with
    told := fun hi => by
      obtain ⟨m, hmem, hmeta⟩ := h.told hi
      exact ⟨m, hm.told m hmem, hmeta⟩ }

theorem probeLoop_wp (hT : T.Running) (hk : T.law.Knows ns)
    {known : Option ObjectMeta} {fuel : Nat} {retry : Retry} (hmax : indexes.stop ≤ maxU32)
    (hknown : ∀ m, known = some m → m ∈ g.told ∧ T.law.Describes ⟨ns.id, name⟩ m) :
    wp T.spec (probeLoop ns name indexes known policy fuel retry)
      (fun g' out => g.Moves g.owned g' ∧ ∀ ctx fetched, out = .ok (ctx, fetched) →
        T.law.Resolved ns name indexes.start g' ctx fetched ∧ ctx.meta.isSome) g := by
  induction fuel generalizing retry g with
  | zero => exact hT.hang_wp
  | succ fuel ih =>
      unfold probeLoop
      refine wp_quiet trivial rfl fun now g₁ h₁ _ => ?_
      refine wp_seq (originGet_wp fun _ _ => hT.old _) fun g₂ a h₂ => ?_
      obtain ⟨h₂, ha⟩ := h₂
      have h₂ := h₁.trans h₂
      split
      · rename_i response
        obtain ⟨hhot, htold, v, hv, hof⟩ := ha
        have hv : T.law.Has ns.id name v := by
          rw [Universe.Has, ← hk.name]
          exact hv
        refine wp_seq (buildCtx_wp hk hhot htold ⟨v, hv, hof.1⟩) fun g₃ ctx h₃ => ?_
        obtain ⟨h₃, hhot, hmeta, hres⟩ := h₃
        have h₃ := h₂.trans h₃
        have hctx := hres 0 [] trivial
        have hkey : ctx.key = ⟨ns.id, name⟩ := by rw [hctx.ok.key, hctx.space, hctx.object]
        rw [← hctx.space, ← hctx.object] at hhot
        refine wp_seq (adoptResponse_wp hT hctx.ok ⟨v, by rw [hkey]; exact hv, hof⟩ hhot hmax)
          fun g₄ fetched h₄ => ?_
        obtain ⟨h₄, hh⟩ := h₄
        rw [h₃.owned] at h₄
        refine ⟨h₃.toMoves.trans h₄, ?_⟩
        rintro _ _ ⟨⟩
        exact ⟨(hres _ _ hh).moves h₄, by rw [hmeta]; rfl⟩
      · cases known with
        | some m =>
            obtain ⟨htold, hd⟩ := hknown m rfl
            refine wp_seq (buildCtx_wp hk (ha rfl m rfl) (h₂.told m htold) hd) fun g₃ ctx h₃ => ?_
            refine ⟨(h₂.trans h₃.1).toMoves, ?_⟩
            rintro _ _ ⟨⟩
            exact ⟨h₃.2.2.2 _ _ trivial, by rw [h₃.2.2.1]; rfl⟩
        | none => exact ⟨h₂.toMoves, by simp⟩
      · refine wp_quiet trivial rfl fun _ g₃ h₃ _ => ?_
        exact ⟨(h₂.trans h₃).toMoves, by simp⟩
      · refine wp_seq (pastEnd_wp hk (hT.enough _) _) fun g₃ out h₃ => ?_
        obtain ⟨h₃, hend⟩ := h₃
        have h₃ := h₂.trans h₃
        obtain _ | _ | m := out
        · exact hT.hang_wp
        · refine wp_seq pause_wp fun g₄ a h₄ => ?_
          obtain ⟨h₄, -⟩ := h₄
          have h₄ := h₃.trans h₄
          obtain _ | ⟨retry, e | ⟨⟩⟩ := a
          · exact hT.hang_wp
          · exact ⟨h₄.toMoves, by simp⟩
          · have hknown₄ : ∀ m, known = some m → m ∈ g₄.told ∧ T.law.Describes ⟨ns.id, name⟩ m :=
              fun m hm => ⟨h₄.told m (hknown m hm).1, (hknown m hm).2⟩
            refine wp_mono (ih hknown₄) fun g₅ out h₅ => ?_
            rw [h₄.owned] at h₅
            exact ⟨h₄.toMoves.trans h₅.1, h₅.2⟩
        · obtain ⟨⟨hhot, htold, hd⟩, -⟩ := hend m rfl
          refine wp_seq (buildCtx_wp hk (hk.name ▸ hhot) htold hd) fun g₄ ctx h₄ => ?_
          refine ⟨(h₃.trans h₄.1).toMoves, ?_⟩
          rintro _ _ ⟨⟩
          exact ⟨h₄.2.2.2 _ _ trivial, by rw [h₄.2.2.1]; rfl⟩
      · exact hT.hang_wp

theorem probe_wp (hT : T.Running) (hk : T.law.Knows ns)
    {known : Option ObjectMeta} {fuel : Nat} (hmax : indexes.stop ≤ maxU32)
    (hknown : ∀ m, known = some m → m ∈ g.told ∧ T.law.Describes ⟨ns.id, name⟩ m) :
    wp T.spec (probe fuel ns name indexes known policy)
      (fun g' out => g.Moves g.owned g' ∧ ∀ ctx fetched, out = .ok (ctx, fetched) →
        T.law.Resolved ns name indexes.start g' ctx fetched ∧ ctx.meta.isSome) g := by
  unfold probe
  refine wp_quiet trivial rfl fun now g₁ h₁ _ => ?_
  have hknown₁ : ∀ m, known = some m → m ∈ g₁.told ∧ T.law.Describes ⟨ns.id, name⟩ m :=
    fun m hm => ⟨h₁.told m (hknown m hm).1, (hknown m hm).2⟩
  refine wp_mono (probeLoop_wp hT hk hmax hknown₁) fun g₂ out h₂ => ?_
  rw [h₁.owned] at h₂
  exact ⟨h₁.toMoves.trans h₂.1, h₂.2⟩

end Nestor
