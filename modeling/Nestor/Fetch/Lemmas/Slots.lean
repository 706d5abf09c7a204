import Nestor.Fetch.Lemmas.Requests

/-!
# Settling and claiming slots
-/

namespace Nestor

open Lib Terms

variable [TagHash] {T : Terms} {g g' : Held} {ctx : ReadCtx} {slot : Slot} {result : BlockResult}
  {slots : List Slot}

/-- The task comes to own `owned`, and gives up none of the slots that were there before. -/
structure Terms.Passes (T : Terms) (g : Held) (owned : Multiset Slot) (g' : Held) : Prop extends
    g.Moves owned g' where
  lost : ∀ slot ∈ g'.lost, slot ∈ g.lost ∨ ¬ T.Old slot

namespace Terms.Passes

theorem of_hears {g : Held} (h : g.Hears g') : T.Passes g g.owned g' :=
  ⟨h.toMoves, fun _ hs => .inl (h.lost ▸ hs)⟩

theorem trans {g g'' : Held} {owned owned'} (h : T.Passes g owned g') (h' : T.Passes g' owned' g'') :
    T.Passes g owned' g'' where
  toMoves := h.toMoves.trans h'.toMoves
  lost := fun slot hs => (h'.lost slot hs).elim (h.lost slot) .inr

theorem hears {g g'' : Held} {owned} (h : T.Passes g owned g') (h' : g'.Hears g'') : T.Passes g owned g'' :=
  h.trans (by have := of_hears (T := T) h'; rwa [h.owned] at this)

theorem spares {g : Held} {owned} (h : T.Passes g owned g') (hl : ∀ slot ∈ g.lost, ¬ T.Old slot) :
    ∀ slot ∈ g'.lost, ¬ T.Old slot :=
  fun slot hs => (h.lost slot hs).elim (hl slot) id

end Terms.Passes

theorem settle_wp (hs : slot ∈ g.owned) (hr : ∀ b, result = .ok b → T.law.Fit slot.key b) :
    wp T.spec (slot.settle result)
      (fun g' _ => g.Moves (g.owned.erase slot) g' ∧
        ∀ s ∈ g'.lost, s ∈ g.lost ∨ (s = slot ∧ ∃ e, result = .error e)) g := by
  unfold Slot.settle
  refine wp_quiet ⟨slot, hs, rfl⟩ rfl fun _ g₁ h₁ _ => ?_
  refine ⟨⟨h₁.owned ▸ hs, hr⟩, fun _ _ => ?_⟩
  have ht₁ := h₁.turns
  cases result with
  | ok b =>
      refine ⟨⟨congrArg (·.erase slot) h₁.owned, h₁.task, h₁.seen, h₁.told, ?_⟩,
        fun s hm => .inl (h₁.lost ▸ hm)⟩
      exact ht₁
  | error e =>
      refine ⟨⟨congrArg (·.erase slot) h₁.owned, h₁.task, h₁.seen, h₁.told, ?_⟩, fun s hm => ?_⟩
      · exact ht₁
      · rcases List.mem_cons.mp hm with rfl | hm
        · exact .inr ⟨rfl, e, rfl⟩
        · exact .inl (h₁.lost ▸ hm)

theorem resolveAll_wp {rest : Multiset Slot}
    (ho : g.owned = ↑slots + rest) (hr : ∀ slot ∈ slots, ∀ b, result = .ok b → T.law.Fit slot.key b) :
    wp T.spec (resolveAll result slots)
      (fun g' _ => g.Moves rest g' ∧ ∀ s ∈ g'.lost, s ∈ g.lost ∨ (s ∈ slots ∧ ∃ e, result = .error e)) g := by
  induction slots generalizing g with
  | nil =>
      refine ⟨⟨by simpa using ho, rfl, rfl, fun _ h => h, Nat.le_refl _⟩, fun _ h => .inl h⟩
  | cons slot slots ih =>
      have hmem : slot ∈ g.owned := by simp [ho]
      refine wp_seq (settle_wp hmem (hr slot List.mem_cons_self)) fun g₁ _ h₁ => ?_
      obtain ⟨h₁, hl₁⟩ := h₁
      have ho₁ : g₁.owned = ↑slots + rest := by
        rw [h₁.owned, ho, ← Multiset.cons_coe, Multiset.cons_add, Multiset.erase_cons_head]
      refine wp_mono (ih ho₁ fun s hs => hr s (List.mem_cons_of_mem _ hs)) fun g₂ _ h₂ => ?_
      obtain ⟨h₂, hl₂⟩ := h₂
      refine ⟨h₁.trans h₂, fun s hs => ?_⟩
      rcases hl₂ s hs with hs | ⟨hs, he⟩
      · rcases hl₁ s hs with hs | ⟨rfl, he⟩
        · exact .inl hs
        · exact .inr ⟨List.mem_cons_self, he⟩
      · exact .inr ⟨List.mem_cons_of_mem _ hs, he⟩

theorem resolveAll_end (ho : g.owned = ↑slots)
    (hr : ∀ slot ∈ slots, ∀ b, result = .ok b → T.law.Fit slot.key b) :
    wp T.spec (resolveAll result slots) (fun g' _ => g'.owned = 0) g := by
  have ho : g.owned = ↑slots + 0 := by simpa using ho
  exact wp_mono (resolveAll_wp ho hr) fun _ _ h => h.1.owned

theorem cancelAll_end (ho : g.owned = ↑slots) :
    wp T.spec (cancelAll slots) (fun g' _ => g'.owned = 0) g :=
  resolveAll_end ho nofun

theorem settle_ok_wp {b : Block} (hs : slot ∈ g.owned) (hr : T.law.Fit slot.key b) :
    wp T.spec (slot.settle (.ok b)) (fun g' _ => T.Passes g (g.owned.erase slot) g') g := by
  refine wp_mono (settle_wp hs (by rintro _ ⟨⟩; exact hr)) fun g' _ h => ⟨h.1, fun s hl => ?_⟩
  rcases h.2 s hl with hl | ⟨-, _, he⟩
  · exact .inl hl
  · cases he

theorem cancelAll_wp {rest : Multiset Slot} (ho : g.owned = ↑slots + rest)
    (hold : ∀ slot ∈ slots, ¬ T.Old slot) :
    wp T.spec (cancelAll slots) (fun g' _ => T.Passes g rest g') g := by
  refine wp_mono (resolveAll_wp ho nofun) fun g' _ h => ⟨h.1, fun s hl => ?_⟩
  exact (h.2 s hl).imp id fun hs => hold s hs.1

/-- A slot of the read, new to the task. -/
structure Terms.Claimed (T : Terms) (ctx : ReadCtx) (slot : Slot) : Prop where
  key : slot.key = BlockKey.new ctx.key ctx.tag slot.key.index
  new : ¬ T.Old slot

theorem register_owner_wp {α : Type} {key : BlockKey} {f : Registration → Program α} {Q : Held → α → Prop}
    (howner : ∀ g' slot, T.Passes g (slot ::ₘ g.owned) g' → slot.key = key → ¬ T.Old slot →
      wp T.spec (f (.owner slot)) Q g')
    (hwaiter : ∀ g' slot, g.Hears g' → slot.key = key → wp T.spec (f (.waiter slot)) Q g') :
    wp T.spec (perform (.register key) >>= f) Q g := by
  refine wp_step trivial fun registration g' hg' hr => ?_
  match registration, hg', hr with
  | .owner slot, hg', hr =>
      refine howner g' slot ?_ hr.1 hr.2
      subst hg'
      exact ⟨⟨rfl, rfl, rfl, fun _ h => h, Nat.le_add_right _ _⟩, fun _ h => .inl h⟩
  | .waiter slot, hg', hr =>
      refine hwaiter g' slot ?_ hr
      subst hg'
      exact ⟨⟨rfl, rfl, rfl, fun _ h => h, Nat.le_add_right _ _⟩, rfl⟩

theorem claim_wp {index : Nat} :
    wp T.spec (claim ctx index)
      (fun g' a => T.Passes g (↑a.toList + g.owned) g' ∧
        ∀ slot ∈ a.toList, slot.key.index = index ∧ T.Claimed ctx slot) g := by
  unfold claim
  refine wp_quiet trivial rfl fun present g₁ h₁ _ => ?_
  split
  · exact ⟨by simpa using Passes.of_hears h₁, by simp⟩
  · refine register_owner_wp ?_ ?_
    · intro g₂ slot h₂ hk ho
      refine ⟨?_, ?_⟩
      · rw [h₁.owned] at h₂
        simpa using (Passes.of_hears h₁).trans h₂
      · simp only [Option.toList_some, List.mem_singleton, forall_eq]
        exact ⟨by rw [hk]; rfl, by rw [hk]; rfl, ho⟩
    · intro g₂ slot h₂ _
      exact ⟨by simpa using Passes.of_hears (h₁.trans h₂), by simp⟩

theorem cacheExtra_wp {m : ObjectMeta} {data : Bytes} (hs : slot ∈ g.owned)
    (he : T.law.Exact slot.key ⟨m, data⟩) :
    wp T.spec (cacheExtra slot m data) (fun g' _ => T.Passes g (g.owned.erase slot) g') g := by
  unfold cacheExtra
  refine wp_quiet he rfl fun _ g₁ h₁ _ => ?_
  refine wp_mono (settle_ok_wp (h₁.owned ▸ hs) (T.law.fit_of_exact he)) fun g₂ _ h₂ => ?_
  rw [h₁.owned] at h₂
  exact (Passes.of_hears h₁).trans h₂

/-- The indexes of the claimed slots, in order, are among those asked for. -/
theorem claimAll_wp {indexes : List Nat} :
    wp T.spec (claimAll ctx indexes)
      (fun g' slots => T.Passes g (↑slots + g.owned) g' ∧ (slots.map (·.key.index)).Sublist indexes ∧
        ∀ slot ∈ slots, T.Claimed ctx slot) g := by
  induction indexes generalizing g with
  | nil => exact ⟨by simpa using Passes.of_hears (.refl g), .slnil, by simp⟩
  | cons index indexes ih =>
      unfold claimAll
      refine wp_seq claim_wp fun g₁ claimed h₁ => ?_
      refine wp_seq ih fun g₂ rest h₂ => ?_
      obtain ⟨h₁, hc₁⟩ := h₁
      obtain ⟨h₂, hsub, hc₂⟩ := h₂
      refine ⟨?_, ?_, fun slot hs => ?_⟩
      · have h := h₁.trans h₂
        rw [h₁.owned] at h
        rwa [← Multiset.coe_add, add_assoc, add_left_comm]
      · cases claimed with
        | none => exact hsub.cons _
        | some slot =>
            have hi := (hc₁ slot (by simp)).1
            simpa [hi] using hsub
      · rcases List.mem_append.mp hs with hs | hs
        · exact (hc₁ slot hs).2
        · exact hc₂ slot hs

end Nestor
