import Nestor.Fetch.Lemmas.Consume

/-!
# Fetch groups

A fetch group settles every slot it was started with, whatever the origin answers. It makes another
attempt only for slots it has not given up, and asks for what is left of the group then.
-/

namespace Nestor

open Lib Terms

variable {first : Nat} {slots : List Slot} {initial : Option GetResponse}

/-- The span of a group starts at its first block, and is empty only past the end of the object. -/
theorem SlotsFrom.span {ctx : ReadCtx} (h : SlotsFrom ctx first slots) (hne : slots ≠ [])
    (bs : BlockSize) (size : Option Nat) :
    (bs.span first slots.length size).start = first * bs.bytes ∧
      ((bs.span first slots.length size).isEmpty → ∀ n, size = some n → n ≤ first * bs.bytes) := by
  have hlen := h.length_le hne
  have hm : maxU32 = 2 ^ 32 - 1 := rfl
  rw [bs.span_eq (by omega)]
  refine ⟨rfl, fun hempty n hn => ?_⟩
  subst hn
  have hpos := bs.bytes_pos
  have hlt : first * bs.bytes < (first + slots.length) * bs.bytes :=
    Nat.mul_lt_mul_of_pos_right (by have := List.length_pos_iff.mpr hne; omega) hpos
  have hempty : min ((first + slots.length) * bs.bytes) n ≤ first * bs.bytes := by
    simpa [Range.isEmpty] using hempty
  omega

variable [TagHash] {T : Terms} {g : Held} {ctx : ReadCtx} {fuel : Nat}

/-- The blocks past the end of the object are empty. -/
theorem Universe.fit_empty (h : T.law.CtxOk ctx) {m : ObjectMeta} (hm : T.law.Pinned ctx m)
    (hslots : SlotsFrom ctx first slots) (hend : m.size ≤ first * ctx.namespace.config.blockSize.bytes)
    {slot : Slot} (hs : slot ∈ slots) :
    T.law.Fit slot.key (Block.empty m) := by
  obtain ⟨i, hle, hlt, hk⟩ := hslots.mem hs
  rw [hk]
  exact T.law.fit_of_exact (exact_empty h hm hlt (hend.trans (Nat.mul_le_mul_right _ hle)))

theorem retryOrFail_wp {retry : Retry} {e : OriginError} (ho : g.owned = ↑slots) :
    wp T.spec (retryOrFail retry slots e)
      (fun g' out =>
        (out = none → g'.owned = ↑slots) ∧
        (∀ retry slots', out = some (retry, slots', true) → g.Hears g' ∧ g.turns < g'.turns ∧
          slots' = slots) ∧
        (∀ retry slots', out = some (retry, slots', false) → g'.owned = 0)) g := by
  unfold retryOrFail
  refine wp_seq pause_wp fun g₁ a h₁ => ?_
  obtain ⟨h₁, hgo⟩ := h₁
  have ho₁ := h₁.owned.trans ho
  match a with
  | none => exact ⟨fun _ => ho₁, nofun, nofun⟩
  | some (retry, .ok ()) =>
      refine ⟨nofun, ?_, nofun⟩
      rintro _ _ ⟨⟩
      exact ⟨h₁, hgo retry rfl, rfl⟩
  | some (retry, .error e) =>
      refine wp_seq (resolveAll_end ho₁ nofun) fun g₂ _ h₂ => ?_
      exact ⟨nofun, nofun, fun _ _ _ => h₂⟩

/-- How an attempt ends: with every slot settled, or with what it has not delivered still there. -/
def Terms.AttemptOk (T : Terms) (ctx : ReadCtx) (g : Held) (slots : List Slot) (g' : Held) : Attempt → Prop
  | .settled => g'.owned = 0
  | .failed m slots' _ =>
      T.Passes g ↑slots' g' ∧ slots' <:+ slots ∧ (∀ known, m = some known → T.law.Pinned ctx known) ∧
        (m = none → ctx.meta = none)

/-- A response with a version of the object, whose metadata is at hand. -/
def Terms.Given (T : Terms) (ctx : ReadCtx) (g : Held) (r : GetResponse) : Prop :=
  g.hot ctx.namespace.name ctx.name r.meta ∧ ∃ v, T.law.Has ctx.key.namespace ctx.key.object v ∧ r.Of v

theorem attempt_wp (h : T.law.CtxOk ctx) {m : Option ObjectMeta} {deadline : Nat}
    {range : Range} {a : Awaited (Except OriginError GetResponse)}
    (hm : ∀ known, m = some known → T.law.Pinned ctx known) (hnone : m = none → ctx.meta = none)
    (hslots : SlotsFrom ctx first slots) (hne : slots ≠ [])
    (hrange : range.start = first * ctx.namespace.config.blockSize.bytes) (ho : g.owned = ↑slots)
    (ha : ∀ r, a = .ready (.ok r) → T.Given ctx g r)
    (hf : T.budget ≤ g.turns + fuel) :
    wp T.spec (attempt fuel ctx m slots range deadline a) (T.AttemptOk ctx g slots) g := by
  have hfailed (e : OriginError) : wp T.spec (pure (.failed m slots e)) (T.AttemptOk ctx g slots) g :=
    ⟨ho ▸ .of_hears (.refl g), List.suffix_rfl, hm, hnone⟩
  have hgone (e : NestorError) :
      wp T.spec (do
        perform (.metaRemove ctx.key)
        resolveAll (.error e) slots
        pure .settled) (T.AttemptOk ctx g slots) g := by
    refine wp_quiet trivial rfl fun _ g₁ h₁ _ => ?_
    exact wp_seq (resolveAll_end (h₁.owned.trans ho) (by simp)) fun g₂ _ h₂ => h₂
  unfold attempt
  split
  · rename_i response
    obtain ⟨hhot, hr⟩ := ha response rfl
    have ho' : g.owned = ↑slots + 0 := by rw [ho, add_zero]
    refine wp_seq (accept_wp h hr hhot hslots hne hrange ho' hf) fun g₁ out h₁ => ?_
    obtain ⟨h₁, hpin⟩ := h₁
    have hmoves := h₁.moves
    have ht₁ := hmoves.turns
    obtain ⟨slots', (e | (_ | t)) | _ | _⟩ := out
    · refine ⟨⟨by simpa [trailingSlots] using hmoves, h₁.lost (by simp)⟩, h₁.suffix, ?_, by simp⟩
      rintro _ ⟨⟩
      exact hpin (by simp)
    · obtain rfl : slots' = [] := h₁.done none rfl
      exact hmoves.owned
    · obtain rfl : slots' = [] := h₁.done (some t) rfl
      have ho₁ : g₁.owned = ↑t.slots + 0 := by
        rw [hmoves.owned]
        exact zero_add _
      exact wp_seq (fillTrailing_wp h (h₁.trailing t rfl) ho₁ (by omega)) fun g₂ _ h₂ => h₂.owned
    · refine ⟨⟨by simpa [trailingSlots] using hmoves, h₁.lost (by simp)⟩, h₁.suffix, ?_, by simp⟩
      rintro _ ⟨⟩
      exact hpin (by simp)
    · have ho₁ : g₁.owned = ↑slots' := by simpa [trailingSlots] using hmoves.owned
      exact wp_seq (cancelAll_end ho₁) fun g₂ _ h₂ => h₂
  · exact hgone .notFound
  · exact hgone .stale
  · rename_i e _ _
    cases m with
    | some known => exact hfailed e
    | none =>
        have hkey : T.law.Knows ctx.namespace := h.knows
        simp only [h.key]
        refine wp_seq (pastEnd_wp hkey hf _) fun g₁ out h₁ => ?_
        obtain ⟨h₁, hend⟩ := h₁
        obtain _ | _ | known := out
        · exact wp_seq (cancelAll_end (h₁.owned.trans ho)) fun g₂ _ h₂ => h₂
        · exact ⟨ho ▸ .of_hears h₁, List.suffix_rfl, hm, hnone⟩
        · obtain ⟨⟨-, -, v, hv, hn⟩, hle⟩ := hend known rfl
          have hpin : T.law.Pinned ctx known := by
            refine ⟨v, by rw [h.key]; exact hv, hn, h.matches_of (.inl (h.tag_none (hnone rfl)))⟩
          refine wp_seq (resolveAll_end (h₁.owned.trans ho) fun slot hs b hb => ?_) fun g₂ _ h₂ => h₂
          cases hb
          exact Universe.fit_empty h hpin hslots (hrange ▸ hle) hs
  · exact wp_seq (cancelAll_end ho) fun g₁ _ h₁ => h₁

theorem answerFor_wp (h : T.law.CtxOk ctx) {range : Range} {deadline : Nat}
    (hl : ∀ slot ∈ g.lost, ¬ T.Old slot) (hinit : ∀ r, initial = some r → T.Given ctx g r) :
    wp T.spec (answerFor ctx range deadline initial)
      (fun g' a => g.Hears g' ∧ ∀ r, a = .ready (.ok r) → T.Given ctx g' r) g := by
  cases initial with
  | some response =>
      refine ⟨.refl g, ?_⟩
      rintro _ ⟨⟩
      exact hinit response rfl
  | none =>
      refine wp_mono (originGet_wp hl) fun g₁ a h₁ => ⟨h₁.1, ?_⟩
      rintro r rfl
      obtain ⟨hhot, -, v, hv, hof⟩ := h₁.2
      exact ⟨hhot, v, (h.versions v).mp hv, hof⟩

theorem fetchLoop_wp (h : T.law.CtxOk ctx) {retry : Retry} {m : Option ObjectMeta}
    (hm : ∀ known, m = some known → T.law.Pinned ctx known) (hnone : m = none → ctx.meta = none)
    (hslots : SlotsFrom ctx first slots) (ho : g.owned = ↑slots) (hl : ∀ slot ∈ g.lost, ¬ T.Old slot)
    (hinit : ∀ r, initial = some r → T.Given ctx g r) (hf : T.budget ≤ g.turns + fuel) :
    wp T.spec (fetchLoop ctx fuel retry m slots initial) (fun g' _ => g'.owned = 0) g := by
  induction fuel generalizing retry m first slots initial g with
  | zero => cases slots <;> exact ⟨hf, nofun⟩
  | succ fuel ih =>
      match slots with
      | [] => exact ho
      | front :: rest =>
          have hfront : front.key.index = first := by rw [hslots.1]; rfl
          obtain ⟨hstart, hempty⟩ :=
            hslots.span (by simp) ctx.namespace.config.blockSize (m.map (·.size))
          unfold fetchLoop
          simp only [hfront]
          refine wp_step trivial fun now g₁ hg₁ _ => ?_
          have h₁ := Held.Hears.after hg₁ rfl
          have ht₁ := h₁.turns
          split
          · rename_i known he
            refine resolveAll_end (h₁.owned.trans ho) fun slot hs b hb => ?_
            cases hb
            exact Universe.fit_empty h (hm known rfl) hslots (hempty he _ rfl) hs
          · refine wp_seq (answerFor_wp h (h₁.lost ▸ hl) fun r hr => ?_) fun g₂ a h₂ => ?_
            · obtain ⟨hhot, hr⟩ := hinit r hr
              exact ⟨Held.hot_after hg₁ hhot rfl, hr⟩
            · obtain ⟨h₂, ha⟩ := h₂
              have ht₂ := h₂.turns
              have h₂ := h₁.trans h₂
              refine wp_seq (attempt_wp h hm hnone hslots (by simp) hstart (h₂.owned.trans ho) ha (by omega))
                fun g₃ out h₃ => ?_
              match out with
              | .settled => exact h₃
              | .failed m slots' e =>
                  obtain ⟨h₃, hsuf, hm, hnone⟩ := h₃
                  refine wp_seq (retryOrFail_wp h₃.owned) fun g₄ out h₄ => ?_
                  obtain ⟨hdropped, hgo, hfailed⟩ := h₄
                  match out with
                  | none => exact cancelAll_end (hdropped rfl)
                  | some (retry, slots'', false) => exact hfailed retry slots'' rfl
                  | some (retry, slots'', true) =>
                      obtain ⟨h₄, ht₄, rfl⟩ := hgo retry slots'' rfl
                      obtain ⟨first', hslots'⟩ := hslots.suffix hsuf
                      have hl₃ := h₃.spares (h₂.lost ▸ hl)
                      have ht₃ := h₃.turns
                      exact ih hm hnone hslots' (h₄.owned.trans h₃.owned) (h₄.lost ▸ hl₃) nofun (by omega)

theorem fetchGroup_wp (h : T.law.CtxOk ctx) {priority : Priority} (hslots : SlotsFrom ctx first slots)
    (ho : g.owned = ↑slots) (hl : ∀ slot ∈ g.lost, ¬ T.Old slot)
    (hstart : ∀ ns object m, g.hot ns object m → g.task.Answered ns object m)
    (hinit : ∀ r, initial = some r → T.Given ctx g r) (hf : T.budget ≤ g.turns + fuel) :
    wp T.spec (fetchGroup fuel ctx slots priority initial) (fun g' _ => g'.owned = 0) g := by
  unfold fetchGroup
  refine wp_step hstart fun permit g₁ hg₁ _ => ?_
  have h₁ := Held.Hears.after hg₁ rfl
  split
  · refine wp_step trivial fun now g₂ hg₂ _ => ?_
    have h₂ := h₁.trans (.after hg₂ rfl)
    have ht₂ := h₂.turns
    refine fetchLoop_wp h (fun known hm => h.pinned hm) id hslots (h₂.owned.trans ho) (h₂.lost ▸ hl)
      (fun r hr => ?_) (by omega)
    obtain ⟨hhot, hr⟩ := hinit r hr
    exact ⟨Held.hot_after hg₂ (Held.hot_after hg₁ hhot rfl) rfl, hr⟩
  · exact cancelAll_end (h₁.owned.trans ho)

end Nestor
