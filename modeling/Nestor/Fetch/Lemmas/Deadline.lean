import Nestor.Fetch.Lemmas.Watch

/-!
# Fetch groups and probes on a clock

The lemmas of `Watch` for what a fetch does with a response, for its attempts and for probes.
-/

namespace Nestor

open Lib Bounds Watch

variable {next : Nat} {slots : List Slot} {known : Option ObjectMeta}

variable {B : Bounds} {g : Watch} {ctx : ReadCtx} {ns : NamespaceState} {name : Bytes} {fuel deadline : Nat}

/-! ## Bodies -/

section

variable (hg : g.In B) (hd : B.strict → deadline ≤ B.limit) (hb : B.budget ≤ g.turns + fuel)

include hg hd hb

theorem BlockStream.await_in {expected : Nat} {s : BlockStream} :
    wp B.spec (s.await expected deadline fuel) (fun g' _ => g.Hears B g') g := by
  induction fuel generalizing s g with
  | zero => exact hang_in hg hb
  | succ fuel ih =>
      unfold BlockStream.await
      refine wp_await hg rfl (fun r hr => hg.after_await hr.1 rfl hd fun _ hw => nomatch hw)
        fun answer g₁ hg₁ h₁ hr => ?_
      cases answer with
      | timeout => exact h₁
      | dropped => exact h₁
      | ready u =>
          have hturns : g₁.turns = g.turns + 1 := hg₁ ▸ rfl
          cases s.turn expected with
          | mk s' result =>
              cases result with
              | none => exact wp_mono (ih h₁.inside (by omega)) fun g₂ _ h₂ => h₁.trans h₂
              | some result => exact h₁

variable {m : ObjectMeta}

theorem skipBlocks_in {bs : BlockSize} {size n : Nat} {stream : BlockStream} :
    wp B.spec (skipBlocks fuel bs size deadline n next stream) (fun g' _ => g.Hears B g') g := by
  induction n generalizing next stream g with
  | zero => exact Hears.refl hg
  | succ n ih =>
      refine wp_seq (BlockStream.await_in hg hd hb) fun g₁ out h₁ => ?_
      have := h₁.turns
      obtain ⟨stream', (e | block) | _ | _⟩ := out
      case ready.ok => exact wp_mono (ih h₁.inside (by omega)) fun g₂ _ h₂ => h₁.trans h₂
      all_goals exact h₁

theorem fillTrailing_in {stream : BlockStream} :
    wp B.spec (fillTrailing fuel ctx m deadline slots next stream) (fun g' _ => g.Hears B g') g := by
  induction slots generalizing next stream g with
  | nil => exact Hears.refl hg
  | cons slot slots ih =>
      have hcancel {g₁ : Watch} (h₁ : g.Hears B g₁) :
          wp B.spec (cancelAll (slot :: slots)) (fun g' _ => g.Hears B g') g₁ :=
        wp_mono (wp_easy (resolveAll_easy _ _) h₁.inside) fun g₂ _ h₂ => h₁.trans h₂
      refine wp_seq (skipBlocks_in hg hd hb) fun g₁ out h₁ => ?_
      cases out with
      | none => exact hcancel h₁
      | some stream =>
          have := h₁.turns
          refine wp_seq (BlockStream.await_in h₁.inside hd (by omega)) fun g₂ out h₂ => ?_
          have h₂ := h₁.trans h₂
          obtain ⟨stream', (e | block) | _ | _⟩ := out
          case ready.ok =>
            refine wp_seq (cacheExtra_in h₂.inside) fun g₃ _ h₃ => ?_
            have h₃ := h₂.trans h₃
            have := h₃.turns
            exact wp_mono (ih h₃.inside (by omega)) fun g₄ _ h₄ => h₃.trans h₄
          all_goals exact hcancel h₂

variable [TagHash]

theorem HedgedBody.await_in {index expected : Nat} {b : HedgedBody} {waiting : Waiting} :
    wp B.spec (b.await index expected deadline fuel waiting) (fun g' _ => g.Hears B g') g := by
  induction fuel generalizing b waiting g with
  | zero => exact hang_in hg hb
  | succ fuel ih =>
      unfold HedgedBody.await
      refine wp_await hg rfl (fun r hr => hg.after_await hr.1 rfl hd hr.2) fun answer g₁ hg₁ h₁ hr => ?_
      cases answer with
      | timeout => exact h₁
      | dropped => exact h₁
      | ready ev =>
          obtain ⟨⟨b', poll⟩, hnext⟩ := HedgedBody.nextBlock_of_expects (hr.1.2 ev rfl) index expected
          have hturns : g₁.turns = g.turns + 1 := hg₁ ▸ rfl
          simp only [hnext]
          cases poll with
          | pending waiting' => exact wp_mono (ih h₁.inside (by omega)) fun g₂ _ h₂ => h₁.trans h₂
          | ready result => exact h₁

/-! ## Consuming a response -/

theorem consumeBefore_in {n : Nat} {body : HedgedBody} :
    wp B.spec (consumeBefore fuel ctx m deadline n next body) (fun g' _ => g.Hears B g') g := by
  induction n generalizing next body g with
  | zero => exact Hears.refl hg
  | succ n ih =>
      refine wp_seq (claim_in hg) fun g₁ claimed h₁ => ?_
      have := h₁.turns
      refine wp_seq (HedgedBody.await_in h₁.inside hd (by omega)) fun g₂ out h₂ => ?_
      have h₂ := h₁.trans h₂
      have hrest {g₃ : Watch} (b : HedgedBody) (h₃ : g.Hears B g₃) :
          wp B.spec (consumeBefore fuel ctx m deadline n (next + 1) b) (fun g' _ => g.Hears B g') g₃ := by
        have := h₃.turns
        exact wp_mono (ih h₃.inside (by omega)) fun g₄ _ h₄ => h₃.trans h₄
      obtain ⟨b, (e | block) | _ | _⟩ := out
      case ready.ok =>
        cases claimed with
        | none => exact hrest b h₂
        | some slot => exact wp_seq (cacheExtra_in h₂.inside) fun g₃ _ h₃ => hrest b (h₂.trans h₃)
      all_goals exact wp_seq (wp_easy (resolveAll_easy _ _) h₂.inside) fun g₃ _ h₃ => h₂.trans h₃

theorem consumeSlots_in {body : HedgedBody} :
    wp B.spec (consumeSlots fuel ctx m deadline slots next body) (fun g' _ => g.Hears B g') g := by
  induction slots generalizing next body g with
  | nil => exact Hears.refl hg
  | cons slot slots ih =>
      have hrest {g₁ : Watch} (next : Nat) (b : HedgedBody) (h₁ : g.Hears B g₁) :
          wp B.spec (consumeSlots fuel ctx m deadline slots next b) (fun g' _ => g.Hears B g') g₁ := by
        have := h₁.turns
        exact wp_mono (ih h₁.inside (by omega)) fun g₂ _ h₂ => h₁.trans h₂
      unfold consumeSlots
      dsimp only
      split
      · exact wp_seq (wp_easy (settle_easy slot _) hg) fun g₁ _ h₁ => hrest _ _ h₁
      · refine wp_seq (HedgedBody.await_in hg hd hb) fun g₁ out h₁ => ?_
        obtain ⟨b, (e | block) | _ | _⟩ := out
        case ready.ok =>
          refine wp_quiet h₁.inside rfl fun _ g₂ h₂ => ?_
          have h₂ := h₁.trans h₂
          exact wp_seq (wp_easy (settle_easy slot _) h₂.inside) fun g₃ _ h₃ => hrest _ _ (h₂.trans h₃)
        all_goals exact h₁

theorem accept_in {response : GetResponse} {range : Range} :
    wp B.spec (accept fuel ctx response slots range deadline) (fun g' _ => g.Hears B g') g := by
  refine wp_quiet hg rfl fun _ g₁ h₁ => ?_
  split
  · exact wp_seq (wp_easy (resolveAll_easy _ _) h₁.inside) fun g₂ _ h₂ => h₁.trans h₂
  · split
    · exact h₁
    · have := h₁.turns
      refine wp_seq (consumeBefore_in h₁.inside hd (by omega)) fun g₂ out h₂ => ?_
      have h₂ := h₁.trans h₂
      obtain ⟨b, (e | u) | _ | _⟩ := out
      case ready.ok =>
        have := h₂.turns
        refine wp_seq (consumeSlots_in h₂.inside hd (by omega)) fun g₃ out h₃ => ?_
        have h₃ := h₂.trans h₃
        obtain ⟨left, next, b, (e | u) | _ | _⟩ := out
        case ready.ok =>
          refine wp_seq (claimAll_in h₃.inside) fun g₄ claimed h₄ => ?_
          split <;> exact h₃.trans h₄
        all_goals exact h₃
      all_goals exact h₂

/-! ## Fetch groups -/

theorem attempt_in {range : Range} {result : Except OriginError GetResponse} :
    wp B.spec (attempt fuel ctx known slots range deadline (.ready result)) (fun g' _ => g.Hears B g') g := by
  have hsettle {g₁ : Watch} (h₁ : g.Hears B g₁) (outcome : BlockResult) :
      wp B.spec (do resolveAll outcome slots; pure Attempt.settled) (fun g' _ => g.Hears B g') g₁ :=
    wp_seq (wp_easy (resolveAll_easy _ _) h₁.inside) fun g₂ _ h₂ => h₁.trans h₂
  cases result with
  | ok response =>
      refine wp_seq (accept_in hg hd hb) fun g₁ out h₁ => ?_
      obtain ⟨left, (e | _ | trailing) | _ | _⟩ := out
      case ready.ok.some =>
        have := h₁.turns
        exact wp_seq (fillTrailing_in h₁.inside hd (by omega)) fun g₂ _ h₂ => h₁.trans h₂
      case dropped => exact wp_seq (wp_easy (resolveAll_easy _ _) h₁.inside) fun g₂ _ h₂ => h₁.trans h₂
      all_goals exact h₁
  | error e =>
      cases e
      case notFound => exact wp_quiet hg rfl fun _ g₁ h₁ => hsettle h₁ _
      case preconditionFailed => exact wp_quiet hg rfl fun _ g₁ h₁ => hsettle h₁ _
      -- the failures that are no answer
      all_goals
        cases known with
        | some m => exact Hears.refl hg
        | none =>
            refine wp_seq (pastEnd_in hg hb) fun g₁ out hout => ?_
            obtain ⟨h₁, result, rfl⟩ := hout
            cases result with
            | none => exact h₁
            | some m => exact hsettle h₁ _

end

variable [TagHash]

theorem fetchLoop_in {retry : Retry} {initial : Option GetResponse}
    (hg : g.In B) (hr : B.strict → retry.deadline ≤ B.limit)
    (hf : B.strict → ctx.policy.firstByte ≤ B.firstByte) (hb : B.budget ≤ g.turns + fuel) :
    wp B.spec (fetchLoop ctx fuel retry known slots initial) (fun g' _ => g.Hears B g') g := by
  induction fuel generalizing retry slots known initial g with
  | zero => exact hang_in hg hb
  | succ fuel ih =>
      cases slots with
      | nil => exact Hears.refl hg
      | cons front rest =>
          unfold fetchLoop
          refine wp_quiet hg rfl fun now g₁ h₁ => ?_
          dsimp only
          split
          · exact wp_mono (wp_easy (resolveAll_easy _ _) h₁.inside) fun g₂ _ h₂ => h₁.trans h₂
          · have hd : B.strict → retry.attemptDeadline now ≤ B.limit :=
              fun hs => (min_le_right _ _).trans (hr hs)
            refine wp_seq (answerFor_in h₁.inside hd hf) fun g₂ out hout => ?_
            obtain ⟨h₂, result, rfl⟩ := hout
            have h₂ := h₁.trans h₂
            have := h₂.turns
            refine wp_seq (attempt_in h₂.inside hd (by omega)) fun g₃ out h₃ => ?_
            have h₃ := h₂.trans h₃
            cases out with
            | settled => exact h₃
            | failed known' left e =>
                refine wp_bind.mpr ?_
                refine Retry.wp_pause h₃.inside (fun hs => .inl (hr hs)) ?_ ?_
                · intro g₄ retry' e' h₄
                  exact wp_seq (wp_easy (resolveAll_easy _ _) h₄.inside) fun g₅ _ h₅ => (h₃.trans h₄).trans h₅
                · intro g₄ retry' h₄ hdeadline hturns
                  have hr' : B.strict → retry'.deadline ≤ B.limit := fun hs => hdeadline.le.trans (hr hs)
                  have := h₃.turns
                  change wp B.spec (fetchLoop ctx fuel retry' known' left none) _ g₄
                  exact wp_mono (ih h₄.inside hr' (by omega)) fun g₅ _ h₅ => (h₃.trans h₄).trans h₅

/-! ## Probes -/

theorem probeLoop_in {indexes : Range} {policy : FetchPolicy} {retry : Retry} (hg : g.In B)
    (hr : B.strict → retry.deadline ≤ B.limit) (hf : B.strict → policy.firstByte ≤ B.firstByte)
    (hb : B.budget + 1 ≤ g.turns + fuel) :
    wp B.spec (probeLoop ns name indexes known policy fuel retry) (fun g' _ => g.Hears B g') g := by
  induction fuel generalizing retry g with
  | zero => exact hang_in hg (by omega)
  | succ fuel ih =>
      have hbuild {g₁ : Watch} (h₁ : g.Hears B g₁) (m : ObjectMeta) :
          wp B.spec (do
            let ctx ← buildCtx ns name policy m
            pure (.ok (ctx, []))) (fun g' (_ : Except NestorError (ReadCtx × List SlotHandle)) =>
            g.Hears B g') g₁ := by
        refine wp_bind.mpr ?_
        exact wp_quiet h₁.inside rfl fun _ g₂ h₂ => h₁.trans h₂
      unfold probeLoop
      refine wp_quiet hg rfl fun now g₁ h₁ => ?_
      have hd : B.strict → retry.attemptDeadline now ≤ B.limit := fun hs => (min_le_right _ _).trans (hr hs)
      refine wp_seq (originGet_in h₁.inside hd hf) fun g₂ out hout => ?_
      obtain ⟨h₂, result, rfl⟩ := hout
      have h₂ := h₁.trans h₂
      have := h₂.turns
      cases result with
      | ok response =>
          refine wp_bind.mpr ?_
          refine wp_quiet h₂.inside rfl fun _ g₃ h₃ => ?_
          exact wp_seq (wp_easy (adoptResponse_easy _ _ _) h₃.inside) fun g₄ _ h₄ => (h₂.trans h₃).trans h₄
      | error e =>
          have hagain (g₃ : Watch) (h₃ : g.Hears B g₃) (g₄ : Watch) (retry' : Retry) (h₄ : g₃.Hears B g₄)
              (hdeadline : retry'.deadline = retry.deadline) (hturns : g₃.turns < g₄.turns) :
              wp B.spec (probeLoop ns name indexes known policy fuel retry')
              (fun g' _ => g.Hears B g') g₄ := by
            have hr' : B.strict → retry'.deadline ≤ B.limit := fun hs => hdeadline.le.trans (hr hs)
            have := h₃.turns
            exact wp_mono (ih h₄.inside hr' (by omega)) fun g₅ _ h₅ => (h₃.trans h₄).trans h₅
          cases e
          case notModified =>
            cases known with
            | some m => exact hbuild h₂ m
            | none => exact h₂
          case notFound => exact wp_quiet h₂.inside rfl fun _ g₃ h₃ => h₂.trans h₃
          -- the failures that are no answer
          all_goals
            refine wp_seq (pastEnd_in h₂.inside (by omega)) fun g₃ out hout => ?_
            obtain ⟨h₃, result, rfl⟩ := hout
            have h₃ := h₂.trans h₃
            cases result with
            | some m => exact hbuild h₃ m
            | none =>
                exact Retry.wp_pause h₃.inside (fun hs => .inl (hr hs)) (fun g₄ _ _ h₄ => h₃.trans h₄)
                  (hagain g₃ h₃)

end Nestor
