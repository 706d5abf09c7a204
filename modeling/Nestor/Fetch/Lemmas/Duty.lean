import Nestor.Body.Lemmas.Hedged
import Nestor.Engine.Duty

/-!
# What fetching owes

A fetch group settles all slots it was started with, one after the other, and gives back what it has
claimed meanwhile. `schedule` and a probe register blocks and hand them over to fetch groups, or
settle them themselves.
-/

namespace Nestor

open Lib

variable {result : BlockResult} {slots : List Slot} {range : Range} {initial : Option GetResponse}
    {retry : Retry} {e : OriginError} {next : Nat} {body : HedgedBody}

theorem length_groupMisses (misses : List Nat) (window : Nat) :
    ((groupMisses misses window).flatMap FetchGroup.indexes).length = misses.length := by
  have hpush (groups : List FetchGroup) (idx : Nat) :
      ((pushMiss (max window 1) groups idx).flatMap FetchGroup.indexes).length =
        (groups.flatMap FetchGroup.indexes).length + 1 := by
    cases groups with
    | nil => rfl
    | cons g groups =>
        simp only [pushMiss]
        split <;> simp only [List.flatMap_cons, List.length_append, FetchGroup.indexes, List.length_range']
          <;> omega
  have hfold : ∀ groups : List FetchGroup,
      ((misses.foldl (pushMiss (max window 1)) groups).flatMap FetchGroup.indexes).length =
        (groups.flatMap FetchGroup.indexes).length + misses.length := by
    induction misses with
    | nil => exact fun _ => rfl
    | cons idx misses ih =>
        intro groups
        rw [List.foldl_cons, ih, hpush, List.length_cons]
        omega
  rw [groupMisses, ((List.reverse_perm _).flatMap_right _).length_eq, hfold]
  exact Nat.zero_add _

namespace Duty

variable {b d : Duty} {owned : Multiset Slot} {budget fuel deadline : Nat} {asked home : Home} {ctx : ReadCtx}
  {m : ObjectMeta}

/-! ## Settling -/

theorem settle_wp {slot : Slot} (h : b.Moves (slot ::ₘ owned) d)
    (hr : ∀ block, result = .ok block → (slot.key, block) ∈ d.stored ∨ block.data = []) :
    wp (specOf asked budget home) (slot.settle result) (fun d' _ => b.Moves owned d') d := by
  refine wp_step trivial ⟨h.gap, slot, h.mem, rfl⟩ fun _ d₁ hd₁ _ => ?_
  subst hd₁
  refine wp_call.mpr ⟨⟨trivial, rfl, h.mem, hr⟩, fun _ _ => { h with owned := ?_, gap := rfl }⟩
  exact (congrArg (·.erase slot) h.owned).trans (Multiset.erase_cons_head slot owned)

theorem resolveAll_wp (h : b.Moves (↑slots + owned) d) (hr : ∀ block, result = .ok block → block.data = []) :
    wp (specOf asked budget home) (resolveAll result slots) (fun d' _ => b.Moves owned d') d := by
  induction slots generalizing d with
  | nil => exact h.of_eq (zero_add _)
  | cons slot slots ih =>
      exact wp_seq (settle_wp h.uncons fun block hb => .inr (hr block hb)) fun d₁ _ h₁ => ih h₁

theorem cancelAll_wp (h : b.Moves (↑slots + owned) d) :
    wp (specOf asked budget home) (cancelAll slots) (fun d' _ => b.Moves owned d') d :=
  resolveAll_wp h nofun

theorem resolveAll_end (h : b.Moves ↑slots d) (hr : ∀ block, result = .ok block → block.data = []) :
    wp (specOf asked budget home) (resolveAll result slots) (fun d' _ => b.Moves 0 d') d :=
  resolveAll_wp (h.of_eq (add_zero _).symm) hr

theorem cancelAll_end (h : b.Moves ↑slots d) :
    wp (specOf asked budget home) (cancelAll slots) (fun d' _ => b.Moves 0 d') d :=
  resolveAll_end h nofun

theorem cacheExtra_wp {slot : Slot} {data : Bytes} (h : b.Moves (slot ::ₘ owned) d) :
    wp (specOf asked budget home) (cacheExtra slot m data) (fun d' _ => b.Moves owned d') d := by
  refine wp_insert h (.inr ⟨slot, h.mem, rfl⟩) fun d₁ h₁ hstored => settle_wp h₁ ?_
  rintro _ ⟨⟩
  exact .inl hstored

/-! ## Claiming -/

theorem claim_wp {index : Nat} (hctx : ctx.Under asked home) (h : b.Moves owned d) :
    wp (specOf asked budget home) (claim ctx index)
    (fun d' claimed => b.Moves (↑claimed.toList + owned) d') d := by
  refine wp_free h ⟨hctx.key, trivial⟩ fun present d₁ h₁ _ => ?_
  split
  · exact h₁.of_eq (zero_add _).symm
  · refine wp_register h₁ hctx.key (fun d₂ slot h₂ _ => ?_) fun d₂ slot h₂ _ => ?_
    · exact h₂
    · exact h₂.of_eq (zero_add _).symm

theorem claimAll_wp {indexes : List Nat} (hctx : ctx.Under asked home) (h : b.Moves owned d) :
    wp (specOf asked budget home) (claimAll ctx indexes)
    (fun d' claimed => b.Moves (↑claimed + owned) d') d := by
  induction indexes generalizing d owned with
  | nil => exact h.of_eq (zero_add _).symm
  | cons index indexes ih =>
      refine wp_seq (claim_wp hctx h) fun d₁ claimed h₁ => ?_
      refine wp_seq (ih h₁) fun d₂ rest h₂ => ?_
      refine h₂.of_eq ?_
      rw [← Multiset.coe_add, add_assoc, add_left_comm]

/-! ## Requests -/

theorem awaitLast_wp {request : GetRequest} (h : b.Moves owned d) :
    wp (specOf asked budget home) (awaitLast request deadline) (fun d' _ => b.Moves owned d') d := by
  refine wp_free h ⟨trivial, trivial⟩ fun answer d₁ h₁ hr => ?_
  rcases answer with (_ | _) | _ | _
  case ready.stalled => cases hr
  all_goals exact h₁

theorem awaitBoth_wp {primary secondary : GetRequest} (h : b.Moves owned d) :
    wp (specOf asked budget home) (awaitBoth primary secondary deadline)
    (fun d' _ => b.Moves owned d') d := by
  refine wp_free h ⟨trivial, trivial⟩ fun answer d₁ h₁ hr => ?_
  rcases answer with (⟨i, e | response⟩ | _) | _ | _
  case ready.answered.error =>
    dsimp only
    split
    · exact awaitLast_wp h₁
    · exact h₁
  case ready.stalled => cases hr
  all_goals exact h₁

theorem getHedged_wp {options : GetOptions} (hctx : ctx.Under asked home) (h : b.Moves owned d) :
    wp (specOf asked budget home) (getHedged ctx options deadline) (fun d' _ => b.Moves owned d') d := by
  refine wp_free h ⟨hctx.asks, trivial⟩ fun primary d₁ h₁ _ => ?_
  refine wp_free h₁ ⟨trivial, trivial⟩ fun answer d₂ h₂ _ => ?_
  rcases answer with (_ | _) | _ | _
  case ready.stalled =>
    refine wp_free h₂ ⟨trivial, trivial⟩ fun secondary d₃ h₃ _ => ?_
    cases secondary with
    | none => exact awaitLast_wp h₃
    | some secondary => exact awaitBoth_wp h₃
  all_goals exact h₂

theorem originGet_wp {options : GetOptions} (hctx : ctx.Under asked home) (h : b.Moves owned d) :
    wp (specOf asked budget home) (originGet ctx options deadline) (fun d' _ => b.Moves owned d') d := by
  refine wp_free h ⟨trivial, trivial⟩ fun started d₁ h₁ _ => ?_
  refine wp_seq (getHedged_wp hctx h₁) fun d₂ answer h₂ => ?_
  cases answer <;> exact h₂

theorem answerFor_wp (hctx : ctx.Under asked home) (h : b.Moves owned d) :
    wp (specOf asked budget home) (answerFor ctx range deadline initial)
    (fun d' _ => b.Moves owned d') d := by
  cases initial with
  | some response => exact h
  | none => exact originGet_wp hctx h

theorem pause_wp (h : b.Moves owned d) :
    wp (specOf asked budget home) (retry.pause e)
      (fun d' out => b.Moves owned d' ∧ ∀ retry', out = some (retry', .ok ()) → b.turns < d'.turns) d := by
  refine wp_free h ⟨trivial, trivial⟩ fun now d₁ h₁ _ => ?_
  obtain ⟨retry', e' | delay⟩ := retry.failed now e
  · exact ⟨h₁, by simp⟩
  · have hfree : Free asked home (.sleep (now + delay)) := ⟨trivial, trivial⟩
    refine wp_step trivial h₁.gap fun answer d₂ hd₂ _ => ?_
    have h₂ := h₁.after hfree hd₂
    cases answer with
    | ready =>
        refine ⟨h₂, fun _ _ => ?_⟩
        subst hd₂
        exact Nat.lt_succ_of_le h₁.turns
    | timeout => exact ⟨h₂, by simp⟩
    | dropped => exact ⟨h₂, by simp⟩

section

variable {ns : NamespaceState} {key : ObjectKey} {name : Bytes}

theorem headRetry_wp (hkey : key = home.key) (h : b.Moves owned d)
    (hf : owned = 0 ∨ budget ≤ b.turns + (fuel + 1))
    (ih : ∀ {b d : Duty} retry, b.Moves owned d → owned = 0 ∨ budget ≤ b.turns + fuel →
      wp (specOf asked budget home) (headLoop ns key name fuel retry) (fun d' _ => b.Moves owned d') d) :
    wp (specOf asked budget home) (do
      match ← retry.pause e with
      | none => pure none
      | some (_, .error e) =>
          perform (.metaRemove key)
          pure (some (.error (.ofOrigin e)))
      | some (retry, .ok ()) => headLoop ns key name fuel retry) (fun d' _ => b.Moves owned d') d := by
  refine wp_seq (pause_wp h) fun d₁ out h₁ => ?_
  obtain ⟨h₁, hturn⟩ := h₁
  obtain _ | ⟨retry', e' | ⟨⟩⟩ := out
  · exact h₁
  · exact wp_free h₁ ⟨hkey, trivial⟩ fun _ d₂ h₂ _ => h₂
  · have hf₁ : owned = 0 ∨ budget ≤ d₁.turns + fuel := by
      have := hturn retry' rfl
      exact hf.imp_right fun hf => by omega
    exact wp_mono (ih retry' h₁.here hf₁) fun d₂ _ h₂ => h₁.trans h₂

theorem headLoop_wp (hkey : key = home.key) (hname : ns.name = asked.origin ∧ name = asked.key.object)
    (retry : Retry) (h : b.Moves owned d) (hf : owned = 0 ∨ budget ≤ b.turns + fuel) :
    wp (specOf asked budget home) (headLoop ns key name fuel retry) (fun d' _ => b.Moves owned d') d := by
  induction fuel generalizing b d retry with
  | zero => exact hang_wp h hf
  | succ fuel ih =>
      refine wp_free h ⟨trivial, trivial⟩ fun started d₁ h₁ _ => ?_
      refine wp_free h₁ ⟨hname, trivial⟩ fun request d₂ h₂ _ => ?_
      refine wp_free h₂ ⟨trivial, trivial⟩ fun answer d₃ h₃ _ => ?_
      rcases answer with (e | m) | _ | _
      · exact headRetry_wp hkey h₃ hf ih
      · exact wp_free h₃ ⟨hkey, trivial⟩ fun _ d₄ h₄ _ => h₄
      · exact headRetry_wp hkey h₃ hf ih
      · exact h₃

theorem head_wp (hkey : key = home.key) (hname : ns.name = asked.origin ∧ name = asked.key.object)
    (h : b.Moves owned d) (hf : owned = 0 ∨ budget ≤ b.turns + fuel) :
    wp (specOf asked budget home) (head fuel ns key name) (fun d' _ => b.Moves owned d') d :=
  wp_free h ⟨trivial, trivial⟩ fun _ _ h₁ _ => headLoop_wp hkey hname _ h₁ hf

theorem pastEnd_wp {start : Nat} (hkey : key = home.key)
    (hname : ns.name = asked.origin ∧ name = asked.key.object) (h : b.Moves owned d)
    (hf : owned = 0 ∨ budget ≤ b.turns + fuel) :
    wp (specOf asked budget home) (pastEnd fuel ns key name start) (fun d' _ => b.Moves owned d') d := by
  refine wp_seq (head_wp hkey hname h hf) fun d₁ out h₁ => ?_
  obtain _ | e | m := out <;> exact h₁

end

/-! ## Reading a body -/

theorem awaitStream_wp {expected : Nat} {s : BlockStream} (h : b.Moves owned d)
    (hf : budget ≤ b.turns + fuel) :
    wp (specOf asked budget home) (s.await expected deadline fuel) (fun d' _ => b.Moves owned d') d := by
  induction fuel generalizing b d s with
  | zero => exact hang_wp h (.inr hf)
  | succ fuel ih =>
      have hfree : Free asked home (.awaitStream deadline) := ⟨trivial, trivial⟩
      refine wp_step trivial h.gap fun answer d₁ hd₁ _ => ?_
      have h₁ := h.after hfree hd₁
      cases answer with
      | ready =>
          have ht₁ : d₁.turns = d.turns + 1 := by rw [hd₁]; rfl
          have ht := h.turns
          dsimp only
          obtain ⟨s', _ | result⟩ := s.turn expected
          · exact wp_mono (ih h₁.here (by omega)) fun d₂ _ h₂ => h₁.trans h₂
          · exact h₁
      | timeout => exact h₁
      | dropped => exact h₁

theorem skipBlocks_wp {bs : BlockSize} {size n : Nat} {stream : BlockStream} (h : b.Moves owned d)
    (hf : budget ≤ b.turns + fuel) :
    wp (specOf asked budget home) (skipBlocks fuel bs size deadline n next stream)
    (fun d' _ => b.Moves owned d') d := by
  induction n generalizing d next stream with
  | zero => exact h
  | succ n ih =>
      refine wp_seq (awaitStream_wp h hf) fun d₁ out h₁ => ?_
      obtain ⟨stream', (e | data) | _ | _⟩ := out
      case ready.ok => exact ih h₁
      all_goals exact h₁

theorem fillTrailing_wp {stream : BlockStream} (h : b.Moves ↑slots d) (hf : budget ≤ b.turns + fuel) :
    wp (specOf asked budget home) (fillTrailing fuel ctx m deadline slots next stream)
    (fun d' _ => b.Moves 0 d') d := by
  induction slots generalizing d next stream with
  | nil => exact h
  | cons slot slots ih =>
      refine wp_seq (skipBlocks_wp h hf) fun d₁ out h₁ => ?_
      cases out with
      | none => exact cancelAll_end h₁
      | some stream =>
          refine wp_seq (awaitStream_wp h₁ hf) fun d₂ out h₂ => ?_
          obtain ⟨stream', (e | block) | _ | _⟩ := out
          case ready.ok =>
            exact wp_seq (cacheExtra_wp (h₂.of_eq (Multiset.cons_coe ..).symm)) fun d₃ _ h₃ => ih h₃
          all_goals exact cancelAll_end h₂

/-! ## Retries -/

theorem retryOrFail_wp (h : b.Moves ↑slots d) :
    wp (specOf asked budget home) (retryOrFail retry slots e)
      (fun d' out =>
        (out = none → b.Moves ↑slots d') ∧
        (∀ retry slots', out = some (retry, slots', true) → b.Moves ↑slots d' ∧ b.turns < d'.turns ∧
          slots' = slots) ∧
        ∀ retry slots', out = some (retry, slots', false) → b.Moves 0 d') d := by
  refine wp_seq (pause_wp h) fun d₁ out h₁ => ?_
  obtain ⟨h₁, hturn⟩ := h₁
  obtain _ | ⟨retry', e' | ⟨⟩⟩ := out
  · exact ⟨fun _ => h₁, nofun, nofun⟩
  · exact wp_seq (resolveAll_end h₁ nofun) fun d₂ _ h₂ => ⟨nofun, nofun, fun _ _ _ => h₂⟩
  · refine ⟨nofun, ?_, nofun⟩
    rintro _ _ ⟨⟩
    exact ⟨h₁, hturn retry' rfl, rfl⟩

end Duty

/-! ## Fetch groups -/

variable [TagHash]

namespace Duty

variable {b d : Duty} {owned : Multiset Slot} {budget fuel deadline : Nat} {asked home : Home} {ctx : ReadCtx}
  {m : ObjectMeta}

theorem awaitBody_wp {index expected : Nat} {waiting : Waiting} (h : b.Moves owned d)
    (hf : budget ≤ b.turns + fuel) :
    wp (specOf asked budget home) (body.await index expected deadline fuel waiting)
    (fun d' _ => b.Moves owned d') d := by
  induction fuel generalizing b d body waiting with
  | zero => exact hang_wp h (.inr hf)
  | succ fuel ih =>
      have hfree : Free asked home (.awaitBody body waiting deadline) := ⟨trivial, trivial⟩
      refine wp_step trivial h.gap fun answer d₁ hd₁ hr => ?_
      have h₁ := h.after hfree hd₁
      cases answer with
      | ready ev =>
          have ht₁ : d₁.turns = d.turns + 1 := by rw [hd₁]; rfl
          have ht := h.turns
          obtain ⟨⟨body', poll⟩, hnext⟩ := HedgedBody.nextBlock_of_expects hr index expected
          simp only [hnext]
          cases poll with
          | pending waiting' => exact wp_mono (ih h₁.here (by omega)) fun d₂ _ h₂ => h₁.trans h₂
          | ready result => exact h₁
      | timeout => exact h₁
      | dropped => exact h₁

theorem consumeBefore_wp {n : Nat} (hctx : ctx.Under asked home) (h : b.Moves owned d)
    (hf : budget ≤ b.turns + fuel) :
    wp (specOf asked budget home) (consumeBefore fuel ctx m deadline n next body)
    (fun d' _ => b.Moves owned d') d := by
  induction n generalizing d next body with
  | zero => exact h
  | succ n ih =>
      refine wp_seq (claim_wp hctx h) fun d₁ claimed h₁ => ?_
      refine wp_seq (awaitBody_wp h₁ hf) fun d₂ out h₂ => ?_
      obtain ⟨body', (e | block) | _ | _⟩ := out
      case ready.ok =>
        cases claimed with
        | none => exact ih (h₂.of_eq (zero_add _))
        | some slot => exact wp_seq (cacheExtra_wp h₂) fun d₃ _ h₃ => ih h₃
      -- whatever ends the attempt drops the claimed slot
      all_goals exact wp_seq (cancelAll_wp h₂) fun d₃ _ h₃ => h₃

theorem consumeSlots_wp (h : b.Moves ↑slots d) (hf : budget ≤ b.turns + fuel) :
    wp (specOf asked budget home) (consumeSlots fuel ctx m deadline slots next body)
      (fun d' out => b.Moves ↑out.1 d' ∧ (out.2.2.2 = .ready (.ok ()) → out.1 = [])) d := by
  induction slots generalizing d next body with
  | nil => exact ⟨h, fun _ => rfl⟩
  | cons slot slots ih =>
      unfold consumeSlots
      dsimp only
      split
      · refine wp_seq (settle_wp (h.of_eq (Multiset.cons_coe ..).symm) ?_) fun d₁ _ h₁ => ih h₁
        rintro _ ⟨⟩
        exact .inr rfl
      · refine wp_seq (awaitBody_wp h hf) fun d₁ out h₁ => ?_
        obtain ⟨body', (e | block) | _ | _⟩ := out
        case ready.ok =>
          change wp (specOf asked budget home)
            (do cacheExtra slot m block; consumeSlots fuel ctx m deadline slots (slot.key.index + 1) body') _
            d₁
          exact wp_seq (cacheExtra_wp (h₁.of_eq (Multiset.cons_coe ..).symm)) fun d₂ _ h₂ => ih h₂
        all_goals exact ⟨h₁, nofun⟩

/-- The slots of the blocks that follow the requested ones. -/
def trailing : Awaited (Except OriginError (Option Trailing)) → List Slot
  | .ready (.ok (some t)) => t.slots
  | _ => []

theorem consume_wp {response : GetResponse} {rangeEnd : Nat} (hctx : ctx.Under asked home)
    (h : b.Moves ↑slots d) (hf : budget ≤ b.turns + fuel) :
    wp (specOf asked budget home) (consume fuel ctx response slots rangeEnd deadline)
      (fun d' out => b.Moves (↑out.1 + ↑(trailing out.2)) d' ∧ (∀ t, out.2 = .ready (.ok t) → out.1 = []))
        d := by
  refine wp_seq (consumeBefore_wp hctx h hf) fun d₁ out h₁ => ?_
  obtain ⟨body, (e | ⟨⟩) | _ | _⟩ := out
  case ready.ok =>
    refine wp_seq (consumeSlots_wp h₁ hf) fun d₂ out h₂ => ?_
    obtain ⟨slots', next, body', (e | ⟨⟩) | _ | _⟩ := out
    case ready.ok =>
      obtain ⟨h₂, hdone⟩ := h₂
      obtain rfl : slots' = [] := hdone rfl
      refine wp_seq (claimAll_wp hctx h₂) fun d₃ claimed h₃ => ?_
      have h₃ : b.Moves ↑claimed d₃ := h₃.of_eq (add_zero _)
      split
      · rename_i hnil
        subst hnil
        exact ⟨h₃, fun _ _ => rfl⟩
      · exact ⟨h₃.of_eq (zero_add _).symm, fun _ _ => rfl⟩
    all_goals exact ⟨h₂.1.of_eq (add_zero _).symm, nofun⟩
  all_goals exact ⟨h₁.of_eq (add_zero _).symm, nofun⟩

theorem accept_wp {response : GetResponse} (hctx : ctx.Under asked home)
    (h : b.Moves ↑slots d) (hf : budget ≤ b.turns + fuel) :
    wp (specOf asked budget home) (accept fuel ctx response slots range deadline)
      (fun d' out => b.Moves (↑out.1 + ↑(trailing out.2)) d' ∧ (∀ t, out.2 = .ready (.ok t) → out.1 = []))
        d := by
  refine wp_free h ⟨hctx.key, trivial⟩ fun _ d₁ h₁ _ => ?_
  split
  · exact wp_seq (resolveAll_end h₁ nofun) fun d₂ _ h₂ => ⟨h₂, fun _ _ => rfl⟩
  · split
    · exact ⟨h₁.of_eq (add_zero _).symm, nofun⟩
    · exact consume_wp hctx h₁ hf

/-- What an attempt leaves: nothing, or the slots to try again for. -/
def left : Attempt → List Slot
  | .settled => []
  | .failed _ slots _ => slots

theorem attempt_wp {known : Option ObjectMeta}
    {answer : Awaited (Except OriginError GetResponse)} (hctx : ctx.Under asked home) (h : b.Moves ↑slots d)
    (hf : budget ≤ b.turns + fuel) :
    wp (specOf asked budget home) (attempt fuel ctx known slots range deadline answer)
    (fun d' out => b.Moves ↑(left out) d') d := by
  have hcancel {d' : Duty} (h : b.Moves ↑slots d') :
      wp (specOf asked budget home) (do cancelAll slots; pure Attempt.settled)
      (fun d' out => b.Moves ↑(left out) d') d' :=
    wp_seq (cancelAll_end h) fun _ _ h' => h'
  have hgone (e : NestorError) :
      wp (specOf asked budget home) (do
        perform (.metaRemove ctx.key)
        resolveAll (.error e) slots
        pure Attempt.settled) (fun d' out => b.Moves ↑(left out) d') d :=
    wp_free h ⟨hctx.key, trivial⟩ fun _ d₁ h₁ _ => wp_seq (resolveAll_end h₁ nofun) fun d₂ _ h₂ => h₂
  obtain (e | response) | _ | _ := answer
  case ready.ok =>
    refine wp_seq (accept_wp hctx h hf) fun d₁ out h₁ => ?_
    obtain ⟨h₁, hdone⟩ := h₁
    obtain ⟨slots', (e | _ | t) | _ | _⟩ := out
    case ready.ok.none =>
      obtain rfl : slots' = [] := hdone none rfl
      exact h₁
    case ready.ok.some =>
      obtain rfl : slots' = [] := hdone (some t) rfl
      have h₁ : b.Moves ↑t.slots d₁ := h₁.of_eq (zero_add _)
      exact wp_seq (fillTrailing_wp h₁ hf) fun d₂ _ h₂ => h₂
    case dropped => exact wp_seq (cancelAll_wp h₁) fun d₂ _ h₂ => h₂
    all_goals exact h₁.of_eq (add_zero _)
  case ready.error =>
    cases e with
    | notFound => exact hgone .notFound
    | preconditionFailed => exact hgone .stale
    | _ =>
        cases known with
        | some known => exact h
        | none =>
            refine wp_seq (pastEnd_wp hctx.key hctx.asks h (.inr hf)) fun d₁ out h₁ => ?_
            obtain _ | _ | known := out
            · exact hcancel h₁
            · exact h₁
            · refine wp_seq (resolveAll_end h₁ ?_) fun d₂ _ h₂ => h₂
              rintro _ ⟨⟩
              rfl
  all_goals exact hcancel h

theorem fetchLoop_wp {known : Option ObjectMeta}
    (hctx : ctx.Under asked home) (h : b.Moves ↑slots d) (hf : budget ≤ b.turns + fuel) :
    wp (specOf asked budget home) (fetchLoop ctx fuel retry known slots initial)
    (fun d' _ => b.Moves 0 d') d := by
  induction fuel generalizing b d retry known slots initial with
  | zero => cases slots <;> exact hang_wp h (.inr hf)
  | succ fuel ih =>
      cases slots with
      | nil => exact h
      | cons front rest =>
          unfold fetchLoop
          refine wp_free h ⟨trivial, trivial⟩ fun now d₁ h₁ _ => ?_
          dsimp only
          split
          · refine resolveAll_end h₁ ?_
            rintro _ ⟨⟩
            rfl
          · refine wp_seq (answerFor_wp hctx h₁) fun d₂ answer h₂ => ?_
            refine wp_seq (attempt_wp hctx h₂ hf) fun d₃ out h₃ => ?_
            cases out with
            | settled => exact h₃
            | failed known slots e =>
                refine wp_seq (retryOrFail_wp h₃) fun d₄ out h₄ => ?_
                obtain ⟨hdropped, hgo, hfailed⟩ := h₄
                obtain _ | ⟨retry', slots', _ | _⟩ := out
                · exact cancelAll_end (hdropped rfl)
                · exact hfailed retry' slots' rfl
                · obtain ⟨h₄, ht₄, rfl⟩ := hgo retry' slots' rfl
                  exact wp_mono (ih h₄.here (by omega)) fun d₅ _ h₅ => h₄.trans h₅

theorem fetchGroup_wp {priority : Priority} (hctx : ctx.Under asked home)
    (h : b.Moves ↑slots d) (hf : budget ≤ b.turns + fuel) :
    wp (specOf asked budget home) (fetchGroup fuel ctx slots priority initial)
    (fun d' _ => b.Moves 0 d') d := by
  refine wp_free h ⟨trivial, trivial⟩ fun permit d₁ h₁ _ => ?_
  split
  · exact wp_free h₁ ⟨trivial, trivial⟩ fun now d₂ h₂ _ => fetchLoop_wp hctx h₂ hf
  · exact cancelAll_end h₁

end Duty

end Nestor
