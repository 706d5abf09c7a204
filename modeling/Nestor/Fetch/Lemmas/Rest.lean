import Nestor.Engine.Law
import Nestor.Fetch.Lemmas.Aside

/-!
# How often a fetch group waits before another attempt

Once every request of a fetch group is answered with "not found" and its bodies bring nothing until
they time out, it waits at most twice more: before it repeats a HEAD, and before it repeats a GET.
It looks up no block and starts no task.
-/

namespace Nestor

open Lib

variable {α : Type} {o : Op} {n fuel deadline next : Nat} {ctx : ReadCtx} {m : ObjectMeta} {slots : List Slot}
    {retry : Retry} {e : OriginError} {range : Range} {result : BlockResult}

/-- An answer that leaves nothing to wait for: the origin has no such object, or a body times
out. -/
def Op.final : (o : Op) → Resp o → Bool
  | .awaitGet _ _ _, .ready (.answered _ (.error e)) => e = .notFound
  | .awaitGet _ _ _, _ => false
  | .awaitHead _ _, .ready (.error e) => e = .notFound
  | .awaitHead _ _, _ => false
  | .awaitBody _ _ _, answer => answer = .timeout
  | .awaitStream _, answer => answer = .timeout
  | _, _ => true

theorem Op.turns_le (r : Resp o) : o.turns r ≤ 1 := by
  cases o
  case awaitBody | awaitStream | sleep => cases r <;> first | exact Nat.le_refl 1 | exact Nat.zero_le 1
  all_goals exact Nat.zero_le 1

theorem Op.turns_of_final {r : Resp o} (ho : ∀ d, o ≠ .sleep d) (h : o.final r = true) : o.turns r = 0 := by
  cases o
  case sleep d => exact absurd rfl (ho d)
  case awaitBody | awaitStream =>
    obtain rfl := of_decide_eq_true h
    rfl
  all_goals rfl

/-! ## What is done with a response -/

/-- The operations a response is consumed with. -/
def Op.consumes : Op → Bool
  | .metaPut _ _ | .blocksContains _ | .blocksInsert _ _ | .register _ | .unregister _ | .publish _ _
  | .awaitBody _ _ _
  | .awaitStream _ | .hang => true
  | _ => false

abbrev Consumes {α : Type} (p : Program α) : Prop := p.Only (·.consumes = true)

theorem Fills.consumes {p : Program α} (h : Fills p) : Consumes p :=
  h.mono fun o ho => by cases o <;> first | rfl | cases ho

section

variable [TagHash] {body : HedgedBody}

theorem HedgedBody.await_consumes {index expected : Nat} {waiting : Waiting} :
    Consumes (body.await index expected deadline fuel waiting) :=
    HedgedBody.await_only (P := (·.consumes = true)) (fun _ _ => rfl) rfl

theorem consumeBefore_consumes {n : Nat} : Consumes (consumeBefore fuel ctx m deadline n next body) := by
  induction n generalizing next body with
  | zero => exact trivial
  | succ n ih =>
      refine .bind claim_brief.fills.consumes fun claimed => .bind HedgedBody.await_consumes fun out => ?_
      obtain ⟨body', (e | block) | _ | _⟩ := out
      case ready.ok =>
        cases claimed with
        | none => exact ih
        | some slot => exact .bind cacheExtra_fills.consumes fun _ => ih
      all_goals exact .bind resolveAll_fills.consumes fun _ => trivial

theorem consumeSlots_consumes : Consumes (consumeSlots fuel ctx m deadline slots next body) := by
  induction slots generalizing next body with
  | nil => exact trivial
  | cons slot slots ih =>
      unfold consumeSlots
      dsimp only
      split
      · exact .step rfl fun _ => .step rfl fun _ => ih
      · refine .bind HedgedBody.await_consumes fun out => ?_
        obtain ⟨body', (e | block) | _ | _⟩ := out
        case ready.ok => exact .step rfl fun _ => .step rfl fun _ => .step rfl fun _ => ih
        all_goals exact trivial

theorem accept_consumes {response : GetResponse} :
    Consumes (accept fuel ctx response slots range deadline) := by
  refine .step rfl fun _ => ?_
  split
  · exact .bind resolveAll_fills.consumes fun _ => trivial
  · split
    · exact trivial
    · refine .bind consumeBefore_consumes fun out => ?_
      obtain ⟨body, (e | ⟨⟩) | _ | _⟩ := out
      case ready.ok =>
        refine .bind consumeSlots_consumes fun out => ?_
        obtain ⟨slots', next, body', (e | ⟨⟩) | _ | _⟩ := out
        case ready.ok =>
          refine .bind claimAll_brief.fills.consumes fun claimed => ?_
          split <;> exact trivial
        all_goals exact trivial
      all_goals exact trivial

end

/-! ## Waiting -/

namespace Rest

variable {k : Nat} {r : Resp o}

/-- The waits since the last answer that was not final. -/
def after (n : Nat) (o : Op) (r : Resp o) : Nat := if o.final r then n + o.turns r else 0

def guar (n : Nat) : Op → Prop
  | .sleep _ => n ≤ 1
  | .awaitGet requests _ _ => requests ≠ []
  | .blocksGet _ | .spawn _ => False
  | _ => True

def spec : Spec Op Resp Nat := ⟨guar, fun _ _ _ => True, after⟩

theorem guar_consumes (ho : o.consumes = true) : guar n o := by
  cases o <;> first | exact trivial | cases ho

theorem after_of_not_final (h : o.final r = false) : after n o r = 0 :=
  if_neg (h ▸ Bool.false_ne_true)

theorem after_le_add (h : o.final r = true → o.turns r ≤ k) : after n o r ≤ n + k := by
  unfold after
  split
  · exact Nat.add_le_add_left (h ‹_›) n
  · exact Nat.zero_le (n + k)

theorem after_le_succ : after n o r ≤ n + 1 := after_le_add fun _ => Op.turns_le r

theorem after_le_self (ho : ∀ d, o ≠ .sleep d) : after n o r ≤ n :=
  after_le_add fun h => (Op.turns_of_final ho h).le

theorem after_consumes (ho : o.consumes = true) (r : Resp o) : after n o r ≤ n :=
  after_le_self fun _ hsleep => by
    subst hsleep
    cases ho

theorem consumes_wp {p : Program α} (h : Consumes p) (hn : n ≤ k) : wp spec p (fun n' _ => n' ≤ k) n :=
  h.wp (fun _ _ hn ho => ⟨guar_consumes ho, fun r => (after_consumes ho r).trans hn⟩) hn

theorem after_le (hn : n ≤ 2) (hg : guar n o) : after n o r ≤ 2 := by
  by_cases ho : ∃ d, o = .sleep d
  · obtain ⟨d, rfl⟩ := ho
    exact after_le_succ.trans (Nat.succ_le_succ hg)
  · exact (after_le_self fun d hd => ho ⟨d, hd⟩).trans hn

/-- The answer is "not found", or the waits are counted anew. -/
abbrev Answered (n : Nat) (answer : Awaited (Except OriginError GetResponse)) : Prop :=
  answer = .ready (.error .notFound) ∨ n ≤ 1

theorem after_answered {requests : List GetRequest} {hedge : Bool} {i : Nat} {e : OriginError} :
    Answered (after n (.awaitGet requests hedge deadline) (.ready (.answered i (.error e))))
      (.ready (.error e)) := by
  by_cases he : e = .notFound
  · exact .inl (by rw [he])
  · have hnot : (Op.awaitGet requests hedge deadline).final (.ready (.answered i (.error e))) = false :=
      decide_eq_false he
    exact .inr ((after_of_not_final hnot).trans_le (Nat.zero_le 1))

theorem awaitLast_wp {request : GetRequest} : wp spec (awaitLast request deadline) Answered n := by
  refine wp_then (List.cons_ne_nil _ _) fun answer _ => ?_
  rcases answer with (⟨i, e | response⟩ | _) | _ | _
  case ready.answered.error => exact after_answered
  case ready.stalled => exact ⟨trivial, nofun⟩
  all_goals exact .inr (Nat.zero_le _)

theorem awaitBoth_wp {primary secondary : GetRequest} :
    wp spec (awaitBoth primary secondary deadline) Answered n := by
  refine wp_then (List.cons_ne_nil _ _) fun answer _ => ?_
  rcases answer with (⟨i, e | response⟩ | _) | _ | _
  case ready.answered.error =>
    dsimp only
    split
    · exact awaitLast_wp
    · exact after_answered
  case ready.stalled => exact ⟨trivial, nofun⟩
  all_goals exact .inr (Nat.zero_le _)

theorem originGet_wp {options : GetOptions} : wp spec (originGet ctx options deadline) Answered n := by
  have hhedged {n deadline : Nat} : wp spec (getHedged ctx options deadline) Answered n := by
    refine wp_then trivial fun primary _ => wp_then (List.cons_ne_nil _ _) fun answer _ => ?_
    rcases answer with (⟨i, e | response⟩ | _) | _ | _
    case ready.answered.error => exact after_answered
    case ready.stalled =>
      refine wp_then trivial fun secondary _ => ?_
      cases secondary with
      | none => exact awaitLast_wp
      | some secondary => exact awaitBoth_wp
    all_goals exact .inr (Nat.zero_le _)
  refine wp_then trivial fun started _ => wp_seq hhedged fun n₁ answer h₁ => ?_
  cases answer with
  | timeout => exact .inr (h₁.resolve_left nofun)
  | _ => exact h₁

theorem pause_wp (hn : n ≤ 1) :
    wp spec (retry.pause e) (fun n' _ => n' ≤ n + 1 ∧ (e.isRetryable = false → n' ≤ n)) n := by
  refine wp_then trivial fun now _ => ?_
  cases he : e.isRetryable with
  | false =>
      simp only [Retry.failed, he, Bool.not_false, Bool.true_or, ↓reduceIte]
      exact ⟨Nat.le_succ n, fun _ => Nat.le_refl n⟩
  | true =>
      obtain ⟨retry', e' | delay⟩ := retry.failed now e
      · exact ⟨Nat.le_succ n, fun _ => Nat.le_refl n⟩
      · refine wp_then hn fun answer _ => ?_
        have hnext : after n (.sleep (now + delay)) answer ≤ n + 1 := after_le_succ
        cases answer <;> exact ⟨hnext, nofun⟩

section

variable {ns : NamespaceState} {key : ObjectKey} {name : Bytes}

theorem headRetry_wp (h : n = 0 ∨ n ≤ 1 ∧ e.isRetryable = false)
    (ih : ∀ {n : Nat} retry, n ≤ 1 → wp spec (headLoop ns key name fuel retry) (fun n' _ => n' ≤ 1) n) :
    wp spec (do
      match ← retry.pause e with
      | none => pure none
      | some (_, .error e) =>
          perform (.metaRemove key)
          pure (some (.error (.ofOrigin e)))
      | some (retry, .ok ()) => headLoop ns key name fuel retry) (fun n' _ => n' ≤ 1) n := by
  have hn : n ≤ 1 := h.elim (·.le.trans (Nat.zero_le 1)) And.left
  refine wp_seq (pause_wp hn) fun n₁ out h₁ => ?_
  have hn₁ : n₁ ≤ 1 := by
    rcases h with rfl | ⟨hn, he⟩
    · exact h₁.1
    · exact (h₁.2 he).trans hn
  obtain _ | ⟨retry', e' | ⟨⟩⟩ := out
  · exact hn₁
  · exact wp_then trivial fun _ _ => hn₁
  · exact ih retry' hn₁

theorem headLoop_wp (retry : Retry) (hn : n ≤ 1) :
    wp spec (headLoop ns key name fuel retry) (fun n' _ => n' ≤ 1) n := by
  induction fuel generalizing retry n with
  | zero => exact ⟨trivial, nofun⟩
  | succ fuel ih =>
      refine wp_then trivial fun started _ => wp_then trivial fun request _ => wp_then trivial
        fun answer _ => ?_
      rcases answer with (e | m) | _ | _
      · refine headRetry_wp ?_ ih
        by_cases he : e = .notFound
        · subst he
          exact .inr ⟨hn, rfl⟩
        · exact .inl (after_of_not_final (decide_eq_false he))
      · exact wp_then trivial fun _ _ => Nat.zero_le 1
      · exact headRetry_wp (.inl rfl) ih
      · exact Nat.zero_le 1

theorem pastEnd_wp {start : Nat} (hn : n ≤ 1) :
    wp spec (pastEnd fuel ns key name start) (fun n' _ => n' ≤ 1) n := by
  refine wp_seq (wp_then trivial fun now _ => headLoop_wp _ hn) fun n₁ out h₁ => ?_
  obtain _ | e | m := out <;> exact h₁

end

/-- Only what has failed is tried again. -/
abbrev Tried (n : Nat) (out : Attempt) : Prop := ∀ m slots e, out = .failed m slots e → n ≤ 1

theorem settled_wp : wp spec (do resolveAll result slots; pure Attempt.settled) Tried n :=
  wp_seq (consumes_wp resolveAll_fills.consumes (Nat.le_refl n)) fun _ _ _ => nofun

theorem resolved_wp : wp spec (resolveAll result slots) (fun _ _ => True) n :=
  wp_mono (consumes_wp resolveAll_fills.consumes (Nat.le_refl n)) fun _ _ _ => trivial

theorem answerFor_wp {initial : Option GetResponse} (h : initial = none ∨ n ≤ 1) :
    wp spec (answerFor ctx range deadline initial) Answered n := by
  cases initial with
  | none => exact originGet_wp
  | some response => exact .inr (h.resolve_left nofun)

theorem goOn_wp {again : Retry → List Slot → Program Unit} (hn : n ≤ 1)
    (hagain : ∀ n retry slots, wp spec (again retry slots) (fun _ _ => True) n) :
    wp spec (goOn again retry slots e) (fun _ _ => True) n := by
  refine wp_seq (P := fun _ _ => True) (wp_seq (pause_wp hn) fun n₁ out _ => ?_) fun n₂ out _ => ?_
  · obtain _ | ⟨retry', e' | ⟨⟩⟩ := out
    · exact trivial
    · exact wp_seq resolved_wp fun _ _ _ => trivial
    · exact trivial
  · obtain _ | ⟨retry', slots', _ | _⟩ := out
    · exact resolved_wp
    · exact trivial
    · exact hagain n₂ retry' slots'

variable [TagHash]

theorem attempt_wp {known : Option ObjectMeta} {answer : Awaited (Except OriginError GetResponse)}
    (h : Answered n answer) : wp spec (attempt fuel ctx known slots range deadline answer) Tried n := by
  obtain (e | response) | _ | _ := answer
  case ready.ok =>
    refine wp_seq (consumes_wp accept_consumes (h.resolve_left nofun)) fun n₁ out h₁ => ?_
    obtain ⟨slots', (e | _ | trailing) | _ | _⟩ := out
    case ready.ok.some => exact wp_seq (consumes_wp fillTrailing_fills.consumes h₁) fun _ _ _ => nofun
    case dropped => exact settled_wp
    all_goals exact fun _ _ _ _ => h₁
  case ready.error =>
    cases e with
    | notFound => exact wp_then trivial fun _ _ => settled_wp
    | preconditionFailed => exact wp_then trivial fun _ _ => settled_wp
    | _ =>
        have hn : n ≤ 1 := h.resolve_left nofun
        cases known with
        | some known => exact fun _ _ _ _ => hn
        | none =>
            refine wp_seq (pastEnd_wp hn) fun n₁ out h₁ => ?_
            obtain _ | _ | known := out
            · exact settled_wp
            · exact fun _ _ _ _ => h₁
            · exact settled_wp
  all_goals exact settled_wp

theorem fetchLoop_wp {known : Option ObjectMeta} {initial : Option GetResponse} (h : initial = none ∨ n ≤ 1) :
    wp spec (fetchLoop ctx fuel retry known slots initial) (fun _ _ => True) n := by
  induction fuel generalizing n retry known slots initial with
  | zero => cases slots <;> exact ⟨trivial, nofun⟩
  | succ fuel ih =>
      cases slots with
      | nil => exact trivial
      | cons front rest =>
          unfold fetchLoop
          refine wp_then trivial fun now _ => ?_
          dsimp only
          split
          · exact resolved_wp
          · refine wp_seq (answerFor_wp h) fun n₁ answer h₁ => wp_seq (attempt_wp h₁) fun n₂ out h₂ => ?_
            cases out with
            | settled => exact trivial
            | failed known slots e =>
                exact goOn_wp (h₂ _ _ _ rfl) fun n retry slots => ih (.inl rfl)

theorem fetchGroup_wp {priority : Priority} {initial : Option GetResponse} :
    wp spec (fetchGroup fuel ctx slots priority initial) (fun _ _ => True) 0 := by
  refine wp_then trivial fun permit _ => ?_
  split
  · exact wp_then trivial fun _ _ => fetchLoop_wp (.inr (Nat.zero_le 1))
  · exact resolved_wp

end Rest

end Nestor
