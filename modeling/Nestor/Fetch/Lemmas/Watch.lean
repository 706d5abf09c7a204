import Nestor.Body.Lemmas.Hedged
import Nestor.Fetch.Lemmas.Aside
import Nestor.Fetch.Watch

/-!
# What a fetch does to a watch

Every wait of a fetch ends by the deadline of its attempt and every pause by the deadline of its
retries, with the exception of the requests that `Watch.Prompt` is about.
-/

namespace Nestor

open Lib

variable {script : Nat → Nat} {retry : Retry} {e : OriginError}

/-- The operation takes no time and is not the last one. -/
def Op.instant : Op → Bool
  | .hang => false
  | o => o.until.isNone

theorem Op.until_of_instant {o : Op} (h : o.instant = true) : o.until = none ∧ o ≠ .hang := by
  cases o
  case hang => cases h
  all_goals first | exact ⟨rfl, nofun⟩ | cases h

/-- What a fetch is measured against. The clock counts only if `strict`. -/
structure Bounds where
  script : Nat → Nat
  limit : Nat
  firstByte : Nat
  budget : Nat
  strict : Prop

namespace Watch

variable {B : Bounds} {g g' g'' : Watch} {o : Op} {r : Resp o}

/-- The watch shows nothing the bounds forbid. -/
def In (B : Bounds) (g : Watch) : Prop := B.strict → g.Keeps B.limit B.firstByte

/-! ## One step -/

theorem later_of_instant (ho : o.until = none) (r : Resp o) : g.later script o r = g.now := by
  unfold later
  rw [ho]

theorem awaitsHeaders_of_instant (ho : o.until = none) : o.awaitsHeaders = false := by
  cases o <;> first | rfl | cases ho

theorem InTime.later_le {α : Type} {deadline : Nat} {answer : Awaited α}
    (h : g.InTime script deadline answer) (hr : answer ≠ .timeout) :
    g.now + script g.step ≤ max g.now deadline := by
  cases answer with
  | ready a => exact h
  | timeout => exact absurd rfl hr
  | dropped => exact h.elim

theorem Elapses.later_le {deadline : Nat} (h : g.Elapses script o r) (ho : o.until = some deadline) :
    g.later script o r ≤ max g.now deadline := by
  unfold later
  rw [ho]
  dsimp only
  split
  · exact Nat.le_refl _
  · rename_i he
    cases o
    case awaitGet => cases ho; exact InTime.later_le h.1 fun hr => he (by rw [hr]; rfl)
    case awaitHead => cases ho; exact InTime.later_le h fun hr => he (by rw [hr]; rfl)
    case awaitBody => cases ho; exact InTime.later_le h.1 fun hr => he (by rw [hr]; rfl)
    case awaitStream => cases ho; exact InTime.later_le h fun hr => he (by rw [hr]; rfl)
    case sleep => exact absurd rfl he
    all_goals cases ho

theorem le_later (script : Nat → Nat) (g : Watch) (o : Op) (r : Resp o) : g.now ≤ g.later script o r := by
  unfold later
  cases o.until with
  | none => exact Nat.le_refl _
  | some deadline =>
      dsimp only
      split <;> omega

/-- The clock goes on within the bounds. -/
structure Hears (B : Bounds) (g g' : Watch) : Prop where
  inside : g'.In B
  turns : g.turns ≤ g'.turns

theorem Hears.refl (h : g.In B) : g.Hears B g := ⟨h, Nat.le_refl _⟩

theorem Hears.trans (h : g.Hears B g') (h' : g'.Hears B g'') : g.Hears B g'' :=
  ⟨h'.inside, h.turns.trans h'.turns⟩

theorem In.after (h : g.In B) (hnow : B.strict → g.later B.script o r ≤ B.limit)
    (hwaits : B.strict → o.awaitsHeaders = true → ∀ s ∈ g.sent, g.later B.script o r ≤ s + B.firstByte) :
    (g.after B.script o r).In B := by
  intro hs
  refine ⟨hnow hs, fun d hd => ?_⟩
  rcases List.mem_append.mp hd with hd | hd
  · split at hd
    · rename_i ho
      obtain ⟨s, hsent, rfl⟩ := List.mem_map.mp hd
      have := hwaits hs ho s hsent
      omega
    · cases hd
  · exact (h hs).2 d hd

theorem In.after_instant (h : g.In B) (ho : o.until = none) : (g.after B.script o r).In B := by
  refine h.after (fun hs => ?_) fun hs hw => ?_
  · rw [later_of_instant ho]
    exact (h hs).1
  · rw [awaitsHeaders_of_instant ho] at hw
    cases hw

/-- After an operation that ends by the limit and is none that requests wait in. -/
theorem In.after_await {deadline : Nat} (h : g.In B) (he : g.Elapses B.script o r)
    (ho : o.until = some deadline) (hd : B.strict → deadline ≤ B.limit)
    (hw : B.strict → o.awaitsHeaders = true → ∀ s ∈ g.sent, g.later B.script o r ≤ s + B.firstByte) :
    (g.after B.script o r).In B :=
  h.after (fun hs => (he.later_le ho).trans (max_le (h hs).1 (hd hs))) hw

end Watch

namespace Bounds

open Watch

/-- What a fetch does within the bounds, and what it counts on. -/
def spec (B : Bounds) : Spec Op Resp Watch where
  guar := fun w o => w.In B ∧ (o = .hang → B.budget ≤ w.turns)
  rely := fun w o r => w.Elapses B.script o r ∧ (B.strict → w.Prompt B.script B.limit B.firstByte o r)
  next := fun w o r => w.after B.script o r

variable {B : Bounds} {g : Watch} {α : Type}

variable {o : Op} {f : Resp o → Program α} {Q : Watch → α → Prop}

theorem wp_instant (hg : g.In B) (ho : o.instant = true)
    (h : ∀ r g', g' = g.after B.script o r → g'.In B → g'.now = g.now → g.turns ≤ g'.turns →
      g.Elapses B.script o r → wp B.spec (f r) Q g') : wp B.spec (perform o >>= f) Q g := by
  obtain ⟨ho, hne⟩ := Op.until_of_instant ho
  exact wp_then ⟨hg, fun he => absurd he hne⟩ fun r hr =>
    h r _ rfl (hg.after_instant ho) (later_of_instant ho r) (Nat.le_add_right _ _) hr.1

theorem wp_quiet (hg : g.In B) (ho : o.instant = true)
    (h : ∀ r g', g.Hears B g' → wp B.spec (f r) Q g') : wp B.spec (perform o >>= f) Q g :=
  wp_instant hg ho fun r g' _ hin _ ht _ => h r g' ⟨hin, ht⟩

/-- Taking and settling slots takes no time. -/
theorem wp_easy {p : Program α} (h : Easy p) (hg : g.In B) : wp B.spec p (fun g' _ => g.Hears B g') g := by
  refine h.wp (fun g' o hh ho => ?_) (Hears.refl hg)
  obtain ⟨ho, hne⟩ := Op.until_of_instant (o := o) (by cases o <;> first | rfl | cases ho)
  exact ⟨⟨hh.inside, fun he => absurd he hne⟩, fun r => hh.trans ⟨hh.inside.after_instant ho,
    Nat.le_add_right _ _⟩⟩

theorem wp_await {deadline : Nat} (hg : g.In B)
    (ho : o.until = some deadline) (hin : ∀ r, B.spec.rely g o r → (g.after B.script o r).In B)
    (h : ∀ r g', g' = g.after B.script o r → g.Hears B g' → B.spec.rely g o r → wp B.spec (f r) Q g') :
    wp B.spec (perform o >>= f) Q g := by
  have hne : o ≠ .hang := by
    rintro rfl
    cases ho
  exact wp_then ⟨hg, fun he => absurd he hne⟩ fun r hr => h r _ rfl ⟨hin r hr, Nat.le_add_right _ _⟩ hr

theorem hang_in (hg : g.In B) (hb : B.budget ≤ g.turns) : wp B.spec (hang : Program α) Q g :=
  ⟨⟨hg, fun _ => hb⟩, nofun⟩

end Bounds

open Bounds Watch

variable {B : Bounds} {g : Watch} {ctx : ReadCtx} {options : GetOptions} {deadline : Nat}

/-! ## Requests -/

/-- Requests sent since `s` are waited for no longer than until `deadline`. -/
structure Asking (B : Bounds) (deadline s : Nat) (g : Watch) : Prop where
  inside : g.In B
  sent : ∀ s' ∈ g.sent, s ≤ s'
  since : s ≤ g.now
  now : B.strict → g.now ≤ s + B.firstByte
  headers : B.strict → deadline ≤ s + B.firstByte
  limit : B.strict → deadline ≤ B.limit

namespace Asking

variable {s : Nat} {requests : List GetRequest} {hedge : Bool}

theorem await (h : Asking B deadline s g) {r : Awaited GetAnswer}
    (he : g.Elapses B.script (.awaitGet requests hedge deadline) r) :
    Asking B deadline s (g.after B.script (.awaitGet requests hedge deadline) r) := by
  have hle : B.strict → g.later B.script (.awaitGet requests hedge deadline) r ≤ s + B.firstByte :=
    fun hs => (he.later_le rfl).trans (max_le (h.now hs) (h.headers hs))
  refine ⟨h.inside.after_await he rfl h.limit fun hs _ s' hs' => ?_, fun s' hs' => ?_, ?_, hle,
    h.headers, h.limit⟩
  · have := h.sent s' hs'
    have := hle hs
    omega
  · refine h.sent s' ?_
    rcases r with (⟨i, result⟩ | _) | _ | _
    · exact List.mem_of_mem_eraseIdx hs'
    all_goals exact hs'
  · exact h.since.trans (g.le_later B.script (.awaitGet requests hedge deadline) r)

theorem hedged (h : Asking B deadline s g) {primary : GetRequest} (r : Option GetRequest) :
    Asking B deadline s (g.after B.script (.hedge primary) r) := by
  refine ⟨h.inside.after_instant rfl, fun s' hs' => ?_, h.since, h.now, h.headers, h.limit⟩
  cases r with
  | none => exact h.sent s' hs'
  | some secondary =>
      rcases List.mem_append.mp hs' with hs' | hs'
      · exact h.sent s' hs'
      · rw [List.mem_singleton.mp hs']
        exact h.since

end Asking

/-- How a GET ends on the clock. -/
def Answered (B : Bounds) (g : Watch) (g' : Watch) : Awaited (Except OriginError GetResponse) → Prop
  | .dropped => False
  | _ => g.Hears B g'

theorem Answered.of_hears {g' g'' : Watch} {out : Awaited (Except OriginError GetResponse)} (h : g.Hears B g')
    (h' : Answered B g' g'' out) : Answered B g g'' out := by
  cases out with
  | ready result => exact h.trans h'
  | timeout => exact h.trans h'
  | dropped => exact h'

theorem awaitLast_in {s : Nat} {request : GetRequest} (h : Asking B deadline s g) :
    wp B.spec (awaitLast request deadline) (fun g' out => Answered B g g' out) g := by
  refine wp_await h.inside rfl (fun r hr => (h.await hr.1).inside) fun answer g' _ hh hr => ?_
  rcases answer with (⟨i, result⟩ | _) | _ | _
  · exact hh
  · exact absurd (hr.1.2 rfl) Bool.false_ne_true
  · exact hh
  · exact hr.1.1.elim

theorem awaitBoth_in {s : Nat} {primary secondary : GetRequest} (h : Asking B deadline s g) :
    wp B.spec (awaitBoth primary secondary deadline) (fun g' out => Answered B g g' out) g := by
  refine wp_await h.inside rfl (fun r hr => (h.await hr.1).inside) fun answer g' hg' hh hr => ?_
  have hlast (request : GetRequest) :
      wp B.spec (awaitLast request deadline) (fun g'' out => Answered B g g'' out) g' :=
    wp_mono (awaitLast_in (hg' ▸ h.await hr.1)) fun _ _ hout => hout.of_hears hh
  rcases answer with (⟨i, e | r⟩ | _) | _ | _
  · dsimp only
    split
    · exact hlast _
    · exact hh
  · exact hh
  · exact absurd (hr.1.2 rfl) Bool.false_ne_true
  · exact hh
  · exact hr.1.1.elim

theorem getHedged_in (hg : g.In B) (hd : B.strict → deadline ≤ min (g.now + B.firstByte) B.limit) :
    wp B.spec (getHedged ctx options deadline) (fun g' out => Answered B g g' out) g := by
  refine wp_instant hg rfl fun primary g₁ hg₁ hin₁ hnow₁ ht₁ _ => ?_
  have hh₁ : g.Hears B g₁ := ⟨hin₁, ht₁⟩
  have h₁ : Asking B deadline g.now g₁ := by
    refine ⟨hin₁, fun s hs => ?_, hnow₁.ge, fun _ => hnow₁ ▸ Nat.le_add_right _ _, fun hs => ?_, fun hs => ?_⟩
    · have hs : s ∈ [g.now] := by rwa [hg₁] at hs
      exact (List.mem_singleton.mp hs).ge
    · have := hd hs
      omega
    · have := hd hs
      omega
  refine wp_await hin₁ rfl (fun r hr => (h₁.await hr.1).inside) fun answer g₂ hg₂ hh₂ hr => ?_
  have h₂ : Asking B deadline g.now g₂ := hg₂ ▸ h₁.await hr.1
  have hh₂ := hh₁.trans hh₂
  rcases answer with (⟨i, result⟩ | _) | _ | _
  · exact hh₂
  · refine wp_instant h₂.inside rfl fun second g₃ hg₃ hin₃ _ ht₃ _ => ?_
    have h₃ : Asking B deadline g.now g₃ := hg₃ ▸ h₂.hedged second
    have hh₃ : g.Hears B g₃ := hh₂.trans ⟨hin₃, ht₃⟩
    cases second with
    | none => exact wp_mono (awaitLast_in h₃) fun _ _ hout => hout.of_hears hh₃
    | some secondary => exact wp_mono (awaitBoth_in h₃) fun _ _ hout => hout.of_hears hh₃
  · exact hh₂
  · exact hr.1.1.elim

/-- A GET ends by the deadline of its attempt, and waits no longer for headers than the policy of
the read says. -/
theorem originGet_in (hg : g.In B) (hd : B.strict → deadline ≤ B.limit)
    (hf : B.strict → ctx.policy.firstByte ≤ B.firstByte) :
    wp B.spec (originGet ctx options deadline) (fun g' out => g.Hears B g' ∧ ∃ result, out = .ready result)
      g := by
  refine wp_instant hg rfl fun started g₁ hg₁ hin₁ hnow₁ ht₁ hstarted => ?_
  have hh₁ : g.Hears B g₁ := ⟨hin₁, ht₁⟩
  obtain rfl : started = g.now := hstarted
  have hby : B.strict → min (g.now + ctx.policy.firstByte) deadline ≤ min (g₁.now + B.firstByte) B.limit := by
    intro hs
    have := hd hs
    have := hf hs
    omega
  refine wp_seq (getHedged_in hin₁ hby) fun g₂ out hout => ?_
  have hout := hout.of_hears hh₁
  cases out with
  | ready result => exact ⟨hout, result, rfl⟩
  | timeout => exact ⟨hout, _, rfl⟩
  | dropped => exact hout.elim

theorem answerFor_in {range : Range} {initial : Option GetResponse} (hg : g.In B)
    (hd : B.strict → deadline ≤ B.limit) (hf : B.strict → ctx.policy.firstByte ≤ B.firstByte) :
    wp B.spec (answerFor ctx range deadline initial)
    (fun g' out => g.Hears B g' ∧ ∃ result, out = .ready result) g := by
  cases initial with
  | some response => exact ⟨Hears.refl hg, _, rfl⟩
  | none => exact originGet_in hg hd hf

/-- A retry waits only if its backoff fits. -/
theorem Retry.failed_ok {retry' : Retry} {now delay : Nat} (h : retry.failed now e = (retry', .ok delay)) :
    retry'.policy = retry.policy ∧ retry'.deadline = retry.deadline ∧ now + delay < retry.deadline := by
  unfold Retry.failed at h
  dsimp only at h
  split at h
  · cases h
  · split at h
    · cases h
    · rename_i hlt
      cases h
      exact ⟨rfl, rfl, Nat.lt_of_not_le hlt⟩

/-- A pause ends before the deadline of the retries. Those of a HEAD have a deadline of their
own. -/
theorem Retry.pause_in (hg : g.In B) (hd : B.strict → retry.deadline ≤ B.limit ∨ g.heading = true) :
    wp B.spec (retry.pause e) (fun g' out => g.Hears B g' ∧ g'.heading = g.heading ∧ ∃ retry' result,
      out = some (retry', result) ∧
      (result = .ok () → retry'.policy = retry.policy ∧ retry'.deadline = retry.deadline ∧
        g.turns < g'.turns)) g := by
  refine wp_instant hg rfl fun now g₁ hg₁ hin₁ hnow₁ ht₁ hnow => ?_
  have hh₁ : g.Hears B g₁ := ⟨hin₁, ht₁⟩
  have hheading : g₁.heading = g.heading := hg₁ ▸ rfl
  cases hfailed : retry.failed now e with
  | mk retry' result =>
      cases result with
      | error e' => exact ⟨hh₁, hheading, retry', .error e', rfl, nofun⟩
      | ok delay =>
          obtain ⟨hpolicy, hdeadline, hlt⟩ := Retry.failed_ok hfailed
          have hin (r : Awaited Unit) (hr : B.spec.rely g₁ (.sleep (now + delay)) r) :
              (g₁.after B.script (.sleep (now + delay)) r).In B := by
            refine hin₁.after_await hr.1 rfl (fun hs => ?_) fun _ hw => nomatch hw
            rcases hd hs with hlimit | hhead
            · omega
            · exact hr.2 hs (hheading.trans hhead)
          refine wp_await hin₁ rfl hin fun answer g₂ hg₂ hh₂ hr => ?_
          obtain rfl : answer = .ready () := hr.1
          have hturns : g₂.turns = g₁.turns + 1 := hg₂ ▸ rfl
          refine ⟨hh₁.trans hh₂, (hg₂ ▸ rfl : g₂.heading = g₁.heading).trans hheading, retry', .ok (),
            rfl, fun _ => ⟨hpolicy, hdeadline, ?_⟩⟩
          omega

/-- The rule for a pause: it ends with the error, or before one more attempt. -/
theorem Retry.wp_pause {α : Type} {Q : Watch → α → Prop}
    {k : Option (Retry × Except OriginError Unit) → Program α} (hg : g.In B)
    (hd : B.strict → retry.deadline ≤ B.limit ∨ g.heading = true)
    (herror : ∀ g' retry' e', g.Hears B g' → wp B.spec (k (some (retry', .error e'))) Q g')
    (hagain : ∀ g' retry', g.Hears B g' → retry'.deadline = retry.deadline → g.turns < g'.turns →
      wp B.spec (k (some (retry', .ok ()))) Q g') :
    wp B.spec (retry.pause e >>= k) Q g := by
  refine wp_seq (Retry.pause_in hg hd) fun g' out hout => ?_
  obtain ⟨h', -, retry', result, rfl, hok⟩ := hout
  cases result with
  | error e' => exact herror g' retry' e' h'
  | ok u =>
      obtain ⟨-, hdeadline, hturns⟩ := hok rfl
      exact hagain g' retry' h' hdeadline hturns

/-! ## HEAD -/

variable {ns : NamespaceState} {key : ObjectKey} {name : Bytes} {fuel : Nat}

theorem headLoop_in (hg : g.In B) (hb : B.budget ≤ g.turns + fuel) :
    wp B.spec (headLoop ns key name fuel retry) (fun g' out => g.Hears B g' ∧ ∃ result, out = some result)
      g := by
  induction fuel generalizing retry g with
  | zero => exact hang_in hg hb
  | succ fuel ih =>
      unfold headLoop
      refine wp_quiet hg rfl fun started g₁ h₁ => ?_
      refine wp_instant h₁.inside rfl fun request g₂ hg₂ hin₂ hnow₂ ht₂ _ => ?_
      have h₂ := h₁.trans ⟨hin₂, ht₂⟩
      have hheading : g₂.heading = true := hg₂ ▸ rfl
      refine wp_await hin₂ rfl (fun r hr => hin₂.after (fun hs => (hr.2 hs).2) fun hs _ => (hr.2 hs).1)
        fun answer g₃ hg₃ h₃ hr => ?_
      have h₃ := h₂.trans h₃
      have hheading : g₃.heading = true := hg₃ ▸ hheading
      have herror (g₄ : Watch) (retry' : Retry) (e : OriginError) (h₄ : g₃.Hears B g₄) :
          wp B.spec (do perform (.metaRemove key); pure (some (.error (.ofOrigin e))))
            (fun g' (out : Option (Except NestorError ObjectMeta)) => g.Hears B g' ∧
            ∃ result, out = some result) g₄ :=
        wp_quiet h₄.inside rfl fun _ g₅ h₅ => ⟨(h₃.trans h₄).trans h₅, _, rfl⟩
      have hagain (g₄ : Watch) (retry' : Retry) (h₄ : g₃.Hears B g₄) (_ : retry'.deadline = retry.deadline)
          (hturns : g₃.turns < g₄.turns) : wp B.spec (headLoop ns key name fuel retry')
            (fun g' out => g.Hears B g' ∧ ∃ result, out = some result) g₄ := by
        have := h₃.turns
        exact wp_mono (ih h₄.inside (by omega)) fun g₅ out hout => ⟨(h₃.trans h₄).trans hout.1, hout.2⟩
      rcases answer with (e | m) | _ | _
      · exact Retry.wp_pause h₃.inside (fun _ => .inr hheading) herror hagain
      · exact wp_quiet h₃.inside rfl fun _ g₄ h₄ => ⟨h₃.trans h₄, _, rfl⟩
      · exact Retry.wp_pause h₃.inside (fun _ => .inr hheading) herror hagain
      · exact hr.1.elim

theorem pastEnd_in {start : Nat} (hg : g.In B) (hb : B.budget ≤ g.turns + fuel) :
    wp B.spec (pastEnd fuel ns key name start) (fun g' out => g.Hears B g' ∧ ∃ result, out = some result)
      g := by
  refine wp_bind.mpr ?_
  refine wp_quiet hg rfl fun now g₁ h₁ => ?_
  have := h₁.turns
  refine wp_mono (headLoop_in h₁.inside (by omega)) fun g₂ out hout => ?_
  obtain ⟨h₂, result, rfl⟩ := hout
  cases result with
  | error e => exact ⟨h₁.trans h₂, _, rfl⟩
  | ok m => exact ⟨h₁.trans h₂, _, rfl⟩

/-! ## Slots -/

theorem claim_in {index : Nat} (hg : g.In B) : wp B.spec (claim ctx index) (fun g' _ => g.Hears B g') g := by
  refine wp_quiet hg rfl fun present g₁ h₁ => ?_
  split
  · exact h₁
  · refine wp_quiet h₁.inside rfl fun registration g₂ h₂ => ?_
    cases registration <;> exact h₁.trans h₂

theorem claimAll_in {indexes : List Nat} (hg : g.In B) :
    wp B.spec (claimAll ctx indexes) (fun g' _ => g.Hears B g') g := by
  induction indexes generalizing g with
  | nil => exact Hears.refl hg
  | cons index indexes ih =>
      refine wp_seq (claim_in hg) fun g₁ claimed h₁ => ?_
      exact wp_seq (ih h₁.inside) fun g₂ more h₂ => h₁.trans h₂

theorem cacheExtra_in {slot : Slot} {m : ObjectMeta} {data : Bytes} (hg : g.In B) :
    wp B.spec (cacheExtra slot m data) (fun g' _ => g.Hears B g') g :=
  wp_quiet hg rfl fun _ _ h₁ => wp_mono (wp_easy (settle_easy slot _) h₁.inside) fun _ _ h₂ => h₁.trans h₂

end Nestor
