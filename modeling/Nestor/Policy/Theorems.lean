import Nestor.Policy.Instant
import Nestor.Policy.Overrides

/-!
# Overrides that overflow the clock

No duration of the header is bounded. A `Retry` is safe exactly if the clock leaves room for the
durations of its policy. Of the delays between attempts only the first matters: a later one is at
most twice a delay that has passed.
-/

namespace Nestor

open Lib

/-- There is room for the durations of the policy after the instant `latest`. -/
structure FetchPolicy.Fits (p : FetchPolicy) (latest : Nat) : Prop where
  deadline : latest + p.deadline < instantLimit
  attempt : latest + p.attempt < instantLimit
  firstByte : latest + p.firstByte < instantLimit
  backoff : 2 ≤ p.attempts → latest + min p.backoff p.backoffMax < instantLimit

variable {p : FetchPolicy} {latest : Nat}

theorem FetchPolicy.backoffFor_zero (p : FetchPolicy) : p.backoffFor 0 = min p.backoff p.backoffMax := by
  rw [backoffFor, Nat.zero_min, Nat.pow_zero, Nat.mul_one]

/-- The delays at most double. -/
theorem FetchPolicy.backoffFor_succ_le (p : FetchPolicy) (k : Nat) :
    p.backoffFor (k + 1) ≤ 2 * p.backoffFor k := by
  have hpow : 2 ^ min (k + 1) 16 ≤ 2 * 2 ^ min k 16 := by
    rw [← Nat.pow_succ']
    exact Nat.pow_le_pow_right (by decide) (by omega)
  have hmul : p.backoff * 2 ^ min (k + 1) 16 ≤ 2 * (p.backoff * 2 ^ min k 16) := by
    rw [Nat.mul_left_comm]
    exact Nat.mul_le_mul_left _ hpow
  rw [backoffFor, backoffFor]
  omega

namespace Checked

theorem new_isSome {now : Nat} : (new p now).isSome ↔ now + p.deadline < instantLimit := by
  rw [new, Option.isSome_map, addInstant_isSome]

theorem attemptDeadline_isSome {r : Retry} {now : Nat} :
    (attemptDeadline r now).isSome ↔ now + r.policy.attempt < instantLimit := by
  rw [attemptDeadline, Option.isSome_map, addInstant_isSome]

theorem headersBy_isSome {started deadline : Nat} :
    (headersBy p started deadline).isSome ↔ started + p.firstByte < instantLimit := by
  rw [headersBy, Option.isSome_map, addInstant_isSome]

theorem headBy_isSome {r : Retry} {started now : Nat} (hheaders : started + r.policy.firstByte < instantLimit)
    (hattempt : now + r.policy.attempt < instantLimit) : (headBy r started now).isSome := by
  obtain ⟨headers, hh⟩ := Option.isSome_iff_exists.mp (addInstant_isSome.mpr hheaders)
  obtain ⟨deadline, hd⟩ := Option.isSome_iff_exists.mp (attemptDeadline_isSome.mpr hattempt)
  rw [headBy, hh, hd]
  rfl

/-- The delay is added only if there is another attempt. -/
theorem failed_isSome {r : Retry} {now : Nat} {error : OriginError} : (failed r now error).isSome ↔
    (error.isRetryable → r.attempt + 1 < r.policy.attempts →
      now + r.policy.backoffFor r.attempt < instantLimit) := by
  unfold failed
  dsimp only
  split
  · rename_i hover
    refine iff_of_true rfl fun hretry hmore => ?_
    rw [hretry, decide_eq_false (Nat.not_le_of_lt hmore)] at hover
    cases hover
  · rename_i hover
    rw [Bool.or_eq_true, not_or, decide_eq_true_eq, Bool.not_eq_true, Bool.not_eq_false', Nat.not_le] at hover
    rw [Option.isSome_map, addInstant_isSome, Nat.add_sub_cancel]
    exact ⟨fun h _ _ => h, fun h => h hover.1 hover.2⟩

/-- A retry keeps its policy, counts the attempt and has the delay of the attempt. -/
theorem failed_ok {r r' : Retry} {now delay : Nat} {error : OriginError}
    (h : failed r now error = some (r', .ok delay)) :
    r'.policy = r.policy ∧ r'.attempt = r.attempt + 1 ∧ delay = r.policy.backoffFor r.attempt := by
  have hfailed := failed_eq_some h
  unfold Retry.failed at hfailed
  dsimp only at hfailed
  split at hfailed
  · cases hfailed
  · split at hfailed
    · cases hfailed
    · cases hfailed
      exact ⟨rfl, rfl, rfl⟩

end Checked

/-! ## One use of a `Retry` -/

/-- The last delay has passed before the clock showed `latest`. -/
structure Retrying.Slept (p : FetchPolicy) (latest : Nat) (s : Retrying) : Prop where
  policy : s.retry.policy = p
  now : s.now ≤ latest
  delay : ∀ k, s.retry.attempt = k + 1 → p.backoffFor k ≤ latest

theorem Retrying.Slept.step {s s' : Retrying} {e : RetryEvent} (h : s.Slept p latest)
    (huntil : Until latest s e) (hstep : s.step e = some s') : s'.Slept p latest := by
  have hnow := huntil s' hstep
  cases e with
  | wait nanos =>
      cases hstep
      exact ⟨h.policy, hnow, h.delay⟩
  | fails error =>
      dsimp only [Retrying.step] at hstep
      split at hstep
      · rename_i retry delay hfailed
        cases hstep
        obtain ⟨hpolicy, hattempt, hdelay⟩ := Checked.failed_ok hfailed
        refine ⟨hpolicy.trans h.policy, hnow, fun k hk => ?_⟩
        have hk' : s.retry.attempt = k := Nat.succ.inj (hattempt.symm.trans hk)
        rw [← hk', ← h.policy, ← hdelay]
        exact (Nat.le_add_left _ _).trans hnow
      · cases hstep

theorem Retrying.Slept.computes {s : Retrying} (h : s.Slept p latest) (hfits : p.Fits latest)
    (hclock : 3 * latest < instantLimit) : s.Computes latest := by
  have hnow := h.now
  have hattempt (now : Nat) (hle : now ≤ latest) : now + s.retry.policy.attempt < instantLimit := by
    rw [h.policy]
    exact (Nat.add_le_add_right hle _).trans_lt hfits.attempt
  have hheaders : s.now + s.retry.policy.firstByte < instantLimit := by
    rw [h.policy]
    exact (Nat.add_le_add_right hnow _).trans_lt hfits.firstByte
  refine ⟨Checked.attemptDeadline_isSome.mpr (hattempt s.now hnow),
    fun _ => Checked.headersBy_isSome.mpr hheaders, fun later _ hle => Checked.headBy_isSome hheaders
    (hattempt later hle), fun error => Checked.failed_isSome.mpr fun _ hmore => ?_⟩
  rw [h.policy] at hmore ⊢
  cases hk : s.retry.attempt with
  | zero =>
      rw [p.backoffFor_zero]
      exact (Nat.add_le_add_right hnow _).trans_lt (hfits.backoff (by omega))
  | succ k =>
      have hle := h.delay k hk
      have hdouble := p.backoffFor_succ_le k
      omega

/-- A policy that fits never overflows, and any other one does at the latest instant. -/
theorem FetchPolicy.neverOverflows_iff (hclock : 3 * latest < instantLimit) :
    p.NeverOverflows latest ↔ p.Fits latest := by
  constructor
  · intro h
    obtain ⟨retry, hnew, hruns⟩ := h latest (Nat.le_refl _)
    obtain rfl := Checked.new_eq_some hnew
    have hnow := hruns [] _ .nil
    refine ⟨Checked.new_isSome.mp (Option.isSome_of_eq_some hnew),
      Checked.attemptDeadline_isSome.mp hnow.attemptDeadline, Checked.headersBy_isSome.mp (hnow.originGet 0),
      fun htwo => ?_⟩
    have hfailed : latest + p.backoffFor 0 < instantLimit :=
      Checked.failed_isSome.mp (hnow.failed .io) rfl htwo
    rwa [p.backoffFor_zero] at hfailed
  · intro hfits now hle
    obtain ⟨retry, hnew⟩ := Option.isSome_iff_exists.mp
      (Checked.new_isSome.mpr ((Nat.add_le_add_right hle p.deadline).trans_lt hfits.deadline))
    obtain rfl := Checked.new_eq_some hnew
    refine ⟨_, hnew, fun es s hrun => ?_⟩
    have hslept : Retrying.Slept p latest ⟨Retry.new p now, now⟩ := ⟨rfl, hle, fun k hk => nomatch hk⟩
    exact (hrun.invariant (fun s e s' h huntil hstep => h.step huntil hstep) hslept).computes hfits hclock

/-- With a header that is accepted no instant overflows exactly if there is room for the durations
of the policy in effect, and of the policy of the namespace, which a HEAD uses. -/
theorem FetchOverrides.parse_neverOverflows_iff [Humantime] (text : Bytes) (overrides : FetchOverrides)
    (policy : FetchPolicy) (latest : Nat) (_ : FetchOverrides.parse text = .ok overrides)
    (hclock : 3 * latest < instantLimit) :
    (policy.with overrides).NeverOverflows latest ∧ policy.NeverOverflows latest ↔
      (policy.with overrides).Fits latest ∧ policy.Fits latest :=
  and_congr (FetchPolicy.neverOverflows_iff hclock) (FetchPolicy.neverOverflows_iff hclock)

section

namespace HumantimeSample

/-- Durations of whole seconds, as `humantime` reads them. -/
scoped instance : Humantime where
  parseDuration := fun s =>
    ((s.dropSuffix? (ascii "s")).bind fun n => (S3.digits n).filter (· < 2 ^ 64)).map (· * 1000000000)

end HumantimeSample

open HumantimeSample

/-- A header with a duration of `u64::MAX` seconds is accepted, and the deadline of the fetch
overflows at any time. -/
theorem FetchOverrides.parse_overflows :
    ∃ overrides, FetchOverrides.parse (ascii "deadline=18446744073709551615s") = .ok overrides ∧
      Checked.new (FetchPolicy.default.with overrides) 0 = none :=
  ⟨{ FetchOverrides.default with deadline := some (18446744073709551615 * 1000000000) }, by decide, by decide⟩

theorem FetchOverrides.parse_neverOverflows_short :
    (FetchPolicy.default.with { FetchOverrides.default with deadline := some 5000000000 }).NeverOverflows
      1000000000 := by
  have h := FetchOverrides.parse_neverOverflows_iff (ascii "deadline=5s")
    { FetchOverrides.default with deadline := some 5000000000 } FetchPolicy.default 1000000000
    (by decide) (by decide)
  refine (h.mpr ⟨⟨?_, ?_, ?_, fun _ => ?_⟩, ⟨?_, ?_, ?_, fun _ => ?_⟩⟩).1 <;> decide

end

end Nestor
