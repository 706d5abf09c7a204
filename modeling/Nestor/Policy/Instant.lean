import Nestor.Core.Namespace
import Nestor.Lib.Runs

/-!
# Instants that overflow

An `Instant` counts seconds in a signed 64-bit number, and adding a duration panics where the sum
does not fit. The functions of `Retry`, and the instants `origin_get` and `head` compute, with that
check; where they do not panic, they give what the engine's do.

`probe`, `fetch_group` and `head` use a `Retry` in the same way: it is made once, every round
computes the instants of an attempt, and ends the loop or calls `failed`, which waits for the next
round.
-/

namespace Nestor

open Lib

/-- The first instant that cannot be represented, in nanoseconds. -/
def instantLimit : Nat := 2 ^ 63 * 1000000000

/-- `Instant + Duration`; `none` is the panic. -/
def addInstant (now duration : Nat) : Option Nat :=
  if now + duration < instantLimit then some (now + duration) else none

theorem addInstant_isSome {now duration : Nat} : (addInstant now duration).isSome ↔
    now + duration < instantLimit := by
  unfold addInstant
  split
  · exact iff_of_true rfl ‹_›
  · exact iff_of_false Bool.false_ne_true ‹_›

theorem addInstant_eq_some {now duration instant : Nat} (h : addInstant now duration = some instant) :
    instant = now + duration := by
  obtain ⟨-, he⟩ := Option.ite_none_right_eq_some.mp h
  exact (Option.some.inj he).symm

namespace Checked

def new (policy : FetchPolicy) (now : Nat) : Option Retry :=
  (addInstant now policy.deadline).map fun deadline => ⟨policy, 0, deadline⟩

def attemptDeadline (r : Retry) (now : Nat) : Option Nat :=
  (addInstant now r.policy.attempt).map (min · r.deadline)

def failed (r : Retry) (now : Nat) (error : OriginError) : Option (Retry × Except OriginError Nat) :=
  let r := { r with attempt := r.attempt + 1 }
  if !error.isRetryable || r.policy.attempts ≤ r.attempt then some (r, .error error)
  else
    let delay := r.policy.backoffFor (r.attempt - 1)
    (addInstant now delay).map fun wake =>
      if r.deadline ≤ wake then (r, .error (.timeout r.policy.deadline)) else (r, .ok delay)

/-- The instant `origin_get` waits for headers until. -/
def headersBy (policy : FetchPolicy) (started attemptDeadline : Nat) : Option Nat :=
  (addInstant started policy.firstByte).map (min · attemptDeadline)

/-- The instant `head` waits until; the clock is read again for the deadline of the attempt. -/
def headBy (r : Retry) (started now : Nat) : Option Nat := do
  let headers ← addInstant started r.policy.firstByte
  let deadline ← attemptDeadline r now
  some (min headers deadline)

theorem new_eq_some {policy : FetchPolicy} {now : Nat} {r : Retry} (h : new policy now = some r) :
    r = Retry.new policy now := by
  obtain ⟨deadline, hd, rfl⟩ := Option.map_eq_some_iff.mp h
  rw [addInstant_eq_some hd, Retry.new]

theorem attemptDeadline_eq_some {r : Retry} {now deadline : Nat} (h : attemptDeadline r now = some deadline) :
    deadline = r.attemptDeadline now := by
  obtain ⟨instant, hi, rfl⟩ := Option.map_eq_some_iff.mp h
  rw [addInstant_eq_some hi, Retry.attemptDeadline]

/-- What `head` waits until is what the engine's loop does, if the clock is read once. -/
theorem headBy_eq_some {r : Retry} {now instant : Nat} (h : headBy r now now = some instant) :
    instant = min (now + r.policy.firstByte) (r.attemptDeadline now) := by
  obtain ⟨headers, hh, h⟩ := Option.bind_eq_some_iff.mp h
  obtain ⟨deadline, hd, h⟩ := Option.bind_eq_some_iff.mp h
  rw [← Option.some.inj h, addInstant_eq_some hh, attemptDeadline_eq_some hd]

theorem failed_eq_some {r : Retry} {now : Nat} {error : OriginError} {out : Retry × Except OriginError Nat}
    (h : failed r now error = some out) : out = r.failed now error := by
  unfold failed at h
  unfold Retry.failed
  dsimp only at h ⊢
  split at h
  · rename_i hover
    rw [if_pos hover]
    exact (Option.some.inj h).symm
  · rename_i hover
    obtain ⟨wake, hw, rfl⟩ := Option.map_eq_some_iff.mp h
    rw [if_neg hover, addInstant_eq_some hw]

end Checked

/-! ## The use of a `Retry` -/

/-- A `Retry` in use, and the time. -/
structure Retrying where
  retry : Retry
  now : Nat

inductive RetryEvent where
  | wait (nanos : Nat)
  | fails (error : OriginError)

namespace Retrying

/-- Time passes, or a round fails and is retried after its delay. -/
def step (s : Retrying) : RetryEvent → Option Retrying
  | .wait nanos => some { s with now := s.now + nanos }
  | .fails error =>
      match Checked.failed s.retry s.now error with
      | some (retry, .ok delay) => some ⟨retry, s.now + delay⟩
      | _ => none

/-- The clock shows `latest` at most. -/
def Until (latest : Nat) (s : Retrying) (e : RetryEvent) : Prop := ∀ s', s.step e = some s' → s'.now ≤ latest

/-- All instants a round may compute now can be represented. -/
structure Computes (latest : Nat) (s : Retrying) : Prop where
  attemptDeadline : (Checked.attemptDeadline s.retry s.now).isSome
  originGet : ∀ deadline, (Checked.headersBy s.retry.policy s.now deadline).isSome
  head : ∀ later, s.now ≤ later → later ≤ latest → (Checked.headBy s.retry s.now later).isSome
  failed : ∀ error, (Checked.failed s.retry s.now error).isSome

end Retrying

/-- With the policy no use of a `Retry` overflows while the clock shows `latest` at most. -/
def FetchPolicy.NeverOverflows (p : FetchPolicy) (latest : Nat) : Prop :=
  ∀ now ≤ latest, ∃ retry, Checked.new p now = some retry ∧
    ∀ es s, Run Retrying.step (Retrying.Until latest) ⟨retry, now⟩ es s → s.Computes latest

end Nestor
