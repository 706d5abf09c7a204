import Mathlib.Data.List.Basic

/-!
# Runs of a transition function

A system is a partial function `step : σ → ε → Option σ`, which answers `none` where an event is not
possible. `Run step Ok s es s'` is a run from `s` over the events `es` to `s'` all of whose steps
meet `Ok`, a condition on the state before the step and the event.
-/

namespace Nestor.Lib

variable {σ ε : Type*} {step : σ → ε → Option σ} {Ok Ok' : σ → ε → Prop}

/-- The state after a list of events, if all of them are possible in turn. -/
def runEvents (step : σ → ε → Option σ) : σ → List ε → Option σ
  | s, [] => some s
  | s, e :: es => (step s e).bind fun s' => runEvents step s' es

inductive Run (step : σ → ε → Option σ) (Ok : σ → ε → Prop) : σ → List ε → σ → Prop
  | nil {s} : Run step Ok s [] s
  | cons {s e s' es s''} : Ok s e → step s e = some s' → Run step Ok s' es s'' →
      Run step Ok s (e :: es) s''

theorem Run.of_events {s s' : σ} {es : List ε} (h : runEvents step s es = some s')
    (hok : ∀ s, ∀ e ∈ es, Ok s e) : Run step Ok s es s' := by
  induction es generalizing s with
  | nil =>
      cases h
      exact .nil
  | cons e es ih =>
      obtain ⟨s₁, hs, h⟩ := Option.bind_eq_some_iff.mp h
      exact .cons (hok s e List.mem_cons_self) hs (ih h fun s e he => hok s e (List.mem_cons_of_mem _ he))

/-- The step, if the event passes the check. -/
def checked (ok : σ → ε → Bool) (step : σ → ε → Option σ) (s : σ) (e : ε) : Option σ :=
  if ok s e then step s e else none

theorem Run.of_checked {ok : σ → ε → Bool} (hok : ∀ s e, ok s e = true → Ok s e) {s s' : σ} {es : List ε}
    (h : s' ∈ runEvents (checked ok step) s es) : Run step Ok s es s' := by
  induction es generalizing s with
  | nil =>
      cases h
      exact .nil
  | cons e es ih =>
      obtain ⟨s₁, hs, h⟩ := Option.bind_eq_some_iff.mp h
      unfold checked at hs
      split at hs
      · exact .cons (hok s e ‹_›) hs (ih h)
      · cases hs

theorem Run.of_decided [∀ s e, Decidable (Ok s e)] {s s' : σ} {es : List ε}
    (h : s' ∈ runEvents (checked (fun s e => decide (Ok s e)) step) s es) : Run step Ok s es s' :=
  .of_checked (fun _ _ => of_decide_eq_true) h

theorem Run.mono (hok : ∀ s e, Ok s e → Ok' s e) {s es s'} (h : Run step Ok s es s') :
    Run step Ok' s es s' := by
  induction h with
  | nil => exact .nil
  | cons ho hs _ ih => exact .cons (hok _ _ ho) hs ih

/-- A step has one outcome, so two runs over the same events are one. -/
theorem Run.and {s es s' s''} (h : Run step Ok s es s') (h' : Run step Ok' s es s'') :
    Run step (fun s e => Ok s e ∧ Ok' s e) s es s' := by
  induction h with
  | nil => exact .nil
  | cons ho hs _ ih =>
      cases h' with
      | cons ho' hs' h' =>
          cases hs.symm.trans hs'
          exact .cons ⟨ho, ho'⟩ hs (ih h')

theorem Run.append {s es s' es' s''} (h : Run step Ok s es s') (h' : Run step Ok s' es' s'') :
    Run step Ok s (es ++ es') s'' := by
  induction h with
  | nil => exact h'
  | cons ho hs _ ih => exact .cons ho hs (ih h')

/-- What holds at the start and is kept by every step that meets `Ok` holds at the end of a run. -/
theorem Run.invariant {Inv : σ → Prop} (hstep : ∀ s e s', Inv s → Ok s e → step s e = some s' → Inv s')
    {s es s'} (h : Run step Ok s es s') (h₀ : Inv s) : Inv s' := by
  induction h with
  | nil => exact h₀
  | cons ho hs _ ih => exact ih (hstep _ _ _ h₀ ho hs)

/-- The same for what may look at the events so far. -/
theorem Run.invariant_events {Inv : List ε → σ → Prop}
    (hstep : ∀ es s e s', Inv es s → Ok s e → step s e = some s' → Inv (es ++ [e]) s')
    {before s es s'} (h : Run step Ok s es s') (h₀ : Inv before s) : Inv (before ++ es) s' := by
  induction h generalizing before with
  | nil => rwa [List.append_nil]
  | cons ho hs _ ih =>
      rw [List.append_cons]
      exact ih (hstep _ _ _ _ h₀ ho hs)

/-! ## Turns

A system with one kind of event, taken a number of times. -/

def turns (next : σ → Option σ) : Nat → σ → Option σ
  | 0, s => some s
  | n + 1, s => (next s).bind (turns next n)

/-- What holds at the start and is kept by every turn holds after any number of them. -/
theorem turns_invariant {next : σ → Option σ} {Inv : σ → Prop}
    (hnext : ∀ s s', Inv s → next s = some s' → Inv s') {n : Nat} {s s' : σ} (h : turns next n s = some s')
    (h₀ : Inv s) : Inv s' := by
  induction n generalizing s with
  | zero =>
      cases h
      exact h₀
  | succ n ih =>
      obtain ⟨s₁, hs, h⟩ := Option.bind_eq_some_iff.mp h
      exact ih h (hnext s s₁ h₀ hs)

end Nestor.Lib
