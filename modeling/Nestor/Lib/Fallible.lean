import Mathlib.Logic.Basic

/-!
# Computations that may fail

What a chain of fallible steps returns is read off step by step.
-/

namespace Nestor.Lib

variable {ε α β : Type}

theorem bind_eq_ok {x : Except ε α} {f : α → Except ε β} {b : β} :
    x >>= f = .ok b ↔ ∃ a, x = .ok a ∧ f a = .ok b := by
  cases x with
  | error e => simp [bind, Except.bind]
  | ok a => simp [bind, Except.bind]

theorem pure_eq_ok {a b : α} : (pure a : Except ε α) = .ok b ↔ a = b := by simp [pure, Except.pure]

theorem mapError_eq_ok {δ : Type} {x : Except ε α} {f : ε → δ} {a : α} :
    x.mapError f = .ok a ↔ x = .ok a := by
  cases x <;> constructor <;> intro h <;> cases h <;> rfl

/-- A check that fails ends the computation. -/
theorem check_eq_ok {P : Prop} [Decidable P] {e : ε} {f : α → Except ε β} {x : Except ε β} {b : β} :
    (if P then throw e >>= f else x) = .ok b ↔ ¬ P ∧ x = .ok b := by
  by_cases h : P
  · simp [h, throw, throwThe, MonadExceptOf.throw, bind, Except.bind]
  · simp [h]

theorem check_last_eq_ok {P : Prop} [Decidable P] {e : ε} {a : α} :
    (if P then throw e else pure a : Except ε α) = .ok a ↔ ¬ P := by
  by_cases h : P <;> simp [h, throw, throwThe, MonadExceptOf.throw, pure, Except.pure]

end Nestor.Lib
