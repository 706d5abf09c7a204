import Mathlib.Data.List.Basic

/-!
# Slices of a list

`slice xs a b` is the part of `xs` from position `a` up to, not including, `b`, cut off at the end
of `xs`. Adjacent slices join, and a list that agrees with `xs` from some position on is cut the
same way.
-/

namespace Nestor.Lib

variable {α : Type*}

def slice (xs : List α) (a b : Nat) : List α := (xs.take b).drop a

theorem slice_eq_take_drop (xs : List α) (a b : Nat) : slice xs a b = (xs.drop a).take (b - a) := by
  rw [slice, List.drop_take]

theorem length_slice (xs : List α) (a b : Nat) : (slice xs a b).length = min b xs.length - a := by
  simp [slice]

theorem slice_self (xs : List α) (a : Nat) : slice xs a a = [] := by
  simp [slice]

theorem slice_of_le {xs : List α} {a b : Nat} (h : b ≤ a) : slice xs a b = [] := by
  rw [slice_eq_take_drop, Nat.sub_eq_zero_of_le h, List.take_zero]

theorem slice_append {a b c : Nat} (xs : List α) (hab : a ≤ b) (hbc : b ≤ c) :
    slice xs a b ++ slice xs b c = slice xs a c := by
  rw [slice_eq_take_drop, slice_eq_take_drop, slice_eq_take_drop,
    show c - a = (b - a) + (c - b) by omega, List.take_add, List.drop_drop,
    show a + (b - a) = b by omega]

theorem slice_min_length (xs : List α) (a b : Nat) : slice xs a (min b xs.length) = slice xs a b := by
  simp only [slice]
  rcases Nat.le_total b xs.length with h | h
  · rw [Nat.min_eq_left h]
  · rw [Nat.min_eq_right h, List.take_of_length_le (Nat.le_refl _), List.take_of_length_le h]

theorem slice_slice (xs : List α) (a b c d : Nat) :
    slice (slice xs a b) c d = slice xs (a + c) (min b (a + d)) := by
  simp only [slice, List.take_drop, List.drop_drop, List.take_take]
  rw [Nat.min_comm]

/-- The first `n` elements of a list that agrees with `xs` from `p` on. -/
theorem take_of_prefix_drop {xs ys : List α} {p n : Nat} (h : ys <+: xs.drop p) (hn : n ≤ ys.length) :
    ys.take n = slice xs p (p + n) := by
  obtain ⟨zs, hz⟩ := h
  rw [slice_eq_take_drop, ← hz, Nat.add_sub_cancel_left, List.take_append_of_le_length hn]

/-- What is left after the first `n` elements agrees with `xs` from `p + n` on. -/
theorem drop_prefix_drop {xs ys : List α} {p n : Nat} (h : ys <+: xs.drop p) :
    ys.drop n <+: xs.drop (p + n) := by
  obtain ⟨zs, hz⟩ := h
  exact ⟨zs.drop (n - ys.length), by rw [← List.drop_drop, ← hz, List.drop_append]⟩

end Nestor.Lib
