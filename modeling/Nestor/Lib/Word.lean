import Mathlib.Algebra.Group.Nat.Defs

/-!
# Fixed-width arithmetic

Release builds wrap on overflow, so the operations on words that can overflow are stated here modulo
`2 ^ 32` or `2 ^ 64` on natural numbers. Words that provably stay in range are plain natural
numbers.
-/

namespace Nestor.Lib

/-- The largest 32-bit word. -/
def maxU32 : Nat := 2 ^ 32 - 1

/-- Truncation of a wider word, `n as u32`. -/
def toU32 (n : Nat) : Nat := n % 2 ^ 32

def addU32 (a b : Nat) : Nat := (a + b) % 2 ^ 32

def subU32 (a b : Nat) : Nat := (a + 2 ^ 32 - b) % 2 ^ 32

def subU64 (a b : Nat) : Nat := (a + 2 ^ 64 - b) % 2 ^ 64

/-- `saturating_mul`. -/
def satMulU32 (a b : Nat) : Nat := min (a * b) maxU32

/-- `saturating_add`. -/
def satAddU32 (a b : Nat) : Nat := min (a + b) maxU32

theorem toU32_of_lt {n : Nat} (h : n < 2 ^ 32) : toU32 n = n := Nat.mod_eq_of_lt h

theorem toU32_lt (n : Nat) : toU32 n < 2 ^ 32 := Nat.mod_lt _ (by decide)

theorem addU32_of_lt {a b : Nat} (h : a + b < 2 ^ 32) : addU32 a b = a + b := Nat.mod_eq_of_lt h

theorem subU32_of_le {a b : Nat} (hb : b ≤ a) (ha : a < 2 ^ 32) : subU32 a b = a - b := by
  unfold subU32
  rw [show a + 2 ^ 32 - b = (a - b) + 2 ^ 32 by omega, Nat.add_mod_right]
  exact Nat.mod_eq_of_lt (by omega)

theorem subU64_of_le {a b : Nat} (hb : b ≤ a) (ha : a < 2 ^ 64) : subU64 a b = a - b := by
  unfold subU64
  rw [show a + 2 ^ 64 - b = (a - b) + 2 ^ 64 by omega, Nat.add_mod_right]
  exact Nat.mod_eq_of_lt (by omega)

end Nestor.Lib
