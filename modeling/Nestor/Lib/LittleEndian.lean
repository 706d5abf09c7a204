import Mathlib.Algebra.Group.Nat.Defs
import Mathlib.Data.List.Basic

/-!
# Little-endian words and exact reads

`leBytes w n` writes the `w` low bytes of `n`, the lowest first, and `leNat` reads them back.
`readExact` takes a number of items off a list, or fails if there are not as many.
-/

namespace Nestor.Lib

/-! ## Words -/

def leBytes : Nat → Nat → List UInt8
  | 0, _ => []
  | width + 1, n => UInt8.ofNat n :: leBytes width (n / 256)

def leNat : List UInt8 → Nat
  | [] => 0
  | b :: bs => b.toNat + 256 * leNat bs

@[simp] theorem length_leBytes (width n : Nat) : (leBytes width n).length = width := by
  induction width generalizing n with
  | zero => rfl
  | succ width ih => simp [leBytes, ih]

theorem two_pow_width (width : Nat) : 2 ^ (8 * (width + 1)) = 256 * 2 ^ (8 * width) := by
  rw [Nat.mul_succ, Nat.pow_add, Nat.mul_comm]

theorem leNat_leBytes (width n : Nat) : leNat (leBytes width n) = n % 2 ^ (8 * width) := by
  induction width generalizing n with
  | zero => rw [Nat.mul_zero, Nat.pow_zero, Nat.mod_one]; rfl
  | succ width ih =>
      have hb : (UInt8.ofNat n).toNat = n % 256 := UInt8.toNat_ofNat'
      rw [leBytes, leNat, ih, hb, two_pow_width, Nat.mod_mul]

theorem leNat_leBytes_of_lt (width : Nat) {n : Nat} (h : n < 2 ^ (8 * width)) :
    leNat (leBytes width n) = n := by
  rw [leNat_leBytes, Nat.mod_eq_of_lt h]

theorem leNat_lt (bs : List UInt8) : leNat bs < 2 ^ (8 * bs.length) := by
  induction bs with
  | nil => exact Nat.one_pos
  | cons b bs ih =>
      have hb : b.toNat < 256 := b.toNat_lt
      rw [leNat, List.length_cons, two_pow_width]
      omega

theorem leBytes_leNat (bs : List UInt8) : leBytes bs.length (leNat bs) = bs := by
  induction bs with
  | nil => rfl
  | cons b bs ih =>
      have hb : b.toNat < 256 := b.toNat_lt
      have hdiv : (b.toNat + 256 * leNat bs) / 256 = leNat bs := by omega
      have hmod : UInt8.ofNat (b.toNat + 256 * leNat bs) = b := by
        apply UInt8.toNat_inj.mp
        rw [UInt8.toNat_ofNat']
        omega
      rw [List.length_cons, leNat, leBytes, hdiv, hmod, ih]

/-- Whatever is long enough starts with a word. -/
theorem exists_leBytes_append (width len : Nat) {bs : List UInt8} (h : bs.length = width + len) :
    ∃ n < 2 ^ (8 * width), ∃ rest, bs = leBytes width n ++ rest ∧ rest.length = len := by
  have htake : (bs.take width).length = width := List.length_take_of_le (by omega)
  have hlt := leNat_lt (bs.take width)
  have hword := leBytes_leNat (bs.take width)
  rw [htake] at hlt hword
  refine ⟨leNat (bs.take width), hlt, bs.drop width, ?_, by rw [List.length_drop]; omega⟩
  rw [hword, List.take_append_drop]

/-! ## Exact reads -/

variable {α : Type*}

def readExact (n : Nat) (xs : List α) : Option (List α × List α) :=
  if xs.length < n then none else some (xs.take n, xs.drop n)

theorem readExact_append {n : Nat} {xs : List α} (rest : List α) (h : xs.length = n) :
    readExact n (xs ++ rest) = some (xs, rest) := by
  subst h
  rw [readExact, if_neg (by simp), List.take_left, List.drop_left]

theorem readExact_eq_some {n : Nat} {xs ys rest : List α} (h : readExact n xs = some (ys, rest)) :
    xs = ys ++ rest ∧ ys.length = n := by
  unfold readExact at h
  split at h
  · cases h
  · cases h
    exact ⟨(List.take_append_drop n xs).symm, List.length_take_of_le (by omega)⟩

/-- The word at the front of a buffer that is long enough, and the rest of the buffer. -/
def getLe (width : Nat) (buf : List UInt8) : Nat × List UInt8 := (leNat (buf.take width), buf.drop width)

theorem getLe_append {width : Nat} {bs : List UInt8} (rest : List UInt8) (h : bs.length = width) :
    getLe width (bs ++ rest) = (leNat bs, rest) := by
  subst h
  rw [getLe, List.take_left, List.drop_left]

theorem getLe_leBytes (width : Nat) {n : Nat} (rest : List UInt8) (h : n < 2 ^ (8 * width)) :
    getLe width (leBytes width n ++ rest) = (n, rest) := by
  rw [getLe_append rest (length_leBytes ..), leNat_leBytes_of_lt width h]

end Nestor.Lib
