import Mathlib.Data.List.Sort
import Mathlib.Data.Prod.Lex

/-!
# Ranking by a key

`rankBy key xs` sorts a list by the keys of its members, the least key first. Where no two members
have the same key there is only one such order, so the ranking does not depend on the order of the
list, and leaving members out does not change the order of the others.
-/

namespace Nestor.Lib

variable {α κ : Type*} [LinearOrder κ]

def rankBy (key : α → κ) (xs : List α) : List α := xs.insertionSort fun a b => key a ≤ key b

/-- No two members have the same key. -/
def Keyed (key : α → κ) (xs : List α) : Prop := ∀ a ∈ xs, ∀ b ∈ xs, key a = key b → a = b

variable {key key' : α → κ} {xs ys : List α}

theorem rankBy_perm (key : α → κ) (xs : List α) : (rankBy key xs).Perm xs := List.perm_insertionSort _ xs

theorem mem_rankBy {a : α} : a ∈ rankBy key xs ↔ a ∈ xs := (rankBy_perm key xs).mem_iff

theorem rankBy_pairwise (key : α → κ) (xs : List α) : (rankBy key xs).Pairwise fun a b => key a ≤ key b := by
  have : Std.Total fun a b : α => key a ≤ key b := ⟨fun a b => le_total (key a) (key b)⟩
  have : IsTrans α fun a b => key a ≤ key b := ⟨fun _ _ _ => le_trans⟩
  exact List.pairwise_insertionSort _ xs

/-- A sorted order of the members is the ranking. -/
theorem eq_rankBy (hk : Keyed key xs) (hp : ys.Perm xs) (hs : ys.Pairwise fun a b => key a ≤ key b) :
    ys = rankBy key xs := by
  refine (hp.trans (rankBy_perm key xs).symm).eq_of_pairwise (fun a b ha hb hab hba => ?_) hs
    (rankBy_pairwise key xs)
  exact hk a (hp.mem_iff.mp ha) b (mem_rankBy.mp hb) (le_antisymm hab hba)

theorem rankBy_eq_of_perm (hk : Keyed key xs) (hp : ys.Perm xs) : rankBy key ys = rankBy key xs :=
  eq_rankBy hk ((rankBy_perm key ys).trans hp) (rankBy_pairwise key ys)

theorem filter_rankBy (hk : Keyed key xs) (p : α → Bool) :
    (rankBy key xs).filter p = rankBy key (xs.filter p) := by
  refine eq_rankBy (fun a ha b hb => hk a (List.mem_of_mem_filter ha) b (List.mem_of_mem_filter hb))
    ((rankBy_perm key xs).filter p) ((rankBy_pairwise key xs).filter p)

/-- Only the keys of the members count. -/
theorem rankBy_congr (hk : Keyed key xs) (h : ∀ a ∈ xs, key' a = key a) : rankBy key' xs = rankBy key xs := by
  refine eq_rankBy hk (rankBy_perm key' xs) ((rankBy_pairwise key' xs).imp_of_mem fun {a b} ha hb hab => ?_)
  rwa [h a (mem_rankBy.mp ha), h b (mem_rankBy.mp hb)] at hab

theorem head?_rankBy {a : α} (h : (rankBy key xs).head? = some a) : a ∈ xs ∧ ∀ b ∈ xs, key a ≤ key b := by
  obtain ⟨rest, hrest⟩ := List.head?_eq_some_iff.mp h
  have hs := rankBy_pairwise key xs
  rw [hrest, List.pairwise_cons] at hs
  refine ⟨mem_rankBy.mp (hrest ▸ List.mem_cons_self), fun b hb => ?_⟩
  have hb : b ∈ a :: rest := hrest ▸ mem_rankBy.mpr hb
  rcases List.mem_cons.mp hb with rfl | hb
  · exact le_refl _
  · exact hs.1 b hb

end Nestor.Lib
