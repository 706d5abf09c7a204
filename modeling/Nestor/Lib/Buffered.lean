import Mathlib.Data.List.Basic

/-!
# A buffered stream of futures

Futures made from a list of items, of which a bounded number run at a time. They complete in any
order and are handed out in the order of their items.
-/

namespace Nestor.Lib

/-- The items no future has been started for, and the running futures with their results as far as
they have come. -/
structure Buffered (ι ρ : Type*) where
  pending : List ι
  running : List (ι × Option ρ)

namespace Buffered

variable {ι ρ : Type*}

/-- The next future is started if fewer than `n` run. -/
def start (n : Nat) (b : Buffered ι ρ) : Option (Buffered ι ρ) :=
  match b.pending with
  | [] => none
  | i :: pending => if b.running.length < n then some ⟨pending, b.running ++ [(i, none)]⟩ else none

/-- The future in place `k` completes. -/
def finish (b : Buffered ι ρ) (k : Nat) (r : ρ) : Option (Buffered ι ρ) :=
  match b.running[k]? with
  | some (i, none) => some { b with running := b.running.set k (i, some r) }
  | _ => none

/-- The first future is handed out if it has completed. -/
def take (b : Buffered ι ρ) : Option ((ι × ρ) × Buffered ι ρ) :=
  match b.running with
  | (i, some r) :: running => some ((i, r), { b with running := running })
  | _ => none

/-- What has not been handed out, in order. -/
def items (b : Buffered ι ρ) : List ι := b.running.map Prod.fst ++ b.pending

/-- All results so far meet `P`. -/
def All (P : ι → ρ → Prop) (b : Buffered ι ρ) : Prop := ∀ i r, (i, some r) ∈ b.running → P i r

variable {P : ι → ρ → Prop} {b b' : Buffered ι ρ}

theorem start_spec {n : Nat} (h : b.start n = some b') : b'.items = b.items ∧ (b.All P → b'.All P) := by
  unfold start at h
  split at h
  · cases h
  · rename_i i pending hp
    obtain ⟨-, ⟨⟩⟩ := Option.ite_none_right_eq_some.mp h
    refine ⟨by simp [items, hp], fun hall j r hin => ?_⟩
    rcases List.mem_append.mp hin with hin | hin
    · exact hall j r hin
    · cases List.mem_singleton.mp hin

theorem finish_spec {k : Nat} {r : ρ} (h : b.finish k r = some b') :
    b'.items = b.items ∧ ∃ i, b.running[k]? = some (i, none) ∧ (P i r → b.All P → b'.All P) := by
  unfold finish at h
  split at h
  · rename_i i hi
    cases h
    obtain ⟨hlt, hget⟩ := List.getElem?_eq_some_iff.mp hi
    refine ⟨?_, i, hi, fun hp hall j r' hin => ?_⟩
    · rw [items, items, List.map_set]
      congr 1
      have hmap : (b.running.map Prod.fst)[k]? = some i := by rw [List.getElem?_map, hi]; rfl
      obtain ⟨hlt', hget'⟩ := List.getElem?_eq_some_iff.mp hmap
      rw [← hget', List.set_getElem_self]
    · rcases List.mem_or_eq_of_mem_set hin with hin | he
      · exact hall j r' hin
      · cases he
        exact hp
  · cases h

theorem take_spec {i : ι} {r : ρ} (h : b.take = some ((i, r), b')) :
    b.items = i :: b'.items ∧ (b.All P → P i r ∧ b'.All P) := by
  unfold take at h
  split at h
  · rename_i hrun
    cases h
    refine ⟨by simp [items, hrun], fun hall => ⟨hall i r (by simp [hrun]), fun j r' hin => hall j r' ?_⟩⟩
    rw [hrun]
    exact List.mem_cons_of_mem _ hin
  · cases h

end Buffered

end Nestor.Lib
