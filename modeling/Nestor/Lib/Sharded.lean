import Mathlib.Algebra.BigOperators.Group.List.Basic
import Mathlib.Algebra.Ring.Nat
import Mathlib.Data.List.AList

/-!
# Sharded maps

A map cut into shards by a hash of the key, so that each shard can be locked on its own. The number
of shards is a power of two in practice, which spreads the keys evenly; nothing here depends on
that.
-/

namespace Nestor.Lib

universe u v

variable {K : Type u} {V : Type v}

/-- The shard of a key. -/
def shardIndex (hash : K → Nat) (shards : Nat) (key : K) : Nat := hash key &&& (shards - 1)

theorem shardIndex_lt (hash : K → Nat) {shards : Nat} (h : 0 < shards) (key : K) :
    shardIndex hash shards key < shards := by
  have := Nat.and_le_right (n := hash key) (m := shards - 1)
  unfold shardIndex
  omega

/-- Every key is in its own shard only. -/
structure Sharded (K : Type u) (V : Type v) (hash : K → Nat) where
  shards : List (AList fun _ : K => V)
  pos : 0 < shards.length
  placed : ∀ i shard, shards[i]? = some shard → ∀ key ∈ shard, shardIndex hash shards.length key = i

namespace Sharded

variable {hash : K → Nat}

def empty (shards : Nat) (h : 0 < shards) : Sharded K V hash where
  shards := List.replicate shards ∅
  pos := by rwa [List.length_replicate]
  placed := by
    intro i shard hs key hk
    rw [List.eq_of_mem_replicate (List.mem_of_getElem? hs)] at hk
    exact absurd hk (AList.notMem_empty key)

def len (m : Sharded K V hash) : Nat := (m.shards.map fun shard => shard.entries.length).sum

variable [DecidableEq K] (m : Sharded K V hash)

def get (key : K) : Option V := (m.shards[shardIndex hash m.shards.length key]?).bind (·.lookup key)

/-- Changes the shard of a key, without bringing other keys in. -/
def modify (key : K) (f : AList (fun _ : K => V) → AList fun _ : K => V)
    (hf : ∀ shard k, k ∈ f shard → k = key ∨ k ∈ shard) : Sharded K V hash where
  shards := m.shards.modify (shardIndex hash m.shards.length key) f
  pos := by
    rw [List.length_modify]
    exact m.pos
  placed := by
    intro i shard hs k hk
    rw [List.length_modify]
    rw [List.getElem?_modify, Option.map_eq_map, Option.map_eq_some_iff] at hs
    obtain ⟨before, hb, rfl⟩ := hs
    split at hk
    · rename_i hi
      obtain rfl | hk := hf before k hk
      · exact hi
      · exact m.placed i before hb k hk
    · exact m.placed i before hb k hk

def insert (key : K) (v : V) : Sharded K V hash :=
  m.modify key (·.insert key v) fun shard _ hk => (AList.mem_insert shard).mp hk

def erase (key : K) : Sharded K V hash :=
  m.modify key (·.erase key) fun _ _ hk => .inr (AList.mem_erase.mp hk).2

variable {m}

theorem exists_shard (key : K) :
    ∃ shard, m.shards[shardIndex hash m.shards.length key]? = some shard ∧ m.get key = shard.lookup key := by
  have h := List.getElem?_eq_getElem (shardIndex_lt hash m.pos key)
  exact ⟨_, h, by rw [get, h, Option.bind_some]⟩

@[simp]
theorem get_empty {shards : Nat} (h : 0 < shards) (key : K) :
    (empty shards h : Sharded K V hash).get key = none := by
  obtain ⟨shard, hs, hget⟩ := exists_shard (m := (empty shards h : Sharded K V hash)) key
  rw [hget, List.eq_of_mem_replicate (List.mem_of_getElem? hs), AList.lookup_empty]

theorem get_modify_of_eq {key k : K} {f : AList (fun _ : K => V) → AList fun _ : K => V}
    (hf : ∀ shard k, k ∈ f shard → k = key ∨ k ∈ shard)
    (hk : shardIndex hash m.shards.length key = shardIndex hash m.shards.length k) :
    ∃ shard : AList fun _ : K => V, m.get k = shard.lookup k ∧
    (m.modify key f hf).get k = (f shard).lookup k := by
  obtain ⟨shard, hs, hget⟩ := exists_shard (m := m) k
  refine ⟨shard, hget, ?_⟩
  simp only [get, modify, List.length_modify, List.getElem?_modify, hk, ↓reduceIte, hs, Option.map_eq_map,
    Option.map_some, Option.bind_some]

theorem get_modify_of_ne {key k : K} {f : AList (fun _ : K => V) → AList fun _ : K => V}
    (hf : ∀ shard k, k ∈ f shard → k = key ∨ k ∈ shard)
    (hk : shardIndex hash m.shards.length key ≠ shardIndex hash m.shards.length k) :
    (m.modify key f hf).get k = m.get k := by
  simp only [get, modify, List.length_modify, List.getElem?_modify, hk, ↓reduceIte, Option.map_eq_map,
    Option.map_id_fun', id_eq]

theorem get_insert (key k : K) (v : V) : (m.insert key v).get k = if k = key then some v else m.get k := by
  have hmem : ∀ (shard : AList fun _ : K => V) (k' : K), k' ∈ shard.insert key v → k' = key ∨ k' ∈ shard :=
    fun shard _ => (AList.mem_insert shard).mp
  by_cases hk : shardIndex hash m.shards.length key = shardIndex hash m.shards.length k
  · obtain ⟨shard, hget, hafter⟩ := get_modify_of_eq hmem hk
    rw [insert, hafter, hget]
    split
    · subst k
      exact AList.lookup_insert shard
    · rename_i hne
      exact AList.lookup_insert_ne hne
  · have hne : k ≠ key := by
      rintro rfl
      exact hk rfl
    rw [insert, get_modify_of_ne _ hk, if_neg hne]

theorem get_erase (key k : K) : (m.erase key).get k = if k = key then none else m.get k := by
  by_cases hk : shardIndex hash m.shards.length key = shardIndex hash m.shards.length k
  · obtain ⟨shard, hget, hafter⟩ :=
      get_modify_of_eq (f := (·.erase key)) (fun shard k hk => .inr (AList.mem_erase.mp hk).2) hk
    rw [erase, hafter, hget]
    split
    · subst k
      exact AList.lookup_erase _ shard
    · rename_i hne
      exact AList.lookup_erase_ne hne
  · have hne : k ≠ key := by
      rintro rfl
      exact hk rfl
    rw [erase, get_modify_of_ne _ hk, if_neg hne]

theorem len_eq_zero (h : ∀ key, m.get key = none) : m.len = 0 := by
  refine List.sum_eq_zero fun n hn => ?_
  obtain ⟨shard, hs, rfl⟩ := List.mem_map.mp hn
  obtain ⟨i, hi⟩ := List.getElem?_of_mem hs
  cases he : shard.entries with
  | nil => rfl
  | cons entry entries =>
      -- the first entry would be found
      have hmem : entry.1 ∈ shard := by
        rw [AList.mem_keys, AList.keys, he]
        exact List.mem_cons_self
      have hget : m.get entry.1 = shard.lookup entry.1 := by
        rw [get, m.placed i shard hi entry.1 hmem, hi, Option.bind_some]
      have hnone := (hget.symm.trans (h entry.1))
      exact absurd hmem (AList.lookup_eq_none.mp hnone)

end Sharded

end Nestor.Lib
