import Nestor.Client.Router

/-!
# The choice of a node

What `primary` and `secondary` give out: a load on one node of the ranking, and which node that may
be.
-/

namespace Nestor.Client

open Lib

variable {Addr : Type} {heap heap' : Heap Addr} {id : NodeId} {nodes : List NodeId}

theorem Node.tryAcquire_eq_some {node node' : Node Addr} (h : node.tryAcquire = some node') :
    node.inflight < node.loadLimit ∧ node' = node.acquire := by
  unfold tryAcquire at h
  split at h
  · cases h
  · cases h
    exact ⟨by omega, rfl⟩

namespace Ranked

theorem firstFree_eq_some (h : firstFree heap nodes = some (id, heap')) :
    id ∈ nodes ∧ (heap id).inflight < (heap id).loadLimit ∧
    heap' = Function.update heap id (heap id).acquire := by
  obtain ⟨n, hn, hf⟩ := List.exists_of_findSome?_eq_some h
  obtain ⟨node, hnode, he⟩ := Option.map_eq_some_iff.mp hf
  cases he
  obtain ⟨hlt, rfl⟩ := Node.tryAcquire_eq_some hnode
  exact ⟨hn, hlt, rfl⟩

theorem firstFree_eq_none (h : firstFree heap nodes = none) :
    ∀ id ∈ nodes, (heap id).loadLimit ≤ (heap id).inflight := by
  intro id hid
  have hnone := List.findSome?_eq_none_iff.mp h id hid
  by_contra hlt
  simp [Node.tryAcquire, hlt] at hnone

/-- The load that `primary` gives out. It is on a node that is down only if all are, and over the
limit only if no node that is up is below its own. -/
structure Chosen (heap : Heap Addr) (now : Nat) (ranked : List NodeId) (id : NodeId) : Prop where
  mem : id ∈ ranked
  up : (∃ other ∈ ranked, (heap other).isUp now) → (heap id).isUp now
  free : (heap id).loadLimit ≤ (heap id).inflight →
    ∀ other ∈ ranked, (heap other).isUp now → (heap other).loadLimit ≤ (heap other).inflight

theorem primary_eq_some {now : Nat} {ranked : List NodeId} (h : primary heap now ranked = some (id, heap')) :
    Chosen heap now ranked id ∧ heap' = Function.update heap id (heap id).acquire := by
  unfold primary at h
  dsimp only at h
  split at h
  · rename_i load hload
    cases h
    obtain ⟨hmem, hlt, rfl⟩ := firstFree_eq_some hload
    obtain ⟨hid, hup⟩ := List.mem_filter.mp hmem
    exact ⟨⟨hid, fun _ => hup, fun hle => absurd hlt (Nat.not_lt.mpr hle)⟩, rfl⟩
  · rename_i hload
    obtain ⟨id, hid, he⟩ := Option.map_eq_some_iff.mp h
    cases he
    refine ⟨?_, rfl⟩
    have hfree : ∀ other ∈ ranked, (heap other).isUp now → (heap other).loadLimit ≤ (heap other).inflight :=
      fun other ho hup => firstFree_eq_none hload other (List.mem_filter.mpr ⟨ho, hup⟩)
    rcases Option.or_eq_some_iff.mp hid with hup | ⟨hnone, hfirst⟩
    · obtain ⟨hid, hup⟩ := List.mem_filter.mp (List.mem_of_mem_head? hup)
      exact ⟨hid, fun _ => hup, fun _ => hfree⟩
    · refine ⟨List.mem_of_mem_head? hfirst, ?_, fun _ => hfree⟩
      rintro ⟨other, ho, hup⟩
      have hnil := List.filter_eq_nil_iff.mp (List.head?_eq_none_iff.mp hnone) other ho
      exact absurd hup hnil

theorem firstFree_isSome : (firstFree heap nodes).isSome ↔
    ∃ id ∈ nodes, (heap id).inflight < (heap id).loadLimit := by
  constructor
  · intro h
    obtain ⟨⟨id, heap'⟩, hfree⟩ := Option.isSome_iff_exists.mp h
    obtain ⟨hid, hlt, -⟩ := firstFree_eq_some hfree
    exact ⟨id, hid, hlt⟩
  · rintro ⟨id, hid, hlt⟩
    by_contra hnone
    have hfull := firstFree_eq_none (Option.not_isSome_iff_eq_none.mp hnone) id hid
    omega

/-- `secondary` gives out a load whenever another node that is up is below its limit. -/
theorem secondary_isSome [LinearOrder Addr] {now : Nat} {ranked : List NodeId} {first : NodeId} :
    (secondary heap now ranked first).isSome ↔ ∃ id ∈ ranked, (heap id).addr ≠ (heap first).addr ∧
      (heap id).isUp now ∧ (heap id).inflight < (heap id).loadLimit := by
  unfold secondary
  rw [firstFree_isSome]
  simp only [List.mem_filter, Bool.and_eq_true, decide_eq_true_eq, and_assoc]

theorem secondary_eq_some [LinearOrder Addr] {now : Nat} {ranked : List NodeId} {first : NodeId}
    (h : secondary heap now ranked first = some (id, heap')) :
    id ∈ ranked ∧ (heap id).addr ≠ (heap first).addr ∧ (heap id).isUp now ∧
      (heap id).inflight < (heap id).loadLimit ∧ heap' = Function.update heap id (heap id).acquire := by
  obtain ⟨hmem, hlt, rfl⟩ := firstFree_eq_some h
  obtain ⟨hid, hother⟩ := List.mem_filter.mp hmem
  simp only [Bool.and_eq_true, decide_eq_true_eq] at hother
  exact ⟨hid, hother.1, hother.2, hlt, rfl⟩

end Ranked

end Nestor.Client
