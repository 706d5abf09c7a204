import Mathlib.Data.List.Induction
import Mathlib.Data.List.Sort
import Nestor.Core.Theorems.Latency

/-!
# Quantiles are conservative

The buckets of the histogram are intervals that follow each other, and the upper edge of one is at
most an eighth above any of its samples. Walking over the counters up to a rank ends at the bucket
of the sample of that rank, so the edge returned is above that sample and close to it.
-/

namespace Nestor

/-! ## Buckets -/

/-- The lower edge of a bucket. -/
def lowerEdge (index : Nat) : Nat := (8 + index % 8) * 2 ^ (index / 8 + 13)

theorem upperEdge_eq (index : Nat) : upperEdge index = (9 + index % 8) * 2 ^ (index / 8 + 13) := by
  simp only [upperEdge, subBuckets, Nat.shiftLeft_eq]
  congr 1
  omega

theorem upperEdge_le_lowerEdge {i j : Nat} (h : i < j) : upperEdge i ≤ lowerEdge j := by
  rw [upperEdge_eq, lowerEdge]
  rcases Nat.lt_or_ge (i / 8) (j / 8) with hlt | hge
  · calc (9 + i % 8) * 2 ^ (i / 8 + 13) ≤ (8 * 2) * 2 ^ (i / 8 + 13) := Nat.mul_le_mul_right _ (by omega)
      _ = 8 * 2 ^ (i / 8 + 14) := by rw [Nat.mul_assoc, ← Nat.pow_succ']
      _ ≤ 8 * 2 ^ (j / 8 + 13) := Nat.mul_le_mul_left _ (Nat.pow_le_pow_right (by omega) (by omega))
      _ ≤ (8 + j % 8) * 2 ^ (j / 8 + 13) := Nat.mul_le_mul_right _ (by omega)
  · rw [show i / 8 = j / 8 by omega]
    exact Nat.mul_le_mul_right _ (by omega)

theorem upperEdge_le_eighth (index : Nat) : 8 * upperEdge index ≤ 9 * lowerEdge index := by
  rw [upperEdge_eq, lowerEdge, ← Nat.mul_assoc, ← Nat.mul_assoc]
  exact Nat.mul_le_mul_right _ (by omega)

theorem bucket_lt (nanos : Nat) : bucket nanos < buckets :=
  Nat.lt_of_le_of_lt (Nat.min_le_right _ _) (by decide)

/-- A sample lies between the edges of its bucket; the samples of the first bucket count as `2 ^
16`. -/
theorem bucket_edges {nanos : Nat} (h : nanos < 2 ^ 40) :
    lowerEdge (bucket nanos) ≤ max nanos (2 ^ 16) ∧ max nanos (2 ^ 16) < upperEdge (bucket nanos) := by
  have hvalue : 2 ^ 16 ≤ max nanos (2 ^ 16) ∧ max nanos (2 ^ 16) < 2 ^ 40 := by omega
  unfold bucket
  dsimp only
  generalize max nanos (2 ^ 16) = value at hvalue ⊢
  have hne : value ≠ 0 := by omega
  obtain ⟨k, hk⟩ : ∃ k, value.log2 = k + 16 := by
    refine ⟨value.log2 - 16, ?_⟩
    have := (Nat.le_log2 hne).mpr hvalue.1
    omega
  have hlog : k < 24 := by
    have := (Nat.log2_lt hne).mpr hvalue.2
    omega
  have hlo : 2 ^ (k + 16) ≤ value := hk ▸ Nat.log2_self_le hne
  have hhi : value < 2 ^ (k + 17) := (Nat.log2_lt hne).mp (by omega)
  -- the four leading bits are `8 + sub`
  have hpow : 0 < 2 ^ (k + 13) := Nat.two_pow_pos _
  have hq : 8 ≤ value / 2 ^ (k + 13) ∧ value / 2 ^ (k + 13) < 16 := by
    rw [Nat.le_div_iff_mul_le hpow, Nat.div_lt_iff_lt_mul hpow]
    rw [Nat.pow_add] at hlo hhi ⊢
    omega
  have hindex : min ((value.log2 - 16) * subBuckets + (value >>> (value.log2 - 3)) % subBuckets)
      (buckets - 1) = 8 * k + (value / 2 ^ (k + 13) - 8) := by
    rw [hk, Nat.shiftRight_eq_div_pow, show k + 16 - 3 = k + 13 by omega]
    simp only [subBuckets, buckets, octaves]
    omega
  rw [hindex, upperEdge_eq, lowerEdge, show (8 * k + (value / 2 ^ (k + 13) - 8)) % 8 = value / 2 ^
    (k + 13) - 8 by omega,
    show (8 * k + (value / 2 ^ (k + 13) - 8)) / 8 = k by omega,
    show 8 + (value / 2 ^ (k + 13) - 8) = value / 2 ^ (k + 13) by omega,
    show 9 + (value / 2 ^ (k + 13) - 8) = value / 2 ^ (k + 13) + 1 by omega]
  refine ⟨Nat.div_mul_le_self _ _, ?_⟩
  rw [Nat.mul_comm]
  exact Nat.lt_mul_div_succ value hpow

theorem bucket_mono {x y : Nat} (h : x ≤ y) (hx : x < 2 ^ 40) (hy : y < 2 ^ 40) : bucket x ≤ bucket y := by
  by_contra hc
  have hedge := upperEdge_le_lowerEdge (Nat.lt_of_not_le hc)
  have hlo := (bucket_edges hx).1
  have hhi := (bucket_edges hy).2
  omega

/-! ## Counters -/

theorem modify_map_range (f : Nat → Nat) (g : Nat → Nat) (i n : Nat) :
    ((List.range n).map f).modify i g = (List.range n).map fun b => if i = b then g (f b) else f b := by
  refine List.ext_getElem (by simp) fun b hb hb' => ?_
  rw [List.getElem_modify]
  simp

/-- How long the samples took. -/
def nanosOf (samples : List Observation) : List Nat := samples.map (·.nanos)

theorem Generation.counts_of {samples : List Observation}
    (h : ∀ b, (nanosOf samples).countP (bucket · = b) < 2 ^ 32) :
    (Generation.of samples).counts = (List.range buckets).map fun b => (nanosOf samples).countP
      (bucket · = b) := by
  induction samples using List.reverseRecOn with
  | nil =>
      change List.replicate buckets 0 = (List.range buckets).map fun _ => 0
      rw [List.map_const', List.length_range]
  | append_singleton samples x ih =>
      have hsplit (b : Nat) : (nanosOf (samples ++ [x])).countP (bucket · = b) =
          (nanosOf samples).countP (bucket · = b) + if bucket x.nanos = b then 1 else 0 := by
        simp [nanosOf, List.countP_singleton]
      have hof : Generation.of (samples ++ [x]) = (Generation.of samples).record x.nanos :=
        List.foldl_append ..
      rw [hof, record, ih fun b => Nat.lt_of_le_of_lt (hsplit b ▸ Nat.le_add_right _ _) (h b),
        modify_map_range]
      refine List.map_congr_left fun b _ => ?_
      have hb := h b
      rw [hsplit] at hb ⊢
      split
      · rename_i hx
        rw [if_pos hx] at hb
        exact Nat.mod_eq_of_lt hb
      · rfl

/-- The counters of the buckets below `k` count the samples that lie there. -/
theorem sum_countP_range (samples : List Nat) (k : Nat) :
    ((List.range k).map fun b => samples.countP (bucket · = b)).sum = samples.countP (bucket · < k) := by
  induction k with
  | zero => simp
  | succ k ih =>
      rw [List.range_succ, List.map_append, List.sum_append, ih, List.map_singleton, List.sum_singleton]
      clear ih
      induction samples with
      | nil => rfl
      | cons x samples ih =>
          simp only [List.countP_cons, decide_eq_true_eq]
          split <;> split <;> split <;> omega

/-- The walk ends at the first bucket that takes the sum of the counters to the target. -/
theorem Latency.seek_eq {target k index seen : Nat} {counts : List Nat} (hk : k < counts.length)
    (hlo : seen + (counts.take k).sum < target) (hhi : target ≤ seen + (counts.take (k + 1)).sum) :
    seek target index seen counts = some (index + k) := by
  induction counts generalizing k index seen with
  | nil => cases hk
  | cons count counts ih =>
      unfold seek
      cases k with
      | zero =>
          rw [if_pos (by simpa using hhi)]
          rfl
      | succ k =>
          rw [List.take_succ_cons, List.sum_cons] at hlo hhi
          rw [if_neg (by omega), ih (k := k) (by simpa using hk) (by omega) (by omega)]
          congr 1
          omega

/-! ## Ranks -/

/-- In a sorted list, fewer than `r` samples lie in buckets below that of the `r`-th, and at least
`r` up to it. -/
theorem countP_bucket_of_sorted {sorted : List Nat} (hsorted : sorted.Pairwise (· ≤ ·))
    (hsmall : ∀ x ∈ sorted, x < 2 ^ 40) {i : Nat} (hi : i < sorted.length) :
    sorted.countP (bucket · < bucket sorted[i]) ≤ i ∧
    i < sorted.countP (bucket · < bucket sorted[i] + 1) := by
  have hmono {a b : Nat} (hab : a ≤ b) (hb : b < sorted.length) : bucket sorted[a] ≤ bucket sorted[b] := by
    refine bucket_mono ?_ (hsmall _ (List.getElem_mem _)) (hsmall _ (List.getElem_mem hb))
    rcases Nat.eq_or_lt_of_le hab with rfl | hlt
    · exact Nat.le_refl _
    · exact List.pairwise_iff_getElem.mp hsorted a b _ hb hlt
  have hcount (P : Nat → Bool) (n : Nat) : sorted.countP P = (sorted.take n).countP P +
      (sorted.drop n).countP P := by
    rw [← List.countP_append, List.take_append_drop]
  constructor
  · -- from the `r`-th on none lies below its bucket
    have hrest : (sorted.drop i).countP (bucket · < bucket sorted[i]) = 0 := by
      refine List.countP_eq_zero.mpr fun x hx => ?_
      obtain ⟨j, hj, rfl⟩ := List.mem_iff_getElem.mp hx
      rw [List.length_drop] at hj
      simpa using hmono (Nat.le_add_right i j) (by omega)
    rw [hcount _ i, hrest, Nat.add_zero]
    exact List.countP_le_length.trans (List.length_take_le i sorted)
  · -- up to the `r`-th all lie in its bucket or below
    have hall : (sorted.take (i + 1)).countP (bucket · < bucket sorted[i] + 1) =
        (sorted.take (i + 1)).length := by
      refine List.countP_eq_length.mpr fun x hx => ?_
      obtain ⟨j, hj, rfl⟩ := List.mem_iff_getElem.mp hx
      rw [List.length_take] at hj
      simpa [Nat.lt_succ_iff] using hmono (Nat.lt_succ_iff.mp (Nat.lt_of_lt_of_le hj (Nat.min_le_left _ _)))
        hi
    rw [hcount _ (i + 1), hall, List.length_take, Nat.min_eq_left hi]
    omega

/-- The quantile of two generations at a rank is the upper edge of the bucket of the sample of that
rank. -/
theorem Latency.quantile_eq {current previous : List Observation} {rank : Nat → Nat}
    {samples sorted : List Nat} (hsamples : samples = nanosOf current ++ nanosOf previous)
    (hsorted : sorted.Pairwise (· ≤ ·)) (hperm : sorted.Perm samples) (hsmall : ∀ x ∈ samples, x < 2 ^ 40)
    (hcur : ∀ b, (nanosOf current).countP (bucket · = b) < 2 ^ 32)
    (hprev : ∀ b, (nanosOf previous).countP (bucket · = b) < 2 ^ 32) {i : Nat} (hi : i < sorted.length)
    (hrank : rank samples.length = i + 1) :
    quantile rank (Generation.of current) (Generation.of previous) = some (upperEdge (bucket sorted[i])) := by
  have hcounts : List.zipWith (· + ·) (Generation.of current).counts (Generation.of previous).counts =
      (List.range buckets).map fun b => samples.countP (bucket · = b) := by
    rw [Generation.counts_of hcur, Generation.counts_of hprev, List.zipWith_map, List.zipWith_self, hsamples]
    exact List.map_congr_left fun b _ => List.countP_append.symm
  have htotal : ((List.range buckets).map fun b => samples.countP (bucket · = b)).sum = samples.length := by
    rw [sum_countP_range]
    exact List.countP_eq_length.mpr fun x _ => decide_eq_true (bucket_lt x)
  have htake (k : Nat) (hk : k ≤ buckets) :
      (((List.range buckets).map fun b => samples.countP (bucket · = b)).take k).sum =
      sorted.countP (bucket · < k) := by
    rw [← List.map_take, List.take_range, Nat.min_eq_left hk, sum_countP_range, hperm.countP_eq]
  obtain ⟨hlo, hhi⟩ := countP_bucket_of_sorted hsorted (fun x hx => hsmall x (hperm.subset hx)) hi
  have hlt := bucket_lt sorted[i]
  have hseek : seek (rank samples.length) 0 0 ((List.range buckets).map fun b => samples.countP
      (bucket · = b)) = some (bucket sorted[i]) := by
    rw [seek_eq (k := bucket sorted[i]) (by simpa using hlt), Nat.zero_add]
    · rw [htake _ (Nat.le_of_lt hlt)]
      omega
    · rw [htake (bucket sorted[i] + 1) hlt]
      omega
  have hne : samples.length ≠ 0 := by
    rw [← hperm.length_eq]
    omega
  unfold quantile
  simp only [hcounts, htotal, if_neg hne, hseek, Option.getD_some]

/-- Whatever samples the generations hold, the quantile that is read at a rank is above the sample
of that rank and at most an eighth above it, or above `2 ^ 16` where it is less. -/
theorem quantileAt_conservative (l : Latency (List Observation)) (now : Nat) (rank : Nat → Nat)
    (samples : List Nat)
    (hsamples : samples = nanosOf (l.rotate now).window.1 ++ nanosOf (l.rotate now).window.2)
    (hsmall : ∀ x ∈ samples, x < 2 ^ 40)
    (hcur : ∀ b, (nanosOf (l.rotate now).window.1).countP (bucket · = b) < 2 ^ 32)
    (hprev : ∀ b, (nanosOf (l.rotate now).window.2).countP (bucket · = b) < 2 ^ 32) (r : Nat)
    (hrank : rank samples.length = r) (hr : 1 ≤ r) (hle : r ≤ samples.length) :
    ∃ v value, (samples.insertionSort (· ≤ ·))[r - 1]? = some v ∧
      ((l.map Generation.of).quantileAt rank now).1 = some value ∧ v < value ∧
      8 * value ≤ 9 * max v (2 ^ 16) := by
  have hperm := List.perm_insertionSort (· ≤ ·) samples
  have hi : r - 1 < (samples.insertionSort (· ≤ ·)).length := by
    rw [hperm.length_eq]
    omega
  have hq := Latency.quantile_eq hsamples (List.pairwise_insertionSort (· ≤ ·) samples) hperm
    hsmall hcur hprev hi (hrank.trans (Nat.sub_add_cancel hr).symm)
  have hv : (samples.insertionSort (· ≤ ·))[r - 1] < 2 ^ 40 := hsmall _ (hperm.subset (List.getElem_mem hi))
  refine ⟨_, upperEdge (bucket (samples.insertionSort (· ≤ ·))[r - 1]), List.getElem?_eq_getElem hi,
    ?_, ?_, ?_⟩
  · rw [Latency.quantileAt, Latency.map_rotate Generation.forgets_of]
    exact hq
  · exact Nat.lt_of_le_of_lt (Nat.le_max_left _ _) (bucket_edges hv).2
  · exact (upperEdge_le_eighth _).trans (Nat.mul_le_mul_left _ (bucket_edges hv).1)

/-- Two samples of one generation and one of the other, at the second rank. -/
theorem second_of_three : ∃ v value,
    ([300000, 70000, 100000].insertionSort (· ≤ ·))[2 - 1]? = some v ∧
      (((⟨fun g => if g = 0 then [⟨0, 300000⟩, ⟨0, 70000⟩] else [⟨0, 100000⟩], 0, 0⟩ : Latency
        (List Observation)).map Generation.of).quantileAt (fun _ => 2) 0).1 = some value ∧ v < value ∧
        8 * value ≤ 9 * max v (2 ^ 16) := by
  refine quantileAt_conservative _ 0 (fun _ => 2) [300000, 70000, 100000] (by decide) (by decide) ?_ ?_ 2
    rfl (by decide) (by decide)
  · exact fun b => Nat.lt_of_le_of_lt List.countP_le_length (by decide)
  · exact fun b => Nat.lt_of_le_of_lt List.countP_le_length (by decide)

end Nestor
