import Nestor.Core.Lemmas.Block

/-!
# Blocks tile a range

A read of a range delivers, block by block, the part of the block that lies in the range. These
parts are the bytes of the range, in order.
-/

namespace Nestor

open Lib

namespace BlockSize

variable {bs : BlockSize} {data : Bytes} {i : Nat} {r : Range}

/-- The part of block `i` that a read of the range delivers. -/
def part (bs : BlockSize) (data : Bytes) (r : Range) (i : Nat) : Bytes :=
  let block := bs.blockRange i (some data.length)
  let within := bs.sliceWithin i r
  slice (slice data block.start block.stop) within.start within.stop

theorem mem_blocks_iff (h : r.start < r.stop) (hmax : r.stop ≤ maxU32 * bs.bytes) :
    (bs.blocks r).start ≤ i ∧ i < (bs.blocks r).stop ↔ r.start < (i + 1) * bs.bytes ∧
    i * bs.bytes < r.stop := by
  have hm : maxU32 = 2 ^ 32 - 1 := rfl
  have hlt : r.start < 2 ^ 32 * bs.bytes := by
    refine Nat.lt_of_lt_of_le h (hmax.trans (Nat.mul_le_mul_right _ ?_))
    omega
  obtain ⟨hlo, hhi⟩ := bs.index_spec hlt
  rw [blocks, if_neg (Nat.not_le.mpr h)]
  constructor
  · intro ⟨hi, hj⟩
    refine ⟨Nat.lt_of_lt_of_le hhi (Nat.mul_le_mul_right _ (Nat.succ_le_succ hi)), (bs.lt_count_iff.mp hj).2⟩
  · intro ⟨hi, hj⟩
    refine ⟨Nat.lt_succ_iff.mp (Nat.lt_of_mul_lt_mul_right (Nat.lt_of_le_of_lt hlo hi)),
      bs.lt_count_iff.mpr ⟨?_, hj⟩⟩
    exact Nat.lt_of_mul_lt_mul_right (Nat.lt_of_lt_of_le hj hmax)

theorem sliceWithin_outside (h : ¬ (r.start < (i + 1) * bs.bytes ∧ i * bs.bytes < r.stop))
    (hr : r.start < r.stop) :
    (bs.sliceWithin i r).start = (bs.sliceWithin i r).stop := by
  rw [sliceWithin_start, sliceWithin_stop]
  rw [Nat.add_mul, Nat.one_mul] at h
  omega

theorem sliceWithin_inside (hlo : r.start < (i + 1) * bs.bytes) (hhi : i * bs.bytes < r.stop)
    (hr : r.start < r.stop) (hmax : i < maxU32) {size : Nat} (hsize : r.stop ≤ size) :
    (bs.sliceWithin i r).start < (bs.sliceWithin i r).stop ∧
      (bs.sliceWithin i r).stop ≤ (bs.blockRange i (some size)).count := by
  have hB := bs.bytes_pos
  rw [sliceWithin_start, sliceWithin_stop, blockRange_count bs hmax]
  rw [Nat.add_mul, Nat.one_mul] at hlo ⊢
  omega

theorem part_eq (hlo : r.start < (i + 1) * bs.bytes) (hhi : i * bs.bytes < r.stop) (hmax : i < maxU32)
    (hstop : r.stop ≤ data.length) :
    bs.part data r i = slice data (max r.start (i * bs.bytes)) (min r.stop ((i + 1) * bs.bytes)) := by
  rw [part, blockRange_eq bs hmax, sliceWithin_start, sliceWithin_stop, slice_slice]
  rw [Nat.add_mul, Nat.one_mul] at hlo ⊢
  dsimp only
  congr 1 <;> omega

/-- The parts of the first `n` blocks of a range, up to its last. -/
theorem flatMap_part {first n : Nat} (hfirst : first * bs.bytes ≤ r.start)
    (hlo : r.start < (first + 1) * bs.bytes) (hn : ∀ i < first + n, i * bs.bytes < r.stop ∧ i < maxU32)
    (hstop : r.stop ≤ data.length) :
    (List.range' first n).flatMap (bs.part data r) =
      slice data r.start (min r.stop ((first + n) * bs.bytes)) := by
  induction n with
  | zero =>
      rw [slice_of_le (by rw [Nat.add_zero]; omega)]
      rfl
  | succ n ih =>
      obtain ⟨hhi, hmax⟩ := hn (first + n) (by omega)
      have hblock : r.start < (first + n + 1) * bs.bytes := by
        refine Nat.lt_of_lt_of_le hlo (Nat.mul_le_mul_right _ ?_)
        omega
      rw [List.range'_1_concat, List.flatMap_append, ih fun i hi => hn i (by omega), List.flatMap_singleton,
        part_eq hblock hhi hmax hstop, Nat.min_eq_right (Nat.le_of_lt hhi)]
      rcases n with _ | n
      · -- the first block starts before the range
        rw [slice_of_le (by simpa using hfirst), List.nil_append, Nat.max_eq_left (by simpa using hfirst)]
      · have hbefore : r.start ≤ (first + (n + 1)) * bs.bytes := by
          refine (Nat.le_of_lt hlo).trans (Nat.mul_le_mul_right _ ?_)
          omega
        rw [Nat.max_eq_right hbefore]
        refine slice_append data hbefore ?_
        rw [Nat.add_mul (first + (n + 1)) 1, Nat.one_mul]
        omega

/-- The parts of the blocks of a range are its bytes, in order. -/
theorem flatMap_blocks (hr : r.start < r.stop) (hmax : r.stop ≤ maxU32 * bs.bytes)
    (hstop : r.stop ≤ data.length) :
    (List.range' (bs.blocks r).start (bs.blocks r).count).flatMap (bs.part data r) =
      slice data r.start r.stop := by
  -- the blocks from that of the start up to the last that starts before the end
  have hstart : (bs.blocks r).start = bs.index r.start := by rw [blocks, if_neg (Nat.not_le.mpr hr)]
  have hstop' : (bs.blocks r).stop = bs.count r.stop := by rw [blocks, if_neg (Nat.not_le.mpr hr)]
  have hm : maxU32 = 2 ^ 32 - 1 := rfl
  obtain ⟨hfirst, hlo⟩ := bs.index_spec (o := r.start)
    (Nat.lt_of_lt_of_le hr (hmax.trans (Nat.mul_le_mul_right _ (by omega))))
  rw [← hstart] at hfirst hlo
  have hle : (bs.blocks r).start < (bs.blocks r).stop :=
    ((mem_blocks_iff hr hmax).mpr ⟨hlo, Nat.lt_of_le_of_lt hfirst hr⟩).2
  rw [flatMap_part hfirst hlo ?_ hstop]
  · congr 1
    refine Nat.min_eq_left (Nat.le_of_not_lt fun hlt => ?_)
    rw [Range.count, Nat.add_sub_cancel' (Nat.le_of_lt hle), hstop'] at hlt
    exact absurd (bs.lt_count_iff.mpr ⟨Nat.lt_of_mul_lt_mul_right (Nat.lt_of_lt_of_le hlt hmax), hlt⟩)
      (Nat.lt_irrefl _)
  · intro i hi
    rw [Range.count, Nat.add_sub_cancel' (Nat.le_of_lt hle), hstop'] at hi
    exact ⟨(bs.lt_count_iff.mp hi).2, (bs.lt_count_iff.mp hi).1⟩

/-- The parts of the blocks of a range are its bytes, in order. Each is a part of its block that is
not empty, and no other block has any. -/
theorem blocks_tile (data : Bytes) (hsize : data.length ≤ maxU32 * bs.bytes) (hr : r.start < r.stop)
    (hstop : r.stop ≤ data.length) :
    (List.range' (bs.blocks r).start (bs.blocks r).count).flatMap (bs.part data r) =
      slice data r.start r.stop ∧
    (∀ i, (bs.blocks r).start ≤ i → i < (bs.blocks r).stop →
      (bs.sliceWithin i r).start < (bs.sliceWithin i r).stop ∧
        (bs.sliceWithin i r).stop ≤ (bs.blockRange i (some data.length)).count) ∧
    ∀ i, ¬ ((bs.blocks r).start ≤ i ∧ i < (bs.blocks r).stop) →
      (bs.sliceWithin i r).start = (bs.sliceWithin i r).stop ∧ bs.part data r i = [] := by
  have hmax := hstop.trans hsize
  have hmem {i : Nat} := mem_blocks_iff (i := i) hr hmax
  refine ⟨flatMap_blocks hr hmax hstop, fun i hi hj => ?_, fun i hi => ?_⟩
  · obtain ⟨hlo, hhi⟩ := hmem.mp ⟨hi, hj⟩
    exact sliceWithin_inside hlo hhi hr (Nat.lt_of_mul_lt_mul_right (Nat.lt_of_lt_of_le hhi hmax)) hstop
  · have hempty := sliceWithin_outside (fun h => hi (hmem.mpr h)) hr
    refine ⟨hempty, ?_⟩
    rw [part, hempty, slice_self]

theorem small_object_tiles : ([1, 2, 3] : Bytes).length ≤ maxU32 * BlockSize.default.bytes ∧
    (List.range' (BlockSize.default.blocks ⟨1, 3⟩).start (BlockSize.default.blocks ⟨1, 3⟩).count).flatMap
      (BlockSize.default.part [1, 2, 3] ⟨1, 3⟩) = slice [1, 2, 3] 1 3 :=
  ⟨by decide, (blocks_tile [1, 2, 3] (by decide) (by decide) (by decide)).1⟩

end BlockSize

end Nestor
