import Mathlib.Data.List.Chain
import Nestor.Core.Block
import Nestor.Lib.Slice

/-!
# Block arithmetic

What the index arithmetic of `Core/Block.lean` computes where it does not wrap, and the meaning of a
block: `blockOf bs data i` are the bytes of block `i` of an object.
-/

namespace Nestor

open Lib

variable {i n : Nat} {groups : List FetchGroup} {misses : List Nat}

/-- Block `i` of an object: its bytes from `i * B` to `(i + 1) * B`, cut off at its end. -/
def blockOf (bs : BlockSize) (data : Bytes) (i : Nat) : Bytes :=
  slice data (i * bs.bytes) ((i + 1) * bs.bytes)

namespace BlockSize

variable (bs : BlockSize)

theorem bytes_eq : bs.bytes = 2 ^ bs.shift := by simp [bytes, Nat.shiftLeft_eq]

theorem bytes_pos : 0 < bs.bytes := by rw [bytes_eq]; exact Nat.two_pow_pos _

theorem bytes_le : bs.bytes ≤ 2 ^ 24 := by
  rw [bytes_eq]
  exact Nat.pow_le_pow_right (by decide) bs.shift_le

theorem offset_eq (i : Nat) : bs.offset i = i * bs.bytes := by
  simp [offset, bytes_eq, Nat.shiftLeft_eq]

theorem index_eq (o : Nat) : bs.index o = o / bs.bytes % 2 ^ 32 := by
  simp [index, toU32, bytes_eq, Nat.shiftRight_eq_div_pow]

theorem index_spec {o : Nat} (h : o < 2 ^ 32 * bs.bytes) :
    bs.index o * bs.bytes ≤ o ∧ o < (bs.index o + 1) * bs.bytes := by
  have hlt : o / bs.bytes < 2 ^ 32 := Nat.div_lt_of_lt_mul (by rwa [Nat.mul_comm])
  rw [index_eq, Nat.mod_eq_of_lt hlt]
  refine ⟨Nat.div_mul_le_self _ _, ?_⟩
  rw [Nat.mul_comm]
  exact Nat.lt_mul_div_succ o bs.bytes_pos

theorem index_le_of_le_mul {o : Nat} (h : o ≤ i * bs.bytes) : bs.index o ≤ i := by
  rw [index_eq]
  exact (Nat.mod_le _ _).trans (Nat.div_le_of_le_mul (by rwa [Nat.mul_comm]))

theorem index_mul (h : i < 2 ^ 32) : bs.index (i * bs.bytes) = i := by
  rw [index_eq, Nat.mul_div_cancel _ bs.bytes_pos, Nat.mod_eq_of_lt h]

/-- Block `i` is one of the counted blocks iff it starts before the end. -/
theorem lt_count_iff {size : Nat} : i < bs.count size ↔ i < maxU32 ∧ i * bs.bytes < size := by
  have hB := bs.bytes_pos
  have key : i < (size + bs.bytes - 1) / bs.bytes ↔ i * bs.bytes < size := by
    rw [Nat.lt_iff_add_one_le, Nat.le_div_iff_mul_le hB, Nat.add_mul]
    omega
  unfold count
  simp only
  split
  · rename_i h
    constructor
    · intro hi; exact ⟨hi, key.mp (Nat.lt_trans hi h)⟩
    · intro hi; exact hi.1
  · rename_i h
    constructor
    · intro hi; exact ⟨by omega, key.mp hi⟩
    · intro hi; exact key.mpr hi.2

theorem count_le_maxU32 (size : Nat) : bs.count size ≤ maxU32 := by
  by_contra h
  exact absurd (bs.lt_count_iff.mp (Nat.lt_of_not_le h)).1 (Nat.lt_irrefl _)

theorem count_mono {a b : Nat} (h : a ≤ b) : bs.count a ≤ bs.count b := by
  by_contra hc
  have hlt := bs.lt_count_iff.mp (Nat.lt_of_not_le hc)
  exact absurd (bs.lt_count_iff.mpr ⟨hlt.1, Nat.lt_of_lt_of_le hlt.2 h⟩) (Nat.lt_irrefl _)

theorem span_eq {first : Nat} (h : first + n < 2 ^ 32) (size : Option Nat) :
    bs.span first n size =
      ⟨first * bs.bytes, (size.elim ((first + n) * bs.bytes) (min ((first + n) * bs.bytes)))⟩ := by
  unfold span
  rw [addU32_of_lt h, offset_eq, offset_eq]
  cases size <;> rfl

theorem blockRange_eq (h : i < maxU32) (size : Nat) :
    bs.blockRange i (some size) = ⟨i * bs.bytes, min ((i + 1) * bs.bytes) size⟩ := by
  unfold blockRange
  have hm : maxU32 = 2 ^ 32 - 1 := rfl
  rw [bs.span_eq (by omega)]
  rfl

theorem blockRange_count (h : i < maxU32) (size : Nat) :
    (bs.blockRange i (some size)).count = min ((i + 1) * bs.bytes) size - i * bs.bytes := by
  rw [blockRange_eq bs h]
  rfl

theorem next_offset {size : Nat} (hi : i < maxU32) (h : (i + 1) * bs.bytes < size) :
    i * bs.bytes + (bs.blockRange i (some size)).count = (i + 1) * bs.bytes := by
  rw [bs.blockRange_count hi, Nat.min_eq_left (Nat.le_of_lt h), Nat.add_mul]
  omega

theorem length_blockOf {data : Bytes} (h : i < maxU32) :
    (blockOf bs data i).length = (bs.blockRange i (some data.length)).count := by
  rw [blockRange_count bs h, blockOf, length_slice]

theorem length_blockOf_le (data : Bytes) (i : Nat) : (blockOf bs data i).length ≤ bs.bytes := by
  rw [blockOf, length_slice, Nat.add_mul]
  omega

/-- The bytes from the start of a block on, as many as the block has. -/
theorem blockOf_eq_slice {data : Bytes} (h : (blockOf bs data i).length = n) :
    slice data (i * bs.bytes) (i * bs.bytes + n) = blockOf bs data i := by
  have hB := bs.bytes_pos
  rw [← slice_min_length, blockOf, ← slice_min_length (b := (i + 1) * bs.bytes)]
  rw [blockOf, length_slice, Nat.add_mul] at h
  rw [Nat.add_mul]
  rcases Nat.le_total data.length (i * bs.bytes) with hp | hp
  · rw [slice_of_le (by omega), slice_of_le (by omega)]
  · congr 1
    omega

theorem sliceWithin_start (i : Nat) (r : Range) :
    (bs.sliceWithin i r).start = min (r.start - i * bs.bytes) bs.bytes := by
  simp only [sliceWithin, offset_eq]
  omega

theorem sliceWithin_stop (i : Nat) (r : Range) :
    (bs.sliceWithin i r).stop = min (r.stop - i * bs.bytes) bs.bytes := by
  simp only [sliceWithin, offset_eq]
  omega

end BlockSize

theorem alignedTake_spec {next stop : Nat} (h : next < stop) (hs : stop ≤ maxU32) (window : Nat) :
    0 < alignedTake next stop window ∧ next + alignedTake next stop window ≤ stop ∧
      alignedTake next stop window ≤ max window 1 := by
  have hm : maxU32 = 2 ^ 32 - 1 := rfl
  have hw : 0 < max window 1 := by omega
  have hdiv : next / max window 1 ≤ next := Nat.div_le_self _ _
  have hsucc : next < (next / max window 1 + 1) * max window 1 := by
    rw [Nat.mul_comm]; exact Nat.lt_mul_div_succ next hw
  have hbelow : (next / max window 1) * max window 1 ≤ next := Nat.div_mul_le_self _ _
  unfold alignedTake
  simp only
  rw [addU32_of_lt (by omega), satMulU32]
  generalize hb : (next / max window 1 + 1) * max window 1 = boundary at *
  have hbw : boundary ≤ next + max window 1 := by rw [← hb, Nat.add_mul]; omega
  rw [subU32_of_le (by omega) (by omega)]
  omega

/-! ## Grouping misses -/

/-- The blocks of a group. -/
def FetchGroup.indexes (g : FetchGroup) : List Nat := List.range' g.first g.count

theorem pushMiss_indexes (window idx : Nat)
    (hb : ∀ i ∈ groups.reverse.flatMap FetchGroup.indexes, i < maxU32) (hc : ∀ g ∈ groups, 0 < g.count) :
    (pushMiss window groups idx).reverse.flatMap FetchGroup.indexes =
        groups.reverse.flatMap FetchGroup.indexes ++ [idx] ∧
      ∀ g ∈ pushMiss window groups idx, 0 < g.count := by
  cases groups with
  | nil => simp [pushMiss, FetchGroup.indexes]
  | cons g groups =>
      simp only [pushMiss]
      split
      · rename_i hjoin
        -- the last block of the group is a `u32`, so the next index is one too
        have hlast : g.first + (g.count - 1) < maxU32 := by
          refine hb _ (List.mem_flatMap.mpr ⟨g, by simp, ?_⟩)
          have := hc g List.mem_cons_self
          exact List.mem_range'_1.mpr (by omega)
        have hm : maxU32 = 2 ^ 32 - 1 := rfl
        have hidx : g.first + g.count = idx := by
          rw [addU32_of_lt (by omega)] at hjoin
          exact hjoin.1
        refine ⟨?_, fun g' hg' => ?_⟩
        · simp only [List.reverse_cons, List.flatMap_append, List.flatMap_singleton, FetchGroup.indexes,
            List.range'_1_concat, hidx, List.append_assoc]
        · rcases List.mem_cons.mp hg' with rfl | hg'
          · exact Nat.succ_pos _
          · exact hc g' (List.mem_cons_of_mem _ hg')
      · refine ⟨by simp [FetchGroup.indexes], fun g' hg' => ?_⟩
        rcases List.mem_cons.mp hg' with rfl | hg'
        · exact Nat.one_pos
        · exact hc g' hg'

theorem groupMisses_indexes (h : ∀ i ∈ misses, i < maxU32) (window : Nat) :
    (groupMisses misses window).flatMap FetchGroup.indexes = misses := by
  have hfold : ∀ (rest done : List Nat) (groups : List FetchGroup),
      groups.reverse.flatMap FetchGroup.indexes = done → (∀ g ∈ groups, 0 < g.count) →
      (∀ i ∈ done ++ rest, i < maxU32) →
      (rest.foldl (pushMiss (max window 1)) groups).reverse.flatMap FetchGroup.indexes = done ++ rest := by
    intro rest
    induction rest with
    | nil => exact fun done groups hd _ _ => by simpa using hd
    | cons idx rest ih =>
        intro done groups hd hc hb
        obtain ⟨hpush, hc'⟩ := pushMiss_indexes (max window 1) idx
          (fun i hi => hb i (by rw [hd] at hi; simp [hi])) hc
        rw [List.foldl_cons, ih (done ++ [idx]) _ (by rw [hpush, hd]) hc' (by simpa using hb)]
        simp
  exact hfold misses [] [] rfl nofun h

namespace FetchGroup

/-- The group is not empty and does not reach past the window it starts in. -/
structure InWindow (w : Nat) (g : FetchGroup) : Prop where
  count : 0 < g.count
  window : ∀ i ∈ g.indexes, i / w = g.first / w

/-- The two groups are not one run of blocks that lies in one window. -/
def Apart (w : Nat) (g g' : FetchGroup) : Prop :=
  g.first + g.count = g'.first → ¬ InWindow w ⟨g.first, g.count + g'.count⟩

variable {w : Nat} {g g' : FetchGroup}

theorem mem_indexes : i ∈ g.indexes ↔ g.first ≤ i ∧ i < g.first + g.count := List.mem_range'_1

theorem InWindow.single (w idx : Nat) : InWindow w ⟨idx, 1⟩ := by
  refine ⟨Nat.one_pos, fun i hi => ?_⟩
  obtain ⟨hlo, hhi⟩ := mem_indexes.mp hi
  rw [Nat.le_antisymm (Nat.lt_succ_iff.mp hhi) hlo]

theorem InWindow.shorter {first m : Nat} (h : InWindow w ⟨first, m⟩) (hn : 0 < n) (hle : n ≤ m) :
    InWindow w ⟨first, n⟩ := by
  refine ⟨hn, fun i hi => h.window i ?_⟩
  obtain ⟨hlo, hhi⟩ := mem_indexes.mp hi
  exact mem_indexes.mpr ⟨hlo, Nat.lt_of_lt_of_le hhi (Nat.add_le_add_left hle _)⟩

theorem InWindow.grow (h : g.InWindow w) (hmod : (g.first + g.count) % w ≠ 0) :
    InWindow w ⟨g.first, g.count + 1⟩ := by
  refine ⟨Nat.succ_pos _, fun i hi => ?_⟩
  obtain ⟨hlo, hhi⟩ := mem_indexes.mp hi
  dsimp only at hlo hhi ⊢
  rcases Nat.lt_or_ge i (g.first + g.count) with hlt | hge
  · exact h.window i (mem_indexes.mpr ⟨hlo, hlt⟩)
  · have hpos := h.count
    obtain ⟨j, hj⟩ := Nat.exists_eq_succ_of_ne_zero (show i ≠ 0 by omega)
    have hdvd : ¬ w ∣ j + 1 := fun hd => hmod (by
      rw [show g.first + g.count = j + 1 by omega]
      exact Nat.mod_eq_zero_of_dvd hd)
    rw [hj, Nat.succ_eq_add_one, Nat.succ_div, if_neg hdvd, Nat.add_zero]
    exact h.window j (mem_indexes.mpr (by omega))

/-- The first block of a window is not in that of the block before. -/
theorem Apart.of_mod (hw : 0 < w) (hpos : 0 < g.count) (hmod : g'.first % w = 0) (hpos' : 0 < g'.count) :
    g.Apart w g' := by
  intro hnext hin
  have hsame := hin.window g'.first (mem_indexes.mpr ⟨by dsimp only; omega, by dsimp only; omega⟩)
  have hlt : g.first < g'.first / w * w := by
    rw [Nat.div_mul_cancel (Nat.dvd_of_mod_eq_zero hmod)]
    omega
  exact absurd hsame (Nat.ne_of_gt ((Nat.div_lt_iff_lt_mul hw).mpr hlt))

theorem InWindow.count_le (h : g.InWindow w) (hw : 0 < w) : g.count ≤ w := by
  by_contra hc
  have hsame := h.window (g.first + w) (mem_indexes.mpr (by omega))
  rw [Nat.add_div_right _ hw] at hsame
  omega

end FetchGroup

/-- The groups, last first, hold the misses so far and cannot be joined. -/
structure CutSoFar (w : Nat) (misses : List Nat) (groups : List FetchGroup) : Prop where
  indexes : groups.reverse.flatMap FetchGroup.indexes = misses
  inWindow : ∀ g ∈ groups, g.InWindow w
  apart : groups.IsChain fun g' g => g.Apart w g'

theorem CutSoFar.push {w : Nat} (h : CutSoFar w misses groups)
    (hw : 0 < w) {idx : Nat} (hlt : ∀ i ∈ misses, i < idx) (hidx : idx < 2 ^ 32) :
    CutSoFar w (misses ++ [idx]) (pushMiss w groups idx) := by
  cases groups with
  | nil =>
      obtain rfl : [] = misses := h.indexes
      exact ⟨by simp [pushMiss, FetchGroup.indexes], by simp [pushMiss, FetchGroup.InWindow.single],
        by simp [pushMiss]⟩
  | cons g groups =>
      have hg := h.inWindow g List.mem_cons_self
      have hlast : g.first + (g.count - 1) < idx := by
        refine hlt _ (h.indexes ▸ List.mem_flatMap.mpr ⟨g, by simp, FetchGroup.mem_indexes.mpr ?_⟩)
        have := hg.count
        omega
      have hpos := hg.count
      have hsum : addU32 g.first g.count = g.first + g.count := addU32_of_lt (by omega)
      simp only [pushMiss, hsum]
      split
      · rename_i hjoin
        obtain ⟨rfl, hmod⟩ := hjoin
        refine ⟨?_, ?_, ?_⟩
        · rw [← h.indexes]
          simp only [List.reverse_cons, List.flatMap_append, List.flatMap_singleton, FetchGroup.indexes,
            List.range'_1_concat, List.append_assoc]
        · exact List.forall_mem_cons.mpr ⟨hg.grow hmod,
            fun g' hg' => h.inWindow g' (List.mem_cons_of_mem _ hg')⟩
        · cases groups with
          | nil => exact .singleton _
          | cons g₀ groups =>
              obtain ⟨hap, hrest⟩ := List.isChain_cons_cons.mp h.apart
              refine List.isChain_cons_cons.mpr ⟨fun hnext hin => hap hnext ?_, hrest⟩
              exact hin.shorter (by omega) (by dsimp only; omega)
      · rename_i hjoin
        refine ⟨?_, ?_, List.isChain_cons_cons.mpr ⟨fun hnext => ?_, h.apart⟩⟩
        · rw [← h.indexes]
          simp [FetchGroup.indexes]
        · exact List.forall_mem_cons.mpr ⟨.single w idx, h.inWindow⟩
        · exact FetchGroup.Apart.of_mod hw hpos (Decidable.of_not_not fun hmod => hjoin ⟨hnext, hmod⟩)
            Nat.one_pos hnext

theorem CutSoFar.fold {w : Nat} (hw : 0 < w) {rest : List Nat}
    (h : CutSoFar w misses groups) (hinc : (misses ++ rest).Pairwise (· < ·))
    (hidx : ∀ i ∈ rest, i < 2 ^ 32) :
    CutSoFar w (misses ++ rest) (rest.foldl (pushMiss w) groups) := by
  induction rest generalizing misses groups with
  | nil => simpa using h
  | cons idx rest ih =>
      have hlt : ∀ i ∈ misses, i < idx := fun i hi =>
        (List.pairwise_append.mp hinc).2.2 i hi idx List.mem_cons_self
      have hpush := h.push hw hlt (hidx idx List.mem_cons_self)
      rw [List.append_cons] at hinc ⊢
      exact ih hpush hinc fun i hi => hidx i (List.mem_cons_of_mem _ hi)

/-- The groups of increasing misses: their blocks are the misses in order, each lies in one window,
and no two that follow each other can be joined. -/
theorem groupMisses_spec (hinc : misses.Pairwise (· < ·)) (hidx : ∀ i ∈ misses, i < 2 ^ 32) (window : Nat) :
    (groupMisses misses window).flatMap FetchGroup.indexes = misses ∧
      (∀ g ∈ groupMisses misses window, g.InWindow (max window 1)) ∧
      (groupMisses misses window).IsChain (FetchGroup.Apart (max window 1)) := by
  have hnone : CutSoFar (max window 1) [] [] := ⟨rfl, nofun, .nil⟩
  have h : CutSoFar (max window 1) misses (misses.foldl (pushMiss (max window 1)) []) :=
    hnone.fold (by omega) hinc hidx
  exact ⟨h.indexes, fun g hg => h.inWindow g (List.mem_reverse.mp hg), List.isChain_reverse.mpr h.apart⟩

end Nestor
