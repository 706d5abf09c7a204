import Nestor.Core.Lemmas.Block
import Nestor.Engine.Reader

/-!
# The progress of a reader through one content

What a reader has yielded before block `emit` are the bytes of the object from the start of the
range up to that block, or up to the end of the range. So the next block adds what lies between, and
when the reader is done nothing is missing.
-/

namespace Nestor

open Lib

variable {size i : Nat} {range : Range} {m : ObjectMeta}

/-- A resolved range lies inside the object, and is empty only at its very beginning. -/
theorem ReadRange.resolve_stop {request : ReadRange}
    (h : request.resolve size = .ok range) :
    range.stop ≤ size ∧ (range.start < range.stop ∨ range = ⟨0, 0⟩) := by
  cases request with
  | full =>
      cases h
      rcases Nat.eq_zero_or_pos size with rfl | hpos
      · exact ⟨Nat.le_refl _, .inr rfl⟩
      · exact ⟨Nat.le_refl _, .inl hpos⟩
  | bounded r =>
      simp only [ReadRange.resolve] at h
      split at h
      · cases h
      · cases h
        exact ⟨Nat.min_le_right _ _, .inl (by simp only; omega)⟩
  | «from» start =>
      simp only [ReadRange.resolve] at h
      split at h
      · cases h
      · cases h
        exact ⟨Nat.le_refl _, .inl (by simp only; omega)⟩
  | suffix len =>
      simp only [ReadRange.resolve] at h
      split at h
      · cases h
      · cases h
        rcases Nat.eq_zero_or_pos size with rfl | hpos
        · exact ⟨Nat.le_refl _, .inr (by simp)⟩
        · exact ⟨Nat.le_refl _, .inl (by simp only; omega)⟩

theorem ReadRange.resolve_start {request : ReadRange}
    (h : request.resolve size = .ok range) : range.start < size ∨ range.start = 0 := by
  obtain ⟨hstop, hlt | rfl⟩ := ReadRange.resolve_stop h
  · exact .inl (Nat.lt_of_lt_of_le hlt hstop)
  · exact .inr rfl

theorem BlockSize.index_le (bs : BlockSize) (o : Nat) : bs.index o ≤ maxU32 ∧ bs.index o * bs.bytes ≤ o := by
  have hm : maxU32 = 2 ^ 32 - 1 := rfl
  have hlt : bs.index o < 2 ^ 32 := by rw [bs.index_eq]; exact Nat.mod_lt _ (by decide)
  refine ⟨by omega, ?_⟩
  rw [bs.index_eq]
  exact (Nat.mul_le_mul_right _ (Nat.mod_le _ _)).trans (Nat.div_mul_le_self _ _)

/-- The blocks of a range that is not empty, or empty at the very beginning. -/
theorem BlockSize.blocks_eq (bs : BlockSize) (h : range.start < range.stop ∨ range = ⟨0, 0⟩) :
    bs.blocks range = ⟨bs.index range.start, bs.count range.stop⟩ := by
  rcases h with h | rfl
  · rw [BlockSize.blocks, if_neg (by omega)]
  · have hi := (bs.index_le 0).2
    have hc : bs.count 0 = 0 := by
      by_contra hne
      exact absurd (bs.lt_count_iff.mp (Nat.pos_of_ne_zero hne)).2 (by simp)
    have hB := bs.bytes_pos
    have hz : bs.index 0 = 0 := (Nat.mul_eq_zero.mp (Nat.le_zero.mp hi)).resolve_right (by omega)
    rw [hz, hc]
    rfl

/-- The blocks covering a range have its end. -/
theorem BlockSize.count_min (bs : BlockSize) (a b : Nat) :
    bs.count (min a b) = min (bs.count a) (bs.count b) := by
  rcases Nat.le_total a b with h | h
  · rw [Nat.min_eq_left h, Nat.min_eq_left (bs.count_mono h)]
  · rw [Nat.min_eq_right h, Nat.min_eq_right (bs.count_mono h)]

/-- All blocks before the count cover a size, unless there are too many. -/
theorem BlockSize.le_count_mul (bs : BlockSize) (h : size ≤ maxU32 * bs.bytes) :
    size ≤ bs.count size * bs.bytes := by
  by_contra hlt
  have hlt := Nat.lt_of_not_le hlt
  have hmax : bs.count size < maxU32 := by
    by_contra hm
    have := Nat.mul_le_mul_right bs.bytes (Nat.le_of_not_lt hm)
    omega
  exact absurd (bs.lt_count_iff.mpr ⟨hmax, hlt⟩) (Nat.lt_irrefl _)

namespace Reader

variable {r : Reader} {d out : Bytes}

/-- How the range of a reader and the blocks it covers belong to a content. -/
structure Asks (r : Reader) (d : Bytes) : Prop where
  asked : ∀ range, r.request.resolve d.length = .ok range →
    range.start = r.range.start ∧ range.stop = min r.range.stop d.length
  stop : r.stop = r.ctx.namespace.config.blockSize.count r.range.stop
  first : r.first = r.ctx.namespace.config.blockSize.index r.range.start

/-- The bytes before block `i` have come out. -/
def Before (r : Reader) (d out : Bytes) (i : Nat) : Prop :=
  out = slice d r.range.start (min (i * r.ctx.namespace.config.blockSize.bytes) (min r.range.stop d.length))

/-- Everything has come out. -/
def Whole (r : Reader) (d out : Bytes) : Prop :=
  d.length ≤ maxU32 * r.ctx.namespace.config.blockSize.bytes →
    ∀ range, r.request.resolve d.length = .ok range → out = slice d range.start range.stop

theorem Before.whole (h : r.Before d out i) (ha : r.Asks d)
    (hi : d.length ≤ maxU32 * r.ctx.namespace.config.blockSize.bytes →
      (∃ range, r.request.resolve d.length = .ok range) →
      min r.range.stop d.length ≤ i * r.ctx.namespace.config.blockSize.bytes) : r.Whole d out := by
  intro hsmall range hres
  obtain ⟨hstart, hstop⟩ := ha.asked range hres
  rw [h, Nat.min_eq_right (hi hsmall ⟨range, hres⟩), hstart, hstop]

theorem Before.whole_of_stop (h : r.Before d out i) (ha : r.Asks d) (hi : r.stop ≤ i) :
    r.Whole d out := by
  refine h.whole ha fun hsmall _ => ?_
  rw [ha.stop] at hi
  have hcount := r.ctx.namespace.config.blockSize.count_min r.range.stop d.length
  have hcover := r.ctx.namespace.config.blockSize.le_count_mul
    (Nat.le_trans (Nat.min_le_right r.range.stop d.length) hsmall)
  refine hcover.trans (Nat.mul_le_mul_right _ ?_)
  omega

/-- What lies in a range, cut at a boundary `p` and at the next one. -/
theorem slice_clamp_append (d : Bytes) (a s p n : Nat) :
    slice d a (min p s) ++ slice d (p + min (a - p) n) (p + min (s - p) n) = slice d a (min (p + n) s) := by
  rcases Nat.le_total a p with ha | ha
  · rcases Nat.le_total s p with hs | hs
    · rw [slice_of_le (a := p + _) (by omega), List.append_nil]
      congr 1
      omega
    · rw [show min p s = p by omega, show p + min (a - p) n = p by omega, slice_append d ha (by omega)]
      congr 1
      omega
  · rw [slice_of_le (b := min p s) (by omega), List.nil_append]
    by_cases hn : a < p + n
    · rw [show p + min (a - p) n = a by omega]
      rcases Nat.le_total s p with hs | hs
      · rw [slice_of_le (by omega), slice_of_le (by omega)]
      · congr 1
        omega
    · rw [slice_of_le (by omega), slice_of_le (by omega)]

/-- The part of a block that lies in the range continues what has come out. -/
theorem Before.append {block : Bytes} (h : r.Before d out i)
    (hb : block.take r.ctx.namespace.config.blockSize.bytes = blockOf r.ctx.namespace.config.blockSize d i) :
    r.Before d (out ++ slice block (r.ctx.namespace.config.blockSize.sliceWithin i r.range).start
      (min (r.ctx.namespace.config.blockSize.sliceWithin i r.range).stop block.length)) (i + 1) := by
  unfold Before at h ⊢
  generalize r.ctx.namespace.config.blockSize = bs at *
  have hcut (x : Nat) : slice d r.range.start (min x (min r.range.stop d.length)) =
      slice d r.range.start (min x r.range.stop) := by
    rw [← Nat.min_assoc, slice_min_length]
  have hchunk : slice block (bs.sliceWithin i r.range).start
      (min (bs.sliceWithin i r.range).stop block.length) =
        slice d (i * bs.bytes + min (r.range.start - i * bs.bytes) bs.bytes)
        (i * bs.bytes + min (r.range.stop - i * bs.bytes) bs.bytes) := by
    rw [slice_min_length, bs.sliceWithin_start, bs.sliceWithin_stop]
    calc
      _ = slice (block.take bs.bytes) (min (r.range.start - i * bs.bytes) bs.bytes)
            (min (r.range.stop - i * bs.bytes) bs.bytes) := by
          unfold slice
          rw [List.take_take, Nat.min_eq_left (Nat.min_le_right _ _)]
      _ = _ := by
          rw [hb, blockOf, slice_slice, Nat.add_mul, Nat.one_mul]
          congr 1
          omega
  rw [h, hcut, hcut, hchunk, Nat.add_mul, Nat.one_mul]
  exact slice_clamp_append d _ _ _ _

/-! ## Delivering a block -/

/-- How the result of delivering block `i` leaves a reader that had yielded `out`. -/
def Delivered (r : Reader) (d out : Bytes) (i : Nat) (done : Bool) : Option (Except NestorError Bytes) → Prop
  | some (.ok chunk) => r.Before d (out ++ chunk) (i + 1) ∧ (done → r.Whole d (out ++ chunk))
  | some (.error _) => True
  | none => r.Whole d out

theorem deliver_eq (r : Reader) (i : Nat) (block : Block) :
    ∃ done result, r.deliver i block = ({ r with done := done }, result) ∧
      (done = false → ∃ chunk, result = some (.ok chunk)) ∧
      (∀ e, result = some (.error e) → i = r.first) := by
  unfold deliver
  simp only
  split
  · refine ⟨true, _, rfl, nofun, fun e he => ?_⟩
    by_contra hne
    rw [if_neg hne] at he
    cases he
  · exact ⟨_, _, rfl, fun _ => ⟨_, rfl⟩, nofun⟩

theorem deliver_spec {block : Block} {done : Bool} {result : Option (Except NestorError Bytes)}
    (hd : r.deliver i block = ({ r with done := done }, result)) (hwas : r.done = false)
    (h : r.Before d out i) (ha : r.Asks d) (hi : r.first ≤ i)
    (hb : block.data.take r.ctx.namespace.config.blockSize.bytes =
      blockOf r.ctx.namespace.config.blockSize d i) : r.Delivered d out i done result := by
  have hB := r.ctx.namespace.config.blockSize.bytes_pos
  unfold deliver at hd
  simp only at hd
  split at hd
  · rename_i hempty
    obtain ⟨-, rfl⟩ := Prod.mk.inj hd
    split
    · exact trivial
    · rename_i hne
      -- behind its first block the range starts before the block, so the block itself is empty
      refine h.whole ha fun hsmall ⟨range, hres⟩ => ?_
      have hstart := ReadRange.resolve_start hres
      rw [(ha.asked range hres).1] at hstart
      have hlt : r.range.start < 2 ^ 32 * r.ctx.namespace.config.blockSize.bytes := by
        have hm : maxU32 = 2 ^ 32 - 1 := rfl
        rw [hm, Nat.sub_mul] at hsmall
        omega
      have hbelow := (r.ctx.namespace.config.blockSize.index_spec hlt).2
      rw [← ha.first] at hbelow
      have hle : r.range.start ≤ i * r.ctx.namespace.config.blockSize.bytes :=
        (Nat.le_of_lt hbelow).trans (Nat.mul_le_mul_right _ (by omega))
      have hnil : block.data = [] := by
        rw [BlockSize.sliceWithin_start, Nat.sub_eq_zero_of_le hle, Nat.zero_min] at hempty
        exact hempty.elim id fun h0 => List.length_eq_zero_iff.mp (Nat.le_zero.mp h0)
      rw [hnil, List.take_nil] at hb
      have hlen := congrArg List.length hb
      rw [blockOf, length_slice, Nat.add_mul, Nat.one_mul, List.length_nil] at hlen
      omega
  · obtain ⟨hr, rfl⟩ := Prod.mk.inj hd
    have hdone := congrArg Reader.done hr
    simp only [hwas, Bool.false_or] at hdone
    refine ⟨h.append hb, fun ht => ?_⟩
    rw [ht, decide_eq_true_eq] at hdone
    rcases hdone with hshort | hstop
    · refine (h.append hb).whole ha fun _ _ => ?_
      rw [List.take_of_length_le (by omega)] at hb
      rw [hb, blockOf, length_slice] at hshort
      rw [Nat.add_mul, Nat.one_mul] at hshort ⊢
      omega
    · exact (h.append hb).whole_of_stop ha hstop

/-! ## Learning the size -/

theorem Asks.learnt (h : r.Asks d) (hm : m.size = d.length) : (r.learnt m).Asks d where
  asked := fun range hres => by
    obtain ⟨h1, h2⟩ := h.asked range hres
    refine ⟨h1, h2.trans ?_⟩
    simp only [Reader.learnt, hm]
    omega
  stop := by
    simp only [Reader.learnt, BlockSize.count_min, h.stop]
  first := h.first

theorem Before.learnt (h : r.Before d out i) (hm : m.size = d.length) :
    (r.learnt m).Before d out i := by
  rw [Before, h]
  simp only [Reader.learnt, hm, Nat.min_assoc, Nat.min_self]

theorem Whole.learnt (h : r.Whole d out) : (r.learnt m).Whole d out := h

/-! ## Starting -/

theorem Before.start (hi : i ≤ r.ctx.namespace.config.blockSize.index r.range.start) :
    r.Before d [] i := by
  have := (r.ctx.namespace.config.blockSize.index_le r.range.start).2
  have := Nat.mul_le_mul_right r.ctx.namespace.config.blockSize.bytes hi
  rw [Before, slice_of_le (by omega)]

end Reader

end Nestor
