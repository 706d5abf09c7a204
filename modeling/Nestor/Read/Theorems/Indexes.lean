import Nestor.Client.Read
import Nestor.Core.Lemmas.Block
import Nestor.Engine.Nestor

/-!
# Offsets past the last block

Offsets have 64 bits and block indexes 32. An index is what is left of the quotient, and some of the
sums and differences of indexes are plain ones, which a build with overflow checks refuses. Here
these functions are written with the checks; where they give a result it is that of the functions
that wrap.
-/

namespace Nestor

open Lib

variable {a b c stop window o : Nat} {bs : BlockSize}

/-! ## Checked arithmetic -/

/-- A sum of 32-bit words, if it is one. -/
def checkedAdd (a b : Nat) : Option Nat := if a + b ≤ maxU32 then some (a + b) else none

def checkedSub (a b : Nat) : Option Nat := if b ≤ a then some (a - b) else none

theorem checkedAdd_eq_some : checkedAdd a b = some c ↔ a + b ≤ maxU32 ∧ c = a + b := by
  unfold checkedAdd
  split <;> simp_all [eq_comm]

theorem checkedSub_eq_some : checkedSub a b = some c ↔ b ≤ a ∧ c = a - b := by
  unfold checkedSub
  split <;> simp_all [eq_comm]

theorem addU32_of_checked (h : checkedAdd a b = some c) : addU32 a b = c := by
  have hm : maxU32 = 2 ^ 32 - 1 := rfl
  obtain ⟨hle, rfl⟩ := checkedAdd_eq_some.mp h
  exact addU32_of_lt (by omega)

/-- `aligned_take` with its sum and its difference checked. -/
def alignedTake? (next stop window : Nat) : Option Nat := do
  let window := max window 1
  let windows ← checkedAdd (next / window) 1
  checkedSub (min (satMulU32 windows window) stop) next

theorem alignedTake_of_checked {next n : Nat} (h : alignedTake? next stop window = some n) :
    alignedTake next stop window = n := by
  have hm : maxU32 = 2 ^ 32 - 1 := rfl
  obtain ⟨windows, hadd, hsub⟩ := Option.bind_eq_some_iff.mp h
  obtain ⟨hle, rfl⟩ := checkedSub_eq_some.mp hsub
  unfold alignedTake
  simp only [addU32_of_checked hadd]
  refine subU32_of_le hle ?_
  have : satMulU32 windows (max window 1) ≤ maxU32 := Nat.min_le_right _ _
  omega

/-- Below the end nothing overflows, and what is taken is some blocks of one window. -/
theorem alignedTake?_spec {next : Nat} (h : next < stop) (hs : stop ≤ maxU32) (window : Nat) :
    ∃ n, alignedTake? next stop window = some n ∧ 0 < n ∧ next + n ≤ stop ∧
      (next + n - 1) / max window 1 = next / max window 1 := by
  have hw : 0 < max window 1 := by omega
  have hdiv : next / max window 1 ≤ next := Nat.div_le_self _ _
  have hsucc : next < (next / max window 1 + 1) * max window 1 := by
    rw [Nat.mul_comm]
    exact Nat.lt_mul_div_succ next hw
  have hadd : checkedAdd (next / max window 1) 1 = some (next / max window 1 + 1) :=
    checkedAdd_eq_some.mpr ⟨by omega, rfl⟩
  generalize hb : (next / max window 1 + 1) * max window 1 = boundary at hsucc
  have hsub : checkedSub (min (satMulU32 (next / max window 1 + 1) (max window 1)) stop) next =
      some (min (min boundary maxU32) stop - next) := by
    rw [satMulU32, hb]
    exact checkedSub_eq_some.mpr ⟨by omega, rfl⟩
  refine ⟨min (min boundary maxU32) stop - next, ?_, ?_, ?_, ?_⟩
  · unfold alignedTake?
    dsimp only
    rw [hadd]
    exact hsub
  · omega
  · omega
  · refine Nat.le_antisymm (Nat.lt_succ_iff.mp ((Nat.div_lt_iff_lt_mul hw).mpr ?_))
      (Nat.div_le_div_right (by omega))
    rw [Nat.succ_eq_add_one, hb]
    omega

/-- The first blocks of `start .. stop`, one at least, with the sums checked. -/
def groupFrom? (start stop window : Nat) : Option (Option Range) := do
  let take ← alignedTake? start (max stop (satAddU32 start 1)) window
  let stop ← checkedAdd start take
  some (some ⟨start, stop⟩)

/-- `first_group` with its sums checked. -/
def BlockSize.firstGroup? (bs : BlockSize) (request : ReadRange) (window : Nat) : Option (Option Range) :=
  match request with
  | .full => groupFrom? 0 maxU32 window
  | .from start => groupFrom? (bs.index start) maxU32 window
  | .bounded r => groupFrom? (bs.index r.start) (bs.count r.stop) window
  | .suffix _ => some none

/-- The blocks to read ahead, with the sum checked. -/
def readaheadBlocks? (config : NamespaceConfig) (size : Option Nat) (range : Range) : Option Range := do
  let start := config.blockSize.count range.stop
  let stop ← checkedAdd start config.readahead
  some ⟨start, size.elim stop fun size => min stop (config.blockSize.count size)⟩

/-- What the first block of a routed read is asked for with, with the sum checked. -/
def Client.ClusterConfig.firstOptions? (config : ClusterConfig) (options : GetOptions) :
    Option GetOptions := do
  let next ← checkedAdd (config.firstIndex options) 1
  some ⟨some ⟨readStart options, min (readLimit options) (config.blockSize.offset next)⟩, options.ifMatch,
    options.ifNoneMatch⟩

theorem firstGroup_of_checked {request : ReadRange} {group : Option Range}
    (h : bs.firstGroup? request window = some group) : bs.firstGroup request window = group := by
  have hgroup {start stop : Nat} (h : groupFrom? start stop window = some group) :
      some (Range.mk start (addU32 start (alignedTake start (max stop (satAddU32 start 1)) window))) =
      group := by
    obtain ⟨take, htake, h⟩ := Option.bind_eq_some_iff.mp h
    obtain ⟨stop', hadd, h⟩ := Option.bind_eq_some_iff.mp h
    rw [alignedTake_of_checked htake, addU32_of_checked hadd]
    exact Option.some.inj h
  cases request with
  | full => exact hgroup h
  | bounded r => exact hgroup h
  | «from» start => exact hgroup h
  | suffix len => exact Option.some.inj h

theorem readaheadBlocks_of_checked [TagHash] {ns : NamespaceState} {ctx : ReadCtx} {range blocks : Range}
    (h : readaheadBlocks? ns.config ctx.size range = some blocks) :
    readaheadBlocks ns ctx range = blocks := by
  obtain ⟨stop, hadd, h⟩ := Option.bind_eq_some_iff.mp h
  unfold readaheadBlocks
  simp only [addU32_of_checked hadd]
  exact Option.some.inj h

theorem firstOptions_of_checked {config : Client.ClusterConfig} {options first : GetOptions}
    (h : config.firstOptions? options = some first) : config.firstOptions options = first := by
  obtain ⟨next, hadd, h⟩ := Option.bind_eq_some_iff.mp h
  unfold Client.ClusterConfig.firstOptions
  rw [addU32_of_checked hadd]
  exact Option.some.inj h

/-! ## The limit -/

/-- The offset lies in the block of its index. -/
def BlockSize.InBlock (bs : BlockSize) (o : Nat) : Prop :=
  bs.offset (bs.index o) ≤ o ∧ o < bs.offset (bs.index o) + bs.bytes

theorem BlockSize.inBlock_iff : bs.InBlock o ↔ o < 2 ^ 32 * bs.bytes := by
  have hlt : bs.index o < 2 ^ 32 := toU32_lt _
  unfold InBlock
  rw [offset_eq]
  constructor
  · rintro ⟨-, hhi⟩
    calc o < (bs.index o + 1) * bs.bytes := by rwa [Nat.add_mul, Nat.one_mul]
      _ ≤ 2 ^ 32 * bs.bytes := Nat.mul_le_mul_right _ hlt
  · intro h
    have := bs.index_spec h
    rwa [Nat.add_mul, Nat.one_mul] at this

/-- Its index is that of its block, and there is a next one. -/
theorem BlockSize.index_lt_iff (h : bs.InBlock o) :
    bs.index o < maxU32 ↔ o < maxU32 * bs.bytes := by
  obtain ⟨hlo, hhi⟩ := h
  rw [offset_eq] at hlo hhi
  constructor
  · intro hlt
    refine Nat.lt_of_lt_of_le hhi ?_
    rw [← Nat.succ_mul]
    exact Nat.mul_le_mul_right _ hlt
  · intro hlt
    exact Nat.lt_of_mul_lt_mul_right (Nat.lt_of_le_of_lt hlo hlt)

/-- Block offsets are 64-bit words. -/
theorem BlockSize.offset_lt (bs : BlockSize) {i : Nat} (h : i ≤ maxU32) :
    bs.offset i + bs.bytes < 2 ^ 64 := by
  calc bs.offset i + bs.bytes = (i + 1) * bs.bytes := by rw [offset_eq, Nat.add_mul, Nat.one_mul]
    _ ≤ (maxU32 + 1) * 2 ^ 24 := Nat.mul_le_mul (Nat.succ_le_succ h) bs.bytes_le
    _ < 2 ^ 64 := by decide

/-- The requests that carry the offset a range starts at. -/
def ReadRange.StartsWith (range : Range) (request : ReadRange) : Prop :=
  request = .from range.start ∨ request = .bounded range

/-- The group is not empty, starts with the block of the offset, and lies in one window. -/
structure GroupAt (bs : BlockSize) (o window : Nat) (group : Range) : Prop where
  start : group.start = bs.index o
  nonempty : group.start < group.stop
  window : (group.stop - 1) / max window 1 = group.start / max window 1

theorem groupFrom?_spec (h : bs.index o < maxU32) (hstop : stop ≤ maxU32)
    (window : Nat) : ∃ group, groupFrom? (bs.index o) stop window = some (some group) ∧
    GroupAt bs o window group := by
  have hsat : satAddU32 (bs.index o) 1 = bs.index o + 1 := Nat.min_eq_left h
  have hbelow : bs.index o < max stop (satAddU32 (bs.index o) 1) := by omega
  obtain ⟨n, htake, hpos, hle, hwindow⟩ := alignedTake?_spec hbelow (by omega) window
  have hadd : checkedAdd (bs.index o) n = some (bs.index o + n) := checkedAdd_eq_some.mpr ⟨by omega, rfl⟩
  refine ⟨⟨bs.index o, bs.index o + n⟩, ?_, rfl, Nat.lt_add_of_pos_right hpos, hwindow⟩
  rw [groupFrom?, htake, Option.bind_eq_bind, Option.bind_some, hadd]
  rfl

theorem firstGroup?_spec {range : Range} {request : ReadRange} (hr : request.StartsWith range)
    (h : bs.index range.start < maxU32) (window : Nat) :
    ∃ group, bs.firstGroup? request window = some (some group) ∧ GroupAt bs range.start window group := by
  obtain rfl | rfl := hr
  · exact groupFrom?_spec h (Nat.le_refl _) window
  · exact groupFrom?_spec h (bs.count_le_maxU32 _) window

theorem firstGroup?_stop_le {start : Nat} {group : Range}
    (h : bs.firstGroup? (.from start) window = some (some group)) : group.stop ≤ maxU32 := by
  obtain ⟨take, -, h⟩ := Option.bind_eq_some_iff.mp h
  obtain ⟨stop, hadd, h⟩ := Option.bind_eq_some_iff.mp h
  obtain ⟨hle, rfl⟩ := checkedAdd_eq_some.mp hadd
  cases h
  exact hle

/-- Nothing wraps for a request of a range: not the offsets of blocks, not the index of its start,
not the groups it asks for first, not the blocks to read ahead of it, and not the first block where
it is routed. -/
structure NothingWraps (config : NamespaceConfig) (cluster : Client.ClusterConfig) (size : Option Nat)
    (range : Range) : Prop where
  offsets : ∀ i ≤ maxU32, config.blockSize.offset i + config.blockSize.bytes < 2 ^ 64 ∧
    cluster.blockSize.offset i + cluster.blockSize.bytes < 2 ^ 64
  index : config.blockSize.InBlock range.start
  groups : ∀ request, ReadRange.StartsWith range request → ∀ window, window = config.fetchWindow ∨
    window = 1 → ∃ group, config.blockSize.firstGroup? request window = some (some group) ∧
      GroupAt config.blockSize range.start window group
  readahead : (readaheadBlocks? config size range).isSome
  routedIndex : cluster.blockSize.InBlock range.start
  routed : ∀ ifMatch ifNoneMatch, (cluster.firstOptions? ⟨some range, ifMatch, ifNoneMatch⟩).isSome

/-- Nothing wraps just if there is a block after that of the start of the range, and the blocks read
ahead of its end have indexes too. -/
theorem nothingWraps_iff (config : NamespaceConfig) (cluster : Client.ClusterConfig) (size : Option Nat)
    (range : Range) :
    NothingWraps config cluster size range ↔
      range.start < maxU32 * config.blockSize.bytes ∧ range.start < maxU32 * cluster.blockSize.bytes ∧
        config.blockSize.count range.stop + config.readahead ≤ maxU32 := by
  have hm : maxU32 = 2 ^ 32 - 1 := rfl
  have hwiden (bs : BlockSize) (h : range.start < maxU32 * bs.bytes) : bs.InBlock range.start :=
    bs.inBlock_iff.mpr (Nat.lt_of_lt_of_le h (Nat.mul_le_mul_right _ (by omega)))
  constructor
  · intro h
    refine ⟨?_, ?_, ?_⟩
    · obtain ⟨group, hgroup, hat⟩ := h.groups _ (.inl rfl) _ (.inr rfl)
      have hstop := firstGroup?_stop_le hgroup
      rw [← config.blockSize.index_lt_iff h.index, ← hat.start]
      exact Nat.lt_of_lt_of_le hat.nonempty hstop
    · obtain ⟨first, hfirst⟩ := Option.isSome_iff_exists.mp (h.routed none none)
      obtain ⟨next, hadd, -⟩ := Option.bind_eq_some_iff.mp hfirst
      exact (cluster.blockSize.index_lt_iff h.routedIndex).mp (checkedAdd_eq_some.mp hadd).1
    · obtain ⟨blocks, hblocks⟩ := Option.isSome_iff_exists.mp h.readahead
      obtain ⟨stop, hadd, -⟩ := Option.bind_eq_some_iff.mp hblocks
      exact (checkedAdd_eq_some.mp hadd).1
  · rintro ⟨hns, hcluster, hahead⟩
    have hin := hwiden _ hns
    have hrouted := hwiden _ hcluster
    refine ⟨fun i hi => ⟨config.blockSize.offset_lt hi, cluster.blockSize.offset_lt hi⟩, hin,
      fun request hr window _ => ?_, ?_, hrouted, fun ifMatch ifNoneMatch => ?_⟩
    · exact firstGroup?_spec hr ((config.blockSize.index_lt_iff hin).mpr hns) window
    · rw [readaheadBlocks?, checkedAdd_eq_some.mpr ⟨hahead, rfl⟩]
      rfl
    · have hlt := (cluster.blockSize.index_lt_iff hrouted).mpr hcluster
      unfold Client.ClusterConfig.firstOptions?
      rw [checkedAdd_eq_some.mpr ⟨hlt, rfl⟩]
      rfl

/-- With blocks of 1 MiB: the offset at 4 PiB has the index of the first block, at the last block
before it a window of one block overflows and a larger one is an empty group, a routed read
overflows there, and so does reading ahead of a range that ends there. -/
theorem offset_at_four_pebibytes :
    ¬ NothingWraps .default .default none ⟨4503599627370496, 4503599627370497⟩ ∧
    BlockSize.default.index 4503599627370496 = 0 ∧
    BlockSize.default.firstGroup? (.from 4503599626321920) 1 = none ∧
    BlockSize.default.firstGroup? (.from 4503599626321920) 8 = some (some ⟨4294967295, 4294967295⟩) ∧
    Client.ClusterConfig.default.firstOptions? ⟨some ⟨4503599626321920, 4503599626321921⟩, none, none⟩ =
      none ∧
    readaheadBlocks? .default none ⟨0, 4503599626321920⟩ = none := by
  refine ⟨fun h => ?_, by decide, by decide, by decide, by decide, by decide⟩
  have := BlockSize.inBlock_iff.mp h.index
  revert this
  decide

end Nestor
