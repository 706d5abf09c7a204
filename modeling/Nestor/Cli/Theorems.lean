import Nestor.Cli.Config
import Nestor.Read.Lemmas.Fill
import Nestor.Read.Theorems

/-!
# Configurations that truncate reads

The setters of a namespace configuration keep its windows above zero; a `[buckets]` section is
accepted with windows of zero. A reader of such a namespace finds no room for a block, and ends as
if its range were read. So does a reader past the last block that has an index, whatever the windows
are.
-/

namespace Nestor

open Lib

/-- Whenever the window is empty and there is a block to take up, `fill` takes it up. -/
def NamespaceConfig.FillsAhead (config : NamespaceConfig) : Prop :=
  ∀ (r r' : Reader) (fuel : Nat) (tr : Trace), r.ctx.namespace.config = config →
    (r.known = none → config.consistency.isImmutable) → r.stop ≤ maxU32 → r.window = [] →
    Runs (r.fill fuel) tr (pure r') → r.next < r'.stop → r'.window ≠ []

theorem NamespaceConfig.Windowed.fillsAhead {config : NamespaceConfig} (h : config.Windowed) :
    config.FillsAhead := by
  rintro r r' fuel tr rfl hmode hstop - hrun hlt hempty
  have hend := (Reader.fill_yields h hmode hstop).of_runs hrun hempty
  omega

section

variable [TagHash]

/-- Reads of unchanged objects of at most this size, with ranges that can be satisfied, yield all
bytes or an error. -/
def NamespaceConfig.ReadsWhole (config : NamespaceConfig) (size : Nat) : Prop :=
  ∀ (origin : Bytes → Bytes → Version) (ns : NamespaceState) (object : Bytes) (m : Option ObjectMeta)
    (policy : FetchPolicy) (request : ReadRange) (range : Range) (fetched : List SlotHandle)
    (fuel rounds : Nat)
    (tr : Trace), ns.config = config →
    (origin ns.name object).data.length ≤ size →
    (m = none → config.consistency.isImmutable) →
    (∀ known, m = some known → (origin ns.name object).Names known) →
    readRange (ReadCtx.new ns ⟨ns.id, object⟩ object m policy) request = some (.ok range) →
    (m = none → range.start < (origin ns.name object).data.length) →
    (servedLaw origin ns).HandlesFrom (ReadCtx.new ns ⟨ns.id, object⟩ object m policy)
      (config.blockSize.index range.start) fetched →
    Runs ((Reader.new request (ReadCtx.new ns ⟨ns.id, object⟩ object m policy) range fetched).stream
      fuel rounds) tr (pure ()) →
    (∀ d ∈ tr, Serves origin ns d.1 d.2) → yieldedError tr = false →
    yieldedBytes tr = slice (origin ns.name object).data range.start
      (min range.stop (origin ns.name object).data.length)

variable {config : NamespaceConfig} {size : Nat}

theorem NamespaceConfig.Windowed.readsWhole (h : config.Windowed)
    (hmax : size ≤ maxU32 * config.blockSize.bytes) :
    config.ReadsWhole size := by
  rintro origin ns object m policy request range fetched fuel rounds tr rfl hsize hmode hm hrange
    hinside hfetched hrun hans hok
  exact Reader.stream_whole (fun hnone => .inr (hmode hnone)) hm hrange hfetched h (hsize.trans hmax)
    hinside hrun hans hok

/-! ## Windows of zero -/

/-- A namespace with one object of one byte. -/
def oneByte (config : NamespaceConfig) : NamespaceState := ⟨0, [], config⟩

def oneByteOrigin : Bytes → Bytes → Version := fun _ _ => ⟨[1], none⟩

/-- The reader of the byte. -/
def oneByteReader (config : NamespaceConfig) (m : Option ObjectMeta) : Reader :=
  Reader.new (.bounded ⟨0, 1⟩) (ReadCtx.new (oneByte config) ⟨0, []⟩ [] m config.fetch) ⟨0, 1⟩ []

theorem oneByteReader_spec (config : NamespaceConfig) (m : Option ObjectMeta) :
    (oneByteReader config m).known = m ∧ (oneByteReader config m).ctx.namespace = oneByte config ∧
      (oneByteReader config m).ctx.key = ⟨0, []⟩ ∧ (oneByteReader config m).window = [] ∧
      (oneByteReader config m).done = false := by
  cases m <;> exact ⟨rfl, rfl, rfl, rfl, rfl⟩

theorem oneByteReader_bounds (config : NamespaceConfig) (m : Option ObjectMeta) :
    (oneByteReader config m).next < (oneByteReader config m).stop ∧
    (oneByteReader config m).stop ≤ maxU32 := by
  have hnext : (oneByteReader config m).next = 0 := by
    change addU32 (config.blockSize.index 0) 0 = 0
    rw [BlockSize.index_eq, Nat.zero_div]
    rfl
  have hstop : (oneByteReader config m).stop = config.blockSize.count 1 := rfl
  rw [hnext, hstop]
  exact ⟨config.blockSize.lt_count_iff.mpr ⟨by decide, by rw [Nat.zero_mul]; exact Nat.one_pos⟩,
    config.blockSize.count_le_maxU32 1⟩

/-- Without room in its window the reader takes nothing up: with a read window of zero if it knows
the size, and with a fetch window of zero if it does not. -/
theorem oneByteReader_stuck (h : ¬ config.Windowed) :
    ∃ m tr, (m = none → config.consistency.isImmutable = true) ∧
    (∀ known, m = some known → known = ⟨1, none, none⟩) ∧
    Runs ((oneByteReader config m).fill 1) tr (pure (oneByteReader config m)) ∧
    ∀ d ∈ tr, d = ⟨.metaAny ⟨0, []⟩, none⟩ := by
  by_cases hread : config.readWindow = 0
  · refine ⟨some ⟨1, none, none⟩, [], (fun hnone => nomatch hnone), fun known hk => (Option.some.inj hk).symm,
      ?_, fun d hd => absurd hd List.not_mem_nil⟩
    obtain ⟨hknown, hns, -⟩ := oneByteReader_spec config (some ⟨1, none, none⟩)
    rw [Reader.fill_known hknown (by rw [hns]; exact hread)]
    exact .nil
  · have hmode : config.consistency.isImmutable = true ∧ config.fetchWindow = 0 := by
      rw [NamespaceConfig.Windowed, not_and, Classical.not_imp] at h
      have h := h (Nat.pos_of_ne_zero hread)
      exact ⟨h.1, Nat.eq_zero_of_not_pos h.2⟩
    obtain ⟨hknown, hns, hkey, -⟩ := oneByteReader_spec config none
    have hfill : Runs ((oneByteReader config none).fill 1) _ _ :=
      Reader.fill_unknown hknown (by rw [hns]; exact hmode.2)
    rw [hkey] at hfill
    exact ⟨none, _, fun _ => hmode.1, (fun known hk => nomatch hk), hfill,
      fun d hd => List.mem_singleton.mp hd⟩

theorem NamespaceConfig.Windowed.of_readsWhole (h : config.ReadsWhole size) (hsize : 0 < size) :
    config.Windowed := by
  by_contra hw
  obtain ⟨m, tr, hmode, hm, hfill, hmem⟩ := oneByteReader_stuck hw
  obtain ⟨-, -, -, hwindow, hdone⟩ := oneByteReader_spec config m
  have hrun : Runs ((oneByteReader config m).stream 2 1) (tr ++ [⟨.ended, ()⟩]) (pure ()) :=
    Reader.stream_stuck hdone hfill hwindow
  have hquiet : ∀ d ∈ tr ++ [⟨.ended, ()⟩], d = ⟨.metaAny ⟨0, []⟩, none⟩ ∨ d = ⟨.ended, ()⟩ := by
    intro d hd
    rcases List.mem_append.mp hd with hd | hd
    · exact .inl (hmem d hd)
    · exact .inr (List.mem_singleton.mp hd)
  have hbytes : yieldedBytes (tr ++ [⟨.ended, ()⟩]) = [] := by
    refine List.flatMap_eq_nil_iff.mpr fun d hd => ?_
    rcases hquiet d hd with rfl | rfl <;> rfl
  have hok : yieldedError (tr ++ [⟨.ended, ()⟩]) = false := by
    refine List.any_eq_false.mpr fun d hd => ?_
    rcases hquiet d hd with rfl | rfl <;> exact Bool.false_ne_true
  have hans : ∀ d ∈ tr ++ [⟨.ended, ()⟩], Serves oneByteOrigin (oneByte config) d.1 d.2 := by
    intro d hd
    rcases hquiet d hd with rfl | rfl <;> exact trivial
  have hrange : readRange (ReadCtx.new (oneByte config) ⟨0, []⟩ [] m config.fetch) (.bounded ⟨0, 1⟩) =
      some (.ok ⟨0, 1⟩) := by
    cases m with
    | none => rfl
    | some known =>
        rw [hm known rfl]
        rfl
  have hwhole := h oneByteOrigin (oneByte config) [] m config.fetch (.bounded ⟨0, 1⟩) ⟨0, 1⟩ [] 2 1
    _ rfl hsize hmode
    (fun known hk => by rw [hm known hk]; exact ⟨rfl, rfl⟩) hrange (fun _ => Nat.one_pos)
    trivial hrun hans hok
  rw [hbytes] at hwhole
  cases hwhole

theorem NamespaceConfig.Windowed.of_fillsAhead (h : config.FillsAhead) : config.Windowed := by
  by_contra hw
  obtain ⟨m, tr, hmode, -, hfill, -⟩ := oneByteReader_stuck hw
  obtain ⟨hlt, hstop⟩ := oneByteReader_bounds config m
  obtain ⟨hknown, hns, -, hwindow, -⟩ := oneByteReader_spec config m
  refine h _ _ 1 tr (by rw [hns]; rfl) (fun hnone => hmode (hknown.symm.trans hnone)) hstop hwindow
    hfill hlt hwindow

/-! ## Blocks without an index -/

/-- The first byte after the blocks that have an index of their own. -/
def pastBlocks (config : NamespaceConfig) : Nat := maxU32 * config.blockSize.bytes

omit [TagHash] in
theorem blocks_pastBlocks (config : NamespaceConfig) :
    config.blockSize.blocks ⟨pastBlocks config, pastBlocks config + 1⟩ = ⟨maxU32, maxU32⟩ := by
  have hindex : config.blockSize.index (pastBlocks config) = maxU32 := by
    rw [BlockSize.index_eq, pastBlocks, Nat.mul_div_cancel _ config.blockSize.bytes_pos]
    rfl
  have hcount : config.blockSize.count (pastBlocks config + 1) = maxU32 := by
    refine Nat.le_antisymm (config.blockSize.count_le_maxU32 _) (Nat.le_of_pred_lt ?_)
    exact config.blockSize.lt_count_iff.mpr
      ⟨by decide, Nat.lt_succ_of_le (Nat.mul_le_mul_right _ (Nat.pred_le maxU32))⟩
  rw [BlockSize.blocks, if_neg (Nat.not_succ_le_self _), hindex, hcount]

theorem NamespaceConfig.ReadsWhole.size_le (h : config.ReadsWhole size) :
    size ≤ maxU32 * config.blockSize.bytes := by
  by_contra hlt
  have hlt : pastBlocks config < size := Nat.lt_of_not_le hlt
  have hblocks := blocks_pastBlocks config
  generalize pastBlocks config = first at hlt hblocks
  let ctx := ReadCtx.new (oneByte config) ⟨0, []⟩ [] (some ⟨size, none, none⟩) config.fetch
  let r := Reader.new (.bounded ⟨first, first + 1⟩) ctx ⟨first, first + 1⟩ []
  have hend : r.stop ≤ r.next := by
    change (config.blockSize.blocks _).stop ≤ addU32 (config.blockSize.blocks _).start 0
    rw [hblocks]
    decide
  have hfill : Runs (r.fill 1) [] (pure r) := Reader.fill_at_end (m := ⟨size, none, none⟩) rfl hend ▸ .nil
  have hrange : readRange ctx (.bounded ⟨first, first + 1⟩) = some (.ok ⟨first, first + 1⟩) := by
    change some (if first + 1 ≤ first ∨ size ≤ first then _
      else Except.ok (⟨first, min (first + 1) size⟩ : Range)) = _
    rw [if_neg (by omega), Nat.min_eq_left hlt]
  have hwhole := h (fun _ _ => ⟨List.replicate size 1, none⟩) (oneByte config) [] (some ⟨size, none, none⟩)
    config.fetch (.bounded ⟨first, first + 1⟩) ⟨first, first + 1⟩ [] 2 1 _ rfl (List.length_replicate ..).le
    (fun hnone => nomatch hnone)
    (fun known hk => by cases hk; exact ⟨(List.length_replicate ..).symm, rfl⟩) hrange
    (fun hnone => nomatch hnone) trivial
    (Reader.stream_stuck rfl hfill rfl) (List.forall_mem_singleton.mpr trivial) rfl
  have hlength : 0 = (slice (List.replicate size (1 : UInt8)) first (min (first + 1) _)).length :=
    congrArg List.length hwhole
  rw [length_slice, List.length_replicate] at hlength
  omega

/-- A namespace made from an accepted section reads objects of up to some size whole exactly if its
windows are above zero, the fetch window only where a size may be unknown, and every block of such
an object has an index. -/
theorem Cli.Buckets.namespace_reads_iff (b : Cli.Buckets) (config : NamespaceConfig)
    (h : b.namespace = .ok config) :
    (∀ size, 0 < size → (config.ReadsWhole size ↔
      (0 < b.readWindow ∧ (b.consistency.isImmutable = true → 0 < b.fetchWindow)) ∧
        size ≤ maxU32 * config.blockSize.bytes)) ∧
    (config.FillsAhead ↔ 0 < b.readWindow ∧ (b.consistency.isImmutable = true → 0 < b.fetchWindow)) := by
  obtain ⟨hfetch, hread, hmode⟩ := Cli.Buckets.namespace_eq_ok h
  rw [← hfetch, ← hread, ← hmode]
  exact ⟨fun size hsize => ⟨fun hreads => ⟨NamespaceConfig.Windowed.of_readsWhole hreads hsize,
      hreads.size_le⟩, fun hw => NamespaceConfig.Windowed.readsWhole hw.1 hw.2⟩,
    ⟨NamespaceConfig.Windowed.of_fillsAhead, NamespaceConfig.Windowed.fillsAhead⟩⟩

end

section

open Sample

/-- The section that sets the read window to zero and leaves the rest as it is. -/
def Cli.narrowBuckets : Cli.Buckets := { Cli.Buckets.default with readWindow := 0 }

/-- The section is accepted, and a read of the one byte of an object ends without an error and
without the byte. -/
theorem Cli.narrowBuckets_truncate :
    Cli.narrowBuckets.namespace = .ok { NamespaceConfig.default with readWindow := 0 } ∧
      ∃ tr, Runs ((oneByteReader { NamespaceConfig.default with readWindow := 0 }
          (some ⟨1, none, none⟩)).stream 2 1) tr (pure ()) ∧
        yieldedError tr = false ∧ yieldedBytes tr = [] ∧ slice (oneByteOrigin [] []).data 0 1 = [1] :=
  ⟨by decide, [⟨.ended, ()⟩], .cons .nil, rfl, rfl, rfl⟩

/-- The default section reads objects of up to a gibibyte whole. -/
theorem Cli.Buckets.namespace_reads_default :
    NamespaceConfig.default.ReadsWhole (2 ^ 30) ∧ NamespaceConfig.default.FillsAhead := by
  have h := Cli.Buckets.namespace_reads_iff Cli.Buckets.default NamespaceConfig.default (by decide)
  exact ⟨(h.1 (2 ^ 30) (by decide)).mpr ⟨⟨by decide, nofun⟩, by decide⟩, h.2.mpr ⟨by decide, nofun⟩⟩

end

end Nestor
