import Nestor.Engine.Lemmas.World
import Nestor.Read.Lemmas.Fill
import Nestor.Read.Theorems.Cached

/-!
# Reading back what was inserted

`insert` cuts the data into blocks and puts them into the cache under the tag of the metadata it
puts beside them. A read takes its tag from that metadata and cuts its range into the same blocks,
so it finds them all, whatever else the cache has of the object.
-/

namespace Nestor

open Lib

namespace Shared

/-- Nothing of the object has been evicted, invalidated or replaced since, or has expired. -/
structure Retains (s s' : Shared) (ns : NamespaceState) (object : Bytes) : Prop where
  entry : s'.metas ⟨ns.id, object⟩ = s.metas ⟨ns.id, object⟩
  fresh : ∀ ttl entry, ns.metaTtl = some ttl → s.metas ⟨ns.id, object⟩ = some entry → s'.now - entry.at ≤ ttl
  blocks : ∀ tag i block, s.blocks.lookup (BlockKey.new ⟨ns.id, object⟩ tag i) = some block →
    s'.blocks.lookup (BlockKey.new ⟨ns.id, object⟩ tag i) = some block

/-- A lookup finds the block that its key was given last, and nobody drops it. -/
def Finds (s : Shared) : (o : Op) → Resp o → Prop
  | .blocksGet keys, answer => ∃ i key, keys[i]? = some key ∧ answer = .ready (i, s.blocks.lookup key)
  | _, _ => True

/-- The answers to a read as long as nothing of the object is lost; the rest of the state may be
any. -/
def Undisturbed (s : Shared) (ns : NamespaceState) (object : Bytes) (o : Op) (r : Resp o) : Prop :=
  ∃ s' x after tasks, s.Retains s' ns object ∧ respond s' o x = some (r, after, tasks) ∧ s'.Finds o r

end Shared

/-! ## Inserting -/

namespace Stored

theorem insertBlocks_does (indexes : List Nat) (s : Shared) (bs : BlockSize) (key : ObjectKey) (tag : Nat)
    (m : ObjectMeta) (data : Bytes) :
    ∃ tr s', Runs (insertBlocks bs key tag m data indexes) tr (pure ()) ∧ s.Does tr s' := by
  induction indexes generalizing s with
  | nil => exact ⟨[], s, .nil, .nil⟩
  | cons index indexes ih =>
      obtain ⟨tr, s', hrun, hdo⟩ := ih (s.insertBlock (BlockKey.new key tag index)
        ⟨m, slice data (bs.blockRange index (some m.size)).start (bs.blockRange index (some m.size)).stop⟩)
      exact ⟨_, s', .cons hrun, .cons (x := .go) rfl hdo⟩

variable [TagHash] {c : Stored} {s s' : Shared} {tr : Trace}

/-- The blocks that `insert` puts into the cache are the ones found there, in place of those that
were there before. -/
theorem insertBlocks_stores {indexes : List Nat}
    (hrun : Runs (insertBlocks c.bs c.key (blockTag c.namespace.config.consistency c.meta) c.meta
      c.data indexes) tr (pure ())) (hdo : s.Does tr s') :
    s'.now = s.now ∧ ∀ i, s'.blocks.lookup (c.blockKey i) =
      if i ∈ indexes then some (c.block i) else s.blocks.lookup (c.blockKey i) := by
  induction indexes generalizing s tr with
  | nil =>
      obtain ⟨rfl, -⟩ := Runs.of_pure hrun
      cases hdo
      exact ⟨rfl, fun i => (if_neg List.not_mem_nil).symm⟩
  | cons index indexes ih =>
      obtain ⟨u, tr', rfl, hrest⟩ := Runs.of_call hrun
      obtain ⟨hnow, hblocks⟩ := ih hrest hdo.of_cons.2
      refine ⟨hnow, fun i => (hblocks i).trans ?_⟩
      change (if i ∈ indexes then some (c.block i)
        else List.lookup (c.blockKey i) ((c.blockKey index, c.block index) :: s.blocks)) = _
      by_cases hmem : i ∈ indexes
      · rw [if_pos hmem, if_pos (List.mem_cons_of_mem _ hmem)]
      · rw [if_neg hmem, List.lookup_cons]
        by_cases hi : i = index
        · rw [hi, beq_self_eq_true, if_pos List.mem_cons_self]
        · rw [if_neg fun h => (List.mem_cons.mp h).elim hi hmem,
            beq_false_of_ne fun h => hi (blockKey_inj h)]

theorem insert_stores {ns : NamespaceState} {object data : Bytes} {etag : Option Bytes}
    (hrun : Runs (insert ns object etag data) tr (pure ())) (hdo : s.Does tr s') :
    s'.metas ⟨ns.id, object⟩ = some ⟨(Stored.mk ns object data etag s.now).meta, s'.now⟩ ∧
      ∀ i < (Stored.mk ns object data etag s.now).count,
        s'.blocks.lookup ((Stored.mk ns object data etag s.now).blockKey i) =
          some ((Stored.mk ns object data etag s.now).block i) := by
  obtain ⟨now, tr₁, rfl, hrest⟩ := Runs.of_call hrun
  obtain ⟨hnow, hdo'⟩ := hdo.of_cons
  cases hnow
  obtain ⟨tr₂, tr₃, u, rfl, hblocks, hput⟩ := Runs.of_bind hrest
  obtain ⟨s₁, hdo₁, hdo₂⟩ := hdo'.of_append
  obtain ⟨hnow, hlookup⟩ := insertBlocks_stores (c := Stored.mk ns object data etag s.now) hblocks hdo₁
  obtain ⟨u', tr₄, rfl, hend⟩ := Runs.of_call hput
  obtain ⟨rfl, -⟩ := Runs.of_pure hend
  have hs' : s' = s₁.putMeta ⟨ns.id, object⟩ (Stored.mk ns object data etag s.now).meta := by
    cases hdo₂.of_cons.2
    rfl
  subst hs'
  refine ⟨Function.update_self .., fun i hi => (hlookup i).trans (if_pos (List.mem_range.mpr hi))⟩

theorem insert_does (s : Shared) (ns : NamespaceState) (object data : Bytes) (etag : Option Bytes) :
    ∃ tr s', Runs (insert ns object etag data) tr (pure ()) ∧ s.Does tr s' := by
  obtain ⟨tr, s', hrun, hdo⟩ := insertBlocks_does (List.range (ns.config.blockSize.count data.length)) s
    ns.config.blockSize ⟨ns.id, object⟩ (blockTag ns.config.consistency ⟨data.length, etag, some s.now⟩)
    ⟨data.length, etag, some s.now⟩ data
  have hput : s'.Does [⟨.metaPut ⟨ns.id, object⟩ ⟨data.length, etag, some s.now⟩, ()⟩] _ :=
    .cons (x := .go) rfl .nil
  have hclock : Runs (perform .clock) [⟨.clock, s.now⟩] (pure s.now) := .cons .nil
  exact ⟨_, _, hclock.bind (hrun.bind (.cons .nil)), .cons (x := .go) rfl (hdo.append hput)⟩

theorem found_of_stores (hmeta : s.metas c.key = some ⟨c.meta, s.now⟩)
    (hblocks : ∀ i < c.count, s.blocks.lookup (c.blockKey i) = some (c.block i)) :
    c.Found (s.Undisturbed c.namespace c.object) := by
  have hself : s.Retains s c.namespace c.object := by
    refine ⟨rfl, fun ttl entry _ hentry => ?_, fun _ _ _ h => h⟩
    cases hmeta.symm.trans hentry
    rw [Nat.sub_self]
    exact Nat.zero_le ttl
  have hgo {o : Op} {r : Resp o} (hr : respond s o .go = some (r, s.after o, o.tasks)) (hf : s.Finds o r) :
      ∃ r, s.Undisturbed c.namespace c.object o r := ⟨r, s, .go, _, _, hself, hr, hf⟩
  refine ⟨⟨hgo rfl trivial, fun r hr => ?_⟩, fun keys hne hkeys => ⟨?_, fun r hr => ?_⟩,
    fun _ => hgo rfl trivial, fun _ => hgo rfl trivial, fun _ => hgo rfl trivial, fun _ _ => hgo rfl trivial,
    fun _ _ => hgo rfl trivial, hgo rfl trivial⟩
  · -- the entry has not expired
    obtain ⟨s', x, after, tasks, hretains, hr, -⟩ := hr
    have hentry : s'.metas c.key = some ⟨c.meta, s.now⟩ := hretains.entry.trans hmeta
    have hfound : r = s'.lookupMeta c.key c.namespace.metaTtl := (respond_spec hr).2.2
    rw [hfound, Shared.lookupMeta, hentry]
    dsimp only
    cases httl : c.namespace.metaTtl with
    | none => rfl
    | some ttl =>
        have hle := hretains.fresh ttl _ httl hmeta
        dsimp only at hle ⊢
        rw [if_neg (Nat.not_lt.mpr hle)]
  · obtain ⟨key, keys, rfl⟩ := List.exists_cons_of_ne_nil hne
    obtain ⟨i, hi, rfl⟩ := hkeys key List.mem_cons_self
    have hlookup := hblocks i hi
    obtain ⟨l₁, l₂, hsplit, -⟩ := List.lookup_eq_some_iff.mp hlookup
    have hmem : (c.blockKey i, c.block i) ∈ s.blocks := hsplit ▸ List.mem_append_right _ List.mem_cons_self
    refine ⟨.ready (0, some (c.block i)), s, .found 0 (some (c.block i)), s, [], hself, ?_, 0,
      c.blockKey i, rfl, ?_⟩
    · exact if_pos hmem
    · rw [hlookup]
  · obtain ⟨s', x, after, tasks, hretains, -, j, key, hj, rfl⟩ := hr
    obtain ⟨i, hi, rfl⟩ := hkeys key (List.mem_of_getElem? hj)
    have hlookup : s'.blocks.lookup (c.blockKey i) = some (c.block i) := hretains.blocks _ i _ (hblocks i hi)
    exact ⟨j, i, hj, by rw [hlookup]⟩

end Stored

/-- After a call of `insert`, with nothing of the object evicted, invalidated or expired, a read of
any range yields the bytes of the data it resolves to, or fails as the resolution does, and asks no
origin. The range has to end where blocks can be counted. -/
theorem inserted_reads_back [TagHash] (s s' : Shared) (ns : NamespaceState) (object data : Bytes)
    (etag : Option Bytes) (request : ReadRange) (policy : FetchPolicy) (tr : Trace)
    (hread : 0 < ns.config.readWindow) (hrun : Runs (insert ns object etag data) tr (pure ()))
    (hdo : s.Does tr s') (hmax : ∀ range, request.resolve data.length = .ok range →
      range.stop ≤ maxU32 * ns.config.blockSize.bytes) :
    ∃ enough, ∀ fuel ≥ enough, (getOpts fuel ns object request policy).Leads (s'.Undisturbed ns object)
      fun tr' _ => (Stored.mk ns object data etag s.now).ReadsBack (s'.Undisturbed ns object)
        request tr' := by
  obtain ⟨hmeta, hblocks⟩ := Stored.insert_stores hrun hdo
  exact ⟨_, fun fuel hfuel => Stored.getOpts_found (Stored.found_of_stores hmeta hblocks) hread hfuel hmax⟩

theorem Stored.yields_nothing [TagHash] {c : Stored} {P : (o : Op) → Resp o → Prop} (hc : c.Found P)
    {request : ReadRange} {policy : FetchPolicy} {range : Range} (hahead : c.namespace.config.readahead = 0)
    (hrange : readRange (c.ctx policy) request = some (.ok range))
    (hend : (c.bs.blocks range).stop ≤ (c.bs.blocks range).start) :
    ∃ tr, Runs (getOpts 2 c.namespace c.object request policy) tr (pure ()) ∧ (∀ d ∈ tr, P d.1 d.2) ∧
      yieldedBytes tr = [] := by
  obtain ⟨⟨lookup, hlookup⟩, hfresh⟩ := hc.metaLookup
  obtain ⟨_, hopened⟩ := hc.opened range (some c.meta)
  obtain ⟨_, hended⟩ := hc.ended
  rw [hfresh lookup hlookup] at hlookup
  have hres : Runs (resolveCtx 2 c.namespace c.object request policy)
      [⟨.metaLookup c.key c.namespace.metaTtl, .fresh c.meta⟩] (pure (.ok (c.ctx policy, []))) := .cons .nil
  have hfill : Runs ((Reader.new request (c.ctx policy) range []).fill 1) []
      (pure (Reader.new request (c.ctx policy) range [])) := by
    rw [Stored.new_eq_readerAt, Reader.fill_at_end (m := c.meta) rfl hend]
    exact .nil
  refine ⟨[_] ++ ([⟨.opened range (some c.meta), ()⟩] ++ [⟨.ended, ()⟩]), hres.bind ?_, ?_, rfl⟩
  · dsimp only
    rw [hrange]
    dsimp only
    rw [hahead, if_neg (Nat.lt_irrefl 0)]
    exact Runs.bind (.cons .nil) (Reader.stream_stuck rfl hfill rfl)
  · exact List.forall_mem_cons.mpr ⟨hlookup, List.forall_mem_cons.mpr ⟨hopened, List.forall_mem_cons.mpr
      ⟨hended, List.forall_mem_nil _⟩⟩⟩

section

open Sample

theorem three_bytes_read_back : ∃ tr s',
    Runs (insert sampleNamespace [111] none [1, 2, 3]) tr (pure ()) ∧ Shared.init.Does tr s' ∧
    ∃ enough, ∀ fuel ≥ enough,
    (getOpts fuel sampleNamespace [111] (.bounded ⟨1, 7⟩) FetchPolicy.default).Leads
      (s'.Undisturbed sampleNamespace [111]) fun tr' _ => Served (s'.Undisturbed sampleNamespace [111])
        tr' [2, 3] := by
  obtain ⟨tr, s', hrun, hdo⟩ := Stored.insert_does Shared.init sampleNamespace [111] [1, 2, 3] none
  refine ⟨tr, s', hrun, hdo, inserted_reads_back Shared.init s' sampleNamespace [111] [1, 2, 3] none
    (.bounded ⟨1, 7⟩) FetchPolicy.default tr (by decide) hrun hdo fun range h => ?_⟩
  cases h
  decide

/-- A namespace with the smallest blocks. -/
def smallBlocks : NamespaceState :=
  ⟨0, [97], { NamespaceConfig.default with blockSize := ⟨16, by decide, by decide⟩, readahead := 0 }⟩

/-- Of an object with one byte more than there are blocks to count, the last byte is lost: the read
of it succeeds and yields nothing. -/
theorem last_byte_lost : ∃ (data : Bytes) (tr tr' : Trace) (s' : Shared),
    Runs (insert smallBlocks [111] none data) tr (pure ()) ∧ Shared.init.Does tr s' ∧
    (ReadRange.from (maxU32 * 65536)).resolve data.length = .ok ⟨maxU32 * 65536, maxU32 * 65536 + 1⟩ ∧
    slice data (maxU32 * 65536) (maxU32 * 65536 + 1) ≠ [] ∧
    Runs (getOpts 2 smallBlocks [111] (.from (maxU32 * 65536)) FetchPolicy.default) tr' (pure ()) ∧
    (∀ d ∈ tr', s'.Undisturbed smallBlocks [111] d.1 d.2) ∧ yieldedBytes tr' = [] := by
  obtain ⟨data, hsize⟩ : ∃ data : Bytes, data.length = maxU32 * 65536 + 1 :=
    ⟨List.replicate (maxU32 * 65536 + 1) 0, List.length_replicate⟩
  obtain ⟨tr, s', hrun, hdo⟩ := Stored.insert_does Shared.init smallBlocks [111] data none
  obtain ⟨hmeta, hblocks⟩ := Stored.insert_stores hrun hdo
  have hres : (ReadRange.from (maxU32 * 65536)).resolve data.length =
      .ok ⟨maxU32 * 65536, maxU32 * 65536 + 1⟩ := by
    rw [hsize, ReadRange.resolve, if_neg (by omega)]
  have hend : (smallBlocks.config.blockSize.blocks ⟨maxU32 * 65536, maxU32 * 65536 + 1⟩).stop ≤
      (smallBlocks.config.blockSize.blocks ⟨maxU32 * 65536, maxU32 * 65536 + 1⟩).start := by decide
  have hrange : readRange ((Stored.mk smallBlocks [111] data none 0).ctx FetchPolicy.default)
      (.from (maxU32 * 65536)) = some (.ok ⟨maxU32 * 65536, maxU32 * 65536 + 1⟩) := congrArg some hres
  obtain ⟨tr', hread, hans, hnothing⟩ := Stored.yields_nothing (Stored.found_of_stores hmeta hblocks)
    rfl hrange hend
  refine ⟨data, tr, tr', s', hrun, hdo, hres, fun hnil => ?_, hread, hans, hnothing⟩
  have hlen := congrArg List.length hnil
  rw [length_slice, hsize, List.length_nil] at hlen
  omega

end

end Nestor
