import Nestor.Engine.Lemmas.Lifetime
import Nestor.Engine.Theorems.Inserted

/-!
# A restart with other block sizes

The key of a block does not tell how long the blocks of its namespace were when it was cached. So a
lifetime that finds blocks on disk takes them for blocks of its own size. Reads are exact as long as
the blocks found of an object are the blocks it has at the new size.
-/

namespace Nestor

open Lib

/-- The object has one version; of the others nothing is said. -/
abbrev Steady (name object : Bytes) (v₀ : Version) (name' object' : Bytes) (v : Version) : Prop :=
  name' = name → object' = object → v = v₀

/-- The namespaces of a lifetime in which an object of `ns` has one version. An id that is not in
use goes to another name. -/
def Registry.steadyUniverse (R : Registry) (ns : NamespaceState) (object : Bytes) (v₀ : Version) :
    Universe where
  name id := (R.states[id]?).elim (ns.name ++ [0]) (·.name)
  sizes id bs := ∃ ns', R.states[id]? = some ns' ∧ bs = ns'.config.blockSize
  immutable _ := True
  versions := Steady ns.name object v₀

/-- The block was cached under a tag its metadata gives. -/
def Tagged [TagHash] (key : BlockKey) (block : Block) : Prop :=
  key.tag = immutableTag ∨ contentTag block.meta.etag block.meta.size = key.tag

namespace Registry

variable {R : Registry} {ns : NamespaceState} {object : Bytes} {v₀ : Version}

theorem knows_steadyUniverse {ns' : NamespaceState} (h : R.states[ns'.id]? = some ns') :
    (R.steadyUniverse ns object v₀).Knows ns' :=
  ⟨by simp [steadyUniverse, h], ⟨ns', h, rfl⟩, fun _ => trivial⟩

theorem has_steadyUniverse (h : R.states[ns.id]? = some ns) (v : Version) :
    (R.steadyUniverse ns object v₀).Has ns.id object v ↔ v = v₀ := by
  simp [Universe.Has, steadyUniverse, Steady, h]

theorem id_of_steadyUniverse (hnumbered : R.Numbered) (hnamed : R.Named) (hns : ns ∈ R.states)
    {id : NamespaceId} (h : (R.steadyUniverse ns object v₀).name id = ns.name) : id = ns.id := by
  unfold steadyUniverse at h
  cases hget : R.states[id]? with
  | none => simp [hget] at h
  | some ns' =>
      simp only [hget, Option.elim_some] at h
      exact (hnumbered id ns' hget).symm.trans (hnamed.id_eq hns (List.mem_of_getElem? hget) h)

variable [TagHash]

/-- The law of such a lifetime: of the other objects there may be any blocks on disk. -/
def steadyLaw (R : Registry) (ns : NamespaceState) (object : Bytes) (v₀ : Version) : Law where
  toUniverse := R.steadyUniverse ns object v₀
  Fit key block := (R.steadyUniverse ns object v₀).Exact key block ∨
    ¬ ((R.steadyUniverse ns object v₀).name key.namespace = ns.name ∧ key.object = object) ∧ Tagged key block
  fit_of_exact := .inl
  names_of_fit := by
    rintro key block (⟨-, _, v, -, hv, ht, hn, -⟩ | ⟨hother, htagged⟩)
    · exact ⟨v, hv, ht, hn⟩
    · -- any content of the size goes with the metadata
      have hn : (⟨List.replicate block.meta.size 0, block.meta.etag⟩ : Version).Names block.meta :=
        ⟨List.length_replicate.symm, rfl⟩
      exact ⟨_, fun hname hobject => absurd ⟨hname, hobject⟩ hother,
        htagged.imp (⟨·, trivial⟩) hn.contentTag_eq.symm.trans, hn⟩

theorem steadyLaw_coherent (h : R.states[ns.id]? = some ns) :
    (R.steadyLaw ns object v₀).Coherent ns.id object where
  one hv hw _ _ := by
    rw [(has_steadyUniverse h _).mp hv, (has_steadyUniverse h _).mp hw]
  cut := by
    rintro tag index block bs v hfit ⟨ns₁, hns₁, rfl⟩ hv -
    have hexact := hfit.resolve_right fun hother => hother.1 ⟨(knows_steadyUniverse h).name.symm, rfl⟩
    obtain ⟨bs', w, ⟨ns₂, hns₂, rfl⟩, hw, -, -, hd⟩ := hexact.eq_blockOf fun _ _ hv hw _ _ => by
      rw [(has_steadyUniverse h _).mp hv, (has_steadyUniverse h _).mp hw]
    obtain rfl := (has_steadyUniverse h v).mp hv
    obtain rfl := (has_steadyUniverse h w).mp hw
    cases hns₁.symm.trans hns₂
    rw [hd]
    exact List.take_of_length_le (BlockSize.length_blockOf_le ..)

end Registry

theorem Universe.Exact.tagged [TagHash] {U : Universe} {key : BlockKey} {block : Block}
    (h : U.Exact key block) :
    Tagged key block := by
  obtain ⟨-, _, v, -, -, ht, hn, -⟩ := h
  exact ht.imp And.left hn.contentTag_eq.trans

namespace World

variable [TagHash] {fuel : Nat} {ns : NamespaceState} {object : Bytes} {v₀ : Version}

/-- What a lifetime finds on disk is lawful if its blocks of the object are those at the new
size. -/
theorem restarted_lawful {R : Registry} {es : List Event} {w₁ : World} {kept : List Nat}
    (hfirst : Run (step fuel) OneLife init es w₁) (hnumbered : R.Numbered) (hnamed : R.Named)
    (hns : ns ∈ R.states) (horigin : ∀ v, some v ∈ w₁.shared.history ns.name object → v = v₀)
    (hdisk : ∀ tag index block, (⟨ns.id, tag, index, object⟩, block) ∈ (w₁.shared.restarted kept).blocks →
      v₀.Names block.meta ∧ block.data = blockOf ns.config.blockSize v₀.data index) :
    (R.steadyLaw ns object v₀).Lawful (w₁.shared.restarted kept) := by
  refine ⟨List.forall_mem_nil _, nofun, fun key block hb => ?_, nofun, nofun, ?_⟩
  · have hold : (w₁.shared.registry.universeOf fun _ _ _ => True).Exact key block := by
      obtain ⟨i, -, hi⟩ := List.mem_filterMap.mp hb
      have hsound := (lifetime_sound (hfirst.mono fun w e h => ⟨w.brings_any e, h⟩)).1
      exact hsound.inv.blocks key block (List.mem_of_getElem? hi)
    by_cases hown : (R.steadyUniverse ns object v₀).name key.namespace = ns.name ∧ key.object = object
    · obtain ⟨id, tag, index, object'⟩ := key
      obtain ⟨hname, rfl⟩ := hown
      obtain rfl := Registry.id_of_steadyUniverse hnumbered hnamed hns hname
      obtain ⟨hn, hd⟩ := hdisk tag index block hb
      have hget := hnumbered.get hns
      exact .inl (Universe.exact_of_blockOf hold.1 ⟨ns, hget, rfl⟩
        ((Registry.has_steadyUniverse hget v₀).mpr rfl)
        (hold.tagged.imp (⟨·, trivial⟩) hn.contentTag_eq.symm.trans) hn hd)
    · exact .inr ⟨hown, hold.tagged⟩
  · rintro name' object' v hv rfl rfl
    exact horigin v hv

/-- After a restart with any configurations, and with an object that stays as it is: if the blocks
of it that are found on disk are its blocks at the size its namespace has now, then a read that
comes to its end without an error has yielded the bytes asked for. -/
theorem resized_reads_exact {es₁ es₂ : List Event} {w₁ w : World} {kept : List Nat}
    (hfirst : Run (step fuel) OneLife init es₁ w₁)
    (hsecond : Run (step fuel) (fun w e => w.Brings (Steady ns.name object v₀) e ∧ w.OneLife e)
      ⟨w₁.shared.restarted kept, []⟩ es₂ w)
    (hns : ns ∈ w.shared.registry.states) (horigin : ∀ v, some v ∈ w₁.shared.history ns.name object → v = v₀)
    (hdisk : ∀ tag index block, (⟨ns.id, tag, index, object⟩, block) ∈ (w₁.shared.restarted kept).blocks →
      v₀.Names block.meta ∧ block.data = blockOf ns.config.blockSize v₀.data index)
    (hwindows : ns.config.Windowed) (hsize : v₀.data.length ≤ maxU32 * ns.config.blockSize.bytes)
    {th : Thread Task Op Resp} (hth : th ∈ w.threads) {request : ReadRange} {policy : FetchPolicy}
    (htask : th.task = .get ns object request policy) {before after : Trace}
    (hended : th.trace = before ++ ⟨.ended, ()⟩ :: after) (hok : yieldedError before = false) {range : Range}
    (hrange : request.resolve v₀.data.length = .ok range) :
    yieldedBytes before = slice v₀.data range.start range.stop := by
  have hlife : Run (step fuel) OneLife ⟨w₁.shared.restarted kept, []⟩ es₂ w :=
    hsecond.mono fun _ _ => And.right
  have hnumbered := numbered_run hlife numbered_empty
  have hget := hnumbered.get hns
  have hlawful : (w.shared.registry.steadyLaw ns object v₀).Lawful (w₁.shared.restarted kept) :=
    restarted_lawful hfirst hnumbered (named_run hlife named_empty) hns horigin hdisk
  have hstart : (outline (w.shared.registry.steadyLaw ns object v₀) fuel).Sound
      ⟨w₁.shared.restarted kept, []⟩ :=
    ⟨hlawful, List.forall_mem_nil _, .nil⟩
  have hadmits : Run (step fuel) (w.shared.registry.steadyLaw ns object v₀).Admits
      ⟨w₁.shared.restarted kept, []⟩ es₂ w :=
    run_admits (fun _ => Registry.knows_steadyUniverse) hsecond
  have hkept := ((run_sound hadmits hstart).threads th hth).kept
  rw [htask, hended] at hkept
  obtain ⟨tag, hbound, hwhole⟩ := Terms.ends_of_kept hkept hok
  have hhas : (w.shared.registry.steadyUniverse ns object v₀).Has ns.id object v₀ :=
    (Registry.has_steadyUniverse hget v₀).mpr rfl
  have hmatches : (w.shared.registry.steadyUniverse ns object v₀).Matches ns.id tag v₀ := by
    rcases hbound.right with h | ⟨v, hv, h⟩
    · exact .inl h
    · rw [(Registry.has_steadyUniverse hget v).mp hv] at h
      exact .inr h
  exact hwhole hwindows (Registry.steadyLaw_coherent hget) v₀ hhas hmatches hsize range hrange

end World

section

open Sample World

def sizedConfig (bs : BlockSize) : NamespaceConfig :=
  { NamespaceConfig.default with consistency := .immutable, blockSize := bs, readahead := 0 }

def narrowBlocks : BlockSize := smallBlocks.config.blockSize

def wideBlocks : BlockSize := ⟨17, by decide, by decide⟩

/-- A small object is inserted. -/
def smallInserted : List Event :=
  [.overwrite [97] [111] (some ⟨[1, 2, 3], none⟩), .call 0 (.insert [111] none [1, 2, 3]), .run 0 .go,
    .run 0 .go, .run 0 .go, .run 0 .go]

/-- It is read, and its block is found. -/
def smallRead : List Event :=
  [.call 0 (.get [111] (.bounded ⟨0, 3⟩) FetchPolicy.default), .run 0 .go, .run 0 .go, .run 0 .go,
    .run 0 (.found 0 (some ⟨⟨3, none, some 0⟩, [1, 2, 3]⟩)), .run 0 .go, .run 0 .go]

theorem resized_reads_exact_small : ∃ (w : World) (th : Thread Task Op Resp) (before after : Trace),
    th ∈ w.threads ∧ th.trace = before ++ ⟨.ended, ()⟩ :: after ∧ yieldedBytes before = slice [1, 2, 3]
      0 3 := by
  obtain ⟨w₁, hw₁, hblocks, hhistory, w, hw, hns, th, hth, hreads, hended, hok⟩ :
      ∃ w₁ ∈ runEvents (checked (fun w e => decide (OneLife w e)) (step 5)) init
        (.register [97] (sizedConfig narrowBlocks) :: smallInserted),
      (w₁.shared.restarted [0]).blocks = [(⟨0, immutableTag, 0, [111]⟩, ⟨⟨3, none, some 0⟩, [1, 2, 3]⟩)] ∧
      w₁.shared.history [97] [111] = [some ⟨[1, 2, 3], none⟩] ∧
      ∃ w ∈ runEvents (checked (fun w e => decide (Brings (Steady [97] [111] ⟨[1, 2, 3], none⟩) w e ∧
        OneLife w e)) (step 5)) ⟨w₁.shared.restarted [0],
        []⟩ (.register [97] (sizedConfig wideBlocks) :: smallRead), ⟨0, [97], sizedConfig wideBlocks⟩ ∈
          w.shared.registry.states ∧ ∃ th ∈ w.threads[0]?, th.task.reads ⟨0, [97], sizedConfig wideBlocks⟩
            [111] (.bounded ⟨0, 3⟩) = true ∧ streamEnded th.trace = true ∧ yieldedError th.trace = false := by
    decide
  obtain ⟨policy, htask⟩ := Task.reads_iff.mp hreads
  obtain ⟨before, after, htrace, hbefore⟩ := split_of_streamEnded hended hok
  refine ⟨w, th, before, after, List.mem_of_getElem? hth, htrace, ?_⟩
  refine resized_reads_exact (.of_decided hw₁) (.of_decided hw) hns ?_ ?_ ⟨by decide, fun _ => by decide⟩
    (by decide) (List.mem_of_getElem? hth) htask htrace hbefore rfl
  · simp [hhistory]
  · intro tag index block hb
    rw [hblocks] at hb
    cases List.mem_singleton.mp hb
    exact ⟨⟨rfl, rfl⟩, by decide⟩

/-- What a read finds if the cache has the first block only. -/
def shortTrace (block : Block) : Trace :=
  [⟨.metaLookup ⟨0, [111]⟩ none, .missing⟩, ⟨.opened ⟨0, 65537⟩ none, ()⟩, ⟨.metaAny ⟨0, [111]⟩, none⟩,
    ⟨.blocksGet [⟨0, immutableTag, 0, [111]⟩], .ready (0, some block)⟩,
      ⟨.item (some block.meta) (.ok block.data), ()⟩]

/-- A block that is shorter than the blocks of the namespace is the last one of a read. -/
theorem deliver_short {r : Reader} {block : Block} (hbs : r.ctx.namespace.config.blockSize = wideBlocks)
    (hrange : r.range = ⟨0, 65537⟩) (hlen : block.data.length = 65536) :
    r.deliver 0 block = ({ r with done := true }, some (.ok block.data)) := by
  have hwithin : wideBlocks.sliceWithin 0 ⟨0, 65537⟩ = ⟨0, 65537⟩ := by decide
  have hbytes : wideBlocks.bytes = 131072 := by decide
  have hgiven : ¬ (block.data = [] ∨ block.data.length ≤ 0) := by
    rintro (h | h)
    · cases (congrArg List.length h).symm.trans hlen
    · omega
  simp only [Reader.deliver, hbs, hrange, hwithin, hbytes]
  rw [if_neg hgiven, decide_eq_true (.inl (by omega)), Bool.or_true, Nat.min_eq_right (by omega)]
  simp [slice]

/-- The reader of the range, when it has taken its only block out of the window. -/
def wideReader : Reader :=
  { Reader.new (.bounded ⟨0, 65537⟩) (ReadCtx.new ⟨0, [97], sizedConfig wideBlocks⟩ ⟨0, [111]⟩ [111] none
      FetchPolicy.default) ⟨0, 65537⟩ [] with next := 1, emit := 1 }

theorem short_block_read {block : Block} (hsize : block.meta.size = 65537)
    (hlen : block.data.length = 65536) :
    Runs (getOpts 3 ⟨0, [97], sizedConfig wideBlocks⟩ [111] (.bounded ⟨0, 65537⟩) FetchPolicy.default)
      (shortTrace block ++ [⟨.ended, ()⟩]) (pure ()) := by
  have hlearnt : (wideReader.learnt block.meta).range = ⟨0, 65537⟩ := by
    change (⟨0, min 65537 block.meta.size⟩ : Range) = _
    rw [hsize]
    rfl
  refine .cons (.cons (.cons (.cons ?_)))
  change Runs ((pure ((wideReader.learnt block.meta).deliver 0 block) : Program _) >>= _) _ _
  rw [deliver_short rfl hlearnt hlen]
  exact .cons (.cons .nil)

theorem short_block_does {s : Shared} {block : Block} (hmeta : s.metas ⟨0, [111]⟩ = none)
    (hmem : (⟨0, immutableTag, 0, [111]⟩, block) ∈ s.blocks) :
    s.Does (shortTrace block ++ [⟨.ended, ()⟩]) s := by
  have hlookup : respond s (.metaLookup ⟨0, [111]⟩ none) .go = some (.missing, s, []) := by
    simp [respond, Shared.lookupMeta, hmeta]
  have hany : respond s (.metaAny ⟨0, [111]⟩) .go = some (none, s, []) := by simp [respond, hmeta]
  exact .cons hlookup (.cons (x := .go) rfl (.cons hany (.cons (x := .found 0 (some block)) (if_pos hmem)
    (.cons (x := .go) rfl (.cons (x := .go) rfl .nil)))))

theorem inserted_run (config : NamespaceConfig) (data : Bytes) (hdata : 0 < data.length) : ∃ es w,
    Run (step 3) (fun w e => w.Brings (Steady [97] [111] ⟨data, none⟩) e ∧ w.OneLife e) init es w ∧
    ⟨0, [97], config⟩ ∈ w.shared.registry.states ∧
    (w.shared.history [97] [111]).head? = some (some ⟨data, none⟩) ∧
    ((Stored.mk ⟨0, [97], config⟩ [111] data none 0).blockKey 0,
      (Stored.mk ⟨0, [97], config⟩ [111] data none 0).block 0) ∈ w.shared.blocks := by
  let s := (Shared.init.registerNamespace [97] config).noteInsert [97] (.insert [111] none data)
  obtain ⟨tr, s₁, hinsert, hdo⟩ := Stored.insert_does s ⟨0, [97], config⟩ [111] data none
  have hcount : 0 < (Stored.mk ⟨0, [97], config⟩ [111] data none 0).count :=
    config.blockSize.lt_count_iff.mpr ⟨by decide, by rwa [Nat.zero_mul]⟩
  have hlookup := (Stored.insert_stores hinsert hdo).2 0 hcount
  obtain ⟨l₁, l₂, hsplit, -⟩ := List.lookup_eq_some_iff.mp hlookup
  obtain ⟨es, w, hrun, rfl, -⟩ := run_of_does 3
    (fun w e => w.Brings (Steady [97] [111] ⟨data, none⟩) e ∧ w.OneLife e) (i := 0)
    (w := ⟨s, [(system 3).begin (.insert ⟨0, [97], config⟩ [111] none data)]⟩) (fun _ _ => ⟨trivial, trivial⟩)
    rfl (hinsert.bind (.cons .nil)) (hdo.append (.cons (x := .go) rfl .nil))
  have hbrings : Run (step 3) (fun w e => w.Brings (Steady [97] [111] ⟨data, none⟩) e ∧ w.OneLife e) init
      (.register [97] config :: .call 0 (.insert [111] none data) ::
      (es ++ [.overwrite [97] [111] (some ⟨data, none⟩)]))
      { w with shared := w.shared.setVersion [97] [111] (some ⟨data, none⟩) } := by
    refine .cons ⟨trivial, Nat.two_pow_pos 32⟩ rfl (.cons ⟨fun _ _ _ _ => rfl, trivial⟩ rfl
      (hrun.append (.cons ⟨?_, trivial⟩ rfl .nil)))
    rintro v ⟨⟩ - -
    rfl
  refine ⟨_, _, hbrings, ?_, ?_, hsplit ▸ List.mem_append_right _ List.mem_cons_self⟩
  · exact (states_kept (hrun.mono fun _ _ => And.right)).subset List.mem_cons_self
  · simp [Shared.setVersion]

/-- An object is cached in blocks of 64 KiB, and read after a restart with blocks of 128 KiB. The
first block that is found on disk is shorter than a block is now, so the read takes it for the end
of the object: it succeeds and yields 65536 of 65537 bytes. -/
theorem resized_read_short : ∃ (data : Bytes) (es₁ es₂ : List Event) (kept : List Nat) (w₁ w : World)
    (th : Thread Task Op Resp) (before : Trace),
    Run (step 3) (fun w e => w.Brings (Steady [97] [111] ⟨data, none⟩) e ∧ w.OneLife e) init es₁ w₁ ∧
    ⟨0, [97], sizedConfig narrowBlocks⟩ ∈ w₁.shared.registry.states ∧
    (w₁.shared.history [97] [111]).head? = some (some ⟨data, none⟩) ∧
    Run (step 3) (fun w e => w.Brings (Steady [97] [111] ⟨data, none⟩) e ∧ w.OneLife e)
      ⟨w₁.shared.restarted kept, []⟩ es₂ w ∧
    ⟨0, [97], sizedConfig wideBlocks⟩ ∈ w.shared.registry.states ∧ th ∈ w.threads ∧
    th.task = .get ⟨0, [97], sizedConfig wideBlocks⟩ [111] (.bounded ⟨0, 65537⟩) FetchPolicy.default ∧
    th.prog = pure () ∧ th.trace = before ++ [⟨.ended, ()⟩] ∧ yieldedError before = false ∧
    (ReadRange.bounded ⟨0, 65537⟩).resolve data.length = .ok ⟨0, 65537⟩ ∧
    yieldedBytes before = slice data 0 65536 ∧ yieldedBytes before ≠ slice data 0 65537 := by
  obtain ⟨data, hsize⟩ : ∃ data : Bytes, data.length = 65537 :=
    ⟨List.replicate 65537 0, List.length_replicate⟩
  obtain ⟨es₁, w₁, hfirst, hstates, hhistory, hmem⟩ := inserted_run (sizedConfig narrowBlocks) data (by omega)
  obtain ⟨i, hi⟩ := List.mem_iff_getElem?.mp hmem
  have hblock : (Stored.mk ⟨0, [97], sizedConfig narrowBlocks⟩ [111] data none 0).block 0 =
      ⟨⟨data.length, none, some 0⟩, slice data 0 65536⟩ := by
    have hrange : narrowBlocks.blockRange 0 (some 65537) = ⟨0, 65536⟩ := by decide
    change (⟨⟨data.length, none, some 0⟩, slice data (narrowBlocks.blockRange 0 (some data.length)).start
      (narrowBlocks.blockRange 0 (some data.length)).stop⟩ : Block) = _
    rw [hsize, hrange]
  rw [hblock] at hi
  have hlen : (slice data 0 65536).length = 65536 := by
    rw [length_slice, hsize]
    rfl
  have hfound : (⟨0, immutableTag, 0, [111]⟩, ⟨⟨data.length, none, some 0⟩, slice data 0 65536⟩) ∈
      ((w₁.shared.restarted [i]).registerNamespace [97] (sizedConfig wideBlocks)).blocks := by
    change _ ∈ [i].filterMap (w₁.shared.blocks[·]?)
    rw [List.filterMap_cons_some hi]
    exact List.mem_cons_self
  obtain ⟨es, w, hrun, -, hth⟩ := run_of_does 3
    (fun w e => w.Brings (Steady [97] [111] ⟨data, none⟩) e ∧ w.OneLife e) (i := 0)
    (w := ⟨(w₁.shared.restarted [i]).registerNamespace [97] (sizedConfig wideBlocks),
      [(system 3).begin (.get ⟨0, [97], sizedConfig wideBlocks⟩ [111] (.bounded ⟨0, 65537⟩)
        FetchPolicy.default)]⟩)
    (fun _ _ => ⟨trivial, trivial⟩) rfl (short_block_read hsize hlen) (short_block_does rfl hfound)
  have hsecond : Run (step 3) (fun w e => w.Brings (Steady [97] [111] ⟨data, none⟩) e ∧ w.OneLife e)
      ⟨w₁.shared.restarted [i], []⟩ (.register [97] (sizedConfig wideBlocks) ::
        .call 0 (.get [111] (.bounded ⟨0, 65537⟩) FetchPolicy.default) :: es) w :=
    .cons ⟨trivial, Nat.two_pow_pos 32⟩ rfl (.cons ⟨trivial, trivial⟩ rfl hrun)
  have hbytes : yieldedBytes (shortTrace ⟨⟨data.length, none, some 0⟩, slice data 0 65536⟩) =
      slice data 0 65536 :=
    List.append_nil _
  have hrange : (ReadRange.bounded ⟨0, 65537⟩).resolve data.length = .ok ⟨0, 65537⟩ := by
    rw [hsize]
    rfl
  refine ⟨data, es₁, _, [i], w₁, w, _, _, hfirst, hstates, hhistory, hsecond, ?_, List.mem_of_getElem? hth,
    rfl, rfl, rfl,
    rfl, hrange, hbytes, fun heq => ?_⟩
  · exact (states_kept (hrun.mono fun _ _ => And.right)).subset List.mem_cons_self
  · have := congrArg List.length (hbytes.symm.trans heq)
    rw [hlen, length_slice, hsize] at this
    omega

end

end Nestor
