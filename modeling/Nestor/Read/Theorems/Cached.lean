import Nestor.Core.Theorems.Block
import Nestor.Read.Theorems

/-!
# A read of an object that is in the cache

Whoever finds the metadata of an object and all of its blocks in the cache reads it from there: each
lookup gives a block, so nothing is registered and nothing fetched, and the stream yields the parts
of the blocks one after the other.
-/

namespace Nestor

open Lib

/-- All that was done were lookups of blocks. -/
def Lookups (tr : Trace) : Prop := ∀ d ∈ tr, ∃ keys, d.1 = .blocksGet keys

theorem Lookups.append {tr tr' : Trace} (h : Lookups tr) (h' : Lookups tr') : Lookups (tr ++ tr') :=
  fun d hd => (List.mem_append.mp hd).elim (h d) (h' d)

theorem Lookups.nil : Lookups [] := List.forall_mem_nil _

/-- The operations of a stream that gets its blocks from the cache and yields no error. -/
def Op.served : Op → Bool
  | .metaLookup _ _ | .blocksGet _ | .readaheadObserve _ _ | .opened _ _ | .item _ (.ok _) | .ended => true
  | _ => false

theorem Lookups.yieldedBytes {tr : Trace} (h : Lookups tr) : yieldedBytes tr = [] := by
  refine List.flatMap_eq_nil_iff.mpr fun d hd => ?_
  obtain ⟨o, r⟩ := d
  obtain ⟨keys, rfl⟩ := h _ hd
  rfl

/-- The operation is one of those, or starts a task that does nothing but look up blocks. -/
def FromCache [TagHash] (P : (o : Op) → Resp o → Prop) (o : Op) : Prop :=
  o.served = true ∨ ∃ task, o = .spawn task ∧ ∀ fuel, (program fuel task).Leads P fun tr _ => Lookups tr

/-- A trace of a read that yields these bytes from the cache and ends. -/
structure Served [TagHash] (P : (o : Op) → Resp o → Prop) (tr : Trace) (bytes : Bytes) : Prop where
  bytes : yieldedBytes tr = bytes
  ended : ⟨.ended, ()⟩ ∈ tr
  cached : ∀ d ∈ tr, FromCache P d.1

section

variable [TagHash] {P : (o : Op) → Resp o → Prop} {tr tr' : Trace} {bytes : Bytes}

theorem Lookups.cached (h : Lookups tr) : ∀ d ∈ tr, FromCache P d.1 := by
  intro d hd
  obtain ⟨keys, hkeys⟩ := h d hd
  rw [hkeys]
  exact .inl rfl

theorem Served.after (h : Served P tr' bytes) (hbefore : yieldedBytes tr = [])
    (hcached : ∀ d ∈ tr, FromCache P d.1) :
    Served P (tr ++ tr') bytes :=
  ⟨by rw [yieldedBytes_append, hbefore, h.bytes, List.nil_append], List.mem_append_right _ h.ended,
    fun d hd => (List.mem_append.mp hd).elim (hcached d) (h.cached d)⟩

theorem Served.item (h : Served P tr bytes) (known : Option ObjectMeta) (chunk : Bytes) :
    Served P (⟨.item known (.ok chunk), ()⟩ :: tr) (chunk ++ bytes) :=
  ⟨congrArg (chunk ++ ·) h.bytes, List.mem_cons_of_mem _ h.ended,
    List.forall_mem_cons.mpr ⟨.inl rfl, h.cached⟩⟩

end

/-- An object as a call of `insert` leaves it in the cache. -/
structure Stored where
  «namespace» : NamespaceState
  object : Bytes
  data : Bytes
  etag : Option Bytes
  created : Nat

namespace Stored

variable (c : Stored)

def key : ObjectKey := ⟨c.namespace.id, c.object⟩

def «meta» : ObjectMeta := ⟨c.data.length, c.etag, some c.created⟩

def bs : BlockSize := c.namespace.config.blockSize

/-- The number of its blocks. -/
def count : Nat := c.bs.count c.data.length

def block (i : Nat) : Block :=
  let range := c.bs.blockRange i (some c.data.length)
  ⟨c.meta, slice c.data range.start range.stop⟩

/-- The range lies in the object, and no further than its blocks can be counted. -/
structure Within (c : Stored) (range : Range) : Prop where
  shape : range.start < range.stop ∨ range = ⟨0, 0⟩
  stop : range.stop ≤ c.data.length
  max : range.stop ≤ maxU32 * c.bs.bytes

section

variable {c} {range : Range}

theorem Within.blocks_le (h : c.Within range) : (c.bs.blocks range).stop ≤ c.count := by
  rw [c.bs.blocks_eq h.shape]
  exact c.bs.count_mono h.stop

theorem Within.first_le (h : c.Within range) : (c.bs.blocks range).start ≤ (c.bs.blocks range).stop := by
  rcases h.shape with hlt | rfl
  · have hm : maxU32 = 2 ^ 32 - 1 := rfl
    have hmax := h.max
    obtain ⟨hlo, hhi⟩ := c.bs.index_spec (o := range.start)
      (Nat.lt_of_lt_of_le hlt (hmax.trans (Nat.mul_le_mul_right _ (by omega))))
    rw [c.bs.blocks_eq h.shape]
    refine Nat.le_of_lt (((BlockSize.mem_blocks_iff hlt hmax).mpr (And.intro ?_ ?_)).2.trans_eq ?_)
    · exact hhi
    · exact Nat.lt_of_le_of_lt hlo hlt
    · rw [c.bs.blocks_eq h.shape]
  · exact Nat.le_refl _

theorem Within.meets {i : Nat} (hw : c.Within range) (hlo : (c.bs.blocks range).start ≤ i)
    (hhi : i < (c.bs.blocks range).stop) :
    range.start < range.stop ∧ range.start < (i + 1) * c.bs.bytes ∧ i * c.bs.bytes < range.stop ∧
    i < maxU32 := by
  rcases hw.shape with hlt | rfl
  · obtain ⟨hstart, hstop⟩ := (BlockSize.mem_blocks_iff hlt hw.max).mp ⟨hlo, hhi⟩
    exact ⟨hlt, hstart, hstop, Nat.lt_of_lt_of_le hhi (hw.blocks_le.trans (c.bs.count_le_maxU32 _))⟩
  · exact absurd hhi (Nat.not_lt_zero i)

theorem length_block {i : Nat} (hmax : i < maxU32) :
    (c.block i).data.length = (c.bs.blockRange i (some c.data.length)).count := by
  rw [c.bs.blockRange_count hmax]
  change (slice c.data (c.bs.blockRange i (some c.data.length)).start
    (c.bs.blockRange i (some c.data.length)).stop).length = _
  rw [c.bs.blockRange_eq hmax, length_slice]
  dsimp only
  rw [Nat.min_assoc, Nat.min_self]

/-- A block that is not full is the last one of every range. -/
theorem Within.last_of_short (hw : c.Within range) {i : Nat} (hmax : i < maxU32)
    (hshort : (c.block i).data.length < c.bs.bytes) :
    (c.bs.blocks range).stop ≤ i + 1 := by
  rw [length_block hmax, c.bs.blockRange_count hmax, Nat.add_mul, Nat.one_mul] at hshort
  rw [c.bs.blocks_eq hw.shape]
  refine Nat.le_of_not_lt fun hlt => ?_
  have hnext := (c.bs.lt_count_iff.mp hlt).2
  rw [Nat.add_mul, Nat.one_mul] at hnext
  have := hw.stop
  omega

end

variable [TagHash]

def blockKey (i : Nat) : BlockKey := BlockKey.new c.key (blockTag c.namespace.config.consistency c.meta) i

/-- The answers `P` to the operations of a read are those of a cache that has the object. -/
structure Found (P : (o : Op) → Resp o → Prop) : Prop where
  metaLookup : (∃ r, P (.metaLookup c.key c.namespace.metaTtl) r) ∧
    ∀ r, P (.metaLookup c.key c.namespace.metaTtl) r → r = .fresh c.meta
  blocksGet : ∀ keys, keys ≠ [] → (∀ key ∈ keys, ∃ i < c.count, key = c.blockKey i) →
    (∃ r, P (.blocksGet keys) r) ∧
      ∀ r, P (.blocksGet keys) r → ∃ j i, keys[j]? = some (c.blockKey i) ∧ r = .ready (j, some (c.block i))
  observe : ∀ range, ∃ r, P (.readaheadObserve c.key range) r
  spawn : ∀ task, ∃ r, P (.spawn task) r
  failed : ∀ e, ∃ r, P (.failed e) r
  opened : ∀ range known, ∃ r, P (.opened range known) r
  item : ∀ known item, ∃ r, P (.item known item) r
  ended : ∃ r, P .ended r

variable {c} {P : (o : Op) → Resp o → Prop}

theorem blockKey_inj {i j : Nat} (h : c.blockKey i = c.blockKey j) : i = j := congrArg BlockKey.index h

/-! ## Scheduling -/

theorem lookups_found (hc : c.Found P) {n : Nat} {keys : List BlockKey}
    {found : List (BlockKey × Option Block)} (hn : n = keys.length)
    (hkeys : ∀ key ∈ keys, ∃ i < c.count, key = c.blockKey i) :
    (lookups n keys found).Leads P fun tr out => Lookups tr ∧ ∃ new, out = some (new ++ found) ∧
      (∀ p ∈ new, ∃ i, p = (c.blockKey i, some (c.block i))) ∧ ∀ key ∈ keys, key ∈ new.map (·.1) := by
  induction n generalizing keys found with
  | zero =>
      rw [List.length_eq_zero_iff.mp hn.symm]
      exact ⟨.nil, [], rfl, List.forall_mem_nil _, List.forall_mem_nil _⟩
  | succ n ih =>
      have hne : keys ≠ [] := by
        rintro rfl
        cases hn
      obtain ⟨hsome, hget⟩ := hc.blocksGet keys hne hkeys
      refine .step hsome fun answer hr => ?_
      obtain ⟨j, i, hj, rfl⟩ := hget answer hr
      dsimp only
      rw [hj]
      obtain ⟨hlt, hat⟩ := List.getElem?_eq_some_iff.mp hj
      have hlen : n = (keys.eraseIdx j).length := by rw [List.length_eraseIdx_of_lt hlt]; omega
      refine (ih hlen fun key hk => hkeys key (List.mem_of_mem_eraseIdx hk)).mono fun tr out h => ?_
      obtain ⟨htr, new, rfl, hnew, hall⟩ := h
      refine ⟨?_, new ++ [(c.blockKey i, some (c.block i))], by simp, ?_, fun key hk => ?_⟩
      · exact fun d hd => (List.mem_cons.mp hd).elim (fun h => ⟨keys, h ▸ rfl⟩) (htr d)
      · intro p hp
        rcases List.mem_append.mp hp with hp | hp
        · exact hnew p hp
        · exact ⟨i, List.mem_singleton.mp hp⟩
      · rw [List.map_append, List.mem_append]
        have hperm := List.getElem_cons_eraseIdx_perm hlt
        rcases List.mem_cons.mp (hperm.mem_iff.mpr hk) with rfl | hk
        · exact .inr (by rw [hat]; exact List.mem_singleton_self _)
        · exact .inl (hall key hk)

theorem joinAll_found (hc : c.Found P) {indexes : List Nat} (hi : ∀ i ∈ indexes, i < c.count) :
    (joinAll (indexes.map c.blockKey)).Leads P fun tr out => Lookups tr ∧
      out = some (indexes.map fun i => (c.blockKey i, some (c.block i))) := by
  have hkeys : ∀ key ∈ indexes.map c.blockKey, ∃ i < c.count, key = c.blockKey i := by
    intro key hk
    obtain ⟨i, hmem, rfl⟩ := List.mem_map.mp hk
    exact ⟨i, hi i hmem, rfl⟩
  refine (lookups_found hc rfl hkeys).bind fun tr out h => ?_
  obtain ⟨htr, new, rfl, hnew, hall⟩ := h
  refine ⟨by rwa [List.append_nil], ?_⟩
  rw [List.append_nil, List.map_map]
  congr 1
  refine List.map_congr_left fun i hmem => ?_
  -- whatever the order in which the lookups completed, the key has its own block
  obtain ⟨q, hq, hqi⟩ := List.mem_map.mp (hall _ (List.mem_map_of_mem hmem))
  obtain ⟨result, hresult⟩ := Option.isSome_iff_exists.mp
    (List.lookup_isSome_iff.mpr ⟨q, hq, beq_iff_eq.mpr hqi.symm⟩)
  obtain ⟨l₁, l₂, rfl, -⟩ := List.lookup_eq_some_iff.mp hresult
  obtain ⟨j, hj⟩ := hnew _ (List.mem_append_right _ List.mem_cons_self)
  obtain ⟨hkey, rfl⟩ := Prod.mk.inj hj
  rw [Function.comp_apply, hresult, Option.join_some, blockKey_inj hkey]

def handle (c : Stored) (i : Nat) : SlotHandle := .resolved (.ok (c.block i))

theorem registerMisses_found (indexes : List Nat) :
    registerMisses (indexes.map fun i => (c.blockKey i, some (c.block i))) =
      pure (indexes.map c.handle, []) := by
  induction indexes with
  | nil => rfl
  | cons i indexes ih =>
      unfold registerMisses
      rw [List.map_cons]
      dsimp only
      rw [ih]
      rfl

/-- The context of a read of the object. -/
def ctx (c : Stored) (policy : FetchPolicy) : ReadCtx :=
  ReadCtx.new c.namespace c.key c.object (some c.meta) policy

theorem schedule_found (hc : c.Found P) {policy : FetchPolicy} {priority : Priority} {indexes : Range}
    (hstop : indexes.stop ≤ c.count) :
    (schedule (c.ctx policy) indexes priority).Leads P fun tr handles => Lookups tr ∧
      handles = (List.range' indexes.start indexes.count).map c.handle := by
  unfold schedule
  have hi : ∀ i ∈ List.range' indexes.start indexes.count, i < c.count := by
    intro i hi
    have := List.mem_range'_1.mp hi
    have hcount : indexes.count = indexes.stop - indexes.start := rfl
    omega
  refine Prog.Leads.bind (joinAll_found hc hi) fun tr out h => ?_
  obtain ⟨htr, rfl⟩ := h
  dsimp only
  rw [registerMisses_found]
  exact ⟨by rwa [List.append_nil], rfl⟩

/-! ## The reader -/

section

variable (c) (request : ReadRange) (policy : FetchPolicy) (range : Range)

/-- The reader of a range of the object, with the blocks from `emit` up to `next` in its window. -/
def readerAt (emit next : Nat) (done : Bool) : Reader :=
  { Reader.new request (c.ctx policy) range [] with
    emit := emit, next := next, window := (List.range' emit (next - emit)).map c.handle, done := done }

theorem new_eq_readerAt : Reader.new request (c.ctx policy) range [] =
    c.readerAt request policy range (c.bs.blocks range).start (c.bs.blocks range).start false := by
  have hfirst : addU32 (c.bs.blocks range).start (toU32 0) = (c.bs.blocks range).start := by
    have hlt : (c.bs.blocks range).start < 2 ^ 32 := by
      unfold BlockSize.blocks
      split
      · exact Nat.two_pow_pos 32
      · exact Nat.mod_lt _ (Nat.two_pow_pos 32)
    rw [show toU32 0 = 0 from rfl, addU32_of_lt hlt]
    rfl
  unfold readerAt
  rw [Nat.sub_self]
  unfold Reader.new
  dsimp only
  congr 1

end

variable {request : ReadRange} {policy : FetchPolicy} {range : Range} {emit next fuel : Nat} {done : Bool}

theorem window_eq_nil_iff : (c.readerAt request policy range emit next done).window = [] ↔ next ≤ emit := by
  change (List.range' emit (next - emit)).map c.handle = [] ↔ next ≤ emit
  rw [List.map_eq_nil_iff, List.range'_eq_nil_iff]
  omega

theorem length_window : (c.readerAt request policy range emit next done).window.length = next - emit := by
  change ((List.range' emit (next - emit)).map c.handle).length = next - emit
  rw [List.length_map, List.length_range']

theorem extend_readerAt (h : emit ≤ next) (take : Nat) :
    (c.readerAt request policy range emit next done).extend take ((List.range' next take).map c.handle) =
      c.readerAt request policy range emit (next + take) done := by
  have hwindow : (List.range' emit (next - emit)).map c.handle ++ (List.range' next take).map c.handle =
      (List.range' emit (next + take - emit)).map c.handle := by
    have happend : List.range' emit (next - emit) ++ List.range' (emit + (next - emit)) take =
        List.range' emit (next - emit + take) := List.range'_append_1
    rw [Nat.add_sub_cancel' h] at happend
    rw [← List.map_append, happend, Nat.sub_add_comm h]
  unfold Reader.extend readerAt
  rw [← hwindow]

theorem extend_found (request : ReadRange) (done : Bool) (hc : c.Found P) (hw : c.Within range)
    (hle : emit ≤ next) {take : Nat} (hstop : next + take ≤ (c.bs.blocks range).stop) :
    (schedule (c.ctx policy) ⟨next, next + take⟩ .foreground).Leads P fun tr handles => Lookups tr ∧
      (c.readerAt request policy range emit next done).extend take handles =
        c.readerAt request policy range emit (next + take) done := by
  have hindexes : (Range.mk next (next + take)).stop ≤ c.count := hstop.trans hw.blocks_le
  refine (schedule_found hc hindexes).mono fun tr handles h => ⟨h.1, ?_⟩
  rw [h.2, ← extend_readerAt hle take]
  congr 3
  exact Nat.add_sub_cancel_left next take

theorem takeMore_found (hc : c.Found P) (hw : c.Within range) {limit : Nat} (hle : emit ≤ next)
    (hlt : next < (c.bs.blocks range).stop) :
    ((c.readerAt request policy range emit next done).takeMore limit).Leads P fun tr out => Lookups tr ∧
      ∃ next', out.1 = c.readerAt request policy range emit next' done ∧ next ≤ next' ∧
        next' ≤ (c.bs.blocks range).stop ∧ emit < next' ∧ (out.2 = true → next < next') := by
  have hmax := hw.blocks_le.trans (c.bs.count_le_maxU32 _)
  obtain ⟨hpos, hstop, -⟩ := alignedTake_spec hlt hmax c.namespace.config.fetchWindow
  unfold Reader.takeMore
  dsimp only
  split
  · rename_i hfull
    have hemit : emit < next := Nat.lt_of_not_le fun h => hfull.1 (window_eq_nil_iff.mpr h)
    exact ⟨.nil, next, rfl, Nat.le_refl _, Nat.le_of_lt hlt, hemit, fun h => Bool.noConfusion h⟩
  · refine Prog.Leads.bind (extend_found request done hc hw hle hstop) fun tr handles h => ?_
    obtain ⟨htr, hextend⟩ := h
    refine ⟨by rwa [List.append_nil], _, hextend, Nat.le_add_right _ _, hstop, ?_,
      fun _ => Nat.lt_add_of_pos_right hpos⟩
    exact Nat.lt_of_le_of_lt hle (Nat.lt_add_of_pos_right hpos)

theorem fillLoop_found (hc : c.Found P) (hw : c.Within range) {limit : Nat} (hlimit : 0 < limit)
    (hle : emit ≤ next) (hnext : next ≤ (c.bs.blocks range).stop) (hfuel : limit ≤ fuel + (next - emit)) :
    (Reader.fillLoop limit (fuel + 1) (c.readerAt request policy range emit next done)).Leads P fun tr r' =>
      Lookups tr ∧ ∃ next', r' = c.readerAt request policy range emit next' done ∧ next ≤ next' ∧
        next' ≤ (c.bs.blocks range).stop ∧ (emit < (c.bs.blocks range).stop → emit < next') := by
  induction fuel generalizing next with
  | zero =>
      unfold Reader.fillLoop
      rw [if_neg]
      · exact ⟨.nil, next, rfl, Nat.le_refl _, hnext, by omega⟩
      · rw [length_window]
        omega
  | succ fuel ih =>
      unfold Reader.fillLoop
      rw [length_window]
      split
      · rename_i hgo
        refine Prog.Leads.bind (takeMore_found hc hw hle hgo.2) fun tr out h => ?_
        obtain ⟨r', more⟩ := out
        obtain ⟨htr, next', hr', hge, hstop, hemit, hmore⟩ := h
        dsimp only at hr' hmore
        subst hr'
        cases more with
        | true =>
            have hlt := hmore rfl
            refine (ih (by omega) hstop (by omega)).mono fun tr' r'' h => ?_
            obtain ⟨htr', next'', rfl, hge', hstop', hemit'⟩ := h
            exact ⟨htr.append htr', next'', rfl, hge.trans hge', hstop', hemit'⟩
        | false => exact ⟨by rwa [List.append_nil], next', rfl, hge, hstop, fun _ => hemit⟩
      · rename_i hgo
        have hgo : ¬ (next - emit < limit ∧ next < (c.bs.blocks range).stop) := hgo
        exact ⟨.nil, next, rfl, Nat.le_refl _, hnext, by omega⟩

theorem fill_found (hc : c.Found P) (hw : c.Within range) (hread : 0 < c.namespace.config.readWindow)
    (hfuel : c.namespace.config.readWindow ≤ fuel) (hle : emit ≤ next)
    (hnext : next ≤ (c.bs.blocks range).stop) :
    ((c.readerAt request policy range emit next done).fill (fuel + 1)).Leads P fun tr r' =>
      Lookups tr ∧ ∃ next', r' = c.readerAt request policy range emit next' done ∧ next ≤ next' ∧
        next' ≤ (c.bs.blocks range).stop ∧ (emit < (c.bs.blocks range).stop → emit < next') :=
  fillLoop_found hc hw hread hle hnext (hfuel.trans (Nat.le_add_right _ _))

/-! ## The blocks that are delivered -/

theorem deliver_found (hw : c.Within range) {i : Nat} (hlo : (c.bs.blocks range).start ≤ i)
    (hhi : i < (c.bs.blocks range).stop) :
    (c.readerAt request policy range (i + 1) next false).deliver i (c.block i) =
      (c.readerAt request policy range (i + 1) next (decide ((c.bs.blocks range).stop ≤ i + 1)),
        some (.ok (c.bs.part c.data range i))) := by
  obtain ⟨hr, hstart, hstop, hmax⟩ := hw.meets hlo hhi
  obtain ⟨hsome, hfits⟩ := BlockSize.sliceWithin_inside hstart hstop hr hmax hw.stop
  rw [← length_block hmax] at hfits
  have hshow : ¬ ((c.block i).data = [] ∨ (c.block i).data.length ≤ (c.bs.sliceWithin i range).start) := by
    rintro (hnil | hle)
    · rw [hnil, List.length_nil] at hfits
      omega
    · omega
  have hdone : (false || decide ((c.block i).data.length < c.bs.bytes ∨ (c.bs.blocks range).stop ≤ i + 1)) =
      decide ((c.bs.blocks range).stop ≤ i + 1) := by
    rw [Bool.false_or, decide_eq_decide]
    exact or_iff_right_of_imp (hw.last_of_short hmax)
  have hpart : slice (c.block i).data (c.bs.sliceWithin i range).start
      (min (c.bs.sliceWithin i range).stop (c.block i).data.length) = c.bs.part c.data range i := by
    rw [Nat.min_eq_left hfits]
    rfl
  refine (if_neg hshow).trans (Prod.ext ?_ ?_)
  · exact congrArg (c.readerAt request policy range (i + 1) next) hdone
  · exact congrArg (fun chunk => some (Except.ok chunk)) hpart

theorem nextItem_found (hc : c.Found P) (hw : c.Within range) (hread : 0 < c.namespace.config.readWindow)
    (hfuel : c.namespace.config.readWindow ≤ fuel) (hfirst : (c.bs.blocks range).start ≤ emit)
    (hle : emit ≤ next) (hnext : next ≤ (c.bs.blocks range).stop) :
    ((c.readerAt request policy range emit next false).nextItem (fuel + 2)).Leads P fun tr out => Lookups tr ∧
      ((emit < (c.bs.blocks range).stop ∧ ∃ next', emit + 1 ≤ next' ∧ next' ≤ (c.bs.blocks range).stop ∧
          out =
            (c.readerAt request policy range (emit + 1) next' (decide ((c.bs.blocks range).stop ≤ emit + 1)),
              some (.ok (c.bs.part c.data range emit)))) ∨
        ((c.bs.blocks range).stop ≤ emit ∧ out.2 = none)) := by
  unfold Reader.nextItem
  rw [if_neg (by exact Bool.noConfusion)]
  refine Prog.Leads.bind (fill_found hc hw hread hfuel hle hnext) fun tr r' h => ?_
  obtain ⟨htr, next', rfl, hge, hstop, hemit⟩ := h
  rcases Nat.lt_or_ge emit (c.bs.blocks range).stop with hlt | hend
  · have hlt' := hemit hlt
    have hwindow : (c.readerAt request policy range emit next' false).window =
        c.handle emit :: (List.range' (emit + 1) (next' - (emit + 1))).map c.handle := by
      change (List.range' emit (next' - emit)).map c.handle = _
      rw [show next' - emit = next' - (emit + 1) + 1 by omega, List.range'_succ, List.map_cons]
    rw [hwindow]
    change Prog.Leads P (pure ((c.readerAt request policy range (emit + 1) next' false).deliver emit
      (c.block emit))) _
    rw [deliver_found hw hfirst hlt]
    exact ⟨by rwa [List.append_nil], .inl ⟨hlt, next', hlt', hstop, rfl⟩⟩
  · rw [window_eq_nil_iff.mpr (hstop.trans hend)]
    exact ⟨by rwa [List.append_nil], .inr ⟨hend, rfl⟩⟩

theorem ended_found (hc : c.Found P) {tr : Trace} (htr : Lookups tr)
    (hend : (c.bs.blocks range).stop ≤ emit) :
    (perform .ended).Leads P fun tr' _ => Served P (tr ++ tr')
      ((List.range' emit ((c.bs.blocks range).stop - emit)).flatMap (c.bs.part c.data range)) := by
  refine ⟨hc.ended, fun _ _ => ?_⟩
  rw [Nat.sub_eq_zero_of_le hend]
  have hended : Served P [⟨.ended, ()⟩] [] :=
    ⟨rfl, List.mem_singleton_self _, fun d hd => List.mem_singleton.mp hd ▸ .inl rfl⟩
  exact hended.after htr.yieldedBytes htr.cached

theorem stream_found (hc : c.Found P) (hw : c.Within range) (hread : 0 < c.namespace.config.readWindow)
    (hfuel : c.namespace.config.readWindow ≤ fuel) {rounds : Nat}
    (hrounds : (c.bs.blocks range).stop < rounds + emit) (hfirst : (c.bs.blocks range).start ≤ emit)
    (hle : emit ≤ next) (hnext : next ≤ (c.bs.blocks range).stop)
    (hdone : done = true → (c.bs.blocks range).stop ≤ emit) :
    ((c.readerAt request policy range emit next done).stream (fuel + 2) rounds).Leads P fun tr _ =>
      Served P tr ((List.range' emit ((c.bs.blocks range).stop - emit)).flatMap
        (c.bs.part c.data range)) := by
  induction rounds generalizing emit next done with
  | zero => omega
  | succ rounds ih =>
      unfold Reader.stream
      cases done with
      | true => exact ended_found hc .nil (hdone rfl)
      | false =>
          refine Prog.Leads.bind (nextItem_found hc hw hread hfuel hfirst hle hnext) fun tr out h => ?_
          obtain ⟨htr, ⟨hlt, next', hlt', hstop, rfl⟩ | ⟨hend, hnone⟩⟩ := h
          · refine .step (hc.item _ _) fun _ _ => ?_
            refine (ih (by omega) (by omega) hlt' hstop (by simp)).mono fun tr' _ h => ?_
            rw [show (c.bs.blocks range).stop - emit = (c.bs.blocks range).stop - (emit + 1) + 1 by omega,
              List.range'_succ, List.flatMap_cons]
            exact (h.item _ _).after htr.yieldedBytes htr.cached
          · obtain ⟨r', item⟩ := out
            dsimp only at hnone
            subst hnone
            exact ended_found hc htr hend

/-! ## The whole read -/

/-- What a read of the object does that finds it in the cache: it fails only where the range cannot
be resolved. -/
def ReadsBack (c : Stored) (P : (o : Op) → Resp o → Prop) (request : ReadRange) (tr : Trace) : Prop :=
  match request.resolve c.data.length with
  | .error e => ∃ lookup, tr = [⟨.metaLookup c.key c.namespace.metaTtl, lookup⟩, ⟨.failed e, ()⟩]
  | .ok range => Served P tr (slice c.data range.start range.stop)

theorem resolveCtx_found (hc : c.Found P) :
    (resolveCtx fuel c.namespace c.object request policy).Leads P fun tr out =>
      (∃ lookup, tr = [⟨.metaLookup c.key c.namespace.metaTtl, lookup⟩]) ∧ out = .ok (c.ctx policy, []) := by
  refine .step hc.metaLookup.1 fun lookup hr => ?_
  rw [hc.metaLookup.2 lookup hr]
  exact ⟨⟨_, rfl⟩, rfl⟩

theorem readahead_found (hc : c.Found P) (fuel : Nat) :
    (program fuel (.readahead (c.ctx policy) (readaheadBlocks c.namespace (c.ctx policy) range))).Leads P
      fun tr _ => Lookups tr := by
  have hstop : (readaheadBlocks c.namespace (c.ctx policy) range).stop ≤ c.count := Nat.min_le_right _ _
  refine Prog.Leads.bind (schedule_found hc hstop) fun tr handles h => ?_
  exact h.1.append .nil

theorem spawnReadahead_found (hc : c.Found P) :
    (spawnReadahead c.namespace (c.ctx policy) range).Leads P fun tr _ =>
      yieldedBytes tr = [] ∧ ∀ d ∈ tr, FromCache P d.1 := by
  unfold spawnReadahead
  dsimp only
  split
  · exact ⟨rfl, List.forall_mem_nil _⟩
  · refine ⟨hc.spawn _, fun _ _ => ⟨rfl, fun d hd => ?_⟩⟩
    rw [List.mem_singleton.mp hd]
    exact .inr ⟨_, rfl, readahead_found hc⟩

theorem reader_found (hc : c.Found P) (hw : c.Within range) (hread : 0 < c.namespace.config.readWindow)
    (hfuel : c.namespace.config.readWindow + c.count + 2 ≤ fuel) :
    ((Reader.new request (c.ctx policy) range []).stream fuel fuel).Leads P fun tr _ =>
      Served P tr (slice c.data range.start range.stop) := by
  have hcount := hw.blocks_le
  have hfirst := hw.first_le
  obtain ⟨k, rfl⟩ : ∃ k, fuel = k + 2 := ⟨fuel - 2, by omega⟩
  rw [new_eq_readerAt]
  refine (stream_found hc hw hread (by omega) (by omega) (Nat.le_refl _) (Nat.le_refl _) hfirst
    fun h => Bool.noConfusion h).mono fun tr _ h => ?_
  rcases hw.shape with hlt | rfl
  · rw [← BlockSize.flatMap_blocks hlt hw.max hw.stop]
    exact h
  · exact h

theorem getOpts_found (hc : c.Found P) (hread : 0 < c.namespace.config.readWindow)
    (hfuel : c.namespace.config.readWindow + c.count + 2 ≤ fuel)
    (hmax : ∀ range, request.resolve c.data.length = .ok range → range.stop ≤ maxU32 * c.bs.bytes) :
    (getOpts fuel c.namespace c.object request policy).Leads P fun tr _ => c.ReadsBack P request tr := by
  unfold getOpts ReadsBack
  refine Prog.Leads.bind (resolveCtx_found hc) fun tr out h => ?_
  obtain ⟨⟨lookup, rfl⟩, rfl⟩ := h
  have hrange : readRange (c.ctx policy) request = some (request.resolve c.data.length) := rfl
  dsimp only
  rw [hrange]
  cases hres : request.resolve c.data.length with
  | error e => exact ⟨hc.failed e, fun _ _ => ⟨lookup, rfl⟩⟩
  | ok range =>
      dsimp only
      obtain ⟨hstop, hshape⟩ := ReadRange.resolve_stop hres
      have hw : c.Within range := ⟨hshape, hstop, hmax range hres⟩
      have hopen {before : Trace} (hquiet : yieldedBytes before = [])
          (hcached : ∀ d ∈ before, FromCache P d.1) :
          (perform (.opened range (c.ctx policy).meta) >>= fun _ =>
            (Reader.new request (c.ctx policy) range []).stream fuel fuel).Leads P fun tr' _ =>
              Served P (before ++ tr') (slice c.data range.start range.stop) := by
        refine .step (hc.opened _ _) fun _ _ => (reader_found hc hw hread hfuel).mono fun tr' _ h => ?_
        have hopened : Served P ([⟨.opened range (c.ctx policy).meta, ()⟩] ++ tr')
            (slice c.data range.start range.stop) :=
          h.after rfl fun d hd => List.mem_singleton.mp hd ▸ .inl rfl
        exact hopened.after hquiet hcached
      split
      · refine .step (hc.observe range) fun sequential _ => ?_
        have hobserved : ∀ d ∈ ([⟨.metaLookup c.key c.namespace.metaTtl, lookup⟩,
            ⟨.readaheadObserve c.key range, sequential⟩] : Trace), FromCache P d.1 := by
          intro d hd
          rcases List.mem_cons.mp hd with rfl | hd
          · exact .inl rfl
          · exact List.mem_singleton.mp hd ▸ .inl rfl
        cases sequential with
        | false => exact hopen rfl hobserved
        | true =>
            refine Prog.Leads.bind (spawnReadahead_found hc) fun tr' _ h => ?_
            refine (hopen h.1 h.2).mono fun tr'' _ h' => ?_
            exact h'.after rfl hobserved
      · exact hopen rfl fun d hd => List.mem_singleton.mp hd ▸ .inl rfl

end Stored

end Nestor
