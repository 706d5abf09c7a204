import Nestor.Core.Lemmas.Block
import Nestor.Engine.Nestor
import Nestor.Fetch.Lemmas.Lookup

/-!
# A read that finds everything in the cache

As long as the metadata is found fresh and every lookup of a block finds one, a read registers
nothing and asks nobody: each handle it gets is resolved, so it never waits, and it never has a
reason to fetch again or to start over.
-/

namespace Nestor

open Lib

/-- What such a read of the object does. The blocks it looks up are in `mine`. -/
def Op.Hits (ns : NamespaceState) (object : Bytes) (mine : BlockKey → Prop) : Op → Prop
  | .metaLookup key ttl => key = ⟨ns.id, object⟩ ∧ ttl = ns.metaTtl
  | .readaheadObserve _ _ | .opened _ _ | .item _ _ | .ended | .hang => True
  | .blocksGet keys => keys ≠ [] ∧ ∀ key ∈ keys, mine key
  | .spawn (.readahead _ _) => True
  | _ => False

namespace Hits

/-- The metadata is fresh, and a lookup of a block finds it. -/
def rely (m : ObjectMeta) : (o : Op) → Resp o → Prop
  | .metaLookup _ _, answer => answer = .fresh m
  | .blocksGet _, .ready (_, found) => found.isSome = true
  | _, _ => True

def spec (ns : NamespaceState) (object : Bytes) (m : ObjectMeta) (mine : BlockKey → Prop) :
    Spec Op Resp Unit where
  guar _ := Op.Hits ns object mine
  rely _ := rely m
  next _ _ _ := ()

def Resolved (handles : List SlotHandle) : Prop := ∀ handle ∈ handles, ∃ block, handle = .resolved (.ok block)

theorem Resolved.append {handles handles' : List SlotHandle} (h : Resolved handles) (h' : Resolved handles') :
    Resolved (handles ++ handles') := fun handle hm => (List.mem_append.mp hm).elim (h handle) (h' handle)

variable {ns : NamespaceState} {object : Bytes} {m : ObjectMeta} {mine : BlockKey → Prop} {fuel : Nat}

theorem hang_wp {α : Type} {Q : Unit → α → Prop} : wp (spec ns object m mine) hang Q () := ⟨trivial, nofun⟩

/-! ## Scheduling -/

theorem looks : Looks (spec ns object m mine) (fun _ => True) (fun _ => True) mine fun _ _ found =>
    found.isSome = true where
  asks := fun _ hne hkeys => ⟨hne, hkeys⟩
  finds := fun _ hr _ => ⟨trivial, hr, fun _ _ => id⟩
  strays := fun _ _ _ => trivial
  fails := fun _ _ _ => trivial

theorem registerMisses_wp {results : List (BlockKey × Option Block)} (h : ∀ p ∈ results, p.2.isSome = true) :
    wp (spec ns object m mine) (registerMisses results) (fun _ out => Resolved out.1 ∧ out.2 = []) () := by
  induction results with
  | nil => exact ⟨List.forall_mem_nil _, rfl⟩
  | cons p results ih =>
      obtain ⟨key, _ | block⟩ := p
      · exact absurd (h _ List.mem_cons_self) (by simp)
      · refine wp_seq (ih fun p hp => h p (List.mem_cons_of_mem _ hp)) fun _ out h => ?_
        exact ⟨List.forall_mem_cons.mpr ⟨⟨block, rfl⟩, h.1⟩, h.2⟩

theorem schedule_wp {ctx : ReadCtx} {indexes : Range} {priority : Priority}
    (hmine : ∀ i, indexes.start ≤ i → i < indexes.stop → mine (BlockKey.new ctx.key ctx.tag i)) :
    wp (spec ns object m mine) (schedule ctx indexes priority) (fun _ handles => Resolved handles) () := by
  unfold schedule
  have hkeys : ∀ key ∈ (List.range' indexes.start indexes.count).map (BlockKey.new ctx.key ctx.tag),
      mine key := by
    intro key hk
    obtain ⟨i, hi, rfl⟩ := List.mem_map.mp hk
    have hcount : indexes.count = indexes.stop - indexes.start := rfl
    have := List.mem_range'_1.mp hi
    exact hmine i (by omega) (by omega)
  refine wp_seq (looks.joinAll_wp hkeys trivial) fun _ out h => ?_
  cases out with
  | none => exact hang_wp
  | some results =>
      refine wp_seq (registerMisses_wp h.2.2) fun _ out h => ?_
      obtain ⟨handles, owners⟩ := out
      obtain ⟨hresolved, rfl⟩ := h
      exact hresolved

/-! ## Streaming -/

/-- The reader knows the metadata, has only blocks in its window that were found, and all it may
still look up is in `mine`. -/
structure Reads (mine : BlockKey → Prop) (r : Reader) : Prop where
  known : r.known.isSome = true
  window : Resolved r.window
  ahead : ∀ i, r.next ≤ i → i < r.stop → mine (BlockKey.new r.ctx.key r.ctx.tag i)
  below : r.stop ≤ maxU32

variable {r : Reader}

theorem learn_wp (h : Reads mine r) (known : Option ObjectMeta) :
    wp (spec ns object m mine) (r.learn known) (fun _ r' => r' = r) () := by
  obtain ⟨known', hknown⟩ := Option.isSome_iff_exists.mp h.known
  unfold Reader.learn
  rw [hknown]
  exact rfl

theorem reads_extend (h : Reads mine r) (take : Nat) {handles : List SlotHandle} (hh : Resolved handles) :
    Reads mine (r.extend take handles) :=
  ⟨h.known, h.window.append hh, fun i hi => h.ahead i (Nat.le_of_add_right_le hi), h.below⟩

theorem takeMore_wp (h : Reads mine r) (hlt : r.next < r.stop) (limit : Nat) :
    wp (spec ns object m mine) (r.takeMore limit) (fun _ out => Reads mine out.1) () := by
  obtain ⟨-, hstop, -⟩ := alignedTake_spec hlt h.below r.ctx.namespace.config.fetchWindow
  unfold Reader.takeMore
  dsimp only
  split
  · exact h
  · exact wp_seq (schedule_wp fun i hi hi' => h.ahead i hi (hi'.trans_le hstop)) fun _ handles hh =>
      reads_extend h _ hh

theorem fillLoop_wp (h : Reads mine r) (limit : Nat) :
    wp (spec ns object m mine) (Reader.fillLoop limit fuel r) (fun _ r' => Reads mine r') () := by
  induction fuel generalizing r with
  | zero => exact hang_wp
  | succ fuel ih =>
      unfold Reader.fillLoop
      split
      · rename_i hgo
        refine wp_seq (takeMore_wp h hgo.2 limit) fun _ out hr => ?_
        obtain ⟨r₁, _ | _⟩ := out
        · exact hr
        · exact ih hr
      · exact h

theorem fill_wp (h : Reads mine r) :
    wp (spec ns object m mine) (r.fill fuel) (fun _ r' => Reads mine r') () := by
  refine wp_seq (learn_wp h none) fun _ r₁ hr => ?_
  subst hr
  exact fillLoop_wp h _

theorem reads_deliver (h : Reads mine r) (index : Nat) (block : Block) :
    Reads mine (r.deliver index block).1 := by
  unfold Reader.deliver
  dsimp only
  split <;> exact ⟨h.known, h.window, h.ahead, h.below⟩

variable [TagHash]

theorem nextItem_wp (h : Reads mine r) :
    wp (spec ns object m mine) (r.nextItem fuel) (fun _ out => Reads mine out.1) () := by
  cases fuel with
  | zero => exact hang_wp
  | succ fuel =>
      unfold Reader.nextItem
      split
      · exact h
      · refine wp_seq (fill_wp h) fun _ r₁ h₁ => ?_
        cases hwindow : r₁.window with
        | nil => exact ⟨h₁.known, List.forall_mem_nil _, h₁.ahead, h₁.below⟩
        | cons handle window =>
            have hresolved := h₁.window
            rw [hwindow] at hresolved
            obtain ⟨⟨block, rfl⟩, hrest⟩ := List.forall_mem_cons.mp hresolved
            have hpopped : Reads mine { r₁ with window := window, emit := r₁.emit + 1 } :=
              ⟨h₁.known, hrest, h₁.ahead, h₁.below⟩
            -- the handle is resolved, so the reader goes on without waiting
            change wp (spec ns object m mine) (Reader.learn { r₁ with window := window, emit := r₁.emit + 1 }
              (some block.meta) >>= fun r => pure (r.deliver r₁.emit block)) _ ()
            refine wp_seq (learn_wp hpopped _) fun _ r₂ hr => ?_
            subst hr
            exact reads_deliver hpopped _ block

theorem stream_wp {rounds : Nat} (h : Reads mine r) :
    wp (spec ns object m mine) (Reader.stream fuel rounds r) (fun _ _ => True) () := by
  induction rounds generalizing r with
  | zero => exact hang_wp
  | succ rounds ih =>
      refine wp_seq (nextItem_wp h) fun _ out h₁ => ?_
      obtain ⟨r₁, _ | item⟩ := out
      · exact ⟨trivial, fun _ _ => trivial⟩
      · exact wp_then trivial fun _ _ => ih h₁

/-! ## The whole read -/

/-- The blocks of a range of an object with the metadata. -/
def Within (ns : NamespaceState) (object : Bytes) (m : ObjectMeta) (range : Range) (key : BlockKey) : Prop :=
  ∃ i, (ns.config.blockSize.blocks range).start ≤ i ∧ i < (ns.config.blockSize.blocks range).stop ∧
    key = BlockKey.new ⟨ns.id, object⟩ (blockTag ns.config.consistency m) i

variable {request : ReadRange} {policy : FetchPolicy} {range : Range}

theorem reads_new : Reads (Within ns object m range)
    (Reader.new request (ReadCtx.new ns ⟨ns.id, object⟩ object (some m) policy) range []) := by
  have hbelow : (ns.config.blockSize.blocks range).start < 2 ^ 32 ∧
      (ns.config.blockSize.blocks range).stop ≤ maxU32 := by
    unfold BlockSize.blocks
    split
    · exact ⟨Nat.two_pow_pos 32, Nat.zero_le _⟩
    · exact ⟨Nat.mod_lt _ (Nat.two_pow_pos 32), BlockSize.count_le_maxU32 _ _⟩
  refine ⟨rfl, List.forall_mem_nil _, fun i hi hi' => ⟨i, ?_, hi', rfl⟩, hbelow.2⟩
  have hnext : addU32 (ns.config.blockSize.blocks range).start (toU32 0) ≤ i := hi
  rwa [show toU32 0 = 0 from rfl, addU32_of_lt hbelow.1] at hnext

theorem resolveCtx_wp {mine : BlockKey → Prop} :
    wp (spec ns object m mine) (resolveCtx fuel ns object request policy)
      (fun _ out => out = .ok (ReadCtx.new ns ⟨ns.id, object⟩ object (some m) policy, [])) () := by
  refine wp_then ⟨rfl, rfl⟩ fun found hr => ?_
  obtain rfl : found = .fresh m := hr
  exact rfl

theorem getOpts_wp (hrange : request.resolve m.size = .ok range) :
    wp (spec ns object m (Within ns object m range)) (getOpts fuel ns object request policy)
    (fun _ _ => True) () := by
  unfold getOpts
  refine wp_seq resolveCtx_wp fun _ out hout => ?_
  subst hout
  have hread : readRange (ReadCtx.new ns ⟨ns.id, object⟩ object (some m) policy) request = some (.ok range) :=
    congrArg some hrange
  dsimp only
  rw [hread]
  have hopen : wp (spec ns object m (Within ns object m range)) (perform (.opened range (some m)) >>= fun _ =>
      (Reader.new request (ReadCtx.new ns ⟨ns.id, object⟩ object (some m) policy) range []).stream fuel fuel)
      (fun _ _ => True) () := wp_then trivial fun _ _ => stream_wp reads_new
  dsimp only
  split
  · refine wp_then trivial fun sequential _ => ?_
    split
    · unfold spawnReadahead
      dsimp only
      split
      · exact hopen
      · exact wp_then trivial fun _ _ => hopen
    · exact hopen
  · exact hopen

end Hits

end Nestor
