import Nestor.Engine.Lemmas.World
import Nestor.Read.Theorems

/-!
# Invalidation in immutable namespaces

The blocks of an immutable object are all cached under one tag, so `invalidate` has to remove them.
It counts them by the size in the metadata it finds, and the metadata may be gone before the blocks
are: evicted on its own, not recovered by a restart, or never recorded by the reads that brought the
blocks in. What is left then is found by the next read.
-/

namespace Nestor

open Lib

namespace Shared

/-- Nothing is known of the object, none of its blocks is in the cache under the immutable tag, and
whatever is done after, a lookup finds only a block that was inserted since. -/
structure Cleared (s : Shared) (key : ObjectKey) : Prop where
  entry : s.metas key = none
  blocks : ∀ index block, (BlockKey.new key immutableTag index, block) ∉ s.blocks
  found : ∀ before after keys i index block s', keys[i]? = some (BlockKey.new key immutableTag index) →
    s.Does (before ++ ⟨.blocksGet keys, .ready (i, some block)⟩ :: after) s' →
    ⟨.blocksInsert (BlockKey.new key immutableTag index) block, ()⟩ ∈ before

variable {s s' : Shared} {tr : Trace}

theorem mem_after_blocks {o : Op} {key : BlockKey} {block : Block} (h : (key, block) ∈ (s.after o).blocks) :
    (key, block) ∈ s.blocks ∨ o = .blocksInsert key block := by
  cases o
  case blocksInsert key' block' =>
    rcases List.mem_cons.mp h with h | h
    · cases h
      exact .inr rfl
    · exact .inl h
  case blocksRemove key' => exact .inl (List.mem_filter.mp h).1
  case register key' =>
    change (key, block) ∈ (s.register key').2.blocks at h
    unfold register at h
    split at h <;> exact .inl h
  all_goals exact .inl h

/-- A block in the cache was there before or has been inserted. -/
theorem Does.mem_blocks {key : BlockKey} {block : Block} (h : s.Does tr s') (hb : (key, block) ∈ s'.blocks) :
    (key, block) ∈ s.blocks ∨ ⟨.blocksInsert key block, ()⟩ ∈ tr := by
  induction tr generalizing s with
  | nil =>
      cases h
      exact .inl hb
  | cons d tr ih =>
      obtain ⟨o, r⟩ := d
      rcases ih h.of_cons.2 with hmem | hmem
      · rcases mem_after_blocks hmem with hmem | rfl
        · exact .inl hmem
        · exact .inr List.mem_cons_self
      · exact .inr (List.mem_cons_of_mem _ hmem)

theorem cleared_iff {key : ObjectKey} (hentry : s.metas key = none) :
    s.Cleared key ↔ ∀ index block, (BlockKey.new key immutableTag index, block) ∉ s.blocks := by
  refine ⟨Cleared.blocks, fun hblocks => ⟨hentry, hblocks,
    fun before after keys i index block s' hkey hdo => ?_⟩⟩
  obtain ⟨s₁, hbefore, hafter⟩ := hdo.of_append
  obtain ⟨key', hkey', hmem⟩ := hafter.of_cons.1
  cases hkey.symm.trans hkey'
  exact (hbefore.mem_blocks hmem).resolve_left (hblocks index block)

end Shared

section

variable {s s' : Shared} {tr : Trace} {key : ObjectKey}

theorem removeBlocks_leaves {indexes : List Nat} (hrun : Runs (removeBlocks key indexes) tr (pure ()))
    (hdo : s.Does tr s') (index : Nat) (block : Block) :
    (BlockKey.new key immutableTag index, block) ∈ s'.blocks ↔
      (BlockKey.new key immutableTag index, block) ∈ s.blocks ∧ index ∉ indexes := by
  induction indexes generalizing s tr with
  | nil =>
      obtain ⟨rfl, -⟩ := Runs.of_pure hrun
      cases hdo
      exact ⟨fun h => ⟨h, List.not_mem_nil⟩, And.left⟩
  | cons removed indexes ih =>
      obtain ⟨u, tr', rfl, hrest⟩ := Runs.of_call hrun
      rw [ih hrest hdo.of_cons.2]
      change _ ∈ s.blocks.filter _ ∧ _ ↔ _
      rw [List.mem_filter, List.mem_cons, not_or, and_assoc]
      refine and_congr_right fun _ => and_congr_left fun _ => ?_
      rw [decide_eq_true_eq]
      exact not_congr ⟨congrArg BlockKey.index, congrArg (BlockKey.new key immutableTag)⟩

/-- What `invalidate` leaves of the blocks of an immutable object: those that the size in the
metadata does not count. -/
theorem invalidate_leaves {ns : NamespaceState} {object : Bytes} (himm : ns.config.consistency.isImmutable)
    (hrun : Runs (invalidate ns object) tr (pure ())) (hdo : s.Does tr s') :
    s'.metas ⟨ns.id, object⟩ = none ∧ ∀ index block,
      (BlockKey.new ⟨ns.id, object⟩ immutableTag index, block) ∈ s'.blocks ↔
        (BlockKey.new ⟨ns.id, object⟩ immutableTag index, block) ∈ s.blocks ∧
          ∀ entry, s.metas ⟨ns.id, object⟩ = some entry →
          ns.config.blockSize.count entry.meta.size ≤ index := by
  obtain ⟨_, tr₁, rfl, hforgot⟩ := Runs.of_call hrun
  -- forgetting the metadata is the last thing done
  have hlast {s₁ : Shared} {tr₂ : Trace} (hend : Runs (perform (.metaRemove ⟨ns.id, object⟩)) tr₂ (pure ()))
      (hdo : s₁.Does tr₂ s') : s' = s₁.removeMeta ⟨ns.id, object⟩ := by
    obtain ⟨_, tr₃, rfl, hnil⟩ := Runs.of_call hend
    obtain ⟨rfl, -⟩ := Runs.of_pure hnil
    cases hdo.of_cons.2
    rfl
  rw [if_pos himm] at hforgot
  obtain ⟨found, tr₂, rfl, hlooked⟩ := Runs.of_call hforgot
  obtain ⟨hfound, hdo₂⟩ := hdo.of_cons.2.of_cons
  have hfound : found = s.lookupMeta ⟨ns.id, object⟩ none := hfound
  cases hmeta : s.metas ⟨ns.id, object⟩ with
  | none =>
      obtain rfl : found = .missing := by rw [hfound, Shared.lookupMeta, hmeta]
      cases hlast hlooked hdo₂
      exact ⟨Function.update_self .., fun index block => (and_iff_left nofun).symm⟩
  | some entry =>
      obtain rfl : found = .fresh entry.meta := by rw [hfound, Shared.lookupMeta, hmeta]
      obtain ⟨tr₃, tr₄, _, rfl, hremove, hend⟩ := Runs.of_bind hlooked
      obtain ⟨s₁, hdo₃, hdo₄⟩ := hdo₂.of_append
      cases hlast hend hdo₄
      refine ⟨Function.update_self .., fun index block => (removeBlocks_leaves hremove hdo₃ index block).trans
        ?_⟩
      refine and_congr_right fun _ => ?_
      rw [List.mem_range, Nat.not_lt]
      exact ⟨fun h _ heq => by cases heq; exact h, fun h => h entry rfl⟩

theorem removeBlocks_does (key : ObjectKey) (indexes : List Nat) (s : Shared) :
    ∃ tr s', Runs (removeBlocks key indexes) tr (pure ()) ∧ s.Does tr s' := by
  induction indexes generalizing s with
  | nil => exact ⟨[], s, .nil, .nil⟩
  | cons index indexes ih =>
      obtain ⟨tr, s', hrun, hdo⟩ := ih (s.removeBlock (BlockKey.new key immutableTag index))
      exact ⟨_, s', .cons hrun, .cons (x := .go) rfl hdo⟩

theorem invalidate_does (ns : NamespaceState) (object : Bytes) (s : Shared) :
    ∃ tr s', Runs (invalidate ns object) tr (pure ()) ∧ s.Does tr s' := by
  have hlast (s₁ : Shared) : s₁.Does [⟨.metaRemove ⟨ns.id, object⟩, ()⟩] (s₁.removeMeta ⟨ns.id, object⟩) :=
    .cons (x := .go) rfl .nil
  unfold invalidate
  split
  · have hlookup (found : MetaLookup) (h : s.lookupMeta ⟨ns.id, object⟩ none = found) :
        respond (s.after (.readaheadForget ⟨ns.id, object⟩)) (.metaLookup ⟨ns.id, object⟩ none) .go =
          some (found, s.after (.readaheadForget ⟨ns.id, object⟩), []) := by
      rw [← h]
      rfl
    cases hfound : s.lookupMeta ⟨ns.id, object⟩ none with
    | fresh m =>
        obtain ⟨tr, s', hrun, hdo⟩ := removeBlocks_does ⟨ns.id, object⟩
          (List.range (ns.config.blockSize.count m.size)) (s.after (.readaheadForget ⟨ns.id, object⟩))
        exact ⟨_, _, .cons (.cons (hrun.bind (.cons .nil))),
          .cons (x := .go) rfl (.cons (hlookup _ hfound) (hdo.append (hlast s')))⟩
    | stale m =>
        exact ⟨[⟨.readaheadForget _, ()⟩, ⟨.metaLookup _ none, .stale m⟩, ⟨.metaRemove _, ()⟩], _,
          .cons (.cons (.cons .nil)), .cons (x := .go) rfl (.cons (hlookup _ hfound) (hlast _))⟩
    | missing =>
        exact ⟨[⟨.readaheadForget _, ()⟩, ⟨.metaLookup _ none, .missing⟩, ⟨.metaRemove _, ()⟩], _,
          .cons (.cons (.cons .nil)), .cons (x := .go) rfl (.cons (hlookup _ hfound) (hlast _))⟩
  · exact ⟨_, _, .cons (.cons .nil), .cons (x := .go) rfl (hlast _)⟩

end

/-- A call of `invalidate` in an immutable namespace clears the object if and only if the metadata
is there and its size counts every block that is in the cache. -/
theorem invalidate_clears_iff {s s' : Shared} {ns : NamespaceState} {object : Bytes} {tr : Trace}
    (himm : ns.config.consistency.isImmutable) (hrun : Runs (invalidate ns object) tr (pure ()))
    (hdo : s.Does tr s') :
    s'.Cleared ⟨ns.id, object⟩ ↔
      ∀ index block, (BlockKey.new ⟨ns.id, object⟩ immutableTag index, block) ∈ s.blocks →
        ∃ entry, s.metas ⟨ns.id, object⟩ = some entry ∧
        index < ns.config.blockSize.count entry.meta.size := by
  obtain ⟨hentry, hleaves⟩ := invalidate_leaves himm hrun hdo
  rw [Shared.cleared_iff hentry]
  refine forall_congr' fun index => forall_congr' fun block => ?_
  rw [hleaves, not_and]
  refine imp_congr_right fun _ => ?_
  rw [not_forall]
  refine exists_congr fun entry => ?_
  rw [Classical.not_imp, Nat.not_le]

/-- A namespace of immutable objects. -/
def immutableNamespace : NamespaceState :=
  ⟨0, [97], { NamespaceConfig.default with consistency := .immutable }⟩

/-- An object of one block is in the cache, with its metadata. -/
def oneBlockCached : Shared :=
  (Shared.init.insertBlock (BlockKey.new ⟨0, [111]⟩ immutableTag 0) ⟨⟨1, none, some 0⟩, [1]⟩).putMeta
    ⟨0, [111]⟩ ⟨1, none, some 0⟩

theorem one_block_cleared : ∃ tr s', Runs (invalidate immutableNamespace [111]) tr (pure ()) ∧
    oneBlockCached.Does tr s' ∧ s'.Cleared ⟨0, [111]⟩ := by
  obtain ⟨tr, s', hrun, hdo⟩ := invalidate_does immutableNamespace [111] oneBlockCached
  refine ⟨tr, s', hrun, hdo, (invalidate_clears_iff rfl hrun hdo).mpr fun index block hb => ⟨_, rfl, ?_⟩⟩
  cases List.mem_singleton.mp hb
  decide

section

open Sample World

/-- An object is inserted, its metadata is evicted, it changes at the origin and is invalidated. -/
def evictedEvents : List Event :=
  [.register [97] immutableNamespace.config, .overwrite [97] [111] (some ⟨[1], none⟩),
    .call 0 (.insert [111] none [1]), .run 0 .go, .run 0 .go, .run 0 .go, .run 0 .go, .evictMeta ⟨0, [111]⟩,
    .overwrite [97] [111] (some ⟨[2], none⟩), .call 0 (.invalidate [111]), .run 1 .go, .run 1 .go, .run 1 .go,
    .run 1 .go]

def followingRead : List Event :=
  [.call 0 (.get [111] (.bounded ⟨0, 1⟩) FetchPolicy.default), .run 2 .go, .run 2 .go, .run 2 .go, .run 2 .go,
    .run 2 (.found 0 (some ⟨⟨1, none, some 0⟩, [1]⟩)), .run 2 .go, .run 2 .go]

/-- Without its metadata an invalidated object keeps its block, and the read that follows yields the
old bytes. -/
theorem block_left_behind : ∃ w w' : World, runEvents (step 5) init evictedEvents = some w ∧
    (∃ th, w.threads[1]? = some th ∧ th.task = .invalidate immutableNamespace [111] ∧ th.prog = pure ()) ∧
    (BlockKey.new ⟨0, [111]⟩ immutableTag 0, ⟨⟨1, none, some 0⟩, [1]⟩) ∈ w.shared.blocks ∧
    ¬ w.shared.Cleared ⟨0, [111]⟩ ∧ runEvents (step 5) w followingRead = some w' ∧
    w'.shared.history [97] [111] = [some ⟨[2], none⟩, some ⟨[1], none⟩] ∧
    ∃ th, w'.threads[2]? = some th ∧ th.prog = pure () ∧ yieldedBytes th.trace = [1] :=
  ⟨_, _, rfl, ⟨_, rfl, rfl, rfl⟩, List.mem_cons_self, fun h => h.blocks 0 _ List.mem_cons_self, rfl, rfl, _,
    rfl, rfl,
    rfl⟩

end

end Nestor
