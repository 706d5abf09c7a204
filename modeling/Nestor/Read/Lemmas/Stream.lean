import Nestor.Read.Lemmas.Progress
import Nestor.Read.Lemmas.Resolve

/-!
# Streaming

A reader keeps handles of consecutive blocks from the one to be emitted next on. Under a coherent
law each of them is good for the block of the one content it reads, so the reader makes progress
through that.
-/

namespace Nestor

open Lib Terms

variable [TagHash]

variable {L : Law} {g' : Held} {owned : Multiset Slot}

theorem Law.HandlesFrom.append {ctx : ReadCtx} {first : Nat} {hs hs' : List SlotHandle}
    (h : L.HandlesFrom ctx first hs) (h' : L.HandlesFrom ctx (first + hs.length) hs') :
    L.HandlesFrom ctx first (hs ++ hs') := by
  induction hs generalizing first with
  | nil => exact h'
  | cons handle hs ih =>
      refine ⟨h.1, h.2.1, ih h.2.2 ?_⟩
      rw [List.length_cons] at h'
      rwa [show first + 1 + hs.length = first + (hs.length + 1) by omega]

theorem Law.HandlesFrom.length_le {ctx : ReadCtx} {first : Nat} {hs : List SlotHandle}
    (h : L.HandlesFrom ctx first hs) (hf : first ≤ maxU32) : first + hs.length ≤ maxU32 := by
  induction hs generalizing first with
  | nil => exact hf
  | cons handle hs ih =>
      have := ih h.2.2 h.2.1
      rw [List.length_cons]
      omega

theorem Law.Bound.moves {g : Held} {ns : NamespaceState} {object : Bytes} {tag : Nat}
    (h : L.Bound g ns object tag) (hm : g.Moves owned g') : L.Bound g' ns object tag := by
  refine ⟨h.right, fun hi => ?_, fun hi hs => ?_⟩
  · obtain ⟨m, hmem, hd⟩ := h.told hi
    exact ⟨m, hm.told m hmem, hd⟩
  · rw [hm.seen] at hs ⊢
    exact h.kept hi hs

theorem Terms.Ends.moves {T : Terms} {g : Held} (h : T.Ends g) (hm : g.Moves owned g') :
    T.Ends g' := by
  intro hf
  rw [hm.seen] at hf ⊢
  obtain ⟨ns, object, request, policy, tag, htask, hb, hw⟩ := h hf
  exact ⟨ns, object, request, policy, tag, hm.task.trans htask, hb.moves hm, hw⟩

/-- A reader of the task that has yielded the blocks before `i`. -/
structure Terms.ReaderOk (T : Terms) (g : Held) (r : Reader) (i : Nat) : Prop where
  task : ∃ policy, g.task = .get r.ctx.namespace r.ctx.name r.request policy
  ok : T.law.CtxOk r.ctx
  known : ∀ m, r.ctx.meta = some m → r.known = some m
  sized : r.known = none → 0 < r.ctx.namespace.config.fetchWindow ∨
    r.ctx.namespace.config.consistency.isImmutable
  window : T.law.HandlesFrom r.ctx r.emit r.window
  next : r.next = r.emit + r.window.length
  bounds : r.next ≤ maxU32 ∧ r.stop ≤ maxU32 ∧ r.first ≤ i
  bound : T.law.Bound g r.ctx.namespace r.ctx.name r.ctx.tag
  cell : ¬ T.law.immutable r.ctx.namespace.id → g.seen.stale = false →
    ∃ range, g.seen.opened = some (range, r.reported)
  unbroken : g.seen.broken = false
  first : g.seen.yielded → r.first < i
  silent : g.seen.yielded = false → g.seen.out = []
  asks : T.law.Coherent r.ctx.namespace.id r.ctx.name → ∀ v, T.law.Has r.ctx.namespace.id r.ctx.name v →
    T.law.Matches r.ctx.namespace.id r.ctx.tag v → r.Asks v.data
  before : T.law.Coherent r.ctx.namespace.id r.ctx.name → ∀ v, T.law.Has r.ctx.namespace.id r.ctx.name v →
    T.law.Matches r.ctx.namespace.id r.ctx.tag v → r.Before v.data g.seen.out i
  whole : r.done → T.law.Coherent r.ctx.namespace.id r.ctx.name → ∀ v,
    T.law.Has r.ctx.namespace.id r.ctx.name v → T.law.Matches r.ctx.namespace.id r.ctx.tag v →
    r.Whole v.data g.seen.out

variable {T : Terms} {g : Held} {r : Reader} {i fuel : Nat}

namespace Terms.ReaderOk

theorem key (h : T.ReaderOk g r i) : r.ctx.key = ⟨r.ctx.namespace.id, r.ctx.name⟩ := h.ok.key

theorem of_moves (h : T.ReaderOk g r i) (hm : g.Moves owned g') :
    T.ReaderOk g' r i where
  task := hm.task ▸ h.task
  ok := h.ok
  known := h.known
  sized := h.sized
  window := h.window
  next := h.next
  bounds := h.bounds
  bound := h.bound.moves hm
  cell := by rw [hm.seen]; exact h.cell
  unbroken := by rw [hm.seen]; exact h.unbroken
  first := by rw [hm.seen]; exact h.first
  silent := by rw [hm.seen]; exact h.silent
  asks := h.asks
  before := by rw [hm.seen]; exact h.before
  whole := by rw [hm.seen]; exact h.whole

/-- A block that was awaited may have been stale, if it was the first. -/
theorem of_waited {result : BlockResult} (h : T.ReaderOk g r i)
    (hs : ∀ e, result = .error e → e.isStale → g.seen.yielded = false) :
    T.ReaderOk { g with seen := Held.waited g.seen result } r i := by
  cases result with
  | ok b => exact h
  | error e =>
      have hstale {b : Bool} (hs : (g.seen.stale || b) = false) : g.seen.stale = false :=
        (Bool.or_eq_false_iff.mp hs).1
      exact {
        h with
        bound := ⟨h.bound.right, h.bound.told, fun hi hs => h.bound.kept hi (hstale hs)⟩
        cell := fun hi hs => h.cell hi (hstale hs)
        unbroken := by
          change (g.seen.broken || (e.isStale && g.seen.yielded)) = false
          rw [h.unbroken, Bool.false_or, Bool.and_eq_false_imp]
          exact hs e rfl }

theorem size_eq (h : T.ReaderOk g r i) (hc : T.law.Coherent r.ctx.namespace.id r.ctx.name) {m : ObjectMeta}
    {v : Version} (hv : T.law.Has r.ctx.namespace.id r.ctx.name v)
    (ht : T.law.Matches r.ctx.namespace.id r.ctx.tag v) (hm : T.law.Pinned r.ctx m) :
    m.size = v.data.length := by
  obtain ⟨w, hw, hn, htw⟩ := hm
  rw [h.key] at hw htw
  rw [hn.1, hc.one hw hv htw ht]

theorem meta_none (h : T.ReaderOk g r i) (hk : r.known = none) : r.ctx.meta = none := by
  cases hm : r.ctx.meta with
  | none => rfl
  | some m =>
      rw [h.known m hm] at hk
      cases hk

theorem learnt {m : ObjectMeta} (h : T.ReaderOk g r i) (hk : r.known = none) (hm : T.law.Pinned r.ctx m) :
    T.ReaderOk g (r.learnt m) i := by
  have hnone := h.meta_none hk
  have himm : T.law.immutable r.ctx.namespace.id := by
    have := h.ok.mode hnone
    rwa [h.key] at this
  exact {
    task := h.task
    ok := h.ok
    sized := nofun
    known := fun m' hm' => by
      change r.ctx.meta = some m' at hm'
      rw [hnone] at hm'
      cases hm'
    window := h.window
    next := h.next
    bounds := ⟨h.bounds.1, (Nat.min_le_left _ _).trans h.bounds.2.1, h.bounds.2.2⟩
    bound := h.bound
    cell := fun hi => absurd himm hi
    unbroken := h.unbroken
    first := h.first
    silent := h.silent
    asks := fun hc v hv ht => (h.asks hc v hv ht).learnt (h.size_eq hc hv ht hm)
    before := fun hc v hv ht => (h.before hc v hv ht).learnt (h.size_eq hc hv ht hm)
    whole := fun hd hc v hv ht => (h.whole hd hc v hv ht).learnt }

end Terms.ReaderOk

/-! ## Filling the window -/

theorem learn_wp (hT : T.Running) {m : Option ObjectMeta} (h : T.ReaderOk g r i)
    (hm : ∀ m', m = some m' → T.law.Pinned r.ctx m') :
    wp T.spec (r.learn m)
      (fun g' r' => g.Moves g.owned g' ∧ T.ReaderOk g' r' i ∧ (r' = r ∨ ∃ m, r' = r.learnt m)) g := by
  have hrefl := (Held.Hears.refl g).toMoves
  unfold Reader.learn
  cases hk : r.known with
  | some known => exact ⟨hrefl, h, .inl rfl⟩
  | none =>
      match m with
      | some m => exact ⟨hrefl, h.learnt hk (hm m rfl), .inr ⟨m, rfl⟩⟩
      | none =>
          refine wp_step hT.schedules fun answer g₁ hg₁ hr => ?_
          have h₁ := (Held.Hears.after hg₁ rfl).toMoves
          match answer, hr with
          | none, _ => exact ⟨h₁, h.of_moves h₁, .inl rfl⟩
          | some m, ⟨v, hv, hn⟩ =>
              have htag := h.ok.tag_none (h.meta_none hk)
              have hpin : T.law.Pinned r.ctx m := ⟨v, hv, hn, h.ok.matches_of (.inl htag)⟩
              exact ⟨h₁, (h.of_moves h₁).learnt hk hpin, .inr ⟨m, rfl⟩⟩

theorem Terms.ReaderOk.extend {take : Nat} {handles : List SlotHandle} (h : T.ReaderOk g r i)
    (hh : T.law.HandlesFrom r.ctx r.next handles) (hl : handles.length = take) (hb : r.next + take ≤ r.stop) :
    T.ReaderOk g (r.extend take handles) i :=
  { h with
    window := h.window.append (h.next ▸ hh)
    next := by
      simp only [Reader.extend, List.length_append, h.next, hl]
      omega
    bounds := ⟨hb.trans h.bounds.2.1, h.bounds.2⟩
    asks := fun hc v hv ht => ⟨(h.asks hc v hv ht).asked, (h.asks hc v hv ht).stop,
      (h.asks hc v hv ht).first⟩ }

theorem scheduleMore_wp (hT : T.Running) {take : Nat} (h : T.ReaderOk g r r.emit) (hpos : 0 < take)
    (hstop : r.next + take ≤ r.stop) :
    wp T.spec (do
      let handles ← schedule r.ctx ⟨r.next, r.next + take⟩ .foreground
      pure (r.extend take handles, (r.extend take handles).size.isSome))
      (fun g' out => g.Moves g.owned g' ∧ T.ReaderOk g' out.1 out.1.emit ∧
        (out.1.done = r.done ∧ out.1.ctx = r.ctx) ∧ out.1.window ≠ []) g := by
  have hcount : (Range.mk r.next (r.next + take)).count = take := Nat.add_sub_cancel_left ..
  have hmax : r.next + take ≤ maxU32 := hstop.trans h.bounds.2.1
  refine wp_seq (schedule_wp hT h.ok (by rw [hcount]; exact hmax)) fun g₁ handles h₁ => ?_
  obtain ⟨h₁, hh, hl⟩ := h₁
  rw [hcount] at hl
  refine ⟨h₁, (h.of_moves h₁).extend hh hl hstop, ⟨rfl, rfl⟩, fun he => ?_⟩
  rw [(List.append_eq_nil_iff.mp he).2, List.length_nil] at hl
  omega

theorem takeMore_wp (hT : T.Running) {limit : Nat} (h : T.ReaderOk g r r.emit) (hlt : r.next < r.stop) :
    wp T.spec (r.takeMore limit)
      (fun g' out => g.Moves g.owned g' ∧ T.ReaderOk g' out.1 out.1.emit ∧
        (out.1.done = r.done ∧ out.1.ctx = r.ctx) ∧ out.1.window ≠ []) g := by
  obtain ⟨hpos, hstop, -⟩ := alignedTake_spec hlt h.bounds.2.1 r.ctx.namespace.config.fetchWindow
  unfold Reader.takeMore
  dsimp only
  split
  · rename_i hfull
    exact ⟨(Held.Hears.refl g).toMoves, h, ⟨rfl, rfl⟩, hfull.1⟩
  · exact scheduleMore_wp hT h hpos hstop

theorem fillLoop_wp (hT : T.Running) {limit : Nat} (h : T.ReaderOk g r r.emit) :
    wp T.spec (Reader.fillLoop limit fuel r)
      (fun g' r' => g.Moves g.owned g' ∧ T.ReaderOk g' r' r'.emit ∧ (r'.done = r.done ∧ r'.ctx = r.ctx) ∧
        (0 < limit → r'.window = [] → r'.stop ≤ r'.next)) g := by
  induction fuel generalizing r g with
  | zero => exact hT.hang_wp
  | succ fuel ih =>
      unfold Reader.fillLoop
      split
      · rename_i hgo
        refine wp_seq (takeMore_wp hT h hgo.2) fun g₁ out h₁ => ?_
        obtain ⟨h₁, hok, hsame, hne⟩ := h₁
        match out with
        | (r₁, false) => exact ⟨h₁, hok, hsame, fun _ he => absurd he hne⟩
        | (r₁, true) =>
            refine wp_mono (ih hok) fun g₂ r₂ h₂ => ?_
            rw [h₁.owned, hsame.1, hsame.2] at h₂
            exact ⟨h₁.trans h₂.1, h₂.2⟩
      · rename_i hgo
        refine ⟨(Held.Hears.refl g).toMoves, h, ⟨rfl, rfl⟩, fun hlimit he => ?_⟩
        rw [he, List.length_nil] at hgo
        omega

theorem fill_wp (hT : T.Running) (h : T.ReaderOk g r r.emit) :
    wp T.spec (r.fill fuel)
      (fun g' r' => g.Moves g.owned g' ∧ T.ReaderOk g' r' r'.emit ∧ r'.done = r.done ∧
        (r'.ctx.namespace.config.Windowed → r'.window = [] → r'.stop ≤ r'.next)) g := by
  unfold Reader.fill
  refine wp_seq (learn_wp hT h nofun) fun g₁ r₁ h₁ => ?_
  obtain ⟨h₁, hok, hlearn⟩ := h₁
  have hsame : r₁.emit = r.emit ∧ r₁.done = r.done := by
    rcases hlearn with rfl | ⟨m, rfl⟩ <;> exact ⟨rfl, rfl⟩
  rw [← hsame.1] at hok
  have hlimit (hw : r₁.ctx.namespace.config.Windowed) :
      0 < (if r₁.size.isSome then r₁.ctx.namespace.config.readWindow
      else r₁.ctx.namespace.config.fetchWindow) := by
    split
    · exact hw.1
    · rename_i hsize
      exact (hok.sized (by simpa [Reader.size] using hsize)).elim id hw.2
  refine wp_mono (fillLoop_wp hT hok) fun g₂ r₂ h₂ => ?_
  obtain ⟨h₂, hok₂, ⟨hdone, hctx⟩, hempty⟩ := h₂
  rw [h₁.owned] at h₂
  exact ⟨h₁.trans h₂, hok₂, hdone.trans hsame.2, fun hw => hempty (hlimit (hctx ▸ hw))⟩

/-! ## Starting a reader -/

/-- A reader that has not emitted anything yet. -/
theorem Terms.ReaderOk.fresh {fetched : List SlotHandle} (hr : r.request.Gives r.ctx.meta r.range)
    (hok : T.law.CtxOk r.ctx) (hhandles : T.law.HandlesFrom r.ctx r.first fetched)
    (htask : ∃ policy, g.task = .get r.ctx.namespace r.ctx.name r.request policy)
    (hknown : r.known = r.ctx.meta) (hsized : r.ctx.meta = none →
      0 < r.ctx.namespace.config.fetchWindow ∨ r.ctx.namespace.config.consistency.isImmutable) (hblocks :
      (r.ctx.namespace.config.blockSize.blocks r.range) = ⟨r.first, r.stop⟩)
    (hemit : r.emit = r.first) (hwindow : r.window = fetched)
    (hnext : r.next = addU32 r.first (toU32 fetched.length)) (hdone : r.done = false)
    (hbound : T.law.Bound g r.ctx.namespace r.ctx.name r.ctx.tag)
    (hcell : ¬ T.law.immutable r.ctx.namespace.id → g.seen.stale = false →
      ∃ range, g.seen.opened = some (range, r.reported))
    (hsilent : g.seen.yielded = false ∧ g.seen.out = []) (hunbroken : g.seen.broken = false) :
    T.ReaderOk g r r.emit := by
  rw [BlockSize.blocks_eq _ hr.shape] at hblocks
  obtain ⟨hfirst, hstop⟩ := Range.mk.inj hblocks
  have hindex := r.ctx.namespace.config.blockSize.index_le r.range.start
  have hm : maxU32 = 2 ^ 32 - 1 := rfl
  have hlen := hhandles.length_le (hfirst ▸ hindex.1)
  have hnext' : r.next = r.first + fetched.length := by
    rw [hnext, toU32_of_lt (by omega), addU32_of_lt (by omega)]
  have hsize : T.law.Coherent r.ctx.namespace.id r.ctx.name → ∀ v, T.law.Has r.ctx.namespace.id r.ctx.name v →
      T.law.Matches r.ctx.namespace.id r.ctx.tag v → ∀ m, r.ctx.meta = some m → m.size = v.data.length := by
    intro hc v hv ht m hm
    obtain ⟨w, hw, hn, htw⟩ := hok.pinned hm
    rw [hok.key] at hw htw
    rw [hn.1, hc.one hw hv htw ht]
  exact {
    task := htask
    ok := hok
    known := fun m hm => hknown.trans hm
    sized := fun hk => hsized (hknown ▸ hk)
    window := by rw [hemit, hwindow]; exact hhandles
    next := by rw [hnext', hemit, hwindow]
    bounds :=
      ⟨by rw [hnext']; exact hlen, by rw [← hstop]; exact BlockSize.count_le_maxU32 _ _, by rw [hemit]⟩
    bound := hbound
    cell := hcell
    unbroken := hunbroken
    first := fun hy => absurd hy (by simp [hsilent.1])
    silent := fun _ => hsilent.2
    asks := fun hc v hv ht => ⟨hr.asked _ (hsize hc v hv ht), hstop.symm, hfirst.symm⟩
    before := fun hc v hv ht => by
      rw [hsilent.2, hemit, ← hfirst]
      exact .start (Nat.le_refl _)
    whole := fun hd => absurd hd (by simp [hdone]) }

theorem restart_wp (hT : T.Running) (hk : T.law.Knows r.ctx.namespace)
    (htask : ∃ policy, g.task = .get r.ctx.namespace r.ctx.name r.request policy) (hdone : r.done = false)
    (hsilent : g.seen.yielded = false ∧ g.seen.out = []) (hstale : g.seen.stale = true)
    (hunbroken : g.seen.broken = false) :
    wp T.spec (r.restart fuel)
      (fun g' out => g.Moves g.owned g' ∧ (out.2 = .ok () → T.ReaderOk g' out.1 out.1.emit)) g := by
  unfold Reader.restart
  refine wp_seq (resolveCtx_wp hT hk hsilent.1) fun g₁ out h₁ => ?_
  obtain ⟨h₁, hres⟩ := h₁
  match out with
  | .error e => exact ⟨h₁, nofun⟩
  | .ok (ctx, fetched) =>
      have hres := hres ctx fetched rfl
      cases hm : ctx.meta with
      | none =>
          simp only [hm]
          exact ⟨h₁, nofun⟩
      | some m =>
          simp only [hm]
          cases hrange : r.request.resolve m.size with
          | error e => exact ⟨h₁, nofun⟩
          | ok range =>
              have hnot : ¬ g₁.seen.stale = false := by rw [h₁.seen, hstale]; decide
              have hgives : r.request.Gives ctx.meta range := hm ▸ .of_resolve hrange
              refine ⟨h₁, fun _ => .fresh hgives hres.ok ?_ ?_ hm.symm (by simp [Reader.repin, hm]) rfl
                rfl rfl rfl hdone ⟨hres.ok.tag_right, fun hi => ?_, ?_⟩ ?_ (h₁.seen ▸ hsilent)
                  (h₁.seen ▸ hunbroken)⟩
              · have hhandles := hres.handles_of_gives hgives
                rw [← hres.space] at hhandles
                change T.law.HandlesFrom ctx (ctx.namespace.config.blockSize.blocks range).start fetched
                rwa [BlockSize.blocks_eq _ hgives.shape]
              · change ∃ policy, g₁.task = .get ctx.namespace ctx.name r.request policy
                rw [hres.space, hres.object, h₁.task]
                exact htask
              · obtain ⟨m', hmem, -, htag⟩ := hres.told_tag hi
                exact ⟨m', hmem, htag⟩
              · exact fun _ hs => absurd hs hnot
              · exact fun _ hs => absurd hs hnot

/-! ## Yielding -/

theorem wait_wp (hT : T.Running) {key : BlockKey} {handle : SlotHandle} (h : T.law.HandleOk key handle) :
    wp T.spec handle.wait
      (fun g' result => ({ g with seen := Held.waited g.seen result } : Held).Moves g.owned g' ∧
        ∀ b, result = .ok b → T.law.Fit key b) g := by
  match handle, h with
  | .resolved (.ok block), h =>
      refine ⟨(Held.Hears.refl g).toMoves, ?_⟩
      rintro _ ⟨⟩
      exact h
  | .waiting slot, h =>
      refine wp_call.mpr ⟨hT.schedules, fun result hr => ⟨⟨rfl, rfl, rfl, fun _ => id, Nat.le_refl _⟩, ?_⟩⟩
      rintro b rfl
      exact h ▸ hr

/-- What a reader may answer when it is polled. -/
def Terms.ItemOk (T : Terms) (g : Held) (r : Reader) : Option (Except NestorError Bytes) → Prop
  | none => T.Ends g
  | some (.ok chunk) =>
      T.Yields g r.reported chunk ∧ g.seen.broken = false ∧
        T.ReaderOk { g with seen := Held.yielded g.seen (.ok chunk) } r r.emit
  | some (.error _) => r.done = true

namespace Terms.ReaderOk

theorem ends (h : T.ReaderOk g r i)
    (hw : r.ctx.namespace.config.Windowed → T.law.Coherent r.ctx.namespace.id r.ctx.name →
      ∀ v, T.law.Has r.ctx.namespace.id r.ctx.name v → T.law.Matches r.ctx.namespace.id r.ctx.tag v →
      r.Whole v.data g.seen.out) : T.Ends g := by
  intro _
  obtain ⟨policy, htask⟩ := h.task
  exact ⟨_, _, _, policy, _, htask, h.bound, hw⟩

theorem yields {chunk : Bytes} (h : T.ReaderOk g r i)
    (hb : T.law.Coherent r.ctx.namespace.id r.ctx.name → ∀ v, T.law.Has r.ctx.namespace.id r.ctx.name v →
      T.law.Matches r.ctx.namespace.id r.ctx.tag v → r.Before v.data (g.seen.out ++ chunk) (i + 1)) :
    T.Yields g r.reported chunk := by
  obtain ⟨policy, htask⟩ := h.task
  refine ⟨_, _, _, policy, _, htask, h.bound, h.cell,
    fun hc v hv ht => ⟨_, _, hb hc v hv ht, fun range hres => ?_⟩⟩
  obtain ⟨hstart, hstop⟩ := (h.asks hc v hv ht).asked range hres
  exact ⟨hstart.symm, hstop ▸ Nat.min_le_right _ _⟩

theorem deliver {block : Block} (h : T.ReaderOk g r i) (hemit : r.emit = i + 1) (hdone : r.done = false)
    (hfit : T.law.Fit (BlockKey.new r.ctx.key r.ctx.tag i) block) :
    T.ItemOk g (r.deliver i block).1 (r.deliver i block).2 := by
  obtain ⟨done, result, he, hstop, -⟩ := r.deliver_eq i block
  have hd : T.law.Coherent r.ctx.namespace.id r.ctx.name → ∀ v, T.law.Has r.ctx.namespace.id r.ctx.name v →
      T.law.Matches r.ctx.namespace.id r.ctx.tag v → r.Delivered v.data g.seen.out i done result := by
    intro hc v hv ht
    refine Reader.deliver_spec he hdone (h.before hc v hv ht) (h.asks hc v hv ht) h.bounds.2.2 ?_
    rw [h.key] at hfit
    exact hc.cut hfit h.ok.knows.size hv ht
  rw [he]
  match result with
  | none => exact h.ends fun _ => hd
  | some (.error e) =>
      change done = true
      by_contra hne
      obtain ⟨chunk, hchunk⟩ := hstop (Bool.eq_false_iff.mpr hne)
      cases hchunk
  | some (.ok chunk) =>
      refine ⟨h.yields fun hc v hv ht => (hd hc v hv ht).1, h.unbroken, ?_⟩
      exact {
        h with
        bounds := ⟨h.bounds.1, h.bounds.2.1, by rw [hemit]; exact h.bounds.2.2.trans (Nat.le_succ i)⟩
        bound := ⟨h.bound.right, h.bound.told, h.bound.kept⟩
        first := fun _ => by
          change r.first < r.emit
          have := h.bounds.2.2
          omega
        silent := nofun
        asks := fun hc v hv ht => ⟨(h.asks hc v hv ht).asked, (h.asks hc v hv ht).stop,
          (h.asks hc v hv ht).first⟩
        before := fun hc v hv ht => by
          rw [hemit]
          exact (hd hc v hv ht).1
        whole := fun ht' hc v hv ht => (hd hc v hv ht).2 ht' }

theorem pop {handle : SlotHandle} {window : List SlotHandle} (h : T.ReaderOk g r r.emit)
    (hw : r.window = handle :: window) : T.law.HandleOk (BlockKey.new r.ctx.key r.ctx.tag r.emit) handle ∧
      r.emit < maxU32 ∧ T.ReaderOk g { r with window := window, emit := r.emit + 1 } r.emit := by
  have hwindow := h.window
  have hnext := h.next
  rw [hw] at hwindow hnext
  exact ⟨hwindow.1, hwindow.2.1, {
    h with
    window := hwindow.2.2
    next := by
      rw [hnext, List.length_cons]
      simp only
      omega
    asks := fun hc v hv ht => ⟨(h.asks hc v hv ht).asked, (h.asks hc v hv ht).stop,
      (h.asks hc v hv ht).first⟩ }⟩

theorem silent_of_first (h : T.ReaderOk g r i) (hi : i = r.first) :
    g.seen.yielded = false ∧ g.seen.out = [] := by
  have hy : g.seen.yielded = false := by
    by_contra hne
    have := h.first (Bool.eq_true_of_not_eq_false hne)
    omega
  exact ⟨hy, h.silent hy⟩

theorem refetch {handles : List SlotHandle} (h : T.ReaderOk g r i) (hemit : r.emit = i + 1)
    (hh : T.law.HandlesFrom r.ctx i handles) (hl : handles.length = 1) :
    T.ReaderOk g { r with refetched := some i, emit := i, window := handles ++ r.window } i :=
  { h with
    window := hh.append (by rw [hl, ← hemit]; exact h.window)
    next := by
      rw [h.next, List.length_append, hl, hemit]
      simp only
      omega
    asks := fun hc v hv ht => ⟨(h.asks hc v hv ht).asked, (h.asks hc v hv ht).stop,
      (h.asks hc v hv ht).first⟩ }

end Terms.ReaderOk

theorem learnBlock_wp (hT : T.Running) {block : Block} (h : T.ReaderOk g r i)
    (hfit : T.law.Fit (BlockKey.new r.ctx.key r.ctx.tag i) block) :
    wp T.spec (r.learn (some block.meta))
      (fun g' r' => g.Moves g.owned g' ∧ T.ReaderOk g' r' i ∧
        T.law.Fit (BlockKey.new r'.ctx.key r'.ctx.tag i) block ∧ r'.emit = r.emit ∧ r'.done = r.done) g := by
  have hpin : ∀ m, some block.meta = some m → T.law.Pinned r.ctx m := by
    rintro _ ⟨⟩
    obtain ⟨v, hv, ht, hn⟩ := T.law.names_of_fit hfit
    exact ⟨v, hv, hn, ht⟩
  refine wp_mono (learn_wp hT h hpin) fun g₁ r₁ h₁ => ?_
  obtain ⟨h₁, hok, rfl | ⟨m, rfl⟩⟩ := h₁
  · exact ⟨h₁, hok, hfit, rfl, rfl⟩
  · exact ⟨h₁, hok, hfit, rfl, rfl⟩

theorem nextItem_wp (hT : T.Running) (h : T.ReaderOk g r r.emit) :
    wp T.spec (r.nextItem fuel) (fun g' out => g'.owned = g.owned ∧ T.ItemOk g' out.1 out.2) g := by
  induction fuel generalizing r g with
  | zero => exact hT.hang_wp
  | succ fuel ih =>
      unfold Reader.nextItem
      split
      · rename_i hdone
        exact ⟨rfl, h.ends fun _ => h.whole hdone⟩
      · rename_i hdone
        refine wp_seq (fill_wp hT h) fun g₁ r₁ h₁ => ?_
        obtain ⟨h₁, hok, hsame, hempty⟩ := h₁
        have hdone₁ : r₁.done = false := by rw [hsame]; simpa using hdone
        cases hw : r₁.window with
        | nil =>
            have hnext := hok.next
            rw [hw, List.length_nil, Nat.add_zero] at hnext
            exact ⟨h₁.owned, hok.ends fun hwindows hc v hv ht =>
              (hok.before hc v hv ht).whole_of_stop (hok.asks hc v hv ht) (hnext ▸ hempty hwindows hw)⟩
        | cons handle window =>
            obtain ⟨hhandle, hmax, hpop⟩ := hok.pop hw
            refine wp_seq (wait_wp hT hhandle) fun g₂ result h₂ => ?_
            obtain ⟨h₂, hfit⟩ := h₂
            have hok₂ (hs : ∀ e, result = .error e → e.isStale → g₁.seen.yielded = false) :=
              (hpop.of_waited hs).of_moves h₂
            have howned : g₂.owned = g.owned := h₂.owned.trans h₁.owned
            cases result with
            | ok block =>
                refine wp_seq (learnBlock_wp hT (hok₂ (by simp)) (hfit block rfl)) fun g₃ r₃ h₃ => ?_
                obtain ⟨h₃, hok₃, hfit₃, hemit, hdone₃⟩ := h₃
                exact ⟨h₃.owned.trans howned, hok₃.deliver hemit (hdone₃.trans hdone₁) hfit₃⟩
            | error e =>
                dsimp only
                split
                · rename_i hcancelled
                  have hcount : (Range.mk r₁.emit (r₁.emit + 1)).count = 1 := Nat.add_sub_cancel_left ..
                  have hok₂ := hok₂ fun e' he hs => by
                    cases he
                    rw [NestorError.not_isStale_of_isCancelled hcancelled.1] at hs
                    cases hs
                  refine wp_seq (schedule_wp hT hok₂.ok (by rw [hcount]; exact hmax)) fun g₃ handles h₃ => ?_
                  obtain ⟨h₃, hh, hl⟩ := h₃
                  refine wp_mono (ih ((hok₂.of_moves h₃).refetch rfl hh (hl.trans hcount)))
                    fun g₄ out h₄ => ?_
                  exact ⟨h₄.1.trans (h₃.owned.trans howned), h₄.2⟩
                · split
                  · rename_i hstale
                    obtain ⟨hyielded, hout⟩ := hok.silent_of_first hstale.2.2
                    have hok₂ := hok₂ fun _ _ _ => hyielded
                    have hstale₂ : g₂.seen.stale = true := by
                      rw [h₂.seen]
                      simp [Held.waited, hstale.1, hyielded]
                    have hsilent₂ : g₂.seen.yielded = false ∧ g₂.seen.out = [] := by
                      rw [h₂.seen]
                      exact ⟨hyielded, hout⟩
                    refine wp_seq (restart_wp hT hok₂.ok.knows hok₂.task hdone₁ hsilent₂ hstale₂
                      hok₂.unbroken) fun g₃ out h₃ => ?_
                    obtain ⟨h₃, hok₃⟩ := h₃
                    obtain ⟨r₃, e | ⟨⟩⟩ := out
                    · exact ⟨h₃.owned.trans howned, rfl⟩
                    · refine wp_mono (ih (hok₃ rfl)) fun g₄ out h₄ => ?_
                      exact ⟨h₄.1.trans (h₃.owned.trans howned), h₄.2⟩
                  · refine wp_quiet trivial rfl fun sole g₃ h₃ _ => ⟨h₃.owned.trans howned, rfl⟩

/-- A stream yields one version from the start of its range on, and as a whole if it ends well. -/
theorem stream_wp (hT : T.Running) {rounds : Nat}
    (h : T.ReaderOk g r r.emit ∨ r.done = true ∧ g.seen.failed = true) :
    wp T.spec (r.stream fuel rounds) (fun g' _ => g'.owned = g.owned ∧ T.Ends g') g := by
  induction rounds generalizing r g with
  | zero => exact hT.hang_wp
  | succ rounds ih =>
      have hnext : wp T.spec (r.nextItem fuel) (fun g' out => g'.owned = g.owned ∧
          T.ItemOk g' out.1 out.2) g := by
        rcases h with h | ⟨hdone, hfailed⟩
        · exact nextItem_wp hT h
        · cases fuel with
          | zero => exact hT.hang_wp
          | succ fuel =>
              rw [Reader.nextItem, if_pos hdone]
              exact ⟨rfl, fun hf => absurd (hf.symm.trans hfailed) nofun⟩
      unfold Reader.stream
      refine wp_seq hnext fun g₁ out h₁ => ?_
      match out, h₁ with
      | (_, none), ⟨howned, hends⟩ =>
          exact wp_call.mpr ⟨hends, fun _ _ => ⟨howned, Ends.moves hends (Held.Hears.after rfl rfl).toMoves⟩⟩
      | (r₁, some (.ok chunk)), ⟨howned, hyields, hunbroken, hok⟩ =>
          refine wp_step ⟨hyields, hunbroken⟩ fun _ g₂ hg₂ _ => ?_
          subst hg₂
          exact wp_mono (ih (.inl (hok.of_moves ⟨rfl, rfl, rfl, fun _ => id, Nat.le_refl _⟩))) fun _ _ h₂ =>
            ⟨h₂.1.trans howned, h₂.2⟩
      | (r₁, some (.error e)), ⟨howned, hdone⟩ =>
          refine wp_step trivial fun _ g₂ hg₂ _ => ?_
          subst hg₂
          exact wp_mono (ih (.inr ⟨hdone, rfl⟩)) fun _ _ h₂ => ⟨h₂.1.trans howned, h₂.2⟩

end Nestor
