import Nestor.Fetch.Lemmas.Handover

/-!
# What reading and writing owe

A stream hands over what it registers, so it owes nothing whenever it waits for a block, and it
waits only for slots it has registered or joined. The other calls register nothing.
-/

namespace Nestor

open Lib

namespace Duty

variable {b d d' : Duty} {owned : Multiset Slot} {budget fuel : Nat} {home : Home} {r : Reader}

/-- The reader is one of the object, and may wait for what is in its window. -/
structure Reads (home : Home) (d : Duty) (r : Reader) : Prop where
  ctx : r.ctx.At home
  window : d.Handles r.window

theorem Reads.mono (h : d.Reads home r) (hk : d.known ⊆ d'.known) : d'.Reads home r :=
  ⟨h.ctx, h.window.mono hk⟩

/-! ## Resolving the context -/

section

variable {ns : NamespaceState} {name : Bytes} {request : ReadRange} {policy : FetchPolicy}
  {known : Option ObjectMeta}

theorem cachedMeta_wp (h : b.Moves 0 d) :
    wp (spec budget (.of ns name)) (cachedMeta ns ⟨ns.id, name⟩ request) (fun d' _ => b.Moves 0 d') d := by
  refine wp_step trivial ⟨h.gap, by simp, fun key hk => .inl ?_⟩ fun answer d₁ hd₁ _ => ?_
  · rw [List.mem_singleton.mp hk]
    rfl
  · have h₁ : b.Moves 0 d₁ := by
      subst hd₁
      rcases answer with ⟨i, _ | block⟩ | _ | _
      case ready.some => exact { h with stored := fun _ hb => List.mem_append_right _ (h.stored hb) }
      all_goals exact h
    rcases answer with ⟨i, _ | block⟩ | _ | _
    · exact h₁
    · exact wp_free h₁ ⟨rfl, trivial⟩ fun _ d₂ h₂ _ => h₂
    · exact hang_wp h₁ (.inl rfl)
    · exact hang_wp h₁ (.inl rfl)

variable [TagHash]

theorem resolved_new {m : Option ObjectMeta} (h : b.Moves 0 d) :
    b.Moves 0 d ∧ d.Resolved (.of ns name) (.ok (ReadCtx.new ns ⟨ns.id, name⟩ name m policy, [])) :=
  ⟨h, at_new m policy, .nil⟩

theorem resolveAtOrigin_wp (h : b.Moves 0 d) :
    wp (spec budget (.of ns name)) (resolveAtOrigin fuel ns name request known policy)
      (fun d' out => b.Moves 0 d' ∧ d'.Resolved (.of ns name) out) d := by
  unfold resolveAtOrigin
  dsimp only
  split
  · exact probe_wp h
  · refine wp_seq (head_wp rfl ⟨rfl, rfl⟩ h (.inl rfl)) fun d₁ out h₁ => ?_
    obtain _ | e | m := out
    · exact hang_wp h₁ (.inl rfl)
    · exact ⟨h₁, trivial⟩
    · exact resolved_new h₁

theorem resolveMissing_wp (h : b.Moves 0 d) :
    wp (spec budget (.of ns name)) (resolveMissing fuel ns name request policy known)
      (fun d' out => b.Moves 0 d' ∧ d'.Resolved (.of ns name) out) d := by
  unfold resolveMissing
  dsimp only
  split
  · split
    · refine wp_seq (cachedMeta_wp h) fun d₁ out h₁ => ?_
      cases out with
      | some m => exact resolved_new h₁
      | none => exact resolveAtOrigin_wp h₁
    · exact resolved_new h
  · exact resolveAtOrigin_wp h

theorem resolveCtx_wp (h : b.Moves 0 d) :
    wp (spec budget (.of ns name)) (resolveCtx fuel ns name request policy)
      (fun d' out => b.Moves 0 d' ∧ d'.Resolved (.of ns name) out) d := by
  refine wp_free h ⟨rfl, trivial⟩ fun found d₁ h₁ _ => ?_
  cases found with
  | fresh m => exact resolved_new h₁
  | stale m => exact resolveMissing_wp h₁
  | missing => exact resolveMissing_wp h₁

end

/-! ## Streaming -/

theorem learn_wp (hr : d.Reads home r) (m : Option ObjectMeta) (h : b.Moves owned d) :
    wp (spec budget home) (r.learn m) (fun d' r' => b.Moves owned d' ∧ d'.Reads home r') d := by
  unfold Reader.learn
  split
  · exact ⟨h, hr⟩
  · exact ⟨h, hr.ctx, hr.window⟩
  · refine wp_free h.here ⟨hr.ctx.key, trivial⟩ fun answer d₁ h₁ _ => ?_
    cases answer with
    | none => exact ⟨h.trans h₁, hr.mono h₁.known⟩
    | some m => exact ⟨h.trans h₁, hr.ctx, hr.window.mono h₁.known⟩

theorem reads_extend {handles : List SlotHandle} (h : d.Reads home r) (take : Nat) (hh : d.Handles handles) :
    d.Reads home (r.extend take handles) := ⟨h.ctx, h.window.append hh⟩

theorem takeMore_wp (hr : d.Reads home r) (limit : Nat) (h : b.Moves 0 d) :
    wp (spec budget home) (r.takeMore limit) (fun d' out => b.Moves 0 d' ∧ d'.Reads home out.1) d := by
  unfold Reader.takeMore
  dsimp only
  split
  · exact ⟨h, hr⟩
  · refine wp_seq (schedule_wp hr.ctx h.here) fun d₁ handles h₁ => ?_
    exact ⟨h.trans h₁.1, reads_extend (hr.mono h₁.1.known) _ h₁.2⟩

theorem fillLoop_wp (hr : d.Reads home r) (limit : Nat) (h : b.Moves 0 d) :
    wp (spec budget home) (Reader.fillLoop limit fuel r)
    (fun d' r' => b.Moves 0 d' ∧ d'.Reads home r') d := by
  induction fuel generalizing r d with
  | zero => exact hang_wp h (.inl rfl)
  | succ fuel ih =>
      unfold Reader.fillLoop
      split
      · refine wp_seq (takeMore_wp hr limit h) fun d₁ out h₁ => ?_
        obtain ⟨r₁, more⟩ := out
        cases more with
        | true => exact ih h₁.2 h₁.1
        | false => exact h₁
      · exact ⟨h, hr⟩

theorem fill_wp (hr : d.Reads home r) (h : b.Moves 0 d) :
    wp (spec budget home) (r.fill fuel) (fun d' r' => b.Moves 0 d' ∧ d'.Reads home r') d :=
  wp_seq (learn_wp hr none h) fun _ _ h₁ => fillLoop_wp h₁.2 _ h₁.1

theorem wait_wp {handle : SlotHandle} {handles : List SlotHandle} (hh : d.Handles (handle :: handles))
    (h : b.Moves 0 d) : wp (spec budget home) handle.wait (fun d' _ => b.Moves 0 d') d := by
  cases handle with
  | resolved result => exact h
  | waiting slot => exact wp_call.mpr ⟨⟨trivial, h.gap, h.owned, hh slot List.mem_cons_self⟩, fun _ _ => h⟩

theorem reads_deliver (h : d.Reads home r) (index : Nat) (block : Block) :
    d.Reads home (r.deliver index block).1 := by
  unfold Reader.deliver
  dsimp only
  split <;> exact ⟨h.ctx, h.window⟩

theorem spawnReadahead_wp {ns : NamespaceState} {ctx : ReadCtx} {range : Range} (hctx : ctx.At home)
    (h : b.Moves 0 d) : wp (spec budget home) (spawnReadahead ns ctx range) (fun d' _ => b.Moves 0 d') d := by
  unfold spawnReadahead
  dsimp only
  split
  · exact h
  · refine wp_call.mpr ⟨⟨⟨hctx.home, hctx.self, rfl⟩, h.gap, Multiset.zero_le _⟩, fun _ _ => ?_⟩
    exact { h with owned := (tsub_zero _).trans h.owned }

variable [TagHash]

theorem restart_wp (hr : d.Reads home r) (h : b.Moves 0 d) :
    wp (spec budget home) (r.restart fuel) (fun d' out => b.Moves 0 d' ∧ d'.Reads home out.1) d := by
  unfold Reader.restart
  dsimp only
  have hctx := hr.ctx
  obtain rfl := hctx.home
  have hempty {d' : Duty} : d'.Reads (.of r.ctx.namespace r.ctx.name)
      { r with restarted := true, window := [] } :=
    ⟨hctx, .nil⟩
  refine wp_seq (resolveCtx_wp h) fun d₁ out h₁ => ?_
  obtain ⟨h₁, hres⟩ := h₁
  rcases out with e | ⟨ctx, fetched⟩
  · exact ⟨h₁, hempty⟩
  · dsimp only
    cases ctx.meta with
    | none => exact ⟨h₁, hempty⟩
    | some m =>
        dsimp only
        cases r.request.resolve m.size with
        | error e => exact ⟨h₁, hempty⟩
        | ok range => exact ⟨h₁, hres.1, hres.2⟩

theorem nextItem_wp (hr : d.Reads home r) (h : b.Moves 0 d) :
    wp (spec budget home) (r.nextItem fuel) (fun d' out => b.Moves 0 d' ∧ d'.Reads home out.1) d := by
  induction fuel generalizing r d with
  | zero => exact hang_wp h (.inl rfl)
  | succ fuel ih =>
      unfold Reader.nextItem
      split
      · exact ⟨h, hr⟩
      · refine wp_seq (fill_wp hr h) fun d₁ r₁ h₁ => ?_
        obtain ⟨h₁, hr₁⟩ := h₁
        cases hwindow : r₁.window with
        | nil => exact ⟨h₁, hr₁.ctx, .nil⟩
        | cons handle window =>
            have hhandles := hr₁.window
            rw [hwindow] at hhandles
            refine wp_seq (wait_wp hhandles h₁.here) fun d₂ result h₂ => ?_
            have hpopped : d₂.Reads home { r₁ with window := window, emit := r₁.emit + 1 } :=
              ⟨hr₁.ctx, hhandles.tail.mono h₂.known⟩
            have h₂ := h₁.trans h₂
            cases result with
            | ok block =>
                refine wp_seq (learn_wp hpopped _ h₂) fun d₃ r₃ h₃ => ?_
                exact ⟨h₃.1, reads_deliver h₃.2 _ block⟩
            | error e =>
                dsimp only
                split
                · refine wp_seq (schedule_wp hpopped.ctx h₂.here) fun d₃ handles h₃ => ?_
                  exact ih ⟨hr₁.ctx, h₃.2.append (hpopped.window.mono h₃.1.known)⟩ (h₂.trans h₃.1)
                · split
                  · refine wp_seq (restart_wp hpopped h₂) fun d₃ out h₃ => ?_
                    obtain ⟨r₃, e | ⟨⟩⟩ := out
                    · exact ⟨h₃.1, h₃.2.ctx, h₃.2.window⟩
                    · exact ih h₃.2 h₃.1
                  · refine wp_free h₂.here ⟨trivial, trivial⟩ fun sole d₃ h₃ _ => ?_
                    exact ⟨h₂.trans h₃, hpopped.ctx, hpopped.window.mono h₃.known⟩

theorem stream_wp {rounds : Nat} (hr : d.Reads home r) (h : b.Moves 0 d) :
    wp (spec budget home) (Reader.stream fuel rounds r) (fun d' _ => b.Moves 0 d') d := by
  induction rounds generalizing r d with
  | zero => exact hang_wp h (.inl rfl)
  | succ rounds ih =>
      refine wp_seq (nextItem_wp hr h) fun d₁ out h₁ => ?_
      obtain ⟨r₁, item⟩ := out
      obtain ⟨h₁, hr₁⟩ := h₁
      cases item with
      | none => exact free_wp h₁ ⟨trivial, trivial⟩
      | some item =>
          refine wp_free h₁.here ⟨trivial, trivial⟩ fun _ d₂ h₂ _ => ?_
          exact ih (hr₁.mono h₂.known) (h₁.trans h₂)

/-! ## The calls -/

variable {ns : NamespaceState} {object : Bytes}

theorem getOpts_wp {request : ReadRange} {policy : FetchPolicy} (h : b.Moves 0 d) :
    wp (spec budget (.of ns object)) (getOpts fuel ns object request policy)
    (fun d' _ => b.Moves 0 d') d := by
  unfold getOpts
  refine wp_seq (resolveCtx_wp h) fun d₁ out h₁ => ?_
  obtain ⟨h₁, hres⟩ := h₁
  rcases out with e | ⟨ctx, fetched⟩
  · exact free_wp h₁ ⟨trivial, trivial⟩
  · obtain ⟨hctx, hhandles⟩ := hres
    dsimp only
    obtain _ | e | range := readRange ctx request
    · exact hang_wp h₁ (.inl rfl)
    · exact free_wp h₁ ⟨trivial, trivial⟩
    · have hopen {d₂ : Duty} (h₂ : d₁.Moves 0 d₂) : wp (spec budget (.of ns object))
          (perform (.opened range ctx.meta) >>= fun _ => (Reader.new request ctx range fetched).stream
          fuel fuel)
          (fun d' _ => b.Moves 0 d') d₂ :=
        wp_free h₂ ⟨trivial, trivial⟩ fun _ d₃ h₃ _ => stream_wp ⟨hctx, hhandles.mono h₃.known⟩ (h₁.trans h₃)
      dsimp only
      split
      · refine wp_free h₁.here ⟨hctx.key, trivial⟩ fun sequential d₂ h₂ _ => ?_
        split
        · exact wp_seq (spawnReadahead_wp hctx h₂) fun d₃ _ h₃ => hopen h₃
        · exact hopen h₂
      · exact hopen h₁.here

omit [TagHash] in
theorem headCall_wp (h : b.Moves 0 d) :
    wp (spec budget (.of ns object)) (headCall fuel ns object) (fun d' _ => b.Moves 0 d') d := by
  refine wp_free h ⟨rfl, trivial⟩ fun found d₁ h₁ _ => ?_
  cases found with
  | fresh m => exact free_wp h₁ ⟨trivial, trivial⟩
  | _ =>
      refine wp_seq (head_wp rfl ⟨rfl, rfl⟩ h₁ (.inl rfl)) fun d₂ out h₂ => ?_
      obtain _ | e | m := out
      · exact hang_wp h₂ (.inl rfl)
      · exact free_wp h₂ ⟨trivial, trivial⟩
      · exact free_wp h₂ ⟨trivial, trivial⟩

omit [TagHash] in
theorem insertBlocks_wp {bs : BlockSize} {tag : Nat} {m : ObjectMeta} {data : Bytes} {indexes : List Nat}
    (h : b.Moves owned d) :
    wp (spec budget (.of ns object)) (insertBlocks bs ⟨ns.id, object⟩ tag m data indexes)
      (fun d' _ => b.Moves owned d') d := by
  induction indexes generalizing d with
  | nil => exact h
  | cons index indexes ih => exact wp_insert h (.inl rfl) fun d₁ h₁ _ => ih h₁

theorem insert_wp {etag : Option Bytes} {data : Bytes} (h : b.Moves owned d) :
    wp (spec budget (.of ns object)) (insert ns object etag data) (fun d' _ => b.Moves owned d') d := by
  refine wp_free h ⟨trivial, trivial⟩ fun now d₁ h₁ _ => ?_
  exact wp_seq (insertBlocks_wp h₁) fun d₂ _ h₂ => free_wp h₂ ⟨rfl, trivial⟩

omit [TagHash] in
theorem removeBlocks_wp {indexes : List Nat} (h : b.Moves owned d) :
    wp (spec budget (.of ns object)) (removeBlocks ⟨ns.id, object⟩ indexes)
    (fun d' _ => b.Moves owned d') d := by
  induction indexes generalizing d with
  | nil => exact h
  | cons index indexes ih => exact wp_free h ⟨rfl, trivial⟩ fun _ d₁ h₁ _ => ih h₁

omit [TagHash] in
theorem invalidate_wp (h : b.Moves owned d) :
    wp (spec budget (.of ns object)) (invalidate ns object) (fun d' _ => b.Moves owned d') d := by
  unfold invalidate
  refine wp_free h ⟨rfl, trivial⟩ fun _ d₁ h₁ _ => ?_
  split
  · refine wp_free h₁ ⟨rfl, trivial⟩ fun found d₂ h₂ _ => ?_
    cases found with
    | fresh m => exact wp_seq (removeBlocks_wp h₂) fun d₃ _ h₃ => free_wp h₃ ⟨rfl, trivial⟩
    | stale m => exact free_wp h₂ ⟨rfl, trivial⟩
    | missing => exact free_wp h₂ ⟨rfl, trivial⟩
  · exact free_wp h₁ ⟨rfl, trivial⟩

theorem write_wp {v : Version} {populate : Bool} (h : b.Moves owned d) :
    wp (spec budget (.of ns object)) (write ns object v populate) (fun d' _ => b.Moves owned d') d := by
  unfold write
  refine wp_free h ⟨⟨rfl, rfl⟩, trivial⟩ fun _ d₁ h₁ _ => ?_
  refine wp_seq (invalidate_wp h₁) fun d₂ _ h₂ => ?_
  split
  · exact wp_seq (insert_wp h₂) fun d₃ _ h₃ => free_wp h₃ ⟨trivial, trivial⟩
  · exact free_wp h₂ ⟨trivial, trivial⟩

/-! ## All tasks -/

/-- Only a fetch group may give up, when its rounds are used up. -/
theorem program_wp {task : Task} (h : task.Proper) (hf : task.isGroup = true → budget ≤ fuel) :
    wp (spec budget task.home) (program fuel task) (fun d' _ => d'.owned = 0) (start task) := by
  have hstart : (start task).Moves task.slots (start task) := .refl rfl
  have hend {p : Program Unit} (hp : wp (spec budget task.home) p (fun d' _ => (start task).Moves 0 d')
      (start task)) : wp (spec budget task.home) p (fun d' _ => d'.owned = 0) (start task) :=
    wp_mono hp fun _ _ h => h.owned
  cases task with
  | fetchGroup ctx slots priority initial =>
      exact hend (fetchGroup_wp h.under hstart ((hf rfl).trans (Nat.le_add_left _ _)))
  | readahead ctx indexes => exact hend (wp_seq (schedule_wp h hstart) fun _ _ h₁ => h₁.1)
  | get ns object request policy => exact hend (getOpts_wp hstart)
  | head ns object => exact hend (headCall_wp hstart)
  | insert ns object etag data =>
      exact hend (wp_seq (insert_wp hstart) fun d₁ _ h₁ => free_wp h₁ ⟨trivial, trivial⟩)
  | invalidate ns object =>
      exact hend (wp_seq (invalidate_wp hstart) fun d₁ _ h₁ => free_wp h₁ ⟨trivial, trivial⟩)
  | write ns object v populate => exact hend (write_wp hstart)

end Duty

end Nestor
