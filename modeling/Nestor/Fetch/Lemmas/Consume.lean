import Nestor.Fetch.Lemmas.Slots

/-!
# Cutting a response into blocks

The body of a response stands at the block that is to be cut out next, as long as there is one; so
every block inserted or published is exact. A failed, timed-out or dropped call gives back the slots
it has not delivered.
-/

namespace Nestor

open Lib Terms

variable {first i : Nat} {slots : List Slot} {bs : BlockSize} {rest : Multiset Slot}

/-! ## Positions -/

/-- If the object has a block `i`, the body stands at its start. -/
def BodyAt (P : Bytes → Prop) (bs : BlockSize) (size i : Nat) (b : HedgedBody) : Prop :=
  i * bs.bytes < size → b.Inv P (i * bs.bytes) .race

/-- If the object has a block `i`, the stream stands at its start. -/
def StreamAtBlock (P : Bytes → Prop) (bs : BlockSize) (size i : Nat) (s : BlockStream) : Prop :=
  i * bs.bytes < size → StreamFrom P (i * bs.bytes) s

theorem BodyAt.next {P bs size i} {b : HedgedBody} (hi : i < maxU32)
    (h : b.Inv P (i * bs.bytes + (bs.blockRange i (some size)).count) .race) : BodyAt P bs size (i + 1) b :=
  fun hlt => bs.next_offset hi hlt ▸ h

theorem StreamAtBlock.next {P bs size i} {s : BlockStream} (hi : i < maxU32)
    (h : StreamFrom P (i * bs.bytes + (bs.blockRange i (some size)).count) s) :
    StreamAtBlock P bs size (i + 1) s :=
  fun hlt => bs.next_offset hi hlt ▸ h

/-! ## Consecutive slots -/

section

variable {ctx : ReadCtx}

theorem SlotsFrom.suffix {slots' : List Slot} (h : SlotsFrom ctx first slots)
    (hs : slots' <:+ slots) : ∃ first', SlotsFrom ctx first' slots' := by
  induction slots generalizing first with
  | nil => exact ⟨first, List.suffix_nil.mp hs ▸ h⟩
  | cons slot slots ih =>
      rcases List.suffix_cons_iff.mp hs with rfl | hs
      · exact ⟨first, h⟩
      · exact ih h.2.2 hs

theorem SlotsFrom.of_append {before : List Slot} (h : SlotsFrom ctx first (before ++ slots)) :
    SlotsFrom ctx (first + before.length) slots := by
  induction before generalizing first with
  | nil => exact h
  | cons slot before ih =>
      rw [List.length_cons, Nat.add_comm before.length 1, ← Nat.add_assoc]
      exact ih h.2.2

theorem SlotsFrom.mem (h : SlotsFrom ctx first slots) {slot : Slot}
    (hs : slot ∈ slots) : ∃ i, first ≤ i ∧ i < maxU32 ∧ slot.key = BlockKey.new ctx.key ctx.tag i := by
  induction slots generalizing first with
  | nil => cases hs
  | cons front slots ih =>
      rcases List.mem_cons.mp hs with rfl | hs
      · exact ⟨first, Nat.le_refl _, h.2.1, h.1⟩
      · obtain ⟨i, hi, hlt, hk⟩ := ih h.2.2 hs
        exact ⟨i, by omega, hlt, hk⟩

theorem SlotsFrom.nodup (h : SlotsFrom ctx first slots) : slots.Nodup := by
  induction slots generalizing first with
  | nil => exact List.nodup_nil
  | cons slot slots ih =>
      refine List.nodup_cons.mpr ⟨fun hs => ?_, ih h.2.2⟩
      obtain ⟨i, hi, -, hk⟩ := SlotsFrom.mem h.2.2 hs
      have hindex := congrArg BlockKey.index (h.1.symm.trans hk)
      simp only [BlockKey.new] at hindex
      omega

theorem SlotsFrom.length_le (h : SlotsFrom ctx first slots) (hs : slots ≠ []) :
    first + slots.length ≤ maxU32:= by
  induction slots generalizing first with
  | nil => exact absurd rfl hs
  | cons slot slots ih =>
      have hlt := h.2.1
      rcases eq_or_ne slots [] with rfl | hne
      · exact hlt
      · have := ih h.2.2 hne
        rw [List.length_cons]
        omega

end

/-! ## Trailing blocks -/

theorem mem_wholeAfter {size next stop : Nat} (h : i ∈ wholeAfter bs size next stop) :
    next ≤ i ∧ i < bs.count stop := by
  obtain ⟨h1, h2⟩ := List.mem_range'_1.mp (List.takeWhile_subset _ h)
  omega

theorem wholeAfter_sorted (bs : BlockSize) (size next stop : Nat) :
    (wholeAfter bs size next stop).Pairwise (· < ·) :=
  List.Pairwise.sublist (List.takeWhile_sublist _) List.pairwise_lt_range'

/-! ## Exact blocks -/

variable [TagHash]

namespace Universe

variable {U : Universe} {ctx : ReadCtx} {m : ObjectMeta}

theorem exact_of_cut (h : U.CtxOk ctx) (hm : U.Pinned ctx m) (hi : i < maxU32) {data : Bytes}
    (hc : CutFrom (U.Content ctx.key ctx.tag) (i * ctx.namespace.config.blockSize.bytes)
      (ctx.namespace.config.blockSize.blockRange i (some m.size)).count data) :
    U.Exact (BlockKey.new ctx.key ctx.tag i) ⟨m, data⟩ := by
  obtain ⟨v, hv, hn, ht⟩ := hm
  rw [hn.1] at hc
  exact ⟨hi, _, v, h.sizes, hv, ht, hn, hc⟩

/-- If all versions that may be read under the key have the same content, an exact block is a block
of it. -/
theorem Exact.eq_blockOf {key : BlockKey} {b : Block} (h : U.Exact key b)
    (hone : ∀ v w, U.Has key.namespace key.object v → U.Has key.namespace key.object w →
      U.Matches key.namespace key.tag v → U.Matches key.namespace key.tag w → v.data = w.data) :
    ∃ bs v, U.sizes key.namespace bs ∧ U.Has key.namespace key.object v ∧ U.Matches key.namespace key.tag v ∧
      v.Names b.meta ∧ b.data = blockOf bs v.data key.index := by
  obtain ⟨hi, bs, v, hbs, hv, ht, hn, ⟨data, ⟨w, hw, htw, rfl⟩, hdata⟩, -⟩ := h
  refine ⟨bs, v, hbs, hv, ht, hn, ?_⟩
  rw [hdata, hone w v hw hv htw ht]
  exact bs.blockOf_eq_slice (bs.length_blockOf hi)

theorem exact_of_blockOf {key : BlockKey} {b : Block} {v : Version} (hi : key.index < maxU32)
    (hbs : U.sizes key.namespace bs) (hv : U.Has key.namespace key.object v)
    (ht : U.Matches key.namespace key.tag v) (hn : v.Names b.meta)
    (hd : b.data = blockOf bs v.data key.index) :
    U.Exact key b := by
  have hlen : (blockOf bs v.data key.index).length = _ := bs.length_blockOf hi
  refine ⟨hi, bs, v, hbs, hv, ht, hn, ⟨v.data, ⟨v, hv, ht, rfl⟩, ?_⟩, hd ▸ hlen⟩
  rw [bs.blockOf_eq_slice hlen]
  exact hd

theorem exact_empty (h : U.CtxOk ctx) (hm : U.Pinned ctx m) (hi : i < maxU32)
    (he : m.size ≤ i * ctx.namespace.config.blockSize.bytes) :
    U.Exact (BlockKey.new ctx.key ctx.tag i) (Block.empty m) := by
  refine exact_of_cut h hm hi ?_
  obtain ⟨v, hv, hn, ht⟩ := hm
  have hcount : (ctx.namespace.config.blockSize.blockRange i (some m.size)).count = 0 := by
    rw [BlockSize.blockRange_count _ hi]
    omega
  rw [hcount]
  exact ⟨⟨v.data, ⟨v, hv, ht, rfl⟩, (slice_self _ _).symm⟩, rfl⟩

/-- A backup that passes the tag check carries content the context may read. -/
theorem CtxOk.honest (h : U.CtxOk ctx) {ev : BodyEvent}
    (hev : ∀ r, ev = .opened (.ok r) → ∃ v, U.versions ctx.namespace.name ctx.name v ∧ r.Of v) :
    ev.Honest (U.Content ctx.key ctx.tag) ctx := by
  intro r hr hu
  obtain ⟨v, hv, hof⟩ := hev r hr
  refine ⟨v.data, ⟨v, (h.versions v).mp hv, h.matches_of (hu.imp id fun ht => ?_), rfl⟩, hof.2⟩
  rw [← hof.1.contentTag_eq]
  exact ht

end Universe

/-! ## Awaiting a block -/

variable {T : Terms} {g : Held} {ctx : ReadCtx} {m : ObjectMeta} {deadline fuel : Nat}

theorem HedgedBody.await_wp (h : T.law.CtxOk ctx) {index expected : Nat} {b : HedgedBody} {w : Waiting}
    (hb : b.ctx = ctx)
    (hi : b.Inv (T.law.Content ctx.key ctx.tag) (index * ctx.namespace.config.blockSize.bytes) w)
    (hf : T.budget ≤ g.turns + fuel) :
    wp T.spec (b.await index expected deadline fuel w)
      (fun g' out => g.Hears g' ∧ out.1.ctx = ctx ∧ ∀ block, out.2 = .ready (.ok block) →
        CutFrom (T.law.Content ctx.key ctx.tag) (index * ctx.namespace.config.blockSize.bytes)
          expected block ∧
        out.1.Inv (T.law.Content ctx.key ctx.tag)
          (index * ctx.namespace.config.blockSize.bytes + expected) .race) g := by
  induction fuel generalizing b w g with
  | zero => exact ⟨hf, nofun⟩
  | succ fuel ih =>
      unfold HedgedBody.await
      refine wp_step trivial fun answer g₁ hg₁ hrely => ?_
      have h₁ := Held.Hears.after hg₁ rfl
      match answer, hg₁, hrely with
      | .timeout, _, _ => exact ⟨h₁, hb, nofun⟩
      | .dropped, _, _ => exact ⟨h₁, hb, nofun⟩
      | .ready ev, hg₁, ⟨hexp, hev⟩ =>
          have ht₁ : g₁.turns = g.turns + 1 := hg₁ ▸ rfl
          obtain ⟨⟨b', poll⟩, hn⟩ := HedgedBody.nextBlock_of_expects hexp index expected
          obtain ⟨hctx, -⟩ := HedgedBody.nextBlock_ctx hn
          rw [hb] at hctx
          have hafter := HedgedBody.nextBlock_after hn (by rw [hb, BlockSize.offset_eq]; exact hi)
            (by rw [hb]; exact h.honest (by rw [hb] at hev; exact hev))
          rw [hb, BlockSize.offset_eq] at hafter
          simp only [hn]
          match poll with
          | .pending w' =>
              exact wp_mono (ih hctx hafter (by omega)) fun g₂ out h₂ => ⟨h₁.trans h₂.1, h₂.2⟩
          | .ready (.error e) => exact ⟨h₁, hctx, nofun⟩
          | .ready (.ok block) =>
              refine ⟨h₁, hctx, ?_⟩
              rintro _ ⟨⟩
              exact ⟨hafter.1, hafter.2.1⟩

theorem BlockStream.await_wp {P : Bytes → Prop} {pos expected : Nat} {s : BlockStream}
    (hs : StreamFrom P pos s) (hf : T.budget ≤ g.turns + fuel) :
    wp T.spec (s.await expected deadline fuel)
      (fun g' out => g.Hears g' ∧ ∀ block, out.2 = .ready (.ok block) →
        CutFrom P pos expected block ∧ StreamFrom P (pos + expected) out.1) g := by
  induction fuel generalizing s g with
  | zero => exact ⟨hf, nofun⟩
  | succ fuel ih =>
      unfold BlockStream.await
      refine wp_step trivial fun answer g₁ hg₁ _ => ?_
      have h₁ := Held.Hears.after hg₁ rfl
      match answer, hg₁ with
      | .timeout, _ => exact ⟨h₁, nofun⟩
      | .dropped, _ => exact ⟨h₁, nofun⟩
      | .ready (), hg₁ =>
          have ht₁ : g₁.turns = g.turns + 1 := hg₁ ▸ rfl
          cases ht : s.turn expected with
          | mk s' r =>
              simp only
              match r with
              | none => exact wp_mono (ih (hs.turn_none ht) (by omega)) fun g₂ out h₂ => ⟨h₁.trans h₂.1, h₂.2⟩
              | some (.error e) => exact ⟨h₁, nofun⟩
              | some (.ok block) =>
                  refine ⟨h₁, ?_⟩
                  rintro _ ⟨⟩
                  exact hs.turn_ok ht

/-! ## Consuming -/

theorem consumeBefore_wp (h : T.law.CtxOk ctx) (hm : T.law.Pinned ctx m) {n next : Nat} {body : HedgedBody}
    (hb : body.ctx = ctx)
    (hat : BodyAt (T.law.Content ctx.key ctx.tag) ctx.namespace.config.blockSize m.size next body)
    (hn : n ≠ 0 → next + n ≤ ctx.namespace.config.blockSize.count m.size) (hf : T.budget ≤ g.turns + fuel) :
    wp T.spec (consumeBefore fuel ctx m deadline n next body)
      (fun g' out => T.Passes g g.owned g' ∧ out.1.ctx = ctx ∧ (out.2 = .ready (.ok ()) →
        BodyAt (T.law.Content ctx.key ctx.tag) ctx.namespace.config.blockSize m.size (next + n) out.1))
          g := by
  induction n generalizing next body g with
  | zero => exact ⟨.of_hears (.refl g), hb, fun _ => hat⟩
  | succ n ih =>
      have hcount : next < ctx.namespace.config.blockSize.count m.size := by
        have := hn (by simp)
        omega
      obtain ⟨hlt, hsize⟩ := (BlockSize.lt_count_iff _).mp hcount
      unfold consumeBefore
      refine wp_seq claim_wp fun g₁ claimed h₁ => ?_
      obtain ⟨h₁, hclaimed⟩ := h₁
      have ht₁ := h₁.turns
      refine wp_seq (HedgedBody.await_wp h hb (hat hsize) (by omega)) fun g₂ out h₂ => ?_
      obtain ⟨h₂, hctx, hcut⟩ := h₂
      have h₂ := h₁.hears h₂
      -- whatever ends the attempt drops the claimed slot
      have hcancel {a : HedgedBody × Awaited (Except OriginError Unit)} (ha : a.1.ctx = ctx)
          (hne : a.2 ≠ .ready (.ok ())) :
          wp T.spec (do cancelAll claimed.toList; pure a)
            (fun g' out => T.Passes g g.owned g' ∧ out.1.ctx = ctx ∧ (out.2 = .ready (.ok ()) →
              BodyAt (T.law.Content ctx.key ctx.tag) ctx.namespace.config.blockSize m.size
                (next + (n + 1)) out.1)) g₂ := by
        refine wp_seq (cancelAll_wp h₂.owned fun s hs => (hclaimed s hs).2.new) fun g₃ _ h₃ => ?_
        exact ⟨h₂.trans h₃, ha, fun he => absurd he hne⟩
      match out with
      | (b, .ready (.error e)) => exact hcancel hctx (by simp)
      | (b, .timeout) => exact hcancel hctx (by simp)
      | (b, .dropped) => exact hcancel hctx (by simp)
      | (b, .ready (.ok block)) =>
          obtain ⟨hcut, hinv⟩ := hcut block rfl
          have hnext := BodyAt.next hlt hinv
          have hrest {g₃ : Held} (h₃ : T.Passes g g.owned g₃) :
              wp T.spec (consumeBefore fuel ctx m deadline n (next + 1) b)
                (fun g' out => T.Passes g g.owned g' ∧ out.1.ctx = ctx ∧ (out.2 = .ready (.ok ()) →
                  BodyAt (T.law.Content ctx.key ctx.tag) ctx.namespace.config.blockSize m.size
                    (next + (n + 1)) out.1)) g₃ := by
            have ht₃ := h₃.turns
            refine wp_mono (ih hctx hnext (fun _ => by have := hn (by simp); omega) (by omega))
              fun g₄ out h₄ => ?_
            obtain ⟨h₄, hc, hat⟩ := h₄
            rw [h₃.owned] at h₄
            rw [show next + (n + 1) = next + 1 + n by omega]
            exact ⟨h₃.trans h₄, hc, hat⟩
          match claimed with
          | none => exact hrest (by simpa using h₂)
          | some slot =>
              obtain ⟨hidx, hc⟩ := hclaimed slot (by simp)
              have howned : g₂.owned = slot ::ₘ g.owned := by simpa using h₂.owned
              have hexact : T.law.Exact slot.key ⟨m, block⟩ := by
                rw [hc.key, hidx]
                exact Universe.exact_of_cut h hm hlt hcut
              refine wp_seq (cacheExtra_wp (by simp [howned]) hexact) fun g₃ _ h₃ => ?_
              rw [howned, Multiset.erase_cons_head] at h₃
              exact hrest (h₂.trans h₃)

theorem consumeSlots_wp (h : T.law.CtxOk ctx) (hm : T.law.Pinned ctx m) {next : Nat}
    {body : HedgedBody} (hslots : SlotsFrom ctx first slots)
    (hnext : slots = [] → next = first) (hb : body.ctx = ctx)
    (hat : BodyAt (T.law.Content ctx.key ctx.tag) ctx.namespace.config.blockSize m.size first body)
    (ho : g.owned = ↑slots + rest) (hf : T.budget ≤ g.turns + fuel) :
    wp T.spec (consumeSlots fuel ctx m deadline slots next body)
      (fun g' out => T.Passes g (↑out.1 + rest) g' ∧ out.1 <:+ slots ∧ (out.2.2.2 = .ready (.ok ()) →
        out.1 = [] ∧ out.2.1 = first + slots.length ∧
          BodyAt (T.law.Content ctx.key ctx.tag) ctx.namespace.config.blockSize m.size out.2.1 out.2.2.1))
            g := by
  induction slots generalizing first next body g with
  | nil =>
      refine ⟨ho ▸ .of_hears (.refl g), List.suffix_rfl, fun _ => ⟨rfl, hnext rfl, ?_⟩⟩
      rw [hnext rfl]
      exact hat
  | cons slot slots ih =>
      obtain ⟨hkey, hlt, hslots⟩ := hslots
      have hidx : slot.key.index = first := by rw [hkey]; rfl
      have herase {g₁ : Held} (h₁ : g.Hears g₁) : g₁.owned.erase slot = ↑slots + rest := by
        rw [h₁.owned, ho, ← Multiset.cons_coe, Multiset.cons_add, Multiset.erase_cons_head]
      have hmem {g₁ : Held} (h₁ : g.Hears g₁) : slot ∈ g₁.owned := by simp [h₁.owned, ho]
      -- once the slot is settled, the rest is consumed from the next block on
      have hgo {g₁ : Held} {body : HedgedBody} (h₁ : T.Passes g (↑slots + rest) g₁) (hb : body.ctx = ctx)
          (hat : BodyAt (T.law.Content ctx.key ctx.tag) ctx.namespace.config.blockSize m.size
          (first + 1) body) :
          wp T.spec (consumeSlots fuel ctx m deadline slots (first + 1) body)
            (fun g' out => T.Passes g (↑out.1 + rest) g' ∧ out.1 <:+ slot :: slots ∧
              (out.2.2.2 = .ready (.ok ()) → out.1 = [] ∧ out.2.1 = first + (slot :: slots).length ∧
                BodyAt (T.law.Content ctx.key ctx.tag) ctx.namespace.config.blockSize m.size out.2.1
                  out.2.2.1)) g₁ := by
        have ht₁ := h₁.turns
        refine wp_mono (ih hslots (fun _ => rfl) hb hat h₁.owned (by omega)) fun g₂ out h₂ => ?_
        obtain ⟨h₂, hsuf, hok⟩ := h₂
        refine ⟨h₁.trans h₂, hsuf.trans (List.suffix_cons _ _), fun he => ?_⟩
        obtain ⟨hnil, hn, hat⟩ := hok he
        exact ⟨hnil, by rw [hn, List.length_cons]; omega, hat⟩
      have hstop {g₁ : Held} {out : List Slot × Nat × HedgedBody × Awaited (Except OriginError Unit)}
          (h₁ : g.Hears g₁) (hl : out.1 = slot :: slots) (hne : out.2.2.2 ≠ .ready (.ok ())) :
          T.Passes g (↑out.1 + rest) g₁ ∧ out.1 <:+ slot :: slots ∧ (out.2.2.2 = .ready (.ok ()) →
            out.1 = [] ∧ out.2.1 = first + (slot :: slots).length ∧
              BodyAt (T.law.Content ctx.key ctx.tag) ctx.namespace.config.blockSize m.size out.2.1
                out.2.2.1) := by
        refine ⟨?_, hl ▸ List.suffix_rfl, fun he => absurd he hne⟩
        rw [hl, ← ho]
        exact .of_hears h₁
      unfold consumeSlots
      simp only [hidx]
      split
      · rename_i hzero
        rw [BlockSize.blockRange_count _ hlt] at hzero
        have hend : m.size ≤ first * ctx.namespace.config.blockSize.bytes := by
          have := ctx.namespace.config.blockSize.bytes_pos
          rw [Nat.add_mul, Nat.one_mul] at hzero
          omega
        have hexact : T.law.Exact slot.key (Block.empty m) := hkey ▸ Universe.exact_empty h hm hlt hend
        refine wp_seq (settle_ok_wp (hmem (.refl g)) (T.law.fit_of_exact hexact)) fun g₁ _ h₁ => ?_
        rw [herase (.refl g)] at h₁
        refine hgo h₁ hb fun hlt => ?_
        rw [Nat.add_mul] at hlt
        omega
      · rename_i hne
        have hsize : first * ctx.namespace.config.blockSize.bytes < m.size := by
          rw [BlockSize.blockRange_count _ hlt] at hne
          omega
        refine wp_seq (HedgedBody.await_wp h hb (hat hsize) hf) fun g₁ out h₁ => ?_
        obtain ⟨h₁, hctx, hcut⟩ := h₁
        match out with
        | (b, .ready (.error e)) => exact hstop h₁ rfl nofun
        | (b, .timeout) => exact hstop h₁ rfl nofun
        | (b, .dropped) => exact hstop h₁ rfl nofun
        | (b, .ready (.ok block)) =>
            obtain ⟨hcut, hinv⟩ := hcut block rfl
            have hexact : T.law.Exact slot.key ⟨m, block⟩ := hkey ▸ Universe.exact_of_cut h hm hlt hcut
            refine wp_quiet hexact rfl fun _ g₂ h₂ _ => ?_
            have h₂ := h₁.trans h₂
            refine wp_seq (settle_ok_wp (hmem h₂) (T.law.fit_of_exact hexact)) fun g₃ _ h₃ => ?_
            rw [herase h₂] at h₃
            exact hgo ((Passes.of_hears h₂).trans h₃) hctx (BodyAt.next hlt hinv)

/-- What `consume` leaves for later: new slots in order, and a stream that stands at or before the
first. -/
structure Terms.TrailingOk (T : Terms) (ctx : ReadCtx) (t : Trailing) : Prop where
  pinned : T.law.Pinned ctx t.meta
  stream : StreamAtBlock (T.law.Content ctx.key ctx.tag) ctx.namespace.config.blockSize t.meta.size
    t.next t.stream
  claimed : ∀ slot ∈ t.slots, T.Claimed ctx slot
  within : ∀ slot ∈ t.slots, t.next ≤ slot.key.index ∧
    slot.key.index < ctx.namespace.config.blockSize.count t.meta.size
  sorted : (t.slots.map (·.key.index)).Pairwise (· < ·)

/-- The slots an attempt hands over to be filled later. -/
def trailingSlots : Awaited (Except OriginError (Option Trailing)) → List Slot
  | .ready (.ok (some t)) => t.slots
  | _ => []

/-- How an attempt ends: it owns the slots it has not delivered and those that trail. -/
structure Terms.Attempted (T : Terms) (ctx : ReadCtx) (g : Held) (slots : List Slot) (rest : Multiset Slot)
    (g' : Held) (out : List Slot × Awaited (Except OriginError (Option Trailing))) : Prop where
  moves : g.Moves (↑out.1 + (↑(trailingSlots out.2) + rest)) g'
  suffix : out.1 <:+ slots
  trailing : ∀ t, out.2 = .ready (.ok (some t)) → T.TrailingOk ctx t
  done : ∀ t, out.2 = .ready (.ok t) → out.1 = []
  lost : (∀ t, out.2 ≠ .ready (.ok t)) → ∀ slot ∈ g'.lost, slot ∈ g.lost ∨ ¬ T.Old slot

theorem Terms.Attempted.failed {slots' : List Slot} {g' : Held}
    {a : Awaited (Except OriginError (Option Trailing))} (h : T.Passes g (↑slots' + rest) g')
    (hs : slots' <:+ slots) (ha : ∀ t, a ≠ .ready (.ok t)) : T.Attempted ctx g slots rest g' (slots', a) where
  moves := by
    have : trailingSlots a = [] := by
      unfold trailingSlots
      split
      · exact absurd rfl (ha _)
      · rfl
    rw [this]
    simpa using h.toMoves
  suffix := hs
  trailing := fun t he => absurd he (ha _)
  done := fun t he => absurd he (ha _)
  lost := fun _ => h.lost

theorem consume_wp (h : T.law.CtxOk ctx) {response : GetResponse} {rangeEnd : Nat}
    (hr : ∃ v, T.law.Has ctx.key.namespace ctx.key.object v ∧ response.Of v ∧
      T.law.Matches ctx.key.namespace ctx.tag v)
    (hslots : SlotsFrom ctx first slots) (hne : slots ≠ [])
    (halign : response.range.start % ctx.namespace.config.blockSize.bytes = 0)
    (hstart : response.range.start ≤ first * ctx.namespace.config.blockSize.bytes)
    (ho : g.owned = ↑slots + rest) (hf : T.budget ≤ g.turns + fuel) :
    wp T.spec (consume fuel ctx response slots rangeEnd deadline) (T.Attempted ctx g slots rest) g := by
  obtain ⟨v, hv, ⟨hn, hc⟩, ht⟩ := hr
  have hm : T.law.Pinned ctx response.meta := ⟨v, hv, hn, ht⟩
  have hfirst : first < maxU32 ∧ (slots.head?.map (·.key.index)) = some first := by
    cases slots with
    | nil => exact absurd rfl hne
    | cons slot slots => exact ⟨hslots.2.1, by simp [hslots.1, BlockKey.new]⟩
  -- the response starts at block `next`
  have hindex : ctx.namespace.config.blockSize.index response.range.start *
      ctx.namespace.config.blockSize.bytes = response.range.start ∧ ctx.namespace.config.blockSize.index
      response.range.start ≤ first := by
    have hpos := ctx.namespace.config.blockSize.bytes_pos
    have hle : response.range.start / ctx.namespace.config.blockSize.bytes ≤ first :=
      Nat.div_le_of_le_mul (by rwa [Nat.mul_comm])
    have hmax : maxU32 < 2 ^ 32 := by decide
    rw [BlockSize.index_eq, Nat.mod_eq_of_lt (by omega)]
    exact ⟨Nat.div_mul_cancel (Nat.dvd_of_mod_eq_zero halign), hle⟩
  obtain ⟨hindex, hle⟩ := hindex
  have hbody : BodyAt (T.law.Content ctx.key ctx.tag) ctx.namespace.config.blockSize response.meta.size
      (ctx.namespace.config.blockSize.index response.range.start)
      (HedgedBody.new ctx response.body rangeEnd) := by
    intro _
    rw [hindex]
    exact HedgedBody.Inv.new ⟨v, hv, ht, rfl⟩ hc rangeEnd
  unfold consume
  simp only [hfirst.2, Option.getD_some]
  refine wp_seq (consumeBefore_wp h hm rfl hbody (by omega) hf) fun g₁ out h₁ => ?_
  obtain ⟨h₁, hctx, hat⟩ := h₁
  rw [ho] at h₁
  match out with
  | (_, .ready (.error e)) => exact .failed h₁ List.suffix_rfl nofun
  | (_, .timeout) => exact .failed h₁ List.suffix_rfl nofun
  | (_, .dropped) => exact .failed h₁ List.suffix_rfl nofun
  | (body, .ready (.ok ())) =>
      have hat : BodyAt (T.law.Content ctx.key ctx.tag) ctx.namespace.config.blockSize
          response.meta.size first body := by
        intro hlt
        have hcount := (BlockSize.lt_count_iff _).mpr ⟨hfirst.1, hlt⟩
        have hat := hat rfl
        rw [show ctx.namespace.config.blockSize.index response.range.start +
          (min first (ctx.namespace.config.blockSize.count response.meta.size) -
            ctx.namespace.config.blockSize.index response.range.start) = first by omega] at hat
        exact hat hlt
      have ht₁ := h₁.turns
      refine wp_seq (consumeSlots_wp h hm hslots (fun he => absurd he hne) hctx hat h₁.owned (by omega))
        fun g₂ out h₂ => ?_
      obtain ⟨h₂, hsuf, hok⟩ := h₂
      have h₂ := h₁.trans h₂
      match out with
      | (slots', _, _, .ready (.error e)) => exact .failed h₂ hsuf nofun
      | (slots', _, _, .timeout) => exact .failed h₂ hsuf nofun
      | (slots', _, _, .dropped) => exact .failed h₂ hsuf nofun
      | (slots', next, body, .ready (.ok ())) =>
          obtain ⟨rfl, -, hat⟩ := hok rfl
          refine wp_seq claimAll_wp fun g₃ claimed h₃ => ?_
          obtain ⟨h₃, hsub, hclaimed⟩ := h₃
          rw [h₂.owned] at h₃
          have h₃ := h₂.trans h₃
          split
          · rename_i hnil
            subst hnil
            refine ⟨?_, hsuf, nofun, fun _ _ => rfl, fun _ => h₃.lost⟩
            simpa [trailingSlots] using h₃.toMoves
          · refine ⟨?_, hsuf, ?_, fun _ _ => rfl, fun _ => h₃.lost⟩
            · simpa [trailingSlots] using h₃.toMoves
            · rintro _ ⟨⟩
              refine ⟨hm, fun hlt => (hat hlt).primary nofun, hclaimed, fun slot hs => ?_, ?_⟩
              · obtain ⟨h1, h2⟩ := mem_wholeAfter (hsub.subset (List.mem_map_of_mem hs))
                exact ⟨h1, h2.trans_le (BlockSize.count_mono _ (Nat.min_le_right _ _))⟩
              · exact (wholeAfter_sorted _ _ _ _).sublist hsub

theorem accept_wp (h : T.law.CtxOk ctx) {response : GetResponse} {range : Range}
    (hr : ∃ v, T.law.Has ctx.key.namespace ctx.key.object v ∧ response.Of v)
    (hhot : g.hot ctx.namespace.name ctx.name response.meta) (hslots : SlotsFrom ctx first slots)
    (hne : slots ≠ []) (hrange : range.start = first * ctx.namespace.config.blockSize.bytes)
    (ho : g.owned = ↑slots + rest) (hf : T.budget ≤ g.turns + fuel) :
    wp T.spec (accept fuel ctx response slots range deadline)
      (fun g' out => T.Attempted ctx g slots rest g' out ∧
        ((∀ t, out.2 ≠ .ready (.ok t)) → T.law.Pinned ctx response.meta)) g := by
  obtain ⟨v, hv, hof⟩ := hr
  unfold accept
  rw [h.knows.name] at hhot
  refine wp_quiet ⟨⟨v, hv, hof.1⟩, .inl (by rw [h.key]; exact hhot)⟩ rfl fun _ g₁ h₁ _ => ?_
  have ho₁ : g₁.owned = ↑slots + rest := h₁.owned.trans ho
  have ht₁ := h₁.turns
  split
  · refine wp_seq (resolveAll_wp ho₁ nofun) fun g₂ _ h₂ => ?_
    refine ⟨⟨?_, List.nil_suffix, nofun, fun _ _ => rfl, ?_⟩, ?_⟩
    rotate_left
    · exact fun hno => absurd rfl (hno none)
    · exact fun hno => absurd rfl (hno none)
    simpa [trailingSlots] using h₁.toMoves.trans h₂.1
  · rename_i htag
    have ht : T.law.Matches ctx.key.namespace ctx.tag v := by
      refine h.matches_of ?_
      rw [hof.1.contentTag_eq] at htag
      tauto
    split
    · exact ⟨.failed (ho ▸ Passes.of_hears h₁) List.suffix_rfl nofun, fun _ => ⟨v, hv, hof.1, ht⟩⟩
    · rename_i hstart
      have hstart : response.range.start ≤ range.start ∧
          response.range.start % ctx.namespace.config.blockSize.bytes = 0 := by omega
      refine wp_mono (consume_wp h ⟨v, hv, hof, ht⟩ hslots hne hstart.2 (hrange ▸ hstart.1) ho₁ (by omega))
        fun g₂ out h₂ => ?_
      refine ⟨{ h₂ with moves := h₁.toMoves.trans h₂.moves, lost := fun ha slot hs => ?_ }, ?_⟩
      · exact (h₂.lost ha slot hs).imp (fun hs => h₁.lost ▸ hs) id
      · exact fun _ => ⟨v, hv, hof.1, ht⟩

/-! ## Filling the trailing blocks -/

theorem skipBlocks_wp {P : Bytes → Prop} {size n next : Nat} {stream : BlockStream}
    (hat : StreamAtBlock P bs size next stream) (hn : n ≠ 0 → next + n ≤ bs.count size)
    (hf : T.budget ≤ g.turns + fuel) :
    wp T.spec (skipBlocks fuel bs size deadline n next stream)
      (fun g' out => g.Hears g' ∧ ∀ stream, out = some stream → StreamAtBlock P bs size (next + n) stream)
        g := by
  induction n generalizing next stream g with
  | zero =>
      refine ⟨.refl g, ?_⟩
      rintro _ ⟨⟩
      exact hat
  | succ n ih =>
      have hcount : next < bs.count size := by
        have := hn (by simp)
        omega
      obtain ⟨hlt, hsize⟩ := (BlockSize.lt_count_iff _).mp hcount
      unfold skipBlocks
      refine wp_seq (BlockStream.await_wp (hat hsize) hf) fun g₁ out h₁ => ?_
      obtain ⟨h₁, hcut⟩ := h₁
      match out with
      | (_, .ready (.error e)) => exact ⟨h₁, nofun⟩
      | (_, .timeout) => exact ⟨h₁, nofun⟩
      | (_, .dropped) => exact ⟨h₁, nofun⟩
      | (stream, .ready (.ok block)) =>
          have ht₁ := h₁.turns
          have hnext := StreamAtBlock.next hlt (hcut block rfl).2
          refine wp_mono (ih hnext (fun _ => by have := hn (by simp); omega) (by omega)) fun g₂ out h₂ => ?_
          rw [show next + (n + 1) = next + 1 + n by omega]
          exact ⟨h₁.trans h₂.1, h₂.2⟩

theorem fillTrailing_wp (h : T.law.CtxOk ctx) {t : Trailing} (ht : T.TrailingOk ctx t)
    (ho : g.owned = ↑t.slots + rest) (hf : T.budget ≤ g.turns + fuel) :
    wp T.spec (fillTrailing fuel ctx t.meta deadline t.slots t.next t.stream)
      (fun g' _ => T.Passes g rest g') g := by
  obtain ⟨stream, next, slots, m⟩ := t
  obtain ⟨hm, hat, hclaimed, hwithin, hsorted⟩ := ht
  dsimp only at *
  induction slots generalizing next stream g with
  | nil => exact (by simpa using ho : g.owned = rest) ▸ .of_hears (.refl g)
  | cons slot slots ih =>
      have hdrop {g₁ : Held} (h₁ : g.Hears g₁) :
          wp T.spec (cancelAll (slot :: slots)) (fun g' _ => T.Passes g rest g') g₁ := by
        refine wp_mono (cancelAll_wp (h₁.owned.trans ho) fun s hs => (hclaimed s hs).new) fun g₂ _ h₂ => ?_
        exact (Passes.of_hears h₁).trans h₂
      obtain ⟨hle, hlt⟩ := hwithin slot List.mem_cons_self
      obtain ⟨hmax, hsize⟩ := (BlockSize.lt_count_iff _).mp hlt
      unfold fillTrailing
      refine wp_seq (skipBlocks_wp hat (fun _ => by omega) hf) fun g₁ out h₁ => ?_
      obtain ⟨h₁, hat⟩ := h₁
      match out with
      | none => exact hdrop h₁
      | some stream =>
          have hat := hat stream rfl
          rw [show next + (slot.key.index - next) = slot.key.index by omega] at hat
          have ht₁ := h₁.turns
          refine wp_seq (BlockStream.await_wp (hat hsize) (by omega)) fun g₂ out h₂ => ?_
          obtain ⟨h₂, hcut⟩ := h₂
          have h₂ := h₁.trans h₂
          match out with
          | (_, .ready (.error e)) => exact hdrop h₂
          | (_, .timeout) => exact hdrop h₂
          | (_, .dropped) => exact hdrop h₂
          | (stream, .ready (.ok block)) =>
              obtain ⟨hcut, hinv⟩ := hcut block rfl
              have hexact : T.law.Exact slot.key ⟨m, block⟩ := by
                rw [(hclaimed slot List.mem_cons_self).key]
                exact Universe.exact_of_cut h hm hmax hcut
              refine wp_seq (cacheExtra_wp (by simp [h₂.owned, ho]) hexact) fun g₃ _ h₃ => ?_
              rw [h₂.owned, ho, ← Multiset.cons_coe, Multiset.cons_add, Multiset.erase_cons_head] at h₃
              have h₃ := (Passes.of_hears h₂).trans h₃
              have ht₃ := h₃.turns
              have hsorted := List.pairwise_cons.mp hsorted
              rw [show max next slot.key.index = slot.key.index by omega]
              refine wp_mono (ih (by omega) stream (slot.key.index + 1) h₃.owned
                (StreamAtBlock.next hmax hinv) (fun s hs => hclaimed s (List.mem_cons_of_mem _ hs))
                (fun s hs => ?_) hsorted.2) fun g₄ _ h₄ => ?_
              · have := hsorted.1 s.key.index (List.mem_map_of_mem hs)
                exact ⟨this, (hwithin s (List.mem_cons_of_mem _ hs)).2⟩
              · exact h₃.trans h₄

end Nestor
