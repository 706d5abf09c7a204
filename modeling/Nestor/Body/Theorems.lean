import Nestor.Body.Lemmas.Hedged
import Nestor.Lib.Runs

/-!
# Hedged bodies stitch without a seam

A session makes `next_block` calls for consecutive indexes on one hedged body, as `consume` does,
until a call fails. Between two calls, and while one waits, any events may happen.
-/

namespace Nestor

open Lib

structure Session where
  body : HedgedBody
  index : Nat
  waiting : Waiting
  blocks : List Bytes
  failed : Option OriginError
deriving DecidableEq

namespace Session

def start (ctx : ReadCtx) (items : List BodyItem) (rangeEnd first : Nat) : Session :=
  ⟨HedgedBody.new ctx items rangeEnd, first, .race, [], none⟩

/-- The blocks returned are the blocks from `first` on, and the streams stand at the next one. -/
structure Exact (ctx : ReadCtx) (data : Bytes) (first : Nat) (s : Session) : Prop where
  ctx_eq : s.body.ctx = ctx
  index_eq : s.index = first + s.blocks.length
  blocks_eq : s.blocks = (List.range' first s.blocks.length).map (blockOf ctx.namespace.config.blockSize data)
  body : s.failed = none → s.body.Inv (· = data) (ctx.namespace.config.blockSize.offset s.index) s.waiting

theorem start_exact {ctx : ReadCtx} {data : Bytes} {items first}
    (h : bodyBytes items <+: data.drop (ctx.namespace.config.blockSize.offset first)) (rangeEnd : Nat) :
    (start ctx items rangeEnd first).Exact ctx data first where
  ctx_eq := rfl
  index_eq := rfl
  blocks_eq := rfl
  body := fun _ => .of_idle ⟨data, rfl, by simpa [start, HedgedBody.new, StreamAt, BlockStream.pending,
    BlockStream.new] using h⟩ rfl

section

variable [TagHash]

/-- Resumes the call for block `index` of an object of `size` bytes; its result starts the next
call. -/
def step (size : Nat) (s : Session) (ev : BodyEvent) : Option Session :=
  if s.failed.isNone ∧ s.index < maxU32 then
    let expected := (s.body.ctx.namespace.config.blockSize.blockRange s.index (some size)).count
    match s.body.nextBlock s.index expected s.waiting ev with
    | none => none
    | some (b, .pending w) => some { s with body := b, waiting := w }
    | some (b, .ready (.ok block)) => some ⟨b, s.index + 1, .race, s.blocks ++ [block], none⟩
    | some (b, .ready (.error e)) => some { s with body := b, failed := some e }
  else none

theorem step_exact {ctx : ReadCtx} {data : Bytes} {first} {s s' : Session} {ev : BodyEvent}
    (h : s.step data.length ev = some s') (hi : s.Exact ctx data first) (hev : ev.Honest (· = data) ctx) :
    s'.Exact ctx data first := by
  unfold step at h
  split at h
  · rename_i hc
    simp only [Option.isNone_iff_eq_none] at hc
    obtain ⟨hf, hlt⟩ := hc
    obtain ⟨hctx, hidx, hblocks, hbody⟩ := hi
    rw [← BlockSize.length_blockOf _ hlt] at h
    cases hn : s.body.nextBlock s.index (blockOf s.body.ctx.namespace.config.blockSize data s.index).length
        s.waiting ev with
    | none => simp [hn] at h
    | some out =>
        obtain ⟨b, poll⟩ := out
        obtain ⟨hb, -⟩ := HedgedBody.nextBlock_ctx hn
        have hafter := HedgedBody.nextBlock_after hn (by rw [hctx]; exact hbody hf) (by rw [hctx]; exact hev)
        simp only [hn] at h
        rw [hctx] at hb hafter
        match poll with
        | .pending w =>
            simp only [Option.some.injEq] at h
            subst h
            exact ⟨hb, hidx, hblocks, fun _ => hafter⟩
        | .ready (.error e) =>
            simp only [Option.some.injEq] at h
            subst h
            exact ⟨hb, hidx, hblocks, fun hn => by cases hn⟩
        | .ready (.ok block) =>
            simp only [Option.some.injEq] at h
            subst h
            obtain ⟨⟨⟨_, rfl, hcut⟩, -⟩, hinv, hidle⟩ := hafter
            rw [BlockSize.offset_eq] at hcut hinv
            rw [BlockSize.blockOf_eq_slice _ rfl] at hcut
            refine ⟨hb, ?_, ?_, fun _ => ?_⟩
            · simp only [List.length_append, List.length_singleton]
              omega
            · simp only [List.length_append, List.length_singleton, List.range'_concat, List.map_append,
                List.map_singleton, Nat.one_mul]
              rw [← hblocks, ← hidx, hcut]
            · obtain ⟨_, rfl, hs⟩ := hinv.primary (by simp)
              rw [BlockSize.offset_eq]
              exact .of_idle ⟨_, rfl, hs.next_block⟩ hidle
  · cases h

/-- A backup of another version leaves the primary and the returned blocks alone and is dropped. -/
theorem step_other_version {size : Nat} {s s' : Session} {r : GetResponse}
    (h : s.step size (.opened (.ok r)) = some s') (hr : ¬ Usable s.body.ctx r) :
    s'.body.primary = s.body.primary ∧ s'.blocks = s.blocks ∧
      (s'.failed = none → s'.body.backup = .idle) := by
  unfold step at h
  simp only [HedgedBody.nextBlock] at h
  split at h
  · rename_i hc
    cases hw : s.waiting with
    | race =>
        cases hk : s.body.backup with
        | opening o =>
            simp only [hw, hk, HedgedBody.adopt_of_not_usable hr, Option.some.injEq] at h
            subst h
            exact ⟨rfl, rfl, fun _ => rfl⟩
        | idle => simp [hw, hk] at h
        | streaming t => simp [hw, hk] at h
    | primary => simp [hw] at h
    | opening e =>
        simp only [hw, HedgedBody.adopt_of_not_usable hr, Option.some.injEq] at h
        subst h
        exact ⟨rfl, rfl, fun hn => by cases hn⟩
  · cases h

/-- In every session, whatever the order of chunks, stalls, permits, backups and failures, the
blocks returned are exactly the blocks of the version from `first` on. While the session has not
failed, the stream `into_stream` leaves stands at the first byte after them: only while a failed
primary waits for its backup to open there is no such stream. Where tags are compared, a backup with
another tag is not used. -/
theorem blocks_exact {v : Version} {ctx : ReadCtx} {items : List BodyItem} {rangeEnd first : Nat}
    {es : List BodyEvent} {s : Session}
    (hbody : bodyBytes items <+: v.data.drop (ctx.namespace.config.blockSize.offset first))
    (h : Run (step v.data.length)
      (fun _ ev => ∀ r, ev = .opened (.ok r) → Usable ctx r → r.Carries v.data)
      (start ctx items rangeEnd first) es s) :
    s.blocks = (List.range' first s.blocks.length).map (blockOf ctx.namespace.config.blockSize v.data) ∧
    (s.failed = none → (∀ e, s.waiting ≠ .opening e) →
      StreamAt v.data (ctx.namespace.config.blockSize.offset (first + s.blocks.length)) s.body.intoStream) ∧
    (ctx.tag ≠ immutableTag → ∀ r s', contentTag r.meta.etag r.meta.size ≠ ctx.tag →
      s.step v.data.length (.opened (.ok r)) = some s' →
      s'.body.primary = s.body.primary ∧ s'.blocks = s.blocks ∧
        (s'.failed = none → s'.body.backup = .idle)) := by
  have hexact : s.Exact ctx v.data first := by
    refine h.invariant (fun s ev s' hi hok hs => ?_) (start_exact hbody rangeEnd)
    exact step_exact hs hi fun r hr hu => ⟨_, rfl, hok r hr hu⟩
  refine ⟨hexact.blocks_eq, fun hf hw => ?_, fun htag r s' hr hs => ?_⟩
  · obtain ⟨_, rfl, hs⟩ := (hexact.body hf).primary hw
    rwa [hexact.index_eq] at hs
  · refine step_other_version hs ?_
    rw [hexact.ctx_eq]
    exact fun hu => hu.elim htag hr

end

section

open Sample

/-- The namespace `n` as it is registered first, with the given consistency. -/
def sampleCtx (consistency : Consistency) : ReadCtx :=
  let config := { NamespaceConfig.default with consistency := consistency }
  ReadCtx.new ⟨0, [110], config⟩ ⟨0, [111]⟩ [111] (some ⟨1, some [65], none⟩) config.fetch

/-- A backup that carries another version than the one the sample context has read about. -/
def otherVersion : GetResponse := ⟨⟨1, some [66], none⟩, ⟨0, 1⟩, [.ok [9]]⟩

theorem blocks_exact_beside_other_version :
    (Session.mk ⟨sampleCtx (.etag 60000), 1, ⟨[], [], 0⟩, .idle⟩ 1 .race [[1]] none).blocks =
      (List.range' 0 1).map (blockOf BlockSize.default [1]) := by
  have hrun : Run (step 1)
      (fun _ ev => ∀ r, ev = .opened (.ok r) → Usable (sampleCtx (.etag 60000)) r → r.Carries [1])
      (start (sampleCtx (.etag 60000)) [.ok [1]] 1 0)
      [.stalled true, .opened (.ok otherVersion), .primary]
      ⟨⟨sampleCtx (.etag 60000), 1, ⟨[], [], 0⟩, .idle⟩, 1, .race, [[1]], none⟩ := by
    refine .cons (by simp) rfl (.cons ?_ rfl (.cons (by simp) rfl .nil))
    intro r hr hu
    cases hr
    exact absurd hu (by decide)
  exact (blocks_exact (v := ⟨[1], some [65]⟩) (by decide) hrun).1

/-- In an immutable namespace tags are not compared: the primary stalls, the backup answers with
another version, and its byte is returned for the block. -/
theorem other_version_used_when_immutable :
    contentTag otherVersion.meta.etag otherVersion.meta.size ≠ (Version.mk [1] (some [65])).tag ∧
    (runEvents (step 1) (start (sampleCtx .immutable) [.ok [1]] 1 0)
      [.stalled true, .opened (.ok otherVersion), .backup]).map (·.blocks) = some [[9]] ∧
    blockOf BlockSize.default [1] 0 = [1] := by
  refine ⟨by decide, rfl, rfl⟩

end

end Session

end Nestor
