import Nestor.Engine.Fetch

/-!
# Programs that have to do with no GET

What a fetch group does beside its requests: waiting before a retry, asking for an object's
metadata, claiming blocks of a wider response and reading on in its body, none of which settles a
slot, starts a task or sends a GET; and taking and settling slots, which waits for nothing.
-/

namespace Nestor

open Lib

variable {retry : Retry} {e : OriginError} {ns : NamespaceState} {key : ObjectKey} {name : Bytes}

def Op.aside : Op → Bool
  | .publish _ _ | .unregister _ | .spawn _ | .sendGet _ _ _ | .hedge _ | .awaitGet _ _ _
  | .awaitBody _ _ _ => false
  | _ => true

abbrev Aside {α : Type} (p : Program α) : Prop := p.Only (·.aside = true)

/-- The operations that claim blocks or read on in a body. -/
def Op.brief : Op → Bool
  | .blocksContains _ | .register _ | .awaitStream _ | .hang => true
  | _ => false

abbrev Brief {α : Type} (p : Program α) : Prop := p.Only (·.brief = true)

theorem Brief.aside {α : Type} {p : Program α} (h : Brief p) : Aside p :=
  h.mono fun o ho => by cases o <;> first | rfl | cases ho

theorem only_hang {α : Type} {P : Op → Prop} (h : P .hang) : (hang : Program α).Only P := ⟨h, by rintro ⟨⟩⟩

/-- The operations of a HEAD of the object with its retries. -/
def Op.Heads (ns object : Bytes) : Op → Prop
  | .sendHead ns' object' => ns' = ns ∧ object' = object
  | .clock | .sleep _ | .awaitHead _ _ | .metaPut _ _ | .metaRemove _ | .hang => True
  | _ => False

abbrev Heads {α : Type} (ns object : Bytes) (p : Program α) : Prop := p.Only (·.Heads ns object)

theorem Heads.aside {α : Type} {ns object : Bytes} {p : Program α} (h : Heads ns object p) : Aside p :=
  h.mono fun o ho => by cases o <;> first | rfl | cases ho

variable {ctx : ReadCtx} {deadline fuel : Nat}

theorem pause_only {P : Op → Prop} (hclock : P .clock) (hsleep : ∀ t, P (.sleep t)) :
    (retry.pause e).Only P := by
  refine .step hclock fun now => ?_
  obtain ⟨retry', e' | delay⟩ := retry.failed now e
  · exact trivial
  · refine .step (hsleep _) fun answer => ?_
    cases answer <;> exact trivial

theorem pause_aside : Aside (retry.pause e) := pause_only rfl fun _ => rfl

theorem headRetry_heads
    (ih : ∀ retry, Heads ns.name name (headLoop ns key name fuel retry)) : Heads ns.name name (do
      match ← retry.pause e with
      | none => pure none
      | some (_, .error e) =>
          perform (.metaRemove key)
          pure (some (.error (.ofOrigin e)))
      | some (retry, .ok ()) => headLoop ns key name fuel retry) := by
  refine .bind (pause_only trivial fun _ => trivial) fun out => ?_
  obtain _ | ⟨retry', e' | ⟨⟩⟩ := out
  · exact trivial
  · exact .step trivial fun _ => trivial
  · exact ih retry'

theorem headLoop_heads (retry : Retry) :
    Heads ns.name name (headLoop ns key name fuel retry) := by
  induction fuel generalizing retry with
  | zero => exact only_hang trivial
  | succ fuel ih =>
      refine .step trivial fun started => .step ⟨rfl, rfl⟩ fun request => .step trivial fun answer => ?_
      rcases answer with (e | m) | _ | _
      · exact headRetry_heads ih
      · exact .step trivial fun _ => trivial
      · exact headRetry_heads ih
      · exact trivial

theorem pastEnd_heads {start : Nat} :
    Heads ns.name name (pastEnd fuel ns key name start) := by
  refine .bind (.step trivial fun now => headLoop_heads _) fun out => ?_
  obtain _ | e | m := out <;> exact trivial

theorem claim_brief {index : Nat} : Brief (claim ctx index) := by
  refine .step rfl fun present => ?_
  split
  · exact trivial
  · refine .step rfl fun registration => ?_
    cases registration <;> exact trivial

theorem claimAll_brief {indexes : List Nat} : Brief (claimAll ctx indexes) := by
  induction indexes with
  | nil => exact trivial
  | cons index indexes ih => exact .bind claim_brief fun _ => .bind ih fun _ => trivial

theorem BlockStream.await_brief {expected : Nat} {s : BlockStream} :
    Brief (BlockStream.await expected deadline fuel s) := by
  induction fuel generalizing s with
  | zero => exact only_hang rfl
  | succ fuel ih =>
      refine .step rfl fun answer => ?_
      cases answer with
      | ready ev =>
          dsimp only
          obtain ⟨s', _ | result⟩ := s.turn expected
          · exact ih
          · exact trivial
      | timeout => exact trivial
      | dropped => exact trivial

theorem skipBlocks_brief {bs : BlockSize} {size n next : Nat} {stream : BlockStream} :
    Brief (skipBlocks fuel bs size deadline n next stream) := by
  induction n generalizing next stream with
  | zero => exact trivial
  | succ n ih =>
      refine .bind BlockStream.await_brief fun out => ?_
      obtain ⟨stream', (e | data) | _ | _⟩ := out
      · exact trivial
      · exact ih
      · exact trivial
      · exact trivial

theorem HedgedBody.await_only [TagHash] {P : Op → Prop}
    (hbody : ∀ b waiting, P (.awaitBody b waiting deadline)) (hhang : P .hang) {index expected : Nat}
    {b : HedgedBody} {waiting : Waiting} :
    (HedgedBody.await index expected deadline fuel b waiting).Only P := by
  induction fuel generalizing b waiting with
  | zero => exact only_hang hhang
  | succ fuel ih =>
      refine .step (hbody b waiting) fun answer => ?_
      cases answer with
      | ready ev =>
          dsimp only
          obtain _ | ⟨b', waiting' | result⟩ := b.nextBlock index expected waiting ev
          · exact only_hang hhang
          · exact ih
          · exact trivial
      | timeout => exact trivial
      | dropped => exact trivial

/-! ## Taking and settling slots -/

/-- The operation is about slots, and answered at once. -/
def Op.easy : Op → Bool
  | .register _ | .unregister _ | .publish _ _ | .spawn _ => true
  | _ => false

abbrev Easy {α : Type} (p : Program α) : Prop := p.Only (·.easy = true)

theorem settle_easy (slot : Slot) (result : BlockResult) : Easy (slot.settle result) :=
  .step rfl fun _ => ⟨rfl, fun _ => trivial⟩

theorem resolveAll_easy (result : BlockResult) (slots : List Slot) : Easy (resolveAll result slots) := by
  induction slots with
  | nil => trivial
  | cons slot slots ih => exact (settle_easy slot result).bind fun _ => ih

theorem registerWhile_easy (ctx : ReadCtx) (indexes : List Nat) : Easy (registerWhile ctx indexes) := by
  induction indexes with
  | nil => trivial
  | cons index indexes ih =>
      refine .step rfl fun registration => ?_
      cases registration with
      | owner slot => exact ih.bind fun _ => trivial
      | waiter slot => trivial

theorem adoptResponse_easy (ctx : ReadCtx) (indexes : Range) (response : GetResponse) :
    Easy (adoptResponse ctx indexes response) := by
  refine (registerWhile_easy _ _).bind fun slots => ?_
  split
  · trivial
  · exact .step rfl fun _ => trivial

/-- The operations that fill blocks from a body that has been opened, and claim them. -/
def Op.fills : Op → Bool
  | .blocksContains _ | .blocksInsert _ _ | .register _ | .unregister _ | .publish _ _ | .awaitStream _
  | .hang => true
  | _ => false

abbrev Fills {α : Type} (p : Program α) : Prop := p.Only (·.fills = true)

theorem Brief.fills {α : Type} {p : Program α} (h : Brief p) : Fills p :=
  h.mono fun o ho => by cases o <;> first | rfl | cases ho

theorem resolveAll_fills {result : BlockResult} {slots : List Slot} : Fills (resolveAll result slots) := by
  induction slots with
  | nil => exact trivial
  | cons slot slots ih => exact .step rfl fun _ => .step rfl fun _ => ih

theorem cacheExtra_fills {slot : Slot} {m : ObjectMeta} {data : Bytes} : Fills (cacheExtra slot m data) :=
  .step rfl fun _ => .step rfl fun _ => .step rfl fun _ => trivial

theorem fillTrailing_fills {slots : List Slot} {m : ObjectMeta} {next : Nat} {stream : BlockStream} :
    Fills (fillTrailing fuel ctx m deadline slots next stream) := by
  induction slots generalizing next stream with
  | nil => exact trivial
  | cons slot slots ih =>
      refine .bind skipBlocks_brief.fills fun out => ?_
      cases out with
      | none => exact resolveAll_fills
      | some stream =>
          refine .bind BlockStream.await_brief.fills fun out => ?_
          obtain ⟨stream', (e | block) | _ | _⟩ := out
          case ready.ok => exact .bind cacheExtra_fills fun _ => ih
          all_goals exact resolveAll_fills

end Nestor
