import Nestor.Fetch.Lemmas.Aside
import Nestor.Fetch.Lemmas.Consume

/-!
# What a fetch group asks for

A GET of a fetch group starts at the first block that has not been delivered and ends with the
group; a body that is hedged asks for what is owed from the block on that is awaited. The blocks
delivered are those before, except where a response is wider than what was asked for and the blocks
before the group are awaited too.
-/

namespace Nestor

open Lib

variable {retry : Retry} {α : Type} {slots : List Slot} {next index i : Nat} {g' : Fetched}
    {known : Option ObjectMeta} {initial : Option GetResponse} {b : HedgedBody}

/-- What a fetch group has come to. -/
structure Fetched where
  /-- The slots whose block has been delivered. -/
  got : List Slot
  /-- The size of the object, as the last response has it. -/
  size : Option Nat
  gets : Nat
  /-- Where the last GET started. -/
  floor : Nat
  /-- A GET was answered with an error that is not to be retried. -/
  dead : Bool

namespace Fetched

def after (g : Fetched) : (o : Op) → Resp o → Fetched
  | .publish slot (.ok _), _ => { g with got := slot :: g.got }
  | .sendGet _ _ options, _ =>
      { g with gets := g.gets + 1, floor := (options.range.map (·.start)).getD g.floor }
  | .awaitGet _ _ _, .ready (.answered _ (.ok r)) => { g with size := some r.meta.size }
  | .awaitGet _ _ _, .ready (.answered _ (.error e)) => if e.isRetryable then g else { g with dead := true }
  | _, _ => g

def of (g : Fetched) (tr : Trace) : Fetched := tr.foldl (fun g d => g.after d.1 d.2) g

/-- A group may start with a response. -/
def start (ctx : ReadCtx) (initial : Option GetResponse) : Fetched :=
  ⟨[], ((initial.map (·.meta)).or ctx.meta).map (·.size), 0, 0, false⟩

def deliver (g : Fetched) (new : List Slot) : Fetched := { g with got := new ++ g.got }

/-- With the answer to a GET. -/
def heard (g : Fetched) : Awaited (Except OriginError GetResponse) → Fetched
  | .ready (.ok r) => { g with size := some r.meta.size }
  | .ready (.error e) => if e.isRetryable then g else { g with dead := true }
  | _ => g

theorem heard_eq (g : Fetched) (out : Awaited (Except OriginError GetResponse)) : (g.heard out).got = g.got ∧
    (g.heard out).gets = g.gets ∧ (g.heard out).floor = g.floor ∧
    ((∀ r, out ≠ .ready (.ok r)) → (g.heard out).size = g.size) ∧
    (g.dead = false → (g.heard out).dead = true → ∃ e, out = .ready (.error e) ∧ e.isRetryable = false) := by
  rcases out with (e | r) | _ | _
  · cases he : e.isRetryable with
    | true => simp +contextual [heard, he]
    | false => simp [heard, he]
  · simp +contextual [heard]
  · simp +contextual [heard]
  · simp +contextual [heard]

end Fetched

/-- The slots of a fetch group, which are those of consecutive blocks. -/
structure SlotGroup where
  ctx : ReadCtx
  first : Nat
  slots : List Slot
  consecutive : SlotsFrom ctx first slots

namespace SlotGroup

variable (G : SlotGroup)

def blockSize : BlockSize := G.ctx.namespace.config.blockSize

/-- The slots from the first one on whose block has not been delivered. -/
def left (g : Fetched) : List Slot := G.slots.dropWhile (· ∈ g.got)

/-- The end of the group, or of the object where that is known to come before. -/
def stop (g : Fetched) : Nat :=
  g.size.elim (G.blockSize.offset (G.first + G.slots.length))
    (min (G.blockSize.offset (G.first + G.slots.length)))

/-- A GET goes on where the delivery has stopped. -/
structure Resumes (g : Fetched) (options : GetOptions) : Prop where
  attempts : g.gets < max 1 G.ctx.policy.attempts
  range : ∃ front rest, G.left g = front :: rest ∧
    options.range = some ⟨G.blockSize.offset front.key.index, G.stop g⟩ ∧
    ∀ slot ∈ g.got, slot.key.index < front.key.index
  forward : ∀ range, options.range = some range → g.floor ≤ range.start

/-- What is asked for starts after all that has been delivered. -/
def Owed (g : Fetched) (options : GetOptions) : Prop :=
  ∃ index stop, options.range = some ⟨G.blockSize.offset index, stop⟩ ∧ ∀ slot ∈ g.got, slot.key.index < index

end SlotGroup

/-- What a request is told: a slot is the one of its key, and a request the one that was made. -/
def Echoes : (o : Op) → Resp o → Prop
  | .register key, .owner slot => slot.key = key
  | .sendGet _ _ options, request => request.options = options
  | .hedge primary, some request => request.options = primary.options
  | _, _ => True

/-- A response begins no earlier than what was asked for. -/
def NotWider : (o : Op) → Resp o → Prop
  | .awaitGet requests _ _, .ready (.answered _ (.ok r)) =>
      ∀ request ∈ requests, ∀ range, request.options.range = some range → range.start ≤ r.range.start
  | _, _ => True

/-! ## Retries -/

/-- One more attempt is to be made after the error. -/
structure Retry.Again (retry : Retry) (e : OriginError) (retry' : Retry) : Prop where
  retryable : e.isRetryable = true
  policy : retry'.policy = retry.policy
  attempt : retry'.attempt = retry.attempt + 1
  few : retry.attempt + 1 < retry.policy.attempts

theorem Retry.failed_again {retry' : Retry} {now delay : Nat} {e : OriginError}
    (h : retry.failed now e = (retry', .ok delay)) : retry.Again e retry' := by
  unfold Retry.failed at h
  dsimp only at h
  split at h
  · cases h
  · rename_i hgo
    split at h
    · cases h
    · cases h
      simp only [Bool.or_eq_true, Bool.not_eq_true', decide_eq_true_eq, not_or, Bool.not_eq_false,
        Nat.not_le] at hgo
      exact ⟨hgo.1, rfl, rfl, hgo.2⟩

theorem Retry.pause_again (retry : Retry) (e : OriginError) :
    (retry.pause e).Yields fun out => ∀ retry', out = some (retry', .ok ()) → retry.Again e retry' := by
  refine .step fun now => ?_
  split
  · exact nofun
  · rename_i retry' delay hfailed
    refine .step fun woken => ?_
    cases woken with
    | ready =>
        rintro _ ⟨⟩
        exact Retry.failed_again hfailed
    | timeout => exact nofun
    | dropped => exact nofun

/-! ## Programs that ask for nothing -/

/-- Operations that send a GET or await a body, which may be hedged. -/
def Op.asks : Op → Bool
  | .sendGet _ _ _ | .hedge _ | .awaitBody _ _ _ => true
  | _ => false

section

variable {ctx : ReadCtx} {deadline fuel : Nat}

theorem Aside.askless {p : Program α} (h : Aside p) : p.Only (·.asks = false) :=
  h.mono fun o ho => by cases o <;> first | rfl | cases ho

theorem Fills.askless {p : Program α} (h : Fills p) : p.Only (·.asks = false) :=
  h.mono fun o ho => by cases o <;> first | rfl | cases ho

end

namespace SlotGroup

variable (G : SlotGroup) (narrow : Prop)

def guar (g : Fetched) : Op → Prop
  | .sendGet _ _ options => g.dead = false ∧ G.Resumes g options
  | .hedge _ => g.dead = false
  | .awaitBody b _ _ => g.dead = false ∧ (narrow → ∀ options, b.backup = .opening options → G.Owed g options)
  | _ => True

/-- Where a hedged group has delivered a block, no response is wider; `narrow` says whether that is
counted on. -/
def rely (g : Fetched) (o : Op) (r : Resp o) : Prop :=
  Echoes o r ∧ (narrow → G.ctx.policy.hedge = true → g.got ≠ [] → NotWider o r)

def spec : Spec Op Resp Fetched := ⟨G.guar narrow, G.rely narrow, Fetched.after⟩

variable {G narrow} {g : Fetched}

theorem aside_wp {p : Program α} (h : Aside p) : wp (G.spec narrow) p (fun g' _ => g' = g) g := by
  refine h.wp (fun g' o hg ho => ?_) rfl
  subst hg
  cases o <;> first | exact ⟨trivial, fun _ => rfl⟩ | cases ho

theorem askless_wp {p : Program α} (h : p.Only (·.asks = false)) :
    wp (G.spec narrow) p (fun _ _ => True) g := by
  refine h.wp (fun g' o _ ho => ⟨?_, fun _ => trivial⟩) trivial
  cases o <;> first | exact trivial | cases ho

/-! ## Requests -/

/-- The answer to a GET for a range. -/
def Answers (G : SlotGroup) (narrow : Prop) (range : Range) (g g' : Fetched)
    (out : Awaited (Except OriginError GetResponse)) : Prop :=
  g' = g.heard out ∧ ∀ r, out = .ready (.ok r) → narrow → G.ctx.policy.hedge = true → g.got ≠ [] →
    range.start ≤ r.range.start

variable {range : Range} {deadline : Nat} {options : GetOptions}

theorem awaitLast_answers {request : GetRequest} (hr : request.options.range = some range) :
    wp (G.spec narrow) (awaitLast request deadline) (G.Answers narrow range g) g := by
  refine wp_then trivial fun r hrely => ?_
  rcases r with (⟨i, e | response⟩ | _) | _ | _
  · exact ⟨rfl, nofun⟩
  · refine ⟨rfl, ?_⟩
    rintro _ ⟨⟩ hn hh hgot
    exact hrely.2 hn hh hgot request (List.mem_singleton_self request) range hr
  · exact ⟨trivial, nofun⟩
  · exact ⟨rfl, nofun⟩
  · exact ⟨rfl, nofun⟩

theorem awaitBoth_answers {primary secondary : GetRequest} (hp : primary.options.range = some range)
    (hs : secondary.options.range = some range) :
    wp (G.spec narrow) (awaitBoth primary secondary deadline) (G.Answers narrow range g) g := by
  refine wp_then trivial fun r hrely => ?_
  rcases r with (⟨i, e | response⟩ | _) | _ | _
  · dsimp only
    split
    · rename_i hretry
      have hsame : (G.spec narrow).next g (.awaitGet [primary, secondary] false deadline)
          (.ready (.answered i (.error e))) = g := if_pos hretry
      rw [hsame]
      refine awaitLast_answers ?_
      split
      · exact hs
      · exact hp
    · exact ⟨rfl, nofun⟩
  · refine ⟨rfl, ?_⟩
    rintro _ ⟨⟩ hn hh hgot
    exact hrely.2 hn hh hgot primary List.mem_cons_self range hp
  · exact ⟨trivial, nofun⟩
  · exact ⟨rfl, nofun⟩
  · exact ⟨rfl, nofun⟩

/-- With the GET that is sent for a range. -/
def sent (g : Fetched) (range : Range) : Fetched := { g with gets := g.gets + 1, floor := range.start }

theorem getHedged_answers {ctx : ReadCtx} (h : G.Resumes g options) (hr : options.range = some range)
    (hdead : g.dead = false) :
    wp (G.spec narrow) (getHedged ctx options deadline) (G.Answers narrow range (sent g range)) g := by
  refine wp_then ⟨hdead, h⟩ fun primary hp => ?_
  have hp : primary.options.range = some range := hp.1 ▸ hr
  have hsent : (G.spec narrow).next g (.sendGet ctx.namespace.name ctx.name options) primary =
      sent g range := by
    simp [spec, Fetched.after, sent, hr]
  rw [hsent]
  refine wp_then trivial fun r hrely => ?_
  rcases r with (⟨i, e | response⟩ | _) | _ | _
  · exact ⟨rfl, nofun⟩
  · refine ⟨rfl, ?_⟩
    rintro _ ⟨⟩ hn hh hgot
    exact hrely.2 hn hh hgot primary (List.mem_singleton_self primary) range hp
  · refine wp_then hdead fun second hs => ?_
    cases second with
    | none => exact awaitLast_answers hp
    | some secondary =>
        have hs : secondary.options.range = some range :=
          (show secondary.options = primary.options from hs.1) ▸ hp
        exact awaitBoth_answers hp hs
  · exact ⟨rfl, nofun⟩
  · exact ⟨rfl, nofun⟩

theorem originGet_answers {ctx : ReadCtx} (h : G.Resumes g options) (hr : options.range = some range)
    (hdead : g.dead = false) :
    wp (G.spec narrow) (originGet ctx options deadline) (G.Answers narrow range (sent g range)) g := by
  refine wp_then trivial fun started _ => wp_seq (getHedged_answers h hr hdead) fun g₁ out h₁ => ?_
  cases out with
  | timeout => exact ⟨h₁.1, nofun⟩
  | ready result => exact h₁
  | dropped => exact h₁

/-! ## Slots -/

theorem settle_ok_wp {slot : Slot} {block : Block} :
    wp (G.spec narrow) (slot.settle (.ok block)) (fun g' _ => g' = g.deliver [slot]) g :=
  ⟨trivial, fun _ _ => ⟨trivial, fun _ _ => rfl⟩⟩

theorem resolveAll_error_wp {e : NestorError} :
    wp (G.spec narrow) (resolveAll (.error e) slots) (fun g' _ => g' = g) g := by
  induction slots with
  | nil => exact rfl
  | cons slot slots ih => exact ⟨trivial, fun _ _ => ⟨trivial, fun _ _ => ih⟩⟩

theorem claim_wp {ctx : ReadCtx} : wp (G.spec narrow) (claim ctx index)
    (fun g' claimed => g' = g ∧ ∀ slot, claimed = some slot → slot.key.index = index) g := by
  refine wp_then trivial fun present _ => ?_
  split
  · exact ⟨rfl, nofun⟩
  · refine wp_then trivial fun registration hr => ?_
    cases registration with
    | waiter slot => exact ⟨rfl, nofun⟩
    | owner slot =>
        refine ⟨rfl, ?_⟩
        rintro _ ⟨⟩
        exact congrArg BlockKey.index (show slot.key = _ from hr.1)

/-- All that has been delivered is before the block. -/
def Behind (g : Fetched) (index : Nat) : Prop := ∀ slot ∈ g.got, slot.key.index < index

/-- Of the slots from block `i` on, those before the ones left have got their block; and so may have
some before. -/
structure Consumed (g : Fetched) (i : Nat) (slots : List Slot) (g' : Fetched) (left : List Slot) : Prop where
  parts : ∃ taken new, slots = taken ++ left ∧ g' = g.deliver new ∧ taken ⊆ new ∧
    ∀ slot ∈ new, slot.key.index < i + taken.length

theorem Consumed.none : Consumed g i slots g slots :=
  ⟨[], [], rfl, rfl, List.nil_subset _, nofun⟩

theorem Consumed.cons {slot : Slot} {left : List Slot} (hi : slot.key.index = i)
    (h : Consumed (g.deliver [slot]) (i + 1) slots g' left) : Consumed g i (slot :: slots) g' left := by
  obtain ⟨taken, new, rfl, rfl, hsub, hlt⟩ := h.parts
  refine ⟨slot :: taken, new ++ [slot], rfl, ?_, ?_, fun other hother => ?_⟩
  · simp [Fetched.deliver]
  · refine List.cons_subset.mpr ⟨by simp, fun other hother => List.mem_append_left _ (hsub hother)⟩
  · rw [List.length_cons]
    rcases List.mem_append.mp hother with hother | hother
    · have := hlt other hother
      omega
    · rw [List.mem_singleton.mp hother]
      omega

theorem Consumed.before {left new : List Slot}
    (h : Consumed (g.deliver new) i slots g' left) (hnew : ∀ slot ∈ new, slot.key.index < i) :
    Consumed g i slots g' left := by
  obtain ⟨taken, later, hslots, rfl, hsub, hlt⟩ := h.parts
  refine ⟨taken, later ++ new, hslots, ?_, fun slot hs => List.mem_append_left _ (hsub hs), fun slot hs => ?_⟩
  · simp [Fetched.deliver]
  · rcases List.mem_append.mp hs with hs | hs
    · exact hlt slot hs
    · have := hnew slot hs
      omega

theorem Behind.deliver {new : List Slot} (h : Behind g i) (hnew : ∀ slot ∈ new, slot.key.index < i) :
    Behind (g.deliver new) i := fun slot hs => (List.mem_append.mp hs).elim (hnew slot) (h slot)

theorem retryOrFail_wp {e : OriginError} :
    wp (G.spec narrow) (retryOrFail retry slots e)
    (fun g' out => ∀ retry' left, out = some (retry', left, true) →
      g' = g ∧ left = slots ∧ retry.Again e retry') g := by
  refine wp_seq (wp_yields (aside_wp pause_aside) (retry.pause_again e)) fun g₁ out h₁ => ?_
  obtain ⟨rfl, hagain⟩ := h₁
  obtain _ | ⟨retry', e' | ⟨⟩⟩ := out
  · exact nofun
  · exact wp_seq resolveAll_error_wp fun _ _ _ => nofun
  · rintro _ _ ⟨⟩
    exact ⟨rfl, rfl, hagain retry' rfl⟩

/-! ## Rounds of the loop -/

/-- The loop stands at block `i`: the slots left are the last of the group, and all that was
delivered is before. -/
structure At (G : SlotGroup) (g : Fetched) (i : Nat) (slots : List Slot) : Prop where
  taken : ∃ taken, G.slots = taken ++ slots ∧ taken ⊆ g.got
  consecutive : SlotsFrom G.ctx i slots
  last : i + slots.length = G.first + G.slots.length
  behind : Behind g i
  floor : g.floor ≤ i * G.blockSize.bytes

theorem At.start (G : SlotGroup) (initial : Option GetResponse) :
    G.At (.start G.ctx initial) G.first G.slots :=
  ⟨⟨[], rfl, List.nil_subset _⟩, G.consecutive, rfl, nofun, Nat.zero_le _⟩

theorem At.consumed {left : List Slot} (h : G.At g i slots)
    (hc : Consumed g i slots g' left) : ∃ i', G.At g' i' left := by
  obtain ⟨taken, new, rfl, rfl, hsub, hlt⟩ := hc.parts
  obtain ⟨before, hslots, hbefore⟩ := h.taken
  have hlast := h.last
  rw [List.length_append] at hlast
  refine ⟨i + taken.length, ⟨before ++ taken, ?_, ?_⟩, h.consecutive.of_append, by omega, ?_, ?_⟩
  · rw [hslots, List.append_assoc]
  · refine List.append_subset.mpr ⟨fun slot hs => ?_, fun slot hs => ?_⟩
    · exact List.mem_append_right _ (hbefore hs)
    · exact List.mem_append_left _ (hsub hs)
  · intro slot hs
    rcases List.mem_append.mp hs with hs | hs
    · exact hlt slot hs
    · have := h.behind slot hs
      omega
  · exact h.floor.trans (Nat.mul_le_mul_right _ (Nat.le_add_right _ _))

theorem At.sent (h : G.At g i slots) (hrange : range.start = i * G.blockSize.bytes)
    (out : Awaited (Except OriginError GetResponse)) : G.At ((sent g range).heard out) i slots := by
  obtain ⟨hgot, -, hfloor, -⟩ := (SlotGroup.sent g range).heard_eq out
  refine ⟨?_, h.consecutive, h.last, ?_, ?_⟩
  · rw [hgot]
    exact h.taken
  · intro slot hs
    rw [hgot] at hs
    exact h.behind slot hs
  · exact (hfloor.trans hrange).le

/-- The next GET is for the slots left. -/
theorem At.resumes {front : Slot} {rest : List Slot} (h : G.At g i (front :: rest))
    (hgets : g.gets < max 1 G.ctx.policy.attempts) :
    G.Resumes g ⟨some (G.blockSize.span front.key.index (front :: rest).length g.size), G.ctx.ifMatch, none⟩ ∧
      (G.blockSize.span front.key.index (front :: rest).length g.size).start = i * G.blockSize.bytes := by
  obtain ⟨before, hslots, hbefore⟩ := h.taken
  have hindex : front.key.index = i := congrArg BlockKey.index h.consecutive.1
  have hlen := h.consecutive.length_le (List.cons_ne_nil _ _)
  have hm : maxU32 = 2 ^ 32 - 1 := rfl
  have hfront : front ∉ g.got := fun hin => absurd (h.behind front hin) (by omega)
  have hspan := G.blockSize.span_eq (show front.key.index + (front :: rest).length < 2 ^ 32 by omega) g.size
  have hleft : G.left g = front :: rest := by
    rw [left, hslots, List.dropWhile_append_of_pos fun slot hs => decide_eq_true (hbefore hs)]
    exact List.dropWhile_cons_of_neg (by simpa using hfront)
  refine ⟨⟨hgets, ⟨front, rest, hleft, ?_, fun slot hs => hindex ▸ h.behind slot hs⟩, ?_⟩, ?_⟩
  · rw [hspan, hindex, h.last, ← BlockSize.offset_eq, ← BlockSize.offset_eq]
    rfl
  · rintro _ ⟨⟩
    rw [hspan, hindex]
    exact h.floor
  · rw [hspan, hindex]

/-- The response of a round, and what is known of the object then. -/
structure Responds (G : SlotGroup) (narrow : Prop) (known : Option ObjectMeta) (start : Nat) (g : Fetched)
    (out : Awaited (Except OriginError GetResponse)) : Prop where
  ok : ∀ r, out = .ready (.ok r) → g.size = some r.meta.size ∧
    (narrow → G.ctx.policy.hedge = true → g.got ≠ [] → start ≤ r.range.start)
  other : (∀ r, out ≠ .ready (.ok r)) → g.size = known.map (·.size)
  dead : g.dead = true → ∃ e, out = .ready (.error e) ∧ e.isRetryable = false

theorem answerFor_wp {front : Slot} {rest : List Slot} (hat : G.At g i (front :: rest))
    (hgets : g.gets < max 1 G.ctx.policy.attempts)
    (hinit : ∀ r, initial = some r → g.size = some r.meta.size ∧ g.got = [])
    (hnone : initial = none → g.size = known.map (·.size)) (hdead : g.dead = false) :
    wp (G.spec narrow) (answerFor G.ctx
        (G.blockSize.span front.key.index (front :: rest).length (known.map (·.size))) deadline initial)
      (fun g' out => G.At g' i (front :: rest) ∧ g'.gets ≤ g.gets + 1 ∧
        G.Responds narrow known (i * G.blockSize.bytes) g' out) g := by
  cases initial with
  | some response =>
      obtain ⟨hsize, hgot⟩ := hinit response rfl
      refine ⟨hat, Nat.le_succ _, ?_, fun h => absurd rfl (h response), fun h => by simp [hdead] at h⟩
      rintro _ ⟨⟩
      exact ⟨hsize, fun _ _ hne => absurd hgot hne⟩
  | none =>
      have hsize := hnone rfl
      obtain ⟨hresumes, hstart⟩ := hat.resumes hgets
      rw [hsize] at hresumes hstart
      refine wp_mono (originGet_answers hresumes rfl hdead) fun g₁ out h₁ => ?_
      obtain ⟨rfl, hwide⟩ := h₁
      obtain ⟨-, hgets, -, hsame, hdead'⟩ := (sent g _).heard_eq out
      refine ⟨hat.sent hstart out, hgets.le, ?_, fun h => (hsame h).trans hsize, hdead' hdead⟩
      rintro r rfl
      exact ⟨rfl, fun hn hh hgot => hstart ▸ hwide r rfl hn hh hgot⟩

/-! ## Bodies -/

/-- A body that waits for a block, with a request for what is owed from this block on if it is
hedged. -/
structure Awaits (G : SlotGroup) (index : Nat) (waiting : Waiting) (b : HedgedBody) : Prop where
  ctx : b.ctx = G.ctx
  race : waiting = .race → ∀ options, b.backup = .opening options → G.ctx.policy.hedge = true ∧
    ∃ stop, options.range = some ⟨G.blockSize.offset index, stop⟩
  alone : waiting ≠ .race → b.backup = .idle

/-- A body between two blocks. -/
structure Rests (G : SlotGroup) (b : HedgedBody) : Prop where
  ctx : b.ctx = G.ctx
  idle : b.backup = .idle

theorem Rests.awaits (h : G.Rests b) (index : Nat) (waiting : Waiting) : G.Awaits index waiting b :=
  ⟨h.ctx, fun _ _ ho => (nomatch h.idle.symm.trans ho), fun _ => h.idle⟩

/-- A body goes on waiting for the block, rests when it has it, or has failed. -/
def Polled (G : SlotGroup) (index : Nat) (b : HedgedBody) : Poll → Prop
  | .pending waiting => G.Awaits index waiting b
  | .ready (.ok _) => G.Rests b
  | .ready (.error _) => True

theorem Awaits.nextBlock [TagHash] {expected : Nat} {waiting : Waiting} {ev : BodyEvent} {b' : HedgedBody}
    {poll : Poll} (h : G.Awaits index waiting b)
    (hnext : b.nextBlock index expected waiting ev = some (b', poll)) :
    G.Polled index b' poll := by
  have hctx := (HedgedBody.nextBlock_ctx hnext).1.trans h.ctx
  obtain ⟨hb, hrace, halone⟩ := h
  unfold HedgedBody.nextBlock HedgedBody.onPrimary at hnext
  unfold blockSize at hrace
  rw [← hb] at hrace
  unfold Polled
  split
  · refine ⟨hctx, ?_, ?_⟩
    · rw [blockSize, ← hb]
      grind
    · grind
  · refine ⟨hctx, ?_⟩
    grind
  · trivial

variable [TagHash]

theorem await_wp {expected fuel : Nat} {waiting : Waiting} (hb : G.Awaits index waiting b)
    (hg : narrow → G.ctx.policy.hedge = true → Behind g index) (hdead : g.dead = false) :
    wp (G.spec narrow) (HedgedBody.await index expected deadline fuel b waiting)
      (fun g' out => g' = g ∧ ∀ block, out.2 = .ready (.ok block) → G.Rests out.1) g := by
  induction fuel generalizing waiting b with
  | zero => exact ⟨trivial, nofun⟩
  | succ fuel ih =>
      have hguar : G.guar narrow g (.awaitBody b waiting deadline) := by
        refine ⟨hdead, fun hn options ho => ?_⟩
        by_cases hw : waiting = .race
        · obtain ⟨hh, stop, hrange⟩ := hb.race hw options ho
          exact ⟨index, stop, hrange, hg hn hh⟩
        · exact nomatch (hb.alone hw).symm.trans ho
      refine wp_then hguar fun r _ => ?_
      cases r with
      | timeout => exact ⟨rfl, nofun⟩
      | dropped => exact ⟨rfl, nofun⟩
      | ready ev =>
          dsimp only
          split
          · exact ⟨trivial, nofun⟩
          · rename_i b' waiting' hnext
            exact ih (hb.nextBlock hnext)
          · rename_i b' result hnext
            refine ⟨rfl, ?_⟩
            rintro block ⟨⟩
            exact hb.nextBlock hnext

variable {m : ObjectMeta} {fuel : Nat}

/-- The blocks of a wider response before the group. Here the delivered blocks need not be
behind. -/
theorem consumeBefore_wp {n : Nat} {body : HedgedBody} (hb : G.Rests body)
    (hg : narrow → G.ctx.policy.hedge = true → 0 < n → Behind g next) (hdead : g.dead = false) :
    wp (G.spec narrow) (consumeBefore fuel G.ctx m deadline n next body)
      (fun g' out => (∃ new, g' = g.deliver new ∧ ∀ slot ∈ new, slot.key.index < next + n) ∧
        (out.2 = .ready (.ok ()) → G.Rests out.1)) g := by
  induction n generalizing next body g with
  | zero => exact ⟨⟨[], rfl, nofun⟩, fun _ => hb⟩
  | succ n ih =>
      have hnone : ∃ new, g = g.deliver new ∧ ∀ slot ∈ new, slot.key.index < next + (n + 1) :=
        ⟨[], rfl, nofun⟩
      refine wp_seq claim_wp fun g₁ claimed h₁ => ?_
      obtain ⟨rfl, hclaimed⟩ := h₁
      refine wp_seq (await_wp (hb.awaits next .race) (fun hn hh => hg hn hh (Nat.succ_pos n)) hdead)
        fun g₂ out h₂ => ?_
      obtain ⟨rfl, hrests⟩ := h₂
      obtain ⟨body', (e | block) | _ | _⟩ := out
      · exact wp_seq resolveAll_error_wp fun g₃ _ h₃ => ⟨h₃ ▸ hnone, nofun⟩
      · have hb' := hrests block rfl
        cases claimed with
        | none =>
            have hbehind : narrow → G.ctx.policy.hedge = true → 0 < n → Behind g₂ (next + 1) :=
              fun hn hh _ slot hs => Nat.lt_succ_of_lt (hg hn hh (Nat.succ_pos n) slot hs)
            refine wp_mono (ih hb' hbehind hdead) ?_
            rintro g₃ out ⟨⟨new, hnew, hlt⟩, hout⟩
            exact ⟨⟨new, hnew, fun slot hs => by have := hlt slot hs; omega⟩, hout⟩
        | some slot =>
            have hindex := hclaimed slot rfl
            refine wp_seq (wp_then trivial fun _ _ => settle_ok_wp) fun g₃ _ h₃ => ?_
            have hbehind : narrow → G.ctx.policy.hedge = true → 0 < n → Behind g₃ (next + 1) := by
              intro hn hh _ other hother
              rw [h₃] at hother
              rcases List.mem_cons.mp hother with rfl | hother
              · omega
              · exact Nat.lt_succ_of_lt (hg hn hh (Nat.succ_pos n) other hother)
            refine wp_mono (ih hb' hbehind (h₃ ▸ hdead)) ?_
            rintro g₄ out ⟨⟨new, hnew, hlt⟩, hout⟩
            refine ⟨⟨new ++ [slot], ?_, fun other hother => ?_⟩, hout⟩
            · rw [hnew, h₃]
              simp [Fetched.deliver]
            · rcases List.mem_append.mp hother with hother | hother
              · have := hlt other hother
                omega
              · rw [List.mem_singleton.mp hother]
                omega
      · exact wp_seq resolveAll_error_wp fun g₃ _ h₃ => ⟨h₃ ▸ hnone, nofun⟩
      · exact wp_seq resolveAll_error_wp fun g₃ _ h₃ => ⟨h₃ ▸ hnone, nofun⟩

/-- The blocks of the group. Each of them is awaited when those before have been delivered. -/
theorem consumeSlots_wp {body : HedgedBody} (hs : SlotsFrom G.ctx i slots)
    (hb : G.Rests body) (hg : Behind g i) (hdead : g.dead = false) :
    wp (G.spec narrow) (consumeSlots fuel G.ctx m deadline slots next body)
      (fun g' out => Consumed g i slots g' out.1) g := by
  induction slots generalizing i next body g with
  | nil => exact .none
  | cons slot slots ih =>
      have hindex : slot.key.index = i := congrArg BlockKey.index hs.1
      have hbehind : Behind (g.deliver [slot]) (i + 1) := by
        intro other hother
        rcases List.mem_cons.mp hother with rfl | hother
        · omega
        · exact Nat.lt_succ_of_lt (hg other hother)
      unfold consumeSlots
      dsimp only
      split
      · refine wp_seq settle_ok_wp fun g₁ _ h₁ => ?_
        subst h₁
        exact wp_mono (ih hs.2.2 hb hbehind hdead) fun _ _ h => h.cons hindex
      · refine wp_seq (await_wp (hb.awaits _ .race) (fun _ _ => hindex ▸ hg) hdead) fun g₁ out h₁ => ?_
        obtain ⟨rfl, hrests⟩ := h₁
        obtain ⟨body', (e | block) | _ | _⟩ := out
        · exact .none
        · refine wp_then trivial fun _ _ => wp_seq settle_ok_wp fun g₂ _ h₂ => ?_
          subst h₂
          exact wp_mono (ih hs.2.2 (hrests block rfl) hbehind hdead) fun _ _ h => h.cons hindex
        · exact .none
        · exact .none

theorem consume_wp {rangeEnd : Nat} {response : GetResponse} (hs : SlotsFrom G.ctx i slots)
    (hne : slots ≠ []) (hg : Behind g i) (hle : response.range.start ≤ i * G.blockSize.bytes)
    (hwide : narrow → G.ctx.policy.hedge = true → g.got ≠ [] → i * G.blockSize.bytes ≤ response.range.start)
    (hdead : g.dead = false) :
    wp (G.spec narrow) (consume fuel G.ctx response slots rangeEnd deadline)
      (fun g' out => Consumed g i slots g' out.1) g := by
  obtain ⟨front, rest, rfl⟩ := List.exists_cons_of_ne_nil hne
  have hi : i < maxU32 := hs.2.1
  have hindex : front.key.index = i := congrArg BlockKey.index hs.1
  have hrests : G.Rests (HedgedBody.new G.ctx response.body rangeEnd) := ⟨rfl, rfl⟩
  unfold consume
  dsimp only [List.head?_cons, Option.map_some, Option.getD_some]
  change response.range.start ≤ i * G.ctx.namespace.config.blockSize.bytes at hle
  generalize hnext : G.ctx.namespace.config.blockSize.index response.range.start = next
  have hnexti : next ≤ i := hnext ▸ BlockSize.index_le_of_le_mul _ hle
  have hfirst := Nat.min_le_left front.key.index (G.ctx.namespace.config.blockSize.count response.meta.size)
  generalize min front.key.index (G.ctx.namespace.config.blockSize.count response.meta.size) = first at hfirst
  refine wp_seq (consumeBefore_wp hrests (fun hn hh hpos => ?_) hdead) fun g₁ out h₁ => ?_
  · -- a response that is not wider has no block before the group
    by_cases hgot : g.got = []
    · intro slot hslot
      rw [hgot] at hslot
      cases hslot
    · have hstart := Nat.le_antisymm hle (hwide hn hh hgot)
      have hm : maxU32 = 2 ^ 32 - 1 := rfl
      rw [hstart, BlockSize.index_mul _ (by omega)] at hnext
      omega
  · obtain ⟨⟨new, rfl, hlt⟩, hrests₁⟩ := h₁
    have hbefore : ∀ slot ∈ new, slot.key.index < i := fun slot hslot => by
      have := hlt slot hslot
      omega
    have hgone : Consumed g i (front :: rest) (g.deliver new) (front :: rest) := Consumed.none.before hbefore
    obtain ⟨body, (e | ⟨⟩) | _ | _⟩ := out
    · exact hgone
    · refine wp_seq (consumeSlots_wp hs (hrests₁ rfl) (hg.deliver hbefore) hdead) fun g₂ out h₂ => ?_
      have h₂ := h₂.before hbefore
      obtain ⟨left, next', body', (e | ⟨⟩) | _ | _⟩ := out
      · exact h₂
      · refine wp_seq (aside_wp claimAll_brief.aside) fun g₃ claimed h₃ => ?_
        rw [h₃]
        split
        · exact h₂
        · exact h₂
      · exact h₂
      · exact h₂
    · exact hgone
    · exact hgone

/-! ## Attempts -/

theorem accept_wp {response : GetResponse} (hs : SlotsFrom G.ctx i slots)
    (hne : slots ≠ []) (hg : Behind g i) (hrange : range.start = i * G.blockSize.bytes)
    (hwide : narrow → G.ctx.policy.hedge = true → g.got ≠ [] → range.start ≤ response.range.start)
    (hdead : g.dead = false) :
    wp (G.spec narrow) (accept fuel G.ctx response slots range deadline)
      (fun g' out => (∀ trailing, out.2 ≠ .ready (.ok trailing)) → Consumed g i slots g' out.1) g := by
  refine wp_then trivial fun _ _ => ?_
  split
  · exact wp_seq resolveAll_error_wp fun _ _ _ h => absurd rfl (h none)
  · split
    · exact fun _ => .none
    · rename_i hstart
      have hle : response.range.start ≤ range.start := Nat.le_of_not_lt fun hlt => hstart (.inl hlt)
      rw [hrange] at hle hwide
      exact wp_mono (consume_wp hs hne hg hle hwide hdead) fun _ _ h _ => h

/-- An attempt that fails leaves the slots from the first one on that has not got its block, and the
size if there was a response. It fails with the error a GET was answered with that is not to be
retried. -/
def Fails (g : Fetched) (i : Nat) (slots : List Slot) (g' : Fetched) : Attempt → Prop
  | .settled => True
  | .failed m left e =>
      Consumed g i slots g' left ∧ g'.size = m.map (·.size) ∧ (g'.dead = true → e.isRetryable = false)

theorem attempt_wp
    {a : Awaited (Except OriginError GetResponse)} (hs : SlotsFrom G.ctx i slots) (hne : slots ≠ [])
    (hg : Behind g i) (hrange : range.start = i * G.blockSize.bytes)
    (hok : ∀ r, a = .ready (.ok r) → g.size = some r.meta.size ∧
      (narrow → G.ctx.policy.hedge = true → g.got ≠ [] → range.start ≤ r.range.start))
    (hsize : (∀ r, a ≠ .ready (.ok r)) → g.size = known.map (·.size))
    (hdead : g.dead = true → ∃ e, a = .ready (.error e) ∧ e.isRetryable = false) :
    wp (G.spec narrow) (attempt fuel G.ctx known slots range deadline a) (Fails g i slots) g := by
  unfold attempt
  split
  · rename_i response
    obtain ⟨hsize, hwide⟩ := hok response rfl
    have halive : g.dead = false := Bool.eq_false_iff.mpr fun h => nomatch (hdead h).choose_spec.1
    refine wp_seq (accept_wp hs hne hg hrange hwide halive) fun g₁ out h₁ => ?_
    obtain ⟨left, (e | (_ | t)) | _ | _⟩ := out
    · have hc := h₁ nofun
      obtain ⟨_, _, -, rfl, -⟩ := hc.parts
      exact ⟨hc, hsize, fun h => nomatch halive.symm.trans h⟩
    · trivial
    · exact wp_seq (askless_wp fillTrailing_fills.askless) fun _ _ _ => trivial
    · have hc := h₁ nofun
      obtain ⟨_, _, -, rfl, -⟩ := hc.parts
      exact ⟨hc, hsize, fun h => nomatch halive.symm.trans h⟩
    · exact wp_seq resolveAll_error_wp fun _ _ _ => trivial
  · exact wp_then trivial fun _ _ => wp_seq resolveAll_error_wp fun _ _ _ => trivial
  · exact wp_then trivial fun _ _ => wp_seq resolveAll_error_wp fun _ _ _ => trivial
  · rename_i e _ _
    have hsize := hsize nofun
    have hlast (h : g.dead = true) : e.isRetryable = false := by
      obtain ⟨_, ⟨⟩, he⟩ := hdead h
      exact he
    cases known with
    | some known => exact ⟨.none, hsize, hlast⟩
    | none =>
        refine wp_seq (aside_wp pastEnd_heads.aside) fun g₁ out h₁ => ?_
        subst h₁
        obtain _ | _ | known := out
        · exact wp_seq resolveAll_error_wp fun _ _ _ => trivial
        · exact ⟨.none, hsize, hlast⟩
        · exact wp_seq (askless_wp resolveAll_fills.askless) fun _ _ _ => trivial
  · exact wp_seq resolveAll_error_wp fun _ _ _ => trivial

/-! ## The loop -/

theorem fetchLoop_wp (hat : G.At g i slots) (hpolicy : retry.policy = G.ctx.policy)
    (hattempt : retry.attempt < max 1 G.ctx.policy.attempts) (hgets : g.gets ≤ retry.attempt)
    (hinit : ∀ r, initial = some r → g.size = some r.meta.size ∧ g.got = [])
    (hnone : initial = none → g.size = known.map (·.size)) (hdead : g.dead = false) :
    wp (G.spec narrow) (fetchLoop G.ctx fuel retry known slots initial) (fun _ _ => True) g := by
  induction fuel generalizing g i retry known slots initial with
  | zero => exact ⟨trivial, nofun⟩
  | succ fuel ih =>
      cases slots with
      | nil => trivial
      | cons front rest =>
          have hindex : front.key.index = i := congrArg BlockKey.index hat.consecutive.1
          have hstart : (G.blockSize.span front.key.index (front :: rest).length (known.map (·.size))).start =
              i * G.blockSize.bytes := by
            rw [← BlockSize.offset_eq, ← hindex]
            cases known <;> rfl
          refine wp_then trivial fun now _ => ?_
          dsimp only
          split
          · exact askless_wp resolveAll_fills.askless
          · refine wp_seq (answerFor_wp hat (hgets.trans_lt hattempt) hinit hnone hdead) fun g₁ out h₁ => ?_
            obtain ⟨hat₁, hgets₁, hresponds⟩ := h₁
            refine wp_seq (attempt_wp hat₁.consecutive (List.cons_ne_nil _ _) hat₁.behind hstart
              (fun r hr => hstart ▸ hresponds.ok r hr) hresponds.other hresponds.dead) fun g₂ a h₂ => ?_
            cases a with
            | settled => trivial
            | failed known' left e =>
                obtain ⟨hconsumed, hsize, hlast⟩ := h₂
                obtain ⟨i', hat₂⟩ := hat₁.consumed hconsumed
                have hgets₂ : g₂.gets ≤ g.gets + 1 := by
                  obtain ⟨_, _, -, rfl, -⟩ := hconsumed.parts
                  exact hgets₁
                refine wp_seq retryOrFail_wp fun g₃ out h₃ => ?_
                obtain _ | ⟨retry', left', _ | _⟩ := out
                · exact askless_wp resolveAll_fills.askless
                · trivial
                · obtain ⟨rfl, rfl, hagain⟩ := h₃ retry' left' rfl
                  have hfew := hagain.few
                  have hone := hagain.attempt
                  rw [hpolicy] at hfew
                  refine ih hat₂ (hagain.policy.trans hpolicy) (by omega) (by omega) nofun (fun _ => hsize) ?_
                  exact Bool.eq_false_iff.mpr fun h => nomatch hagain.retryable.symm.trans (hlast h)

end SlotGroup

end Nestor
