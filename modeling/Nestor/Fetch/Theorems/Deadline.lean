import Nestor.Fetch.Lemmas.Deadline
import Nestor.Fetch.Lemmas.Handover
import Nestor.Fetch.Lemmas.Sight
import Nestor.Fetch.Theorems

/-!
# Fetches end by their deadline

With time made explicit: a fetch group that has its permit, and a probe, end by the deadline of the
policy they run under, and none of their requests waits longer for headers than the policy allows,
unless it is one of two kinds. The HEAD that settles a failed GET runs under the policy of the
namespace, with a deadline of its own; and the backup of a body is waited for until the attempt
ends.
-/

namespace Nestor

open Lib Watch

variable {o : Op} {asked home : Home} {d : Duty}

/-- What holds of every run of a fetch that has come to `p`. -/
structure ClockRun {α : Type} (script : Nat → Nat) (policy : FetchPolicy) (w : Watch) (fuel : Nat)
    (tr : Trace) (p : Program α) : Prop where
  settled : ∀ a, p = pure a → (w.follow script tr).pending = []
  /-- It does not stop by itself before it is done. -/
  goes_on : ∀ k, p = .op .hang k → fuel ≤ (w.follow script tr).turns
  /-- It is in time as long as these requests are. -/
  keeps : (w.follow script tr).Keeps (w.now + policy.deadline) policy.firstByte ↔
    Along script (Prompt script (w.now + policy.deadline) policy.firstByte) w tr

section

variable {script : Nat → Nat} {limit firstByte : Nat} {w : Watch} {tr : Trace}

/-! ## A watch does not go back -/

theorem Watch.Keeps.of_after {r : Resp o} (h : (w.after script o r).Keeps limit firstByte) :
    w.Keeps limit firstByte :=
  ⟨(w.le_later script o r).trans h.1, fun d hd => h.2 d (List.mem_append_right _ hd)⟩

theorem Watch.Keeps.of_follow (h : (w.follow script tr).Keeps limit firstByte) : w.Keeps limit firstByte := by
  induction tr generalizing w with
  | nil => exact h
  | cons d tr ih => exact Keeps.of_after (ih h)

/-- What the watch shows after a wait tells that the wait was not too long. -/
theorem Watch.Keeps.headers {r : Resp o} (h : (w.after script o r).Keeps limit firstByte)
    (ho : o.awaitsHeaders = true) : ∀ s ∈ w.sent, w.later script o r ≤ s + firstByte := by
  intro s hs
  have hwait : w.later script o r - s ∈ (w.after script o r).waits := by
    refine List.mem_append_left _ ?_
    rw [if_pos ho]
    exact List.mem_map_of_mem hs
  have := h.2 _ hwait
  omega

theorem Watch.Keeps.prompt {r : Resp o} (h : (w.after script o r).Keeps limit firstByte) :
    w.Prompt script limit firstByte o r := by
  cases o
  case awaitHead => exact ⟨h.headers rfl, h.1⟩
  case awaitBody => exact fun hopening => h.headers hopening
  case sleep => exact fun _ => (le_max_right _ _).trans h.1
  all_goals exact trivial

theorem along_of_keeps (h : (w.follow script tr).Keeps limit firstByte) :
    Along script (Prompt script limit firstByte) w tr := by
  induction tr generalizing w with
  | nil => exact trivial
  | cons d tr ih => exact ⟨Keeps.prompt (Keeps.of_follow h), ih h⟩

/-! ## Runs -/

theorem relied_of_along {B : Bounds} (helapses : Along B.script (Elapses B.script) w tr)
    (hprompt : B.strict → Along B.script (Prompt B.script B.limit B.firstByte) w tr) :
    B.spec.Relied w tr := by
  induction tr generalizing w with
  | nil => exact trivial
  | cons d tr ih => exact ⟨⟨helapses.1, fun hs => (hprompt hs).1⟩, ih helapses.2 fun hs => (hprompt hs).2⟩

theorem mem_owned_of_pending {budget : Nat} (h : ∀ slot ∈ w.pending, slot ∈ d.owned) :
    ∀ slot ∈ (w.follow script tr).pending, slot ∈ ((Duty.specOf asked budget home).ghost d tr).owned := by
  induction tr generalizing w d with
  | nil => exact h
  | cons done tr ih =>
      obtain ⟨o, r⟩ := done
      refine ih (w := w.after script o r) (d := d.after o r) fun slot hs => ?_
      cases o
      case register =>
        cases r with
        | owner new => exact Multiset.mem_cons.mpr ((List.mem_cons.mp hs).imp_right (h slot))
        | waiter => exact h slot hs
      case publish =>
        obtain ⟨hs, hne⟩ := List.mem_filter.mp hs
        exact (Multiset.mem_erase_of_ne (of_decide_eq_true hne)).mpr (h slot hs)
      case spawn task =>
        obtain ⟨hs, hnot⟩ := List.mem_filter.mp hs
        refine Multiset.mem_sub.mpr ?_
        rw [Multiset.count_eq_zero.mpr (of_decide_eq_true hnot : slot ∉ task.slots)]
        exact Multiset.count_pos.mpr (h slot hs)
      case blocksGet => rcases r with ⟨i, _ | block⟩ | _ | _ <;> exact h slot hs
      all_goals exact h slot hs

theorem duty_relied {budget : Nat} (helapses : Along script (Elapses script) w tr)
    (hblind : ∀ done ∈ tr, ∀ keys, done.1 ≠ .blocksGet keys) :
    (Duty.specOf asked budget home).Relied d tr := by
  induction tr generalizing w d with
  | nil => exact trivial
  | cons done tr ih =>
      obtain ⟨o, r⟩ := done
      refine ⟨?_, ih helapses.2 fun done hd => hblind done (List.mem_cons_of_mem _ hd)⟩
      cases o
      case blocksGet keys => exact absurd rfl (hblind _ List.mem_cons_self keys)
      case awaitGet =>
        rcases r with (_ | _) | _ | _
        case ready.stalled => exact helapses.1.2 rfl
        all_goals exact trivial
      case awaitBody =>
        cases r with
        | ready ev => exact helapses.1.2 ev rfl
        | timeout => exact trivial
        | dropped => exact trivial
      all_goals exact trivial

/-- A fetch that does its duty and keeps within the bounds as long as the answers do. -/
theorem clockRun_of_wp {α : Type} {policy : FetchPolicy} {fuel : Nat} {q p : Program α}
    (hw : w.waits = []) (hpending : ∀ slot ∈ w.pending, slot ∈ d.owned)
    (hduty : wp (Duty.specOf asked 0 home) q (fun d' _ => d'.owned = 0) d)
    (hwp : ∀ B : Bounds, B.script = script → B.budget = fuel → B.limit = w.now + policy.deadline →
      B.firstByte = policy.firstByte → w.In B → wp B.spec q (fun g' _ => w.Hears B g') w)
    (hrun : Runs q tr p) (hblind : ∀ done ∈ tr, ∀ keys, done.1 ≠ .blocksGet keys)
    (helapses : Along script (Elapses script) w tr) : ClockRun script policy w fuel tr p := by
  have hstart (strict : Prop) : w.In ⟨script, w.now + policy.deadline, policy.firstByte, fuel, strict⟩ :=
    fun _ => ⟨Nat.le_add_right _ _, by rw [hw]; exact fun d hd => absurd hd List.not_mem_nil⟩
  refine ⟨?_, ?_, ⟨along_of_keeps, fun hprompt => ?_⟩⟩
  · rintro a rfl
    have hzero : ((Duty.specOf asked 0 home).ghost d tr).owned = 0 :=
      (wp_runs hduty hrun (duty_relied helapses hblind)).2
    refine List.eq_nil_iff_forall_not_mem.mpr fun slot hs => Multiset.notMem_zero slot ?_
    rw [← hzero]
    exact mem_owned_of_pending hpending slot hs
  · rintro k rfl
    exact (wp_runs (hwp ⟨script, w.now + policy.deadline, policy.firstByte, fuel, False⟩ rfl rfl rfl rfl
      (hstart _)) hrun (relied_of_along helapses False.elim)).2.1.2 rfl
  · have hstrict :=
      (wp_runs (hwp ⟨script, w.now + policy.deadline, policy.firstByte, fuel, True⟩ rfl rfl rfl rfl
        (hstart _)) hrun (relied_of_along helapses fun _ => hprompt)).2
    cases p with
    | pure a => exact hstrict.inside trivial
    | op o k => exact hstrict.1.1 trivial

end

section

variable [TagHash]

/-- A fetch group once it holds its permit, and a probe. -/
theorem fetch_clockRun (script : Nat → Nat) (fuel start : Nat) (tr : Trace) :
    (∀ (ctx : ReadCtx) (slots : List Slot) (priority : Priority) (initial : Option GetResponse)
      (p : Program Unit),
      Runs (fetchGroup fuel ctx slots priority initial) (⟨.acquire priority, true⟩ :: tr) p →
      Along script (Elapses script) (Watch.start start slots) tr →
      ClockRun script ctx.policy (Watch.start start slots) fuel tr p) ∧
    ∀ (ns : NamespaceState) (name : Bytes) (indexes : Range) (known : Option ObjectMeta)
      (policy : FetchPolicy) (p : Program (Except NestorError (ReadCtx × List SlotHandle))),
      Runs (probe fuel ns name indexes known policy) tr p →
      Along script (Elapses script) (Watch.start start []) tr →
      ClockRun script policy (Watch.start start []) (fuel - 1) tr p := by
  constructor
  · intro ctx slots priority initial p hrun helapses
    have hrest : Runs (perform .clock >>= fun now =>
        fetchLoop ctx fuel (Retry.new ctx.policy now) ctx.meta slots initial) tr p := by
      cases hrun with
      | cons hrun => exact hrun
    have hctx : ctx.Under ⟨ctx.namespace.name, ⟨0, ctx.name⟩⟩ ⟨ctx.namespace.name, ctx.key⟩ := ⟨rfl, rfl, rfl⟩
    have hgroup : wp (Duty.specOf _ 0 _) (fetchGroup fuel ctx slots priority initial) _ _ :=
      Duty.fetchGroup_wp (b := ⟨slots, [], [], none, 0⟩) hctx (.refl rfl) (Nat.zero_le (0 + fuel))
    refine clockRun_of_wp rfl (fun _ hs => hs) (wp_mono (hgroup.2 true trivial) fun _ _ h => h.owned)
      (fun B hscript hfuel hlimit hfirst hin => ?_) hrest ?_ helapses
    · subst hscript hfuel
      refine Bounds.wp_instant hin rfl fun now g₁ _ hin₁ _ ht₁ hnow => ?_
      obtain rfl : now = start := hnow
      have hr : B.strict → (Retry.new ctx.policy now).deadline ≤ B.limit := fun _ => hlimit.ge
      exact wp_mono (fetchLoop_in hin₁ hr (fun _ => hfirst.ge) (Nat.le_add_left _ _)) fun g₂ _ h₂ =>
        (Hears.mk hin₁ ht₁).trans h₂
    · rintro ⟨o, r⟩ hd keys rfl
      have hkept := (wp_runs_of (P := fun _ _ => True) (fun _ _ _ _ _ => trivial) Rest.fetchGroup_wp hrun
        fun _ _ => trivial).1
      obtain ⟨_, _, -, hlook⟩ := hkept.of_mem (List.mem_cons_of_mem _ hd)
      exact hlook
  · intro ns name indexes known policy p hrun helapses
    refine clockRun_of_wp rfl (fun _ hs => hs)
      (wp_mono (Duty.probe_wp (b := ⟨0, [], [], none, 0⟩) (.refl rfl)) fun _ _ h => h.1.owned)
      (fun B hscript hfuel hlimit hfirst hin => ?_) hrun ?_ helapses
    · subst hscript
      cases fuel with
      | zero =>
          refine Bounds.wp_quiet hin rfl fun now g₁ h₁ => ?_
          exact Bounds.hang_in h₁.inside (hfuel ▸ Nat.zero_le _)
      | succ fuel =>
          refine Bounds.wp_instant hin rfl fun now g₁ _ hin₁ _ ht₁ hnow => ?_
          obtain rfl : now = start := hnow
          have hr : B.strict → (Retry.new policy now).deadline ≤ B.limit := fun _ => hlimit.ge
          have hb : B.budget + 1 ≤ g₁.turns + (fuel + 1) := by
            rw [hfuel]
            omega
          exact wp_mono (probeLoop_in hin₁ hr (fun _ => hfirst.ge) hb) fun g₂ _ h₂ =>
            (Hears.mk hin₁ ht₁).trans h₂
    · rintro ⟨o, r⟩ hd keys rfl
      have hblind : Blind (probe fuel ns name indexes known policy) := .step rfl fun now => probeLoop_blind _
      cases hblind.of_runs hrun _ hd

end

section

open Sample

/-- A read of the one block of an empty object, under a policy that leaves the headers a tenth of a
second and the fetch a fifth of one. -/
def hastyCtx : ReadCtx :=
  ReadCtx.new ⟨0, [97], { NamespaceConfig.default with consistency := .immutable }⟩ ⟨0, [111]⟩ [111] none
    { FetchPolicy.default with firstByte := milliseconds 100, deadline := milliseconds 200, hedge := false }

def hastySlot : Slot := ⟨⟨0, immutableTag, 0, [111]⟩, 0⟩

def hastyRequest : GetRequest := ⟨[97], [111], ⟨some ⟨0, BlockSize.default.bytes⟩, none, none⟩, 0⟩

/-- The GET is not answered, and the HEAD is. -/
def hastyTrace : Trace :=
  [⟨.clock, (0 : Nat)⟩, ⟨.clock, (0 : Nat)⟩, ⟨.clock, (0 : Nat)⟩,
    ⟨.sendGet [97] [111] ⟨some ⟨0, BlockSize.default.bytes⟩, none, none⟩, hastyRequest⟩,
    ⟨.awaitGet [hastyRequest] false (milliseconds 100), .timeout⟩,
    ⟨.clock, milliseconds 100⟩, ⟨.clock, milliseconds 100⟩, ⟨.sendHead [97] [111], ⟨[97], [111], 0⟩⟩,
    ⟨.awaitHead ⟨[97], [111], 0⟩ (milliseconds 5100), .ready (.ok ⟨0, none, none⟩)⟩,
    ⟨.metaPut ⟨0, [111]⟩ ⟨0, none, none⟩, ()⟩, ⟨.unregister hastySlot.key, ()⟩,
    ⟨.publish hastySlot (.ok (Block.empty ⟨0, none, none⟩)), ()⟩]

/-- The HEAD takes `d`. -/
def hastyScript (d step : Nat) : Nat := if step = 8 then d else milliseconds 100

theorem hastyTrace_runs :
    Runs (fetchGroup 2 hastyCtx [hastySlot] .foreground none) (⟨.acquire .foreground, true⟩ :: hastyTrace)
    (pure ()) := by
  refine .cons (.cons (.cons (.cons ?_)))
  refine .cons (.cons (.cons ?_))
  refine .cons (.cons (.cons ?_))
  exact .cons (.cons (.cons .nil))

theorem hastyTrace_elapses {d : Nat} (h : d = milliseconds 50 ∨ d = milliseconds 4000) :
    Along (hastyScript d) (Elapses (hastyScript d)) (Watch.start 0 [hastySlot]) hastyTrace := by
  rcases h with rfl | rfl <;>
    exact ⟨rfl, rfl, rfl, trivial, ⟨Nat.le_of_ble_eq_true rfl, nofun⟩, rfl, rfl, trivial,
      Nat.le_of_ble_eq_true rfl,
      trivial, trivial, trivial, trivial⟩

/-- A read of a block whose response stalls, under the default policy. -/
def stallingCtx : ReadCtx := { hastyCtx with policy := FetchPolicy.default }

def stallingBody : HedgedBody := HedgedBody.new stallingCtx [] BlockSize.default.bytes

/-- The backup that is opened is not answered. -/
def stallingTrace : Trace :=
  [⟨.clock, (0 : Nat)⟩, ⟨.clock, (0 : Nat)⟩, ⟨.metaPut ⟨0, [111]⟩ ⟨1, none, none⟩, ()⟩,
    ⟨.awaitBody stallingBody .race (milliseconds 30000), .ready (.stalled true)⟩,
    ⟨.awaitBody { stallingBody with backup := .opening hastyRequest.options } .race (milliseconds 30000),
      .timeout⟩]

theorem stallingTrace_runs :
    ∃ p, Runs (fetchGroup 2 stallingCtx [hastySlot] .foreground (some ⟨⟨1, none, none⟩, ⟨0, 1⟩, []⟩))
      (⟨.acquire .foreground, true⟩ :: stallingTrace) p :=
  ⟨_, .cons (.cons (.cons (.cons (.cons (.cons .nil)))))⟩

/-- A HEAD takes four seconds, long after the fetch should have ended; and a backup waits for its
headers as long as the attempt lasts. -/
theorem fetch_late :
    (Runs (fetchGroup 2 hastyCtx [hastySlot] .foreground none) (⟨.acquire .foreground, true⟩ :: hastyTrace)
      (pure ()) ∧ Along (hastyScript (milliseconds 4000)) (Elapses (hastyScript (milliseconds 4000)))
        (Watch.start 0 [hastySlot]) hastyTrace ∧
      ((Watch.start 0 [hastySlot]).follow (hastyScript (milliseconds 4000)) hastyTrace).now =
        milliseconds 4100 ∧
      hastyCtx.policy.deadline = milliseconds 200 ∧
      milliseconds 4000 ∈ ((Watch.start 0 [hastySlot]).follow (hastyScript (milliseconds 4000))
        hastyTrace).waits ∧
      hastyCtx.policy.firstByte = milliseconds 100) ∧
    (∃ p, Runs (fetchGroup 2 stallingCtx [hastySlot] .foreground (some ⟨⟨1, none, none⟩, ⟨0, 1⟩, []⟩))
        (⟨.acquire .foreground, true⟩ :: stallingTrace) p) ∧
      Along (fun step => if step = 4 then milliseconds 30000 else 0)
        (Elapses fun step => if step = 4 then milliseconds 30000 else 0) (Watch.start 0 [hastySlot])
          stallingTrace ∧
      milliseconds 30000 ∈ ((Watch.start 0 [hastySlot]).follow
        (fun step => if step = 4 then milliseconds 30000 else 0) stallingTrace).waits ∧
      stallingCtx.policy.firstByte = milliseconds 5000 := by
  refine ⟨⟨hastyTrace_runs, hastyTrace_elapses (.inr rfl), by decide, rfl, by decide, rfl⟩,
    stallingTrace_runs, ?_, by decide, rfl⟩
  refine ⟨rfl, rfl, trivial, ⟨?_, ?_⟩, ⟨?_, nofun⟩, trivial⟩
  · change 0 + 0 ≤ max 0 (milliseconds 30000)
    decide
  · rintro ev ⟨⟩
    rfl
  · change milliseconds 30000 ≤ 0 + milliseconds 30000
    decide

/-- A HEAD that is answered at once leaves the fetch in time. -/
theorem fetch_inTime :
    ((Watch.start 0 [hastySlot]).follow (hastyScript (milliseconds 50)) hastyTrace).Keeps (milliseconds 200)
      (milliseconds 100) := by
  have hrun := (fetch_clockRun (hastyScript (milliseconds 50)) 2 0 hastyTrace).1 hastyCtx [hastySlot]
    .foreground none (pure ()) hastyTrace_runs (hastyTrace_elapses (.inl rfl))
  refine hrun.keeps.mpr ⟨trivial, trivial, trivial, trivial, trivial, trivial, trivial, trivial, ?_,
    trivial, trivial,
    trivial, trivial⟩
  exact ⟨by decide, by decide⟩

end

end Nestor
