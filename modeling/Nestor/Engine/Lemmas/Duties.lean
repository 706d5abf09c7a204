import Nestor.Engine.Lemmas.Owned
import Nestor.Fetch.Lemmas.Sight
import Nestor.Read.Lemmas.Duty

/-!
# Who owes what

What the threads of a world owe between them: a slot in the table is owned by one thread, which has
it there until it publishes the result, and a slot somebody knows has a result or an owner. This is
so in every world that can be reached, whatever the origins answer and the disk holds.
-/

namespace Nestor

open Lib

variable {slot : Slot} {x : Choice} {i : Nat} {t : Task} {tr : Trace} {th : Thread Task Op Resp}

def Duty.of (th : Thread Task Op Resp) : Duty :=
  th.trace.foldl (fun d done => d.after done.1 done.2) (.start th.task)

/-- The table holds slots without a result, under their keys; numbers are given out once. -/
structure Shared.Tabled (s : Shared) : Prop where
  key : ∀ key slot, s.inflight key = some slot → slot.key = key
  fresh : ∀ key slot, s.inflight key = some slot → slot.id < s.nextSlot
  pending : ∀ key slot, s.inflight key = some slot → s.channels slot = none
  published : ∀ slot result, s.channels slot = some result → slot.id < s.nextSlot

/-- The blocks that an operation waits for. -/
def Op.blockKeys : Op → List BlockKey
  | .blocksGet keys => keys
  | .wait slot => [slot.key]
  | _ => []

namespace Duty

/-- What a thread may count on. Its slots have no result yet and are in the table, but for one it is
about to publish. -/
structure View (s : Shared) (home : Home) (d : Duty) : Prop extends s.Owns d.owned d.gap where
  absent : ∀ slot ∈ d.owned, d.gap = some slot.key → s.inflight slot.key ≠ some slot
  pending : ∀ slot ∈ d.owned, s.channels slot = none
  here : ∀ slot ∈ d.owned, slot.key.objectKey = home.key

def Separate (d d' : Duty) : Prop := ∀ slot ∈ d.owned, slot ∉ d'.owned

variable {s s' : Shared} {home home' : Home} {d d' : Duty} {o : Op} {r : Resp o}

/-- The operations on the table, and those that start tasks. -/
def touches : Op → Bool
  | .register _ | .unregister _ | .publish _ _ | .spawn _ => true
  | _ => false

theorem after_of_not_touches (s : Shared) (d : Duty) (r : Resp o) (ho : touches o = false) :
    (d.after o r).owned = d.owned ∧ (d.after o r).gap = d.gap ∧ (d.after o r).known = d.known ∧
      (s.after o).inflight = s.inflight ∧ (s.after o).channels = s.channels ∧
      (s.after o).nextSlot = s.nextSlot := by
  cases o
  case register | unregister | publish | spawn => cases ho
  case blocksGet => rcases r with ⟨i, _ | block⟩ | _ | _ <;> exact ⟨rfl, rfl, rfl, rfl, rfl, rfl⟩
  all_goals exact ⟨rfl, rfl, rfl, rfl, rfl, rfl⟩

theorem View.of_same (h : View s home d) (ho : d'.owned = d.owned) (hg : d'.gap = d.gap)
    (hi : s'.inflight = s.inflight) (hc : s'.channels = s.channels) (hn : s'.nextSlot = s.nextSlot) :
    View s' home d' := by
  have howns := h.toOwns.of_entry hn.ge (hi ▸ h.entry)
  constructor
  all_goals simp only [ho, hg, hi, hc]
  · exact howns
  · exact h.absent
  · exact h.pending
  · exact h.here

/-! ## Registration -/

section

variable {key : BlockKey} (hnone : s.inflight key = none)

include hnone

theorem tabled_register (h : s.Tabled) : (s.register key).2.Tabled := by
  have hfresh : s.channels ⟨key, s.nextSlot⟩ = none := by
    cases hc : s.channels ⟨key, s.nextSlot⟩ with
    | none => rfl
    | some result => exact absurd (h.published _ result hc) (Nat.lt_irrefl _)
  simp only [Shared.register, hnone]
  refine ⟨fun key' slot hs => ?_, fun key' slot hs => ?_, fun key' slot hs => ?_, fun slot result hc => ?_⟩
  · obtain ⟨rfl, heq⟩ | ⟨-, hs⟩ := update_eq_some hs
    · cases heq
      rfl
    · exact h.key key' slot hs
  · obtain ⟨-, heq⟩ | ⟨-, hs⟩ := update_eq_some hs
    · cases heq
      exact Nat.lt_succ_self _
    · exact Nat.lt_succ_of_lt (h.fresh key' slot hs)
  · obtain ⟨-, heq⟩ | ⟨-, hs⟩ := update_eq_some hs
    · cases heq
      exact hfresh
    · exact h.pending key' slot hs
  · exact Nat.lt_succ_of_lt (h.published slot result hc)

theorem View.registered (ht : s.Tabled) (h : View s home d) (hd : d.gap = none)
    (hkey : key.objectKey = home.key) (ho : d'.owned = ⟨key, s.nextSlot⟩ ::ₘ d.owned) (hg : d'.gap = none) :
    View (s.register key).2 home d' := by
  have hmem {slot : Slot} (hs : slot ∈ d'.owned) : slot = ⟨key, s.nextSlot⟩ ∨ slot ∈ d.owned := by
    rw [ho] at hs
    exact Multiset.mem_cons.mp hs
  refine ⟨?_, fun slot _ hgap => ?_, fun slot hs => ?_, fun slot hs => ?_⟩
  · rw [ho, hg]
    exact h.toOwns.registered hd hnone
  · rw [hg] at hgap
    cases hgap
  · have ht' := tabled_register hnone ht
    simp only [Shared.register, hnone] at ht' ⊢
    rcases hmem hs with rfl | hs
    · exact ht'.pending key _ (Function.update_self ..)
    · exact h.pending slot hs
  · rcases hmem hs with rfl | hs
    · exact hkey
    · exact h.here slot hs

theorem View.register_stable (h : View s home d) : View (s.register key).2 home d := by
  have howns := h.toOwns.register_stable hnone
  simp only [Shared.register, hnone] at howns ⊢
  refine ⟨howns, fun slot hs hg heq => ?_, h.pending, h.here⟩
  obtain ⟨-, heq⟩ | ⟨-, heq⟩ := update_eq_some heq
  · cases heq
    exact h.not_mem_new key hs
  · exact h.absent slot hs hg heq

end

/-! ## Settling -/

theorem tabled_unregister (h : s.Tabled) (key : BlockKey) : (s.unregister key).Tabled := by
  have hentry {key' : BlockKey} {slot : Slot} (hs : (s.unregister key).inflight key' = some slot) :
      s.inflight key' = some slot := by
    obtain ⟨-, heq⟩ | ⟨-, hs⟩ := update_eq_some hs
    · cases heq
    · exact hs
  exact ⟨fun key' slot hs => h.key key' slot (hentry hs), fun key' slot hs => h.fresh key' slot (hentry hs),
    fun key' slot hs => h.pending key' slot (hentry hs), h.published⟩

theorem View.unregistered (h : View s home d) (hd : d.gap = none) {key : BlockKey} (ho : d'.owned = d.owned)
    (hg : d'.gap = some key) : View (s.unregister key) home d' := by
  have howns : (s.unregister key).Owns d.owned (some key) := h.toOwns.unregistered hd
  constructor
  all_goals simp only [ho, hg]
  · exact howns
  · rintro slot hs ⟨⟩
    change Function.update s.inflight slot.key none slot.key ≠ some slot
    rw [Function.update_self]
    simp
  · exact h.pending
  · exact h.here

theorem View.unregister_stable (h : View s home d) (h' : View s home' d') (ha : Separate d d')
    (hd : d.gap = none) (hs : slot ∈ d.owned) : View (s.unregister slot.key) home' d' := by
  refine ⟨h.toOwns.unregister_stable h'.toOwns ha hd hs, fun slot' hs' hg heq => ?_, h'.pending, h'.here⟩
  obtain ⟨-, heq⟩ | ⟨-, heq⟩ := update_eq_some heq
  · cases heq
  · exact h'.absent slot' hs' hg heq

theorem tabled_publish (h : s.Tabled) (hv : View s home d) (hs : slot ∈ d.owned)
    (hd : d.gap = some slot.key) (result : BlockResult) : (s.publish slot result).Tabled := by
  refine { h with pending := fun key slot' hi => ?_, published := fun slot' result' hc => ?_ }
  · refine (Function.update_of_ne ?_ ..).trans (h.pending key slot' hi)
    rintro rfl
    obtain rfl := h.key key slot' hi
    exact hv.absent slot' hs hd hi
  · obtain ⟨rfl, -⟩ | ⟨-, hc⟩ := update_eq_some hc
    · exact hv.ids slot' hs
    · exact h.published slot' result' hc

theorem View.published (h : View s home d) (hs : slot ∈ d.owned) (hd : d.gap = some slot.key)
    (ho : d'.owned = d.owned.erase slot) (hg : d'.gap = none) (result : BlockResult) :
    View (s.publish slot result) home d' := by
  have howns := h.toOwns.published hd hs result
  constructor
  all_goals simp only [ho, hg]
  · exact howns
  · exact fun _ _ => nofun
  · intro slot' hs'
    obtain ⟨hne, hs'⟩ := h.nodup.mem_erase_iff.mp hs'
    exact (Function.update_of_ne hne ..).trans (h.pending slot' hs')
  · exact fun slot' hs' => h.here slot' (Multiset.mem_of_mem_erase hs')

theorem View.publish_stable (h : View s home' d') (hs : slot ∉ d'.owned) (result : BlockResult) :
    View (s.publish slot result) home' d' := by
  refine { h with pending := fun slot' hs' => (Function.update_of_ne ?_ ..).trans (h.pending slot' hs') }
  rintro rfl
  exact hs hs'

/-! ## Handing over -/

theorem View.of_le (h : View s home d) (hd : d.gap = none) (hle : d'.owned ≤ d.owned) (hg : d'.gap = none) :
    View s home d' := by
  refine ⟨?_, fun slot _ hgap => ?_, fun slot hs => h.pending slot (Multiset.mem_of_le hle hs),
    fun slot hs => h.here slot (Multiset.mem_of_le hle hs)⟩
  · rw [hg, ← hd]
    exact h.toOwns.of_le hle
  · rw [hg] at hgap
    cases hgap

/-- All slots the task owns or knows are for blocks of the object. -/
structure Here (home : Home) (d : Duty) : Prop where
  owned : ∀ slot ∈ d.owned, slot.key.objectKey = home.key
  known : ∀ slot ∈ d.known, slot.key.objectKey = home.key

theorem Here.after {budget : Nat} (h : d.Here home) (hg : (spec budget home).guar d o) (hr : Sight.rely o r) :
    (d.after o r).Here home := by
  cases o
  case register key =>
    obtain ⟨hkey, -⟩ := hg
    cases r with
    | owner slot =>
        have hslot : slot.key.objectKey = home.key := (congrArg BlockKey.objectKey hr).trans hkey
        exact ⟨Multiset.forall_mem_cons.mpr ⟨hslot, h.owned⟩, List.forall_mem_cons.mpr ⟨hslot, h.known⟩⟩
    | waiter slot =>
        exact ⟨h.owned, List.forall_mem_cons.mpr ⟨(congrArg BlockKey.objectKey hr).trans hkey, h.known⟩⟩
  case publish slot' result => exact ⟨fun slot hs => h.owned slot (Multiset.mem_of_mem_erase hs), h.known⟩
  case spawn task =>
    exact ⟨fun slot hs => h.owned slot (Multiset.mem_of_le (Multiset.sub_le_self _ _) hs), h.known⟩
  case blocksGet keys => rcases r with ⟨j, _ | block⟩ | _ | _ <;> exact ⟨h.owned, h.known⟩
  all_goals exact ⟨h.owned, h.known⟩

theorem Here.blockKeys {budget : Nat} (h : d.Here home) (hg : (spec budget home).guar d o) :
    ∀ key ∈ o.blockKeys, key.objectKey = home.key := by
  obtain ⟨-, hg⟩ := hg
  cases o
  case blocksGet keys =>
    intro key hkey
    obtain hkey | ⟨slot, hs, rfl⟩ := hg.2.2 key hkey
    · exact hkey
    · exact h.owned slot hs
  case wait slot => exact List.forall_mem_singleton.mpr (h.known slot hg.2.2)
  all_goals exact List.forall_mem_nil _

theorem View.nil (ho : d.owned = 0) : View s home d := by
  refine ⟨⟨?_, ?_, ?_, ?_⟩, ?_, ?_, ?_⟩ <;> simp [ho]

/-- The contract where a registration is answered with a slot for the key. -/
def named (budget : Nat) (home : Home) : Spec Op Resp Duty :=
  { spec budget home with rely := fun _ o r => rely o r ∧ Sight.rely o r }

end Duty

/-! ## One step -/

variable [TagHash]

namespace World

def duties (fuel : Nat) : Outline (system fuel) (Home × Duty) where
  spec := .indexed (Duty.named fuel)
  init task := (task.home, .start task)
  post _ g := g.2.owned = 0
  inv := Shared.Tabled
  view s g := g.2.View s g.1
  apart g g' := g.2.Separate g'.2

variable {fuel : Nat} {w w' : World} {s : Shared} {g : Home × Duty} {o : Op} {r : Resp o}

theorem duties_at (th : Thread Task Op Resp) : (duties fuel).at_ th = (th.task.home, .of th) :=
  Spec.ghost_indexed ..

theorem duties_starts {task : Task} (h : task.Proper) (hv : (Duty.start task).View s task.home) :
    (duties fuel).Starts s task :=
  ⟨wp_indexed.mpr (wp_rely (Duty.program_wp h fun _ => Nat.le_refl fuel) fun _ _ _ => And.left), hv⟩

omit [TagHash] in
theorem duty_rely (h : s.Tabled) {s' : Shared} {ts : List Task} (hr : respond s o x = some (r, s', ts)) :
    Duty.rely o r ∧ Sight.rely o r := by
  obtain ⟨-, -, ha⟩ := respond_spec hr
  cases o
  case blocksGet keys =>
    rcases r with ⟨i, found⟩ | _ | _
    · cases x <;> simp only [respond, reduceCtorEq] at hr
      split at hr
      · cases hr
        exact ⟨(List.getElem?_eq_some_iff.mp ‹_›).1, trivial⟩
      · split at hr
        · cases hr
          exact ⟨(List.getElem?_eq_some_iff.mp ‹_›).1, trivial⟩
        · cases hr
      · cases hr
      · cases hr
    · exact ⟨trivial, trivial⟩
    · exact ⟨trivial, trivial⟩
  case register key =>
    obtain rfl : r = (s.register key).1 := ha
    refine ⟨trivial, ?_⟩
    unfold Shared.register
    cases hi : s.inflight key with
    | some slot => exact h.key key slot hi
    | none => rfl
  case awaitGet =>
    rcases r with (_ | _) | _ | _
    case ready.stalled => exact ⟨ha, trivial⟩
    all_goals exact ⟨trivial, trivial⟩
  case awaitBody =>
    cases r with
    | ready ev => exact ⟨ha.1, trivial⟩
    | timeout => exact ⟨trivial, trivial⟩
    | dropped => exact ⟨trivial, trivial⟩
  all_goals exact ⟨trivial, trivial⟩

theorem keeps_of (hrely : Duty.rely o r ∧ Sight.rely o r) (ho : o.tasks = []) (ht : (s.after o).Tabled)
    (hview : (g.2.after o r).View (s.after o) g.1)
    (hother : ∀ home' d', Duty.View s home' d' → g.2.Separate d' → d'.Separate g.2 →
      d'.View (s.after o) home' ∧ (g.2.after o r).Separate d' ∧ d'.Separate (g.2.after o r)) :
    (duties fuel).Keeps s g o r (s.after o) o.tasks where
  inv := ht
  rely := hrely
  view := hview
  stable g' hg' ha := (hother g'.1 g'.2 hg' ha.1 ha.2).1
  apart g' hg' ha := (hother g'.1 g'.2 hg' ha.1 ha.2).2
  starts := by simp [ho]
  fresh := by simp [ho]
  alone := by simp [ho]

theorem keeps_quiet (ht : s.Tabled) (hv : g.2.View s g.1)
    (hrely : Duty.rely o r ∧ Sight.rely o r) (ho : Duty.touches o = false) :
    (duties fuel).Keeps s g o r (s.after o) o.tasks := by
  obtain ⟨howned, hgap, -, hi, hc, hn⟩ := Duty.after_of_not_touches s g.2 r ho
  refine keeps_of hrely (by cases o <;> first | rfl | cases ho) ?_ (hv.of_same howned hgap hi hc hn)
    fun home' d' hv' ha ha' => ⟨hv'.of_same rfl rfl hi hc hn, ?_, ?_⟩
  · refine ⟨?_, ?_, ?_, ?_⟩ <;> simp only [hi, hc, hn]
    · exact ht.key
    · exact ht.fresh
    · exact ht.pending
    · exact ht.published
  · rwa [Duty.Separate, howned]
  · rwa [Duty.Separate, howned]

theorem keeps_register {key : BlockKey} {r : Resp (.register key)} (ht : s.Tabled) (hv : g.2.View s g.1)
    (hrely : Duty.rely (.register key) r ∧ Sight.rely (.register key) r)
    (hg : (Duty.spec fuel g.1).guar g.2 (.register key)) (ha : s.Answers (.register key) r) :
    (duties fuel).Keeps s g (.register key) r (s.register key).2 [] := by
  obtain rfl : r = (s.register key).1 := ha
  obtain ⟨hkey, hd⟩ := hg
  cases hi : s.inflight key with
  | some slot =>
      have heq := Shared.register_waiter hi
      refine keeps_of hrely rfl ?_ ?_ fun home' d' hv' ha ha' => ?_
      all_goals simp only [Shared.after, heq]
      · exact ht
      · exact hv.of_same rfl rfl rfl rfl rfl
      · exact ⟨hv', ha, ha'⟩
  | none =>
      have heq := Shared.register_owner hi
      refine keeps_of hrely rfl (Duty.tabled_register hi ht) ?_ fun home' d' hv' ha ha' => ?_
      all_goals rw [heq]
      · exact hv.registered hi ht hd hkey rfl hd
      · refine ⟨hv'.register_stable hi, fun slot hs => ?_, fun slot hs hs' => ?_⟩
        · rcases Multiset.mem_cons.mp hs with rfl | hs
          · exact hv'.not_mem_new key
          · exact ha slot hs
        · rcases Multiset.mem_cons.mp hs' with rfl | hs'
          · exact hv'.not_mem_new key hs
          · exact ha' slot hs hs'

theorem keeps_unregister {key : BlockKey} {r : Resp (.unregister key)} (ht : s.Tabled) (hv : g.2.View s g.1)
    (hg : (Duty.spec fuel g.1).guar g.2 (.unregister key)) :
    (duties fuel).Keeps s g (.unregister key) r (s.unregister key) [] := by
  obtain ⟨-, hd, slot, hs, rfl⟩ := hg
  exact keeps_of ⟨trivial, trivial⟩ rfl (Duty.tabled_unregister ht _) (hv.unregistered hd rfl rfl)
    fun home' d' hv' ha ha' => ⟨hv.unregister_stable hv' ha hd hs, ha, ha'⟩

theorem keeps_publish {result : BlockResult} {r : Resp (.publish slot result)} (ht : s.Tabled)
    (hv : g.2.View s g.1) (hg : (Duty.spec fuel g.1).guar g.2 (.publish slot result)) :
    (duties fuel).Keeps s g (.publish slot result) r (s.publish slot result) [] := by
  obtain ⟨-, hd, hs, -⟩ := hg
  have hsub : ∀ slot' ∈ g.2.owned.erase slot, slot' ∈ g.2.owned := fun _ => Multiset.mem_of_mem_erase
  exact keeps_of ⟨trivial, trivial⟩ rfl (Duty.tabled_publish ht hv hs hd result)
    (hv.published hs hd rfl rfl result) fun home' d' hv' ha ha' => ⟨hv'.publish_stable (ha slot hs) result,
      fun slot' hs' => ha slot' (hsub slot' hs'), fun slot' hs' hm => ha' slot' hs' (hsub slot' hm)⟩

theorem keeps_spawn {task : Task} {r : Resp (.spawn task)} (ht : s.Tabled) (hv : g.2.View s g.1)
    (hg : (Duty.spec fuel g.1).guar g.2 (.spawn task)) :
    (duties fuel).Keeps s g (.spawn task) r s [task] := by
  obtain ⟨⟨hhome, hproper, -⟩, hd, hle⟩ := hg
  have hsub : ∀ slot ∈ g.2.owned - (task.slots : Multiset Slot), slot ∈ g.2.owned ∧
      slot ∉ (task.slots : Multiset Slot) :=
    fun slot hs => (Multiset.mem_sub_of_nodup hv.nodup).mp hs
  have hview : (Duty.start task).View s task.home := by
    rw [hhome]
    exact hv.of_le hd hle rfl
  exact {
    inv := ht
    rely := ⟨trivial, trivial⟩
    view := hv.of_le hd (Multiset.sub_le_self _ _) hd
    stable := fun g' hg' _ => hg'
    apart := fun g' _ ha => ⟨fun slot hs => ha.1 slot (hsub slot hs).1,
      fun slot hs hm => ha.2 slot hs (hsub slot hm).1⟩
    starts := by
      intro t hmem
      obtain rfl := List.mem_singleton.mp hmem
      exact ⟨duties_starts hproper hview, fun slot hs => (hsub slot hs).2,
        fun slot hs hm => (hsub slot hm).2 hs⟩
    fresh := by
      intro t hmem g' _ ha
      obtain rfl := List.mem_singleton.mp hmem
      exact ⟨fun slot hs hm => ha.2 slot hs (Multiset.mem_of_le hle hm),
        fun slot hs => ha.1 slot (Multiset.mem_of_le hle hs)⟩
    alone := List.pairwise_singleton _ _ }

theorem duties_resume (h : (duties fuel).Sound w) (hs : (system fuel).resume w i x = some w') :
    (duties fuel).Sound w' := by
  refine h.resume hs fun th o k r s ts _ _ _ hresp hth hg => ?_
  have hrely := duty_rely h.inv hresp
  obtain ⟨rfl, rfl, ha⟩ := respond_spec hresp
  cases o
  case register key => exact keeps_register h.inv hth.view hrely hg ha
  case unregister key => exact keeps_unregister h.inv hth.view hg
  case publish slot result => exact keeps_publish h.inv hth.view hg
  case spawn task => exact keeps_spawn h.inv hth.view hg
  all_goals exact keeps_quiet h.inv hth.view hrely rfl

omit [TagHash] in
theorem call_proper (ns : NamespaceState) (c : Call) : (c.task ns).Proper ∧ (c.task ns).slots = [] := by
  cases c <;> exact ⟨trivial, rfl⟩

theorem duties_step {e : Event} (h : (duties fuel).Sound w) (hs : step fuel w e = some w') :
    (duties fuel).Sound w' := by
  have henv {s' : Shared} (hi : s'.inflight = w.shared.inflight) (hc : s'.channels = w.shared.channels)
      (hn : s'.nextSlot = w.shared.nextSlot) : (duties fuel).Sound ⟨s', w.threads⟩ := by
    refine h.env ⟨?_, ?_, ?_, ?_⟩ fun g hv => hv.of_same rfl rfl hi hc hn
    all_goals simp only [hi, hc, hn]
    · exact h.inv.key
    · exact h.inv.fresh
    · exact h.inv.pending
    · exact h.inv.published
  cases e with
  | run i x => exact duties_resume h hs
  | call id c =>
      obtain ⟨ns, -, rfl⟩ := step_call hs
      obtain ⟨hproper, hslots⟩ := call_proper ns c
      have howned : (Duty.start (c.task ns)).owned = 0 := by
        change ((c.task ns).slots : Multiset Slot) = 0
        rw [hslots]
        rfl
      have hnote : (duties fuel).Sound ⟨w.shared.noteInsert ns.name c, w.threads⟩ := by
        cases c <;> exact henv rfl rfl rfl
      refine hnote.spawn (duties_starts hproper (.nil howned))
        fun g _ => ⟨fun slot _ => ?_, fun slot hs => ?_⟩
      · change slot ∉ (Duty.start (c.task ns)).owned
        simp [howned]
      · change slot ∈ (Duty.start (c.task ns)).owned at hs
        simp [howned] at hs
  | register name config =>
      cases hs
      unfold Shared.registerNamespace
      split
      · exact h
      · exact henv rfl rfl rfl
  | restart kept =>
      cases hs
      exact ⟨⟨nofun, nofun, nofun, nofun⟩, List.forall_mem_nil _, .nil⟩
  | _ => cases hs; exact henv rfl rfl rfl

theorem duties_init : (duties fuel).Sound init := ⟨⟨nofun, nofun, nofun, nofun⟩, List.forall_mem_nil _, .nil⟩

/-! ## Owners -/

/-- Somebody owes the result of the slot. -/
def Owed (w : World) (slot : Slot) : Prop := ∃ th ∈ w.threads, slot ∈ (Duty.of th).owned

/-- Every slot in the table has an owner, and one that a thread knows has a result or an owner. -/
structure Covered (w : World) : Prop where
  table : ∀ key slot, w.shared.inflight key = some slot → w.Owed slot
  known : ∀ th ∈ w.threads, ∀ slot ∈ (Duty.of th).known, w.shared.channels slot ≠ none ∨ w.Owed slot

omit [TagHash] in
theorem duty_snoc {p q : Program Unit} :
    Duty.of ⟨t, q, tr ++ [⟨o, r⟩]⟩ = (Duty.of ⟨t, p, tr⟩).after o r := by
  simp [Duty.of]

omit [TagHash] in
theorem duty_after (d : Duty) (o : Op) (r : Resp o) :
    (d.after o r).owned = o.owned d.owned r ∧ (d.after o r).known = o.known d.known r := by
  cases o
  case register => cases r <;> exact ⟨rfl, rfl⟩
  case blocksGet => rcases r with ⟨j, _ | block⟩ | _ | _ <;> exact ⟨rfl, rfl⟩
  all_goals exact ⟨rfl, rfl⟩

omit [TagHash] in
theorem duty_owned {p q : Program Unit} :
    (Duty.of ⟨t, q, tr ++ [⟨o, r⟩]⟩).owned = o.owned (Duty.of ⟨t, p, tr⟩).owned r := by
  rw [duty_snoc]
  exact (duty_after _ o r).1

theorem owed_run {k : Resp o → Program Unit}
    (hv : (Duty.of ⟨t, .op o k, tr⟩).View s t.home) (hi : w.threads[i]? = some ⟨t, .op o k, tr⟩)
    (h : w.Owed slot) :
    (∃ result, o = .publish slot result) ∨
      Owed ⟨w.shared.after o, w.threads.set i ⟨t, k r, tr ++ [⟨o, r⟩]⟩ ++ o.tasks.map (system fuel).begin⟩
        slot := by
  obtain ⟨th, hth, hslot⟩ := h
  obtain ⟨hold, hmover, -⟩ := System.mem_resume hi ⟨t, k r, tr ++ [⟨o, r⟩]⟩ (o.tasks.map (system fuel).begin)
  obtain rfl | hth := hold th hth
  · obtain hpublish | ⟨task, rfl, hin⟩ | hstays := Op.mem_owned r hv.nodup hslot
    · exact .inl hpublish
    · exact .inr ⟨(system fuel).begin task, List.mem_append_right _ List.mem_cons_self, hin⟩
    · exact .inr ⟨_, hmover, duty_owned ▸ hstays⟩
  · exact .inr ⟨th, hth, hslot⟩

theorem covered_run (hd : (duties fuel).Sound w) (h : w.Covered)
    (hs : step fuel w (.run i x) = some w') : w'.Covered := by
  obtain ⟨t, o, k, tr, r, hi, ha, rfl⟩ := step_run hs
  have hth := hd.threads _ (List.mem_of_getElem? hi)
  have hv : (Duty.of ⟨t, .op o k, tr⟩).View w.shared t.home := by
    have := hth.view
    rwa [duties_at] at this
  have hguar : (Duty.spec fuel t.home).guar (Duty.of ⟨t, .op o k, tr⟩) o := by
    have := hth.wp.1
    rwa [duties_at] at this
  obtain ⟨-, hmover, hcases⟩ := System.mem_resume hi ⟨t, k r, tr ++ [⟨o, r⟩]⟩
    (o.tasks.map (system fuel).begin)
  have howned {slot : Slot} (hslot : slot ∈ o.owned (Duty.of ⟨t, .op o k, tr⟩).owned r) :
      Owed ⟨w.shared.after o, w.threads.set i ⟨t, k r, tr ++ [⟨o, r⟩]⟩ ++ o.tasks.map
      (system fuel).begin⟩ slot :=
    ⟨_, hmover, duty_owned ▸ hslot⟩
  have hknown {slot : Slot} (hslot : w.shared.channels slot ≠ none ∨ w.Owed slot) :
      (w.shared.after o).channels slot ≠ none ∨
        Owed ⟨w.shared.after o, w.threads.set i ⟨t, k r, tr ++ [⟨o, r⟩]⟩ ++ o.tasks.map
        (system fuel).begin⟩ slot := by
    rcases hslot with hc | ho
    · exact .inl (Shared.channels_after hc)
    · obtain ⟨result, rfl⟩ | ho := owed_run hv hi ho
      · left
        simp [Shared.after, Shared.publish]
      · exact .inr ho
  refine ⟨fun key slot hentry => ?_, fun th hmem slot hslot => ?_⟩
  · rcases Shared.inflight_after hentry ha with hold | hnew
    · obtain ⟨result, rfl⟩ | ho := owed_run hv hi (h.table key slot hold)
      · obtain ⟨-, hgap, hmem, -⟩ := hguar
        obtain rfl := hd.inv.key key slot hold
        exact absurd hold (hv.absent slot hmem hgap)
      · exact ho
    · exact howned hnew
  · rcases hcases th hmem with hmem | rfl | hmem
    · exact hknown (h.known th hmem slot hslot)
    · rw [duty_snoc, (duty_after _ o r).2] at hslot
      rcases Shared.mem_known ha hslot with hold | ⟨key, hentry⟩ | hnew
      · exact hknown (h.known _ (List.mem_of_getElem? hi) slot hold)
      · exact hknown (.inr (h.table key slot hentry))
      · exact .inr (howned hnew)
    · obtain ⟨task, -, rfl⟩ := List.mem_map.mp hmem
      cases hslot

theorem covered_step {e : Event} (hd : (duties fuel).Sound w) (h : w.Covered) (hs : step fuel w e = some w') :
    w'.Covered := by
  cases e with
  | run i x => exact covered_run hd h hs
  | call id c =>
      obtain ⟨ns, -, rfl⟩ := step_call hs
      have howed {slot : Slot} (ho : w.Owed slot) :
          Owed ⟨w.shared.noteInsert ns.name c, w.threads ++ [(system fuel).begin (c.task ns)]⟩ slot := by
        obtain ⟨th, hth, hslot⟩ := ho
        exact ⟨th, List.mem_append_left _ hth, hslot⟩
      have hshared : (w.shared.noteInsert ns.name c).inflight = w.shared.inflight ∧
          (w.shared.noteInsert ns.name c).channels = w.shared.channels := by
        cases c <;> exact ⟨rfl, rfl⟩
      refine ⟨fun key slot hentry => howed (h.table key slot (hshared.1 ▸ hentry)),
        fun th hmem slot hslot => ?_⟩
      rcases List.mem_append.mp hmem with hmem | hmem
      · exact (h.known th hmem slot hslot).imp (hshared.2 ▸ ·) howed
      · rw [List.mem_singleton.mp hmem] at hslot
        cases hslot
  | register name config =>
      cases hs
      unfold Shared.registerNamespace
      split
      · exact h
      · exact ⟨h.table, h.known⟩
  | restart kept => cases hs; exact ⟨nofun, List.forall_mem_nil _⟩
  | _ => cases hs; exact ⟨h.table, h.known⟩

theorem duties_run {es : List Event} (h : runEvents (step fuel) init es = some w) :
    (duties fuel).Sound w ∧ w.Covered :=
  (Run.of_events h fun _ _ _ => trivial : Run (step fuel) (fun _ _ => True) init es w).invariant
    (fun _ _ _ hi _ hs => (⟨duties_step hi.1 hs, covered_step hi.1 hi.2 hs⟩ : _ ∧ _))
    ⟨duties_init, nofun, List.forall_mem_nil _⟩

theorem pays_next (h : (duties fuel).Sound w) (hth : th ∈ w.threads)
    {k : Resp o → Program Unit} (hp : th.prog = .op o k) : (Duty.spec fuel th.task.home).guar (.of th) o := by
  have hwp := (h.threads th hth).wp
  rw [duties_at, hp] at hwp
  exact hwp.1

theorem unfinished_of_owned (h : (duties fuel).Sound w) (hth : th ∈ w.threads)
    (hslot : slot ∈ (Duty.of th).owned) : ∃ o k, th.prog = .op o k := by
  cases hp : th.prog with
  | op o k => exact ⟨o, k, rfl⟩
  | pure u =>
      have hwp := (h.threads th hth).wp
      rw [duties_at, hp] at hwp
      have hzero : (Duty.of th).owned = 0 := hwp
      exact absurd (hzero ▸ hslot) (Multiset.notMem_zero slot)

theorem sight_of_sound (h : (duties fuel).Sound w) (hth : th ∈ w.threads) :
    ∀ d ∈ th.trace, Sight.rely d.1 d.2 := by
  rintro ⟨o, r⟩ hd
  obtain ⟨_, _, -, hrely⟩ := (h.threads th hth).relied.of_mem hd
  exact hrely.2

theorem about_of_sound (h : (duties fuel).Sound w) (hth : th ∈ w.threads) :
    ∀ d ∈ th.trace, d.1.About th.task.home := by
  rintro ⟨o, r⟩ hd
  obtain ⟨before, after, -, hguar⟩ := (h.threads th hth).kept.of_mem hd
  have hghost : (duties fuel).spec.ghost ((duties fuel).init th.task) before = _ := Spec.ghost_indexed ..
  rw [hghost] at hguar
  exact hguar.1

/-- A thread that was handed no slots asks only for blocks of its object. -/
theorem blockKeys_of_sound (h : (duties fuel).Sound w) (hth : th ∈ w.threads)
    (hslots : th.task.slots = []) :
    ∀ d ∈ th.trace, ∀ key ∈ d.1.blockKeys, key.objectKey = th.task.home.key := by
  rintro ⟨o, r⟩ hd key hkey
  have hkept := (h.threads th hth).kept
  have hrelied := (h.threads th hth).relied
  obtain ⟨before, after, htrace, hguar⟩ := hkept.of_mem hd
  rw [htrace] at hkept hrelied
  have hstart : (Duty.start th.task).Here th.task.home := by
    refine ⟨fun slot hs => ?_, List.forall_mem_nil _⟩
    change slot ∈ (th.task.slots : Multiset Slot) at hs
    rw [hslots] at hs
    exact absurd hs (Multiset.notMem_zero slot)
  have hhere := ((duties fuel).spec.relied_append.mp hrelied).1.invariant (I := fun g => g.2.Here g.1)
    (fun _ _ _ hg hguar hr => hg.after hguar hr.2) ((duties fuel).spec.kept_append.mp hkept).1 hstart
  have hghost : (duties fuel).spec.ghost ((duties fuel).init th.task) before = _ := Spec.ghost_indexed ..
  rw [hghost] at hguar hhere
  exact hhere.blockKeys hguar key hkey

end World

end Nestor
