import Nestor.Client.Lemmas.Router
import Nestor.Client.Pool
import Nestor.Lib.Runs

/-!
# Bounded load

The counter of a node is the number of loads there are on it, in every run, and the choice of a node
keeps to the limits as far as the nodes that are up allow.
-/

namespace Nestor.Client

open Lib

variable {Addr : Type}

namespace Pool

/-- The counters are right. -/
def Counted (p : Pool Addr) : Prop := ∀ id, (p.heap id).inflight = p.loads.count id

theorem Counted.acquire {p : Pool Addr} (h : p.Counted) (id : NodeId) :
    Counted { p with heap := Function.update p.heap id (p.heap id).acquire, loads := id :: p.loads } := by
  intro other
  by_cases he : other = id
  · subst he
    simp [Node.acquire, h other]
  · simp [Function.update_of_ne he, h other, List.count_cons_of_ne (Ne.symm he)]

theorem Counted.drop {p : Pool Addr} (h : p.Counted) {id : NodeId} (hid : id ∈ p.loads) :
    (p.drop id).Counted := by
  intro other
  by_cases he : other = id
  · subst he
    have hpos := List.count_pos_iff.mpr hid
    have hcount := h other
    simp only [Pool.drop, Function.update_self, Node.release, List.count_erase_self]
    rw [if_neg (by omega), hcount]
  · simp [Pool.drop, Function.update_of_ne he, h other, List.count_erase_of_ne he]

variable [LinearOrder Addr]

theorem Counted.step {p p' : Pool Addr} {e : Event} (h : p.Counted) (hs : p.step e = some p') :
    p'.Counted := by
  cases e with
  | tick nanos =>
      cases hs
      exact h
  | primary ranked =>
      cases hs
      cases hp : Ranked.primary p.heap p.now ranked with
      | none => exact h
      | some load =>
          obtain ⟨id, heap⟩ := load
          obtain ⟨-, rfl⟩ := Ranked.primary_eq_some hp
          exact h.acquire id
  | secondary ranked first =>
      cases hs
      cases hp : Ranked.secondary p.heap p.now ranked first with
      | none => exact h
      | some load =>
          obtain ⟨id, heap⟩ := load
          obtain ⟨-, -, -, -, rfl⟩ := Ranked.secondary_eq_some hp
          exact h.acquire id
  | markDown id window =>
      cases hs
      intro other
      by_cases he : other = id
      · subst he
        simp [Pool.down, Node.markDown, h other]
      · simp [Pool.down, Function.update_of_ne he, h other]
  | release id =>
      obtain ⟨hid, ⟨⟩⟩ := Option.ite_none_right_eq_some.mp hs
      exact h.drop hid

/-- In every state of a run that starts without loads, the counter of a node is the number of the
loads on it, so that dropping one never takes it below zero. A load that `primary` gives out there
is on a node that is down only if all of the ranking are, and takes a node over its limit only if
every node of the ranking that is up has reached its own. One that `secondary` gives out is on a
node that is up, within its limit, and not at the primary's address. -/
theorem loads_bounded (p₀ p : Pool Addr) (es : List Event) (h₀ : ∀ id, (p₀.heap id).inflight = 0)
    (hl : p₀.loads = []) (hrun : Run step (fun _ _ => True) p₀ es p) :
    (∀ id, (p.heap id).inflight = p.loads.count id) ∧ (∀ id ∈ p.loads, 0 < (p.heap id).inflight) ∧
    (∀ ranked id heap, Ranked.primary p.heap p.now ranked = some (id, heap) → id ∈ ranked ∧
      ((∃ other ∈ ranked, (p.heap other).isUp p.now) → (p.heap id).isUp p.now) ∧
      ((heap id).loadLimit < (heap id).inflight →
        ∀ other ∈ ranked, (p.heap other).isUp p.now → (p.heap other).loadLimit ≤ (p.heap other).inflight)) ∧
    ∀ ranked primary id heap, Ranked.secondary p.heap p.now ranked primary = some (id, heap) → id ∈ ranked ∧
      (p.heap id).isUp p.now ∧ (p.heap id).addr ≠ (p.heap primary).addr ∧
      (heap id).inflight ≤ (heap id).loadLimit := by
  have hstart : p₀.Counted := fun id => by rw [h₀, hl, List.count_nil]
  have hcounted : p.Counted := hrun.invariant (fun _ _ _ h _ hs => h.step hs) hstart
  refine ⟨hcounted, fun id hid => ?_, fun ranked id heap hp => ?_, fun ranked primary id heap hp => ?_⟩
  · rw [hcounted id]
    exact List.count_pos_iff.mpr hid
  · obtain ⟨hc, rfl⟩ := Ranked.primary_eq_some hp
    refine ⟨hc.mem, hc.up, fun hover => hc.free ?_⟩
    rw [Function.update_self] at hover
    exact Nat.le_of_lt_succ hover
  · obtain ⟨hmem, haddr, hup, hlt, rfl⟩ := Ranked.secondary_eq_some hp
    refine ⟨hmem, hup, haddr, ?_⟩
    rw [Function.update_self]
    exact hlt

/-- Two nodes that take one request each. -/
def samplePool : Pool Nat := ⟨fun id => ⟨id, id, 1, 0, 0, 0⟩, 0, []⟩

/-- Three requests for a block that the first node owns: the third one goes over its limit. Then two
of them end. -/
theorem loads_bounded_sample : ∃ p, Run step (fun _ _ => True) samplePool
    [.primary [0, 1], .primary [0, 1], .primary [0, 1], .release 1, .release 0] p ∧ p.loads = [0] ∧
    ∀ id, (p.heap id).inflight = p.loads.count id := by
  obtain ⟨p, hp⟩ : ∃ p, runEvents step samplePool
      [.primary [0, 1], .primary [0, 1], .primary [0, 1], .release 1, .release 0] = some p := ⟨_, rfl⟩
  have hrun : Run step (fun _ _ => True) samplePool _ p := .of_events hp fun _ _ _ => trivial
  refine ⟨p, hrun, ?_, (loads_bounded samplePool p _ (fun _ => rfl) rfl hrun).1⟩
  cases hp
  decide

end Pool

end Nestor.Client
