import Nestor.Client.Lemmas.Attempts
import Nestor.Client.Lemmas.Router
import Nestor.Client.Theorems.Membership
import Nestor.Fetch.Lemmas.Hedged

/-!
# Hedging loses no answer

A routed request starts at most three attempts and a GET of the engine sends at most two requests,
whatever the order in which they end, whether the hedge delay passes and whatever the nodes and
permits are then. An I/O error, or an error that may be retried, is returned only where all of them
have ended with one.
-/

namespace Nestor.Client

open Lib Store

/-- An operation of a request, and the client when it is done. -/
structure Moment (Addr T : Type) where
  client : Routing Addr
  done : Done (RouteOp T) (RouteResp T)

/-- Another node of the ranking is up and below its limit. -/
def Routing.Spare {Addr : Type} (s : Routing Addr) (ranked : List NodeId) (primary : NodeId) : Prop :=
  ∃ id ∈ ranked, (s.cluster.heap id).addr ≠ (s.cluster.heap primary).addr ∧ (s.cluster.heap id).isUp s.now ∧
    (s.cluster.heap id).inflight < (s.cluster.heap id).loadLimit

variable {Addr T : Type} [LinearOrder Addr]

/-- The answer is one that the client gives, for some choice of the environment. -/
def Moment.Served (m : Moment Addr T) : Prop :=
  ∃ choice next spawned, m.client.respond m.done.1 choice = some (m.done.2, next, spawned)

theorem Moment.Served.secondary {s : Routing Addr} {ranked : List NodeId} {primary : NodeId}
    {r : Option NodeId}
    (h : Moment.Served ⟨s, (⟨.secondary ranked primary, r⟩ : Done (RouteOp T) (RouteResp T))⟩) :
    r = (Ranked.secondary s.cluster.heap s.now ranked primary).map Prod.fst := by
  obtain ⟨choice, next, spawned, h⟩ := h
  cases choice with
  | go => exact (congrArg Prod.fst (Option.some.inj h)).symm
  | _ => cases h

theorem Moment.Served.relied {m : Moment Addr T} (h : m.Served) (tr : RouteTrace T) :
    (hedgeSpec T).rely tr m.done.1 m.done.2 := by
  obtain ⟨s, o, r⟩ := m
  cases o with
  | secondary ranked first =>
      rintro rfl
      obtain ⟨⟨id, heap⟩, hload, rfl⟩ := Option.map_eq_some_iff.mp h.secondary.symm
      exact (Ranked.secondary_eq_some hload).2.1 rfl
  | _ => trivial

theorem Moment.Served.spare {s : Routing Addr} {ranked : List NodeId} {primary : NodeId} {r : Option NodeId}
    (h : Moment.Served ⟨s, (⟨.secondary ranked primary, r⟩ : Done (RouteOp T) (RouteResp T))⟩) :
    r.isSome ↔ s.Spare ranked primary := by
  rw [h.secondary, Option.isSome_map, Ranked.secondary_isSome]
  rfl

theorem hedged_runs {hedge : Bool} {ranked : List NodeId} {ms : List (Moment Addr T)}
    {p : RouteProgram T (Except OriginError T)} (hruns : Runs (hedged hedge ranked) (ms.map Moment.done) p)
    (hserved : ∀ m ∈ ms, m.Served) :
    (started (ms.map Moment.done)).length ≤ 3 ∧ ∀ result, p = pure result →
      (result = .error .io → (failed (ms.map Moment.done)).Perm (started (ms.map Moment.done))) ∧
      GoesOn ranked (ms.map Moment.done) result := by
  have hrely : ∀ d ∈ ms.map Moment.done, ∀ tr, (hedgeSpec T).rely tr d.1 d.2 := by
    intro d hd tr
    obtain ⟨m, hm, rfl⟩ := List.mem_map.mp hd
    exact (hserved m hm).relied tr
  obtain ⟨hkept, hwp⟩ := wp_runs_of (P := fun o r => ∀ tr, (hedgeSpec T).rely tr o r) (fun tr _ _ _ h => h tr)
    (hedged_attempts hedge ranked) hruns hrely
  refine ⟨started_length_le hkept, fun result hp => ?_⟩
  rw [hp, Spec.ghost_trace (fun _ _ _ => rfl), List.nil_append] at hwp
  exact hwp

/-- A routed request starts at most three attempts. It returns an I/O error only if all it has
started have ended with one. After an I/O error of the first one, the answer of another is returned,
or another node is asked for, and it is there whenever one that is up is below its limit. A GET of
the engine sends at most two requests, and returns an error that may be retried only if all of them
were answered with one. Both return, the first unless it is dropped. -/
theorem hedging_loses_nothing :
    (∀ hedge ranked, (hedged hedge ranked : RouteProgram T _).Ends Undropped fun _ => True) ∧
    (∀ hedge ranked (ms : List (Moment Addr T)) p, Runs (hedged hedge ranked) (ms.map Moment.done) p →
      (∀ m ∈ ms, m.Served) → (started (ms.map Moment.done)).length ≤ 3 ∧ ∀ result, p = pure result →
        (result = .error .io → (failed (ms.map Moment.done)).Perm (started (ms.map Moment.done))) ∧
        ∀ primary, (started (ms.map Moment.done)).head? = some primary →
          primary ∈ failed (ms.map Moment.done) → (result ≠ .error .io ∧
            ∃ other ∈ started (ms.map Moment.done), other ≠ primary ∧ Gave (ms.map Moment.done)
              other result) ∨
          ∃ before m after r, ms = before ++ m :: after ∧ m.done = ⟨.secondary ranked primary, r⟩ ∧
            primary ∈ failed (before.map Moment.done) ∧ (r.isSome ↔ m.client.Spare ranked primary)) ∧
    (∀ ctx options deadline, (getHedged ctx options deadline).Ends AnswersAwaited fun _ => True) ∧
    (∀ ctx options deadline tr p, Runs (getHedged ctx options deadline) tr p →
      (∀ d ∈ tr, AnswersAwaited d.1 d.2) → (sent tr).length ≤ 2 ∧
        ∀ e, p = pure (.ready (.error e)) → e.isRetryable = true → (spurned tr).Perm (sent tr)) := by
  refine ⟨hedged_ends, ?_, fun _ _ _ => getHedged_ends, ?_⟩
  · intro hedge ranked ms p hruns hserved
    obtain ⟨hlen, hresult⟩ := hedged_runs hruns hserved
    refine ⟨hlen, fun result hp => ⟨(hresult result hp).1, fun primary hfirst hlost => ?_⟩⟩
    refine ((hresult result hp).2 primary hfirst hlost).imp_right ?_
    rintro ⟨before, r, after, htr, hbefore⟩
    obtain ⟨ms₁, rest, rfl, rfl, hrest⟩ := List.map_eq_append_iff.mp htr
    obtain ⟨m, ms₂, rfl, hm, rfl⟩ := List.map_eq_cons_iff.mp hrest
    obtain ⟨s, d⟩ := m
    obtain rfl : d = ⟨.secondary ranked primary, r⟩ := hm
    have hspare := (hserved _ (List.mem_append_right _ List.mem_cons_self)).spare
    exact ⟨ms₁, _, ms₂, r, rfl, rfl, hbefore, hspare⟩
  · intro ctx options deadline tr p hruns hanswers
    obtain ⟨hkept, hwp⟩ := wp_runs_of (fun _ _ _ _ h => h) getHedged_spurned hruns hanswers
    refine ⟨sent_length_le hkept, fun e hp => ?_⟩
    rw [hp, Spec.ghost_trace (fun _ _ _ => rfl), List.nil_append] at hwp
    exact hwp e rfl

/-- A client with three nodes that are idle. -/
def idleRouting : Routing Nat := ⟨sampleCluster, 0, []⟩

/-- The primary is slow and then fails, so does the node beside it, and a third attempt is
answered. -/
def thirdAnswers : List (Moment Nat Unit) :=
  [⟨idleRouting, ⟨.primary [0, 1, 2], some 0⟩⟩,
   ⟨idleRouting, ⟨.finishOrDelay 0, .delayed⟩⟩,
   ⟨idleRouting, ⟨.secondary [0, 1, 2] 0, some 1⟩⟩,
   ⟨idleRouting, ⟨.race 0 1, .first (.done (.error (.generic none)))⟩⟩,
   ⟨idleRouting, ⟨.markDown 0, ()⟩⟩,
   ⟨idleRouting, ⟨.release 0, ()⟩⟩,
   ⟨idleRouting, ⟨.finish 1, some .unbuilt⟩⟩,
   ⟨idleRouting, ⟨.release 1, ()⟩⟩,
   ⟨idleRouting, ⟨.secondary [0, 1, 2] 0, some 1⟩⟩,
   ⟨idleRouting, ⟨.finish 1, some (.done (.ok ()))⟩⟩,
   ⟨idleRouting, ⟨.observe 1, ()⟩⟩,
   ⟨idleRouting, ⟨.release 1, ()⟩⟩]

theorem hedging_third_answers : Runs (hedged true [0, 1, 2]) (thirdAnswers.map Moment.done) (pure (.ok ())) ∧
    started (thirdAnswers.map Moment.done) = [0, 1, 1] ∧
    (started (thirdAnswers.map Moment.done)).length ≤ 3 := by
  have hruns : Runs (hedged true [0, 1, 2]) (thirdAnswers.map Moment.done) (pure (.ok ())) := by
    repeat apply Runs.cons
    exact Runs.nil
  have hserved : ∀ m ∈ thirdAnswers, m.Served := by
    simp only [thirdAnswers, List.forall_mem_cons]
    refine ⟨⟨.go, _, _, rfl⟩, ⟨.delayed, _, _, rfl⟩, ⟨.go, _, _, rfl⟩, ⟨.finished _, _, _, rfl⟩,
      ⟨.go, _, _, rfl⟩, ⟨.go, _, _, rfl⟩, ⟨.finished _, _, _, rfl⟩, ⟨.go, _, _, rfl⟩, ⟨.go, _, _, rfl⟩,
        ⟨.finished _, _, _, rfl⟩,
      ⟨.go, _, _, rfl⟩, ⟨.go, _, _, rfl⟩, nofun⟩
  exact ⟨hruns, rfl, (hedging_loses_nothing.2.1 true [0, 1, 2] thirdAnswers _ hruns hserved).1⟩

end Nestor.Client
