import Nestor.Client.Hedged

/-!
# What a routed request does with the answers of its attempts

A request whose nodes answer with errors of an origin only goes on after an attempt as the answer
asks for: a node is marked down, and another one tried, only where an attempt on it has got no
answer; an error that is an answer is the last thing a request waits for, and what it returns.
-/

namespace Nestor.Client

open Lib Store

variable {T : Type}

variable {outcome : Outcome T}

/-- The attempt that ends with an operation, and how it ends. -/
def ended : Done (RouteOp T) (RouteResp T) → Option (NodeId × Outcome T)
  | ⟨.finish id, some outcome⟩ => some (id, outcome)
  | ⟨.finishOrDelay id, .finished outcome⟩ => some (id, outcome)
  | ⟨.race id _, .first outcome⟩ => some (id, outcome)
  | ⟨.race _ id, .second outcome⟩ => some (id, outcome)
  | _ => none

/-- The attempt has got no answer. -/
def Outcome.Unanswered : Outcome T → Prop
  | .unbuilt => True
  | .done (.error e) => e.answered = false
  | .done (.ok _) => False

/-- An attempt of the trace was answered with the error. -/
def Refused (tr : List (Done (RouteOp T) (RouteResp T))) (e : StoreError) : Prop :=
  ∃ d ∈ tr, ∃ id, ended d = some (id, .done (.error e)) ∧ e.answered = true

/-- An attempt of the trace on the node has got no answer. -/
def Missed (tr : List (Done (RouteOp T) (RouteResp T))) (id : NodeId) : Prop :=
  ∃ d ∈ tr, ∃ outcome, ended d = some (id, outcome) ∧ outcome.Unanswered

/-- No attempt was answered with an error. -/
def Unrefused (tr : List (Done (RouteOp T) (RouteResp T))) : Prop := ∀ e, ¬ Refused tr e

/-- What a request may do next. -/
def routeGuar (tr : List (Done (RouteOp T) (RouteResp T))) : RouteOp T → Prop
  | .release _ | .hang => True
  | .returned result => ∀ e, Refused tr e → result = .error (fromStore e)
  | .markDown id => Unrefused tr ∧ ∃ before d e, tr = before ++ [d] ∧ ended d = some (id, .done (.error e)) ∧
      e.answered = false
  | .secondary _ primary => Unrefused tr ∧
      ((∃ before, tr = before ++ [⟨.finishOrDelay primary, .delayed⟩]) ∨ Missed tr primary)
  | _ => Unrefused tr

/-- An error that is the answer of a node is one of those an origin knows. -/
def Outcome.Plain (outcome : Outcome T) : Prop :=
  ∀ e, outcome = .done (.error e) → e.answered = true → fromStore e ≠ .io

/-- The ghost state is the trace. -/
def routeSpec (T : Type) : Spec (RouteOp T) (RouteResp T) (List (Done (RouteOp T) (RouteResp T))) where
  guar := routeGuar
  rely := fun _ o r => ∀ id outcome, ended ⟨o, r⟩ = some (id, outcome) → outcome.Plain
  next := fun tr o r => tr ++ [⟨o, r⟩]

theorem routeSpec_ghost (tr tr' : List (Done (RouteOp T) (RouteResp T))) :
    (routeSpec T).ghost tr tr' = tr ++ tr' := Spec.ghost_trace (fun _ _ _ => rfl) tr tr'

section

variable {tr : List (Done (RouteOp T) (RouteResp T))} {o : RouteOp T} {r : RouteResp T o} {id : NodeId}

theorem refused_snoc {e : StoreError} : Refused (tr ++ [⟨o, r⟩]) e ↔
    Refused tr e ∨ ∃ id, ended ⟨o, r⟩ = some (id, .done (.error e)) ∧ e.answered = true := by
  simp only [Refused, List.mem_append, List.mem_singleton, or_and_right, exists_or, exists_eq_left]

theorem Missed.snoc (h : Missed tr id) : Missed (tr ++ [⟨o, r⟩]) id := by
  obtain ⟨d, hd, h⟩ := h
  exact ⟨d, List.mem_append_left _ hd, h⟩

theorem Unrefused.snoc (h : Unrefused tr) (hr : ended ⟨o, r⟩ = none) : Unrefused (tr ++ [⟨o, r⟩]) := by
  intro e he
  rcases refused_snoc.mp he with he | ⟨id, hid, -⟩
  · exact h e he
  · rw [hr] at hid
    cases hid

theorem refused_snoc_of_none (hr : ended ⟨o, r⟩ = none) {e : StoreError} :
    Refused (tr ++ [⟨o, r⟩]) e ↔ Refused tr e := by
  rw [refused_snoc, hr]
  simp

end

/-- What a request has come to: the result bears every answer there was, and an I/O error is no
answer. -/
structure Came (tr : List (Done (RouteOp T) (RouteResp T))) (result : Except OriginError T)
    (ids : List NodeId) :
    Prop where
  bears : ∀ e, Refused tr e → result = .error (fromStore e)
  missed : result = .error .io → Unrefused tr ∧ ∀ id ∈ ids, Missed tr id

variable {tr : List (Done (RouteOp T) (RouteResp T))} {result : Except OriginError T} {id other : NodeId}
  {ids : List NodeId}

theorem Came.snoc {o : RouteOp T} {r : RouteResp T o} (h : Came tr result ids) (hr : ended ⟨o, r⟩ = none) :
    Came (tr ++ [⟨o, r⟩]) result ids where
  bears := fun e he => h.bears e ((refused_snoc_of_none hr).mp he)
  missed := fun hio => ⟨(h.missed hio).1.snoc hr, fun id hid => ((h.missed hio).2 id hid).snoc⟩

theorem Came.mono {ids' : List NodeId} (h : Came tr result ids) (hsub : ∀ id ∈ ids', id ∈ ids) :
    Came tr result ids' :=
  ⟨h.bears, fun hio => ⟨(h.missed hio).1, fun id hid => (h.missed hio).2 id (hsub id hid)⟩⟩

theorem came_of_unrefused (h : Unrefused tr) (hne : result ≠ .error .io) : Came tr result ids :=
  ⟨fun e he => absurd he (h e), fun hio => absurd hio hne⟩

theorem abandon_wp {α : Type} {Q : List (Done (RouteOp T) (RouteResp T)) → α → Prop} (ids : List NodeId) :
    wp (routeSpec T) (abandon ids) Q tr := by
  induction ids generalizing tr with
  | nil => exact ⟨trivial, nofun⟩
  | cons id ids ih => exact ⟨trivial, fun _ _ => ih⟩

/-- An attempt has just ended, the last operation of the trace. -/
structure JustEnded (tr : List (Done (RouteOp T) (RouteResp T))) (id : NodeId) (outcome : Outcome T) :
    Prop where
  last : ∃ before d, tr = before ++ [d] ∧ ended d = some (id, outcome)
  refused : ∀ e, Refused tr e → outcome = .done (.error e)

theorem JustEnded.of_snoc {o : RouteOp T} {r : RouteResp T o} (h : Unrefused tr)
    (hr : ended ⟨o, r⟩ = some (id, outcome)) : JustEnded (tr ++ [⟨o, r⟩]) id outcome where
  last := ⟨tr, ⟨o, r⟩, rfl, hr⟩
  refused := fun e he => by
    rcases refused_snoc.mp he with he | ⟨id', hid, -⟩
    · exact absurd he (h e)
    · rw [hr] at hid
      cases hid
      rfl

theorem JustEnded.missed (h : JustEnded tr id outcome) (hu : outcome.Unanswered) :
    Missed tr id := by
  obtain ⟨before, d, rfl, hd⟩ := h.last
  exact ⟨d, List.mem_append_right _ (List.mem_singleton_self d), outcome, hd, hu⟩

theorem JustEnded.unrefused (h : JustEnded tr id outcome) (hu : outcome.Unanswered) :
    Unrefused tr := by
  intro e he
  have hout := h.refused e he
  subst hout
  obtain ⟨d, -, -, -, ha⟩ := he
  rw [show e.answered = false from hu] at ha
  cases ha

theorem JustEnded.came (h : JustEnded tr id outcome) (hu : outcome.Unanswered) :
    Came tr (.error .io : Except OriginError T) [id] := by
  refine ⟨fun e he => absurd he (h.unrefused hu e), fun _ => ⟨h.unrefused hu, fun other hother => ?_⟩⟩
  rw [List.mem_singleton.mp hother]
  exact h.missed hu

theorem settle_wp (h : JustEnded tr id outcome) (hplain : outcome.Plain) :
    wp (routeSpec T) (settle id outcome) (fun tr' result => Came tr' result [id]) tr := by
  cases outcome with
  | unbuilt => exact ⟨trivial, fun _ _ => (h.came trivial).snoc rfl⟩
  | done result =>
      cases result with
      | ok t =>
          have hq : Unrefused tr := fun e he => by cases h.refused e he
          have hcame : Came tr (.ok t : Except OriginError T) [id] := came_of_unrefused hq nofun
          exact ⟨hq, fun _ _ => ⟨trivial, fun _ _ => (hcame.snoc rfl).snoc rfl⟩⟩
      | error e =>
          by_cases hio : fromStore e = .io
          · have hu : e.answered = false := Bool.eq_false_iff.mpr fun ha => hplain e rfl ha hio
            obtain ⟨before, d, htr, hd⟩ := h.last
            rw [settle, if_pos hio]
            refine ⟨⟨h.unrefused hu, before, d, e, htr, hd, hu⟩, fun _ _ => ⟨trivial, fun _ _ => ?_⟩⟩
            exact ((h.came hu).snoc rfl).snoc rfl
          · have hcame : Came tr (.error (fromStore e) : Except OriginError T) [id] := by
              refine ⟨fun e' he => ?_, fun he => absurd (Except.error.inj he) hio⟩
              cases h.refused e' he
              rfl
            rw [settle, if_neg hio]
            exact ⟨trivial, fun _ _ => hcame.snoc rfl⟩

theorem attempt_wp (hq : Unrefused tr) :
    wp (routeSpec T) (attempt id) (fun tr' result => Came tr' result [id]) tr := by
  refine ⟨hq, fun r hr => ?_⟩
  cases r with
  | none => exact abandon_wp [id]
  | some outcome => exact settle_wp (.of_snoc hq rfl) (hr id outcome rfl)

theorem wp_grows {α : Type} {p : RouteProgram T α} {Q : List (Done (RouteOp T) (RouteResp T)) → α → Prop}
    (h : wp (routeSpec T) p Q tr) : wp (routeSpec T) p (fun tr' a => Q tr' a ∧ tr <+: tr') tr := by
  induction p generalizing tr with
  | pure a => exact ⟨h, List.prefix_refl tr⟩
  | op o k ih =>
      refine ⟨h.1, fun r hr => wp_mono (ih r (h.2 r hr)) fun tr' a h' => ⟨h'.1, ?_⟩⟩
      exact (List.prefix_append tr [⟨o, r⟩]).trans h'.2

theorem Missed.of_isPrefix {tr' : List (Done (RouteOp T) (RouteResp T))} (h : Missed tr id)
    (hp : tr <+: tr') :
    Missed tr' id := by
  obtain ⟨d, hd, h⟩ := h
  exact ⟨d, hp.subset hd, h⟩

theorem handOver_wp (h : JustEnded tr id outcome) (hplain : outcome.Plain) :
    wp (routeSpec T) (handOver id other outcome) (fun tr' result => Came tr' result [id, other]) tr := by
  unfold handOver
  refine wp_seq (settle_wp h hplain) fun tr₁ result h₁ => ?_
  have hkeep : result ≠ .error .io → wp (routeSpec T) (do route (.release other); pure result)
      (fun tr' result => Came tr' result [id, other]) tr₁ := fun hne =>
    ⟨trivial, fun _ _ => Came.snoc ⟨h₁.bears, fun hio => absurd hio hne⟩ rfl⟩
  rcases result with (_ | _ | _ | _ | _ | _) | t
  case error.io =>
    obtain ⟨hq, hmissed⟩ := h₁.missed rfl
    refine wp_mono (wp_grows (attempt_wp hq)) fun tr₂ result h₂ => ⟨h₂.1.bears, fun hio => ?_⟩
    obtain ⟨hq₂, hmissed₂⟩ := h₂.1.missed hio
    refine ⟨hq₂, List.forall_mem_cons.mpr ⟨?_, hmissed₂⟩⟩
    exact (hmissed id (List.mem_singleton_self id)).of_isPrefix h₂.2
  all_goals exact hkeep nofun

theorem firstResult_wp {hedge : Bool} {ranked : List NodeId} (hq : Unrefused tr) :
    wp (routeSpec T) (firstResult hedge ranked id) (fun tr' result => Came tr' result [id]) tr := by
  cases hedge with
  | false => exact attempt_wp hq
  | true =>
      refine ⟨hq, fun r hr => ?_⟩
      cases r with
      | finished outcome => exact settle_wp (.of_snoc hq rfl) (hr id outcome rfl)
      | dropped => exact abandon_wp [id]
      | delayed =>
          have hq₁ := hq.snoc (rfl : ended ⟨.finishOrDelay id, .delayed⟩ = none)
          refine ⟨⟨hq₁, .inl ⟨tr, rfl⟩⟩, fun r _ => ?_⟩
          cases r with
          | none => exact attempt_wp (hq₁.snoc rfl)
          | some secondary =>
              have hq₂ := hq₁.snoc (rfl : ended ⟨.secondary ranked id, some secondary⟩ = none)
              refine ⟨hq₂, fun r hr => ?_⟩
              cases r with
              | dropped => exact abandon_wp [id, secondary]
              | first outcome =>
                  refine wp_mono (handOver_wp (.of_snoc hq₂ rfl) (hr id outcome rfl)) fun tr' result h => ?_
                  exact h.mono fun i hi => List.mem_cons.mpr (.inl (List.mem_singleton.mp hi))
              | second outcome =>
                  refine wp_mono (handOver_wp (.of_snoc hq₂ rfl) (hr secondary outcome rfl))
                    fun tr' result h => ?_
                  exact h.mono fun i hi => List.mem_cons_of_mem _ hi

theorem hedged_wp {hedge : Bool} {ranked : List NodeId} (hq : Unrefused tr) :
    wp (routeSpec T) (hedged hedge ranked)
      (fun tr' result => ∀ e, Refused tr' e → result = .error (fromStore e)) tr := by
  unfold hedged
  refine wp_then hq fun r _ => ?_
  cases r with
  | none => exact fun e he => absurd ((refused_snoc_of_none rfl).mp he) (hq e)
  | some primary =>
      have hq₀ := hq.snoc (rfl : ended ⟨.primary ranked, some primary⟩ = none)
      refine wp_seq (firstResult_wp hq₀) fun tr₁ result h₁ => ?_
      rcases result with (_ | _ | _ | _ | _ | _) | t
      case error.io =>
        obtain ⟨hq₁, hmissed⟩ := h₁.missed rfl
        refine ⟨⟨hq₁, .inr (hmissed primary (List.mem_singleton_self primary))⟩, fun r _ => ?_⟩
        cases r with
        | none => exact fun e he => absurd ((refused_snoc_of_none rfl).mp he) (hq₁ e)
        | some failover => exact wp_mono (attempt_wp (hq₁.snoc rfl)) fun _ _ h => h.bears
      all_goals exact h₁.bears

theorem Routed.start_wp (task : Routed) : wp (routeSpec T) task.start
    (fun tr _ => ∃ before result, tr = before ++ [⟨.returned result, ()⟩]) [] := by
  have hq : Unrefused ([] : List (Done (RouteOp T) (RouteResp T))) := by
    rintro e ⟨d, hd, -⟩
    cases hd
  refine wp_seq (hedged_wp hq) fun tr result h => ⟨h, fun _ _ => ⟨tr, result, rfl⟩⟩

end Nestor.Client
