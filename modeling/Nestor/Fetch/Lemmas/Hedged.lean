import Nestor.Engine.Fetch

/-!
# The requests of a hedged GET

Which requests `get_hedged` sends, and which of them are answered with an error that may be retried.
-/

namespace Nestor

open Lib

/-- The request that an operation sends. -/
def sentBy : Done Op Resp → Option GetRequest
  | ⟨.sendGet _ _ _, request⟩ => some request
  | ⟨.hedge _, request⟩ => request
  | _ => none

/-- The request that is answered with an error that may be retried. -/
def spurnedBy : Done Op Resp → Option GetRequest
  | ⟨.awaitGet requests _ _, .ready (.answered i (.error e))⟩ => if e.isRetryable then requests[i]? else none
  | _ => none

def sent (tr : Trace) : List GetRequest := tr.filterMap sentBy

def spurned (tr : Trace) : List GetRequest := tr.filterMap spurnedBy

/-- What is answered is one of the requests awaited, and the hedge delay passes only where one is
awaited. -/
def AnswersAwaited : (o : Op) → Resp o → Prop
  | .awaitGet requests _ _, .ready (.answered i _) => i < requests.length
  | .awaitGet _ hedge _, .ready .stalled => hedge = true
  | _, _ => True

/-- A request is sent first of all, and at most one beside it. -/
def getSpec : Spec Op Resp Trace where
  guar := fun tr o => match o with
    | .sendGet _ _ _ => sent tr = []
    | .hedge _ => (sent tr).length ≤ 1
    | _ => True
  rely := fun _ o r => AnswersAwaited o r
  next := fun tr o r => tr ++ [⟨o, r⟩]

/-- An error that may be retried is returned only if all the requests sent were answered with
one. -/
def SpurnedAll (tr : Trace) (out : Awaited (Except OriginError GetResponse)) : Prop :=
  ∀ e, out = .ready (.error e) → e.isRetryable = true → (spurned tr).Perm (sent tr)

variable {tr : Trace} {d : Done Op Resp} {ctx : ReadCtx} {options : GetOptions} {deadline : Nat}

theorem sent_concat : sent (tr ++ [d]) = sent tr ++ (sentBy d).toList := by
  rw [sent, List.filterMap_append, ← sent]
  cases h : sentBy d <;> simp [h]

theorem spurned_concat : spurned (tr ++ [d]) = spurned tr ++ (spurnedBy d).toList := by
  rw [spurned, List.filterMap_append, ← spurned]
  cases h : spurnedBy d <;> simp [h]

theorem spurnedBy_answered {requests : List GetRequest} {hedge : Bool} {deadline i : Nat} {e : OriginError}
    (he : e.isRetryable = true) :
    spurnedBy ⟨.awaitGet requests hedge deadline, .ready (.answered i (.error e))⟩ = requests[i]? := if_pos he

theorem awaitLast_spurned {request : GetRequest} (h : (spurned tr ++ [request]).Perm (sent tr)) :
    wp getSpec (awaitLast request deadline) (fun tr' out => SpurnedAll tr' out) tr := by
  refine wp_then trivial fun r hr => ?_
  rcases r with (⟨i, result⟩ | _) | _ | _
  · rintro e ⟨⟩ he
    obtain rfl : i = 0 := Nat.lt_one_iff.mp hr
    change (spurned (tr ++ [_])).Perm (sent (tr ++ [_]))
    rw [spurned_concat, sent_concat, spurnedBy_answered he]
    exact h.trans (.of_eq (List.append_nil _).symm)
  · exact ⟨trivial, nofun⟩
  · exact nofun
  · exact nofun

theorem awaitBoth_spurned {primary secondary : GetRequest} (hs : sent tr = [primary, secondary])
    (hf : spurned tr = []) :
    wp getSpec (awaitBoth primary secondary deadline) (fun tr' out => SpurnedAll tr' out) tr := by
  refine wp_then trivial fun r hr => ?_
  rcases r with (⟨i, e | response⟩ | _) | _ | _
  · dsimp only
    split
    case isTrue he =>
      refine awaitLast_spurned ?_
      change (spurned (tr ++ [_]) ++ _).Perm (sent (tr ++ [_]))
      rw [spurned_concat, sent_concat, spurnedBy_answered he, hs, hf]
      have hi : i = 0 ∨ i = 1 := by
        have hlt : i < 2 := hr
        omega
      rcases hi with rfl | rfl
      · exact List.Perm.refl _
      · exact List.Perm.swap ..
    case isFalse he =>
      rintro _ ⟨⟩ he'
      exact absurd he' he
  · exact nofun
  · exact ⟨trivial, nofun⟩
  · exact nofun
  · exact nofun

theorem getHedged_spurned :
    wp getSpec (getHedged ctx options deadline) (fun tr' out => SpurnedAll tr' out) [] := by
  refine wp_then rfl fun primary _ => wp_then trivial fun r hr => ?_
  rcases r with (⟨i, result⟩ | _) | _ | _
  · rintro e ⟨⟩ he
    obtain rfl : i = 0 := Nat.lt_one_iff.mp hr
    change (spurned ([_] ++ [_])).Perm [primary]
    rw [spurned_concat, spurnedBy_answered he]
    exact List.Perm.refl _
  · refine wp_then (Nat.le_refl 1) fun second _ => ?_
    cases second with
    | none => exact awaitLast_spurned (List.Perm.refl _)
    | some secondary => exact awaitBoth_spurned rfl rfl
  · exact nofun
  · exact nofun

theorem sent_concat_length {o : Op} {r : Resp o} (h : getSpec.guar tr o) (hlen : (sent tr).length ≤ 2) :
    (sent (tr ++ [⟨o, r⟩])).length ≤ 2 := by
  have hmore := Option.length_toList_le (o := sentBy ⟨o, r⟩)
  rw [sent_concat, List.length_append]
  cases o with
  | sendGet ns object options =>
      have hnone : sent tr = [] := h
      rw [hnone, List.length_nil]
      omega
  | hedge primary =>
      have hone : (sent tr).length ≤ 1 := h
      omega
  | _ => exact hlen

theorem sent_length_le (h : getSpec.Kept [] tr) : (sent tr).length ≤ 2 := by
  have hlen := h.invariant (fun _ _ _ hlen hguar => sent_concat_length hguar hlen) (Nat.zero_le 2)
  rwa [Spec.ghost_trace (fun _ _ _ => rfl)] at hlen

/-! ## A GET comes to an end -/

theorem awaitLast_ends (request : GetRequest) :
    (awaitLast request deadline).Ends AnswersAwaited fun _ => True := by
  refine ⟨⟨.timeout, trivial⟩, fun r hr => ?_⟩
  rcases r with (⟨i, result⟩ | _) | _ | _
  · trivial
  · exact absurd hr Bool.false_ne_true
  · trivial
  · trivial

theorem awaitBoth_ends (primary secondary : GetRequest) :
    (awaitBoth primary secondary deadline).Ends AnswersAwaited fun _ => True := by
  refine .step ⟨.timeout, trivial⟩ fun r hr => ?_
  rcases r with (⟨i, e | response⟩ | _) | _ | _
  · dsimp only
    split
    · exact awaitLast_ends _
    · trivial
  · trivial
  · exact absurd hr Bool.false_ne_true
  · trivial
  · trivial

theorem getHedged_ends : (getHedged ctx options deadline).Ends AnswersAwaited fun _ => True := by
  refine ⟨⟨⟨[], [], options, 0⟩, trivial⟩, fun primary _ => ⟨⟨.timeout, trivial⟩, fun r _ => ?_⟩⟩
  rcases r with (⟨i, result⟩ | _) | _ | _
  · trivial
  · refine ⟨⟨none, trivial⟩, fun second _ => ?_⟩
    cases second with
    | none => exact awaitLast_ends primary
    | some secondary => exact awaitBoth_ends primary secondary
  · trivial
  · trivial

end Nestor
