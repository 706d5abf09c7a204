import Nestor.Client.Lemmas.Hedged

/-!
# The attempts of a routed request

Which attempts a request starts, and which of them end with an I/O error. Every load that a request
takes is for an attempt, so that an attempt starts with the operation that takes it.
-/

namespace Nestor.Client

open Lib Store

variable {T : Type}

abbrev RouteTrace (T : Type) := List (Done (RouteOp T) (RouteResp T))

/-- The node of the attempt that an operation starts. -/
def begun : Done (RouteOp T) (RouteResp T) → Option NodeId
  | ⟨.primary _, id⟩ | ⟨.secondary _ _, id⟩ => id
  | _ => none

/-- What the attempt returns. -/
def Outcome.result : Outcome T → Except OriginError T
  | .unbuilt => .error .io
  | .done (.ok t) => .ok t
  | .done (.error e) => .error (fromStore e)

/-- The attempt, where it has ended with an I/O error. -/
def lost (id : NodeId) : Except OriginError T → Option NodeId
  | .error .io => some id
  | _ => none

def lostWith (d : Done (RouteOp T) (RouteResp T)) : Option NodeId :=
  (ended d).bind fun (id, outcome) => lost id outcome.result

/-- The attempts started, by their nodes. -/
def started (tr : RouteTrace T) : List NodeId := tr.filterMap begun

/-- The attempts that have ended with an I/O error. -/
def failed (tr : RouteTrace T) : List NodeId := tr.filterMap lostWith

/-- An attempt on the node has ended with the result. -/
def Gave (tr : RouteTrace T) (id : NodeId) (result : Except OriginError T) : Prop :=
  ∃ d ∈ tr, ∃ outcome, ended d = some (id, outcome) ∧ outcome.result = result

theorem lost_of_ne {id : NodeId} {result : Except OriginError T} (h : result ≠ .error .io) :
    lost id result = none := by
  rcases result with (_ | _ | _ | _ | _ | _) | t
  case error.io => exact absurd rfl h
  all_goals rfl

/-! ## Programs -/

/-- A request has at most two attempts behind it when it asks for another node, and the other is not
the first one. -/
def hedgeSpec (T : Type) : Spec (RouteOp T) (RouteResp T) (RouteTrace T) where
  guar := fun tr o => match o with
    | .primary _ => started tr = []
    | .secondary _ _ => (started tr).length ≤ 2
    | _ => True
  rely := fun _ o r => match o, r with
    | .secondary _ first, id => id ≠ some first
    | _, _ => True
  next := fun tr o r => tr ++ [⟨o, r⟩]

/-- The trace has grown by operations that start and lose these attempts. -/
structure Adds (tr tr' : RouteTrace T) (new gone : List NodeId) : Prop where
  grows : tr <+: tr'
  started : started tr' = started tr ++ new
  failed : failed tr' = failed tr ++ gone

variable {tr tr' tr'' : RouteTrace T} {new gone new' gone' : List NodeId} {id other : NodeId}
  {result : Except OriginError T} {outcome : Outcome T}

theorem Adds.trans (h : Adds tr tr' new gone) (h' : Adds tr' tr'' new' gone') :
    Adds tr tr'' (new ++ new') (gone ++ gone') where
  grows := h.grows.trans h'.grows
  started := by rw [h'.started, h.started, List.append_assoc]
  failed := by rw [h'.failed, h.failed, List.append_assoc]

theorem Adds.congr (h : Adds tr tr' new gone) (hn : new = new') (hg : gone = gone') :
    Adds tr tr' new' gone' :=
  hn ▸ hg ▸ h

theorem Adds.one (tr : RouteTrace T) (d : Done (RouteOp T) (RouteResp T)) :
    Adds tr (tr ++ [d]) (begun d).toList (lostWith d).toList := by
  refine ⟨List.prefix_append _ _, ?_, ?_⟩
  · unfold Client.started
    rw [List.filterMap_append, List.filterMap_cons]
    cases begun d <;> rfl
  · unfold Client.failed
    rw [List.filterMap_append, List.filterMap_cons]
    cases lostWith d <;> rfl

theorem Gave.of_isPrefix (h : Gave tr id result) (hp : tr <+: tr') : Gave tr' id result := by
  obtain ⟨d, hd, h⟩ := h
  exact ⟨d, hp.subset hd, h⟩

theorem Gave.last {d : Done (RouteOp T) (RouteResp T)} (h : ended d = some (id, outcome)) :
    Gave (tr ++ [d]) id outcome.result :=
  ⟨d, List.mem_append_right _ (List.mem_singleton_self d), outcome, h, rfl⟩

theorem abandon_attempts {α : Type} {Q : RouteTrace T → α → Prop} (ids : List NodeId) :
    wp (hedgeSpec T) (abandon ids) Q tr := by
  induction ids generalizing tr with
  | nil => exact ⟨trivial, nofun⟩
  | cons id ids ih => exact ⟨trivial, fun _ _ => ih⟩

theorem settle_attempts (id : NodeId) (outcome : Outcome T) :
    wp (hedgeSpec T) (settle id outcome) (fun tr' result => result = outcome.result ∧ Adds tr tr' [] [])
      tr := by
  cases outcome with
  | unbuilt => exact ⟨trivial, fun _ _ => ⟨rfl, .one _ _⟩⟩
  | done result =>
      cases result with
      | ok t => exact ⟨trivial, fun _ _ => ⟨trivial, fun _ _ => ⟨rfl, (Adds.one _ _).trans (.one _ _)⟩⟩⟩
      | error e =>
          by_cases hio : fromStore e = .io
          · rw [settle, if_pos hio]
            refine ⟨trivial, fun _ _ => ⟨trivial, fun _ _ => ⟨?_, (Adds.one _ _).trans (.one _ _)⟩⟩⟩
            rw [Outcome.result, hio]
          · rw [settle, if_neg hio]
            exact ⟨trivial, fun _ _ => ⟨rfl, .one _ _⟩⟩

theorem attempt_attempts (id : NodeId) : wp (hedgeSpec T) (attempt id)
    (fun tr' result => Adds tr tr' [] (lost id result).toList ∧ Gave tr' id result) tr := by
  refine ⟨trivial, fun r _ => ?_⟩
  cases r with
  | none => exact abandon_attempts [id]
  | some outcome =>
      refine wp_mono (settle_attempts id outcome) fun tr' result h => ?_
      obtain ⟨rfl, hadds⟩ := h
      refine ⟨(Adds.one tr ⟨.finish id, some outcome⟩).trans hadds |>.congr rfl (List.append_nil _), ?_⟩
      exact (Gave.last rfl).of_isPrefix hadds.grows

/-- An attempt that runs beside another one has ended. It is the result, or it is lost and the other
one goes on. -/
theorem handOver_attempts (id other : NodeId) (outcome : Outcome T) :
    wp (hedgeSpec T) (handOver id other outcome) (fun tr' result =>
      (result ≠ .error .io ∧ result = outcome.result ∧ Adds tr tr' [] []) ∨
      (outcome.result = .error .io ∧ Adds tr tr' [] (lost other result).toList ∧ Gave tr' other result))
        tr := by
  unfold handOver
  refine wp_seq (settle_attempts id outcome) fun tr₁ result h₁ => ?_
  obtain ⟨hresult, hadds⟩ := h₁
  have hkeep : result ≠ .error .io → wp (hedgeSpec T) (do route (.release other); pure result)
      (fun tr' result => (result ≠ .error .io ∧ result = outcome.result ∧ Adds tr tr' [] []) ∨
      (outcome.result = .error .io ∧ Adds tr tr' [] (lost other result).toList ∧
      Gave tr' other result)) tr₁ :=
    fun hne => ⟨trivial, fun _ _ => .inl ⟨hne, hresult, hadds.trans (.one _ _)⟩⟩
  rcases result with (_ | _ | _ | _ | _ | _) | t
  case error.io =>
    refine wp_mono (attempt_attempts other) fun tr₂ result h₂ => .inr ⟨hresult.symm, hadds.trans h₂.1, h₂.2⟩
  all_goals exact hkeep nofun

/-- What has come of the first attempt and the one beside it, if there is one. -/
structure First (tr : RouteTrace T) (primary : NodeId) (result : Except OriginError T) : Prop where
  few : (started tr).length ≤ 2
  /-- Where the result is an I/O error, all of them are lost. -/
  all : result = .error .io → (failed tr).Perm (started tr)
  /-- Where the first one is lost and that is not the result, another one has given it. -/
  other : result ≠ .error .io → primary ∈ failed tr → ∃ other ∈ started tr, other ≠ primary ∧
    Gave tr other result
  head : (started tr).head? = some primary

theorem First.alone {primary : NodeId} (hs : started tr = [primary]) (hf : failed tr = [])
    (h : Adds tr tr' [] (lost primary result).toList) : First tr' primary result := by
  have hstarted : started tr' = [primary] := by rw [h.started, hs, List.append_nil]
  have hfailed : failed tr' = (lost primary result).toList := by rw [h.failed, hf, List.nil_append]
  refine ⟨hstarted ▸ Nat.le_succ 1, fun hio => ?_, fun hne hin => ?_, hstarted ▸ rfl⟩
  · rw [hfailed, hstarted, hio]
    exact List.Perm.refl _
  · rw [hfailed, lost_of_ne hne] at hin
    cases hin

/-- Two attempts at once, of which `id` ends first. -/
theorem First.both {primary : NodeId} {d : Done (RouteOp T) (RouteResp T)}
    (hs : (started tr).Perm [id, other]) (hf : failed tr = []) (hne : other ≠ id)
    (hp : (started tr).head? = some primary) (hb : begun d = none) (hd : ended d = some (id, outcome))
    (h : (result ≠ .error .io ∧ result = outcome.result ∧ Adds (tr ++ [d]) tr' [] []) ∨
      (outcome.result = .error .io ∧ Adds (tr ++ [d]) tr' [] (lost other result).toList ∧
        Gave tr' other result)) :
    First tr' primary result := by
  have hlost : lostWith d = lost id outcome.result := by rw [lostWith, hd, Option.bind_some]
  have hone := Adds.one tr d
  rw [hb, hlost] at hone
  rcases h with ⟨hio, rfl, h⟩ | ⟨hio, h, hgave⟩
  · have hadds := hone.trans h
    rw [lost_of_ne hio] at hadds
    have hstarted : started tr' = started tr := hadds.started.trans (List.append_nil _)
    have hfailed : failed tr' = [] := by rw [hadds.failed, hf]; rfl
    refine ⟨hstarted ▸ hs.length_eq.le, fun h => absurd h hio, fun _ hin => ?_, hstarted ▸ hp⟩
    rw [hfailed] at hin
    cases hin
  · have hadds := hone.trans h
    rw [hio] at hadds
    have hstarted : started tr' = started tr := hadds.started.trans (List.append_nil _)
    have hfailed : failed tr' = id :: (lost other result).toList := by rw [hadds.failed, hf]; rfl
    refine ⟨hstarted ▸ hs.length_eq.le, fun h => ?_, fun h hin => ?_, hstarted ▸ hp⟩
    · rw [hfailed, h, hstarted]
      exact hs.symm
    · rw [hfailed, lost_of_ne h] at hin
      obtain rfl := List.mem_singleton.mp hin
      exact ⟨other, hstarted ▸ hs.mem_iff.mpr (by simp), hne, hgave⟩

theorem firstResult_attempts {hedge : Bool} {ranked : List NodeId} {primary : NodeId}
    (hs : started tr = [primary]) (hf : failed tr = []) :
    wp (hedgeSpec T) (firstResult hedge ranked primary) (fun tr' result => First tr' primary result) tr := by
  cases hedge with
  | false => exact wp_mono (attempt_attempts primary) fun _ _ h => .alone hs hf h.1
  | true =>
      refine ⟨trivial, fun r _ => ?_⟩
      cases r with
      | finished outcome =>
          refine wp_mono (settle_attempts primary outcome) fun tr' result h => .alone hs hf ?_
          obtain ⟨rfl, h⟩ := h
          exact ((Adds.one tr ⟨.finishOrDelay primary, .finished outcome⟩).trans h).congr rfl
            (List.append_nil _)
      | dropped => exact abandon_attempts [primary]
      | delayed =>
          have h₁ := Adds.one tr ⟨.finishOrDelay primary, .delayed⟩
          have hs₁ := h₁.started.trans ((List.append_nil _).trans hs)
          have hf₁ := h₁.failed.trans ((List.append_nil _).trans hf)
          have hfew : (started (tr ++ [⟨.finishOrDelay primary, .delayed⟩])).length ≤ 2 := hs₁ ▸ Nat.le_succ 1
          refine ⟨hfew, fun r hne => ?_⟩
          have h₂ := Adds.one (tr ++ [⟨.finishOrDelay primary, .delayed⟩]) ⟨.secondary ranked primary, r⟩
          have hf₂ := h₂.failed.trans ((List.append_nil _).trans hf₁)
          have hs₂ := h₂.started
          rw [hs₁] at hs₂
          cases r with
          | none => exact wp_mono (attempt_attempts primary) fun _ _ h => .alone hs₂ hf₂ h.1
          | some secondary =>
              have hne : secondary ≠ primary := fun he => hne (he ▸ rfl)
              refine ⟨trivial, fun r _ => ?_⟩
              cases r with
              | dropped => exact abandon_attempts [primary, secondary]
              | first outcome =>
                  refine wp_mono (handOver_attempts primary secondary outcome) fun tr' result h => ?_
                  exact .both (.of_eq hs₂) hf₂ hne (hs₂ ▸ rfl) rfl rfl h
              | second outcome =>
                  refine wp_mono (handOver_attempts secondary primary outcome) fun tr' result h => ?_
                  exact .both ((List.Perm.of_eq hs₂).trans (.swap ..)) hf₂ hne.symm (hs₂ ▸ rfl) rfl rfl h

/-- After the first attempt is lost another one has given the result, or the request has asked for
another node. -/
def GoesOn (ranked : List NodeId) (tr : RouteTrace T) (result : Except OriginError T) : Prop :=
  ∀ primary, (started tr).head? = some primary → primary ∈ failed tr →
    (result ≠ .error .io ∧ ∃ other ∈ started tr, other ≠ primary ∧ Gave tr other result) ∨
      ∃ before r after, tr = before ++ ⟨.secondary ranked primary, r⟩ :: after ∧ primary ∈ failed before

theorem GoesOn.of_asked {ranked : List NodeId} {primary : NodeId} {r : Option NodeId}
    (hhead : (started tr).head? = some primary) (hlost : primary ∈ failed tr)
    (hp : tr ++ [⟨.secondary ranked primary, r⟩] <+: tr') : GoesOn ranked tr' result := by
  obtain ⟨after, rfl⟩ := hp
  intro first hfirst _
  obtain ⟨rest, hstarted⟩ := List.head?_eq_some_iff.mp hhead
  have hsame : primary = first := by
    rw [List.append_assoc, started, List.filterMap_append, ← started, hstarted] at hfirst
    exact Option.some.inj hfirst
  subst hsame
  exact .inr ⟨tr, r, after, List.append_assoc .., hlost⟩

theorem hedged_attempts (hedge : Bool) (ranked : List NodeId) :
    wp (hedgeSpec T) (hedged hedge ranked)
      (fun tr result => (result = .error .io → (failed tr).Perm (started tr)) ∧ GoesOn ranked tr result)
      [] := by
  unfold hedged
  refine wp_then rfl fun r _ => ?_
  cases r with
  | none => exact ⟨fun _ => List.Perm.refl _, nofun⟩
  | some primary =>
      refine wp_seq (firstResult_attempts rfl rfl) fun tr₁ result h₁ => ?_
      have hkeep : result ≠ .error .io → wp (hedgeSpec T) (pure result)
          (fun tr result => (result = .error .io → (failed tr).Perm (started tr)) ∧
          GoesOn ranked tr result) tr₁ := by
        refine fun hne => ⟨fun hio => absurd hio hne, fun first hfirst hlost => .inl ⟨hne, ?_⟩⟩
        obtain rfl := Option.some.inj (h₁.head.symm.trans hfirst)
        exact h₁.other hne hlost
      rcases result with (_ | _ | _ | _ | _ | _) | t
      case error.io =>
        refine ⟨h₁.few, fun r _ => ?_⟩
        have hall := h₁.all rfl
        have hlost : primary ∈ failed tr₁ := hall.mem_iff.mpr (List.mem_of_mem_head? h₁.head)
        have h₂ := Adds.one tr₁ ⟨.secondary ranked primary, r⟩
        cases r with
        | none =>
            refine ⟨fun _ => ?_, .of_asked h₁.head hlost (List.prefix_refl _)⟩
            exact (h₂.failed.trans (List.append_nil _)) ▸ (h₂.started.trans (List.append_nil _)) ▸ hall
        | some failover =>
            refine wp_mono (attempt_attempts failover) fun tr₃ result h₃ => ⟨fun hio => ?_, ?_⟩
            · have hadds := h₂.trans h₃.1
              rw [hadds.failed, hadds.started, hio]
              exact hall.append_right [failover]
            · exact .of_asked h₁.head hlost h₃.1.grows
      all_goals exact hkeep nofun

theorem started_concat_length {o : RouteOp T} {r : RouteResp T o} (h : (hedgeSpec T).guar tr o)
    (hlen : (started tr).length ≤ 3) : (started (tr ++ [⟨o, r⟩])).length ≤ 3 := by
  have hone := (Adds.one tr ⟨o, r⟩).started
  have hmore := Option.length_toList_le (o := begun ⟨o, r⟩)
  rw [hone, List.length_append]
  cases o with
  | primary ranked =>
      have hnone : started tr = [] := h
      rw [hnone, List.length_nil]
      omega
  | secondary ranked first =>
      have hfew : (started tr).length ≤ 2 := h
      omega
  | _ => exact hlen

theorem started_length_le (h : (hedgeSpec T).Kept [] tr) : (started tr).length ≤ 3 := by
  have hlen := h.invariant (fun _ _ _ hlen hguar => started_concat_length hguar hlen) (Nat.zero_le 3)
  rwa [Spec.ghost_trace (fun _ _ _ => rfl)] at hlen

/-! ## A request comes to an end -/

/-- The future of the request is not dropped. -/
def Undropped : (o : RouteOp T) → RouteResp T o → Prop
  | .finish _, none | .finishOrDelay _, .dropped | .race _ _, .dropped => False
  | _, _ => True

theorem settle_ends (id : NodeId) (outcome : Outcome T) :
    (settle id outcome).Ends Undropped fun _ => True := by
  cases outcome with
  | unbuilt => exact ⟨⟨(), trivial⟩, fun _ _ => trivial⟩
  | done result =>
      cases result with
      | ok t => exact ⟨⟨(), trivial⟩, fun _ _ => ⟨⟨(), trivial⟩, fun _ _ => trivial⟩⟩
      | error e =>
          by_cases hio : fromStore e = .io
          · rw [settle, if_pos hio]
            exact ⟨⟨(), trivial⟩, fun _ _ => ⟨⟨(), trivial⟩, fun _ _ => trivial⟩⟩
          · rw [settle, if_neg hio]
            exact ⟨⟨(), trivial⟩, fun _ _ => trivial⟩

theorem attempt_ends (id : NodeId) : (attempt id : RouteProgram T _).Ends Undropped fun _ => True := by
  refine ⟨⟨some .unbuilt, trivial⟩, fun r hr => ?_⟩
  cases r with
  | none => exact hr.elim
  | some outcome => exact settle_ends id outcome

theorem handOver_ends (id other : NodeId) (outcome : Outcome T) :
    (handOver id other outcome).Ends Undropped fun _ => True := by
  refine (settle_ends id outcome).bind fun result _ => ?_
  rcases result with (_ | _ | _ | _ | _ | _) | t
  case error.io => exact attempt_ends other
  all_goals exact ⟨⟨(), trivial⟩, fun _ _ => trivial⟩

theorem firstResult_ends (hedge : Bool) (ranked : List NodeId) (primary : NodeId) :
    (firstResult hedge ranked primary : RouteProgram T _).Ends Undropped fun _ => True := by
  cases hedge with
  | false => exact attempt_ends primary
  | true =>
      refine ⟨⟨.delayed, trivial⟩, fun r hr => ?_⟩
      cases r with
      | finished outcome => exact settle_ends primary outcome
      | dropped => exact hr.elim
      | delayed =>
          refine ⟨⟨none, trivial⟩, fun r _ => ?_⟩
          cases r with
          | none => exact attempt_ends primary
          | some secondary =>
              refine ⟨⟨.first .unbuilt, trivial⟩, fun r hr => ?_⟩
              cases r with
              | dropped => exact hr.elim
              | first outcome => exact handOver_ends primary secondary outcome
              | second outcome => exact handOver_ends secondary primary outcome

theorem hedged_ends (hedge : Bool) (ranked : List NodeId) :
    (hedged hedge ranked : RouteProgram T _).Ends Undropped fun _ => True := by
  refine ⟨⟨none, trivial⟩, fun r _ => ?_⟩
  cases r with
  | none => trivial
  | some primary =>
      refine (firstResult_ends hedge ranked primary).bind fun result _ => ?_
      rcases result with (_ | _ | _ | _ | _ | _) | t
      case error.io =>
        refine ⟨⟨none, trivial⟩, fun r _ => ?_⟩
        cases r with
        | none => trivial
        | some failover => exact attempt_ends failover
      all_goals trivial

end Nestor.Client
