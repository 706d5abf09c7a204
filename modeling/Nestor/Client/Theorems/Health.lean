import Nestor.Client.Lemmas.Hedged
import Nestor.Client.Lemmas.Router
import Nestor.Client.Theorems.Membership
import Nestor.Core.Key

/-!
# Node health

In every run in which the nodes answer with no other errors than 404, 412 and 304, a node is marked
down, and a request sent to another node, only after an attempt that got no answer. With any other
error a node that has answered is marked down, and its answer thrown away.
-/

namespace Nestor.Client

open Lib Store

section

variable {Addr : Type} {T : Type}

/-! ## One operation -/

theorem downUntil_update (heap : Heap Addr) (id : NodeId) (node : Node Addr)
    (h : node.downUntilNanos = (heap id).downUntilNanos) (other : NodeId) :
    (Function.update heap id node other).downUntilNanos = (heap other).downUntilNanos := by
  by_cases he : other = id
  · subst he
    rw [Function.update_self, h]
  · rw [Function.update_of_ne he]

theorem Pool.take_down {p : Pool Addr} {load : Option (NodeId × Heap Addr)}
    (h : ∀ id heap, load = some (id, heap) → heap = Function.update p.heap id (p.heap id).acquire)
    (id : NodeId) :
    ((p.take load).heap id).downUntilNanos = (p.heap id).downUntilNanos := by
  cases load with
  | none => rfl
  | some load =>
      obtain ⟨taken, heap⟩ := load
      rw [Pool.take, h taken heap rfl]
      exact downUntil_update p.heap taken (p.heap taken).acquire rfl id

variable [LinearOrder Addr]

/-- The outcome the environment chooses for an attempt is plain. -/
def RouteChoice.Plain : RouteChoice T → Prop
  | .finished outcome | .second outcome => outcome.Plain
  | _ => True

/-- No operation starts another request, and an attempt ends as the environment chooses. -/
theorem Routing.respond_plain {s s' : Routing Addr} {o : RouteOp T} {x : RouteChoice T} {r : RouteResp T o}
    {ts : List Routed} (h : s.respond o x = some (r, s', ts)) (hx : x.Plain) :
    ts = [] ∧ ∀ id outcome, ended ⟨o, r⟩ = some (id, outcome) → outcome.Plain := by
  cases o <;> cases x <;> cases h
  all_goals refine ⟨rfl, fun _ _ hended => ?_⟩
  all_goals cases hended <;> exact hx

/-- Only marking a node down moves the end of its down window. -/
theorem Routing.respond_down {s s' : Routing Addr} {o : RouteOp T} {x : RouteChoice T} {r : RouteResp T o}
    {ts : List Routed} (h : s.respond o x = some (r, s', ts)) {id : NodeId}
    (hid : (s'.cluster.heap id).downUntilNanos ≠ (s.cluster.heap id).downUntilNanos) : o = .markDown id := by
  cases o with
  | primary ranked =>
      cases x <;> cases h
      exact absurd (Pool.take_down (p := s.pool) (fun _ _ hl => (Ranked.primary_eq_some hl).2) id) hid
  | secondary ranked first =>
      cases x <;> cases h
      exact absurd (Pool.take_down (p := s.pool) (fun _ _ hl => (Ranked.secondary_eq_some hl).2.2.2.2) id) hid
  | markDown node =>
      cases x <;> cases h
      by_contra hne
      have hother : id ≠ node := fun he => hne (he ▸ rfl)
      exact hid (congrArg Node.downUntilNanos (Function.update_of_ne hother ..))
  | release node =>
      cases x <;> cases h
      have hsame : (Function.update s.cluster.heap node (s.cluster.heap node).release id).downUntilNanos =
          (s.cluster.heap id).downUntilNanos :=
        downUntil_update s.cluster.heap node (s.cluster.heap node).release rfl id
      exact absurd hsame hid
  | _ => cases x <;> cases h <;> exact absurd rfl hid

/-! ## Runs -/

namespace RouteWorld

/-- Every error with which a node answers in this step is a 404, 412 or 304. -/
def Plain : RouteEvent Addr T → Prop
  | .run _ choice => choice.Plain
  | _ => True

def outline (Addr T : Type) [LinearOrder Addr] :
    Outline (routeSystem : System (Routing Addr) Routed (RouteChoice T) (RouteOp T) (RouteResp T))
      (List (Done (RouteOp T) (RouteResp T))) where
  spec := routeSpec T
  init := fun _ => []
  post := fun _ tr => ∃ before result, tr = before ++ [⟨.returned result, ()⟩]
  inv := fun _ => True
  view := fun _ _ => True
  apart := fun _ _ => True

theorem trace_plain {w : RouteWorld Addr T} (h : (outline Addr T).Sound w)
    {th : Thread Routed (RouteOp T) (RouteResp T)} (hth : th ∈ w.threads)
    {before after : List (Done (RouteOp T) (RouteResp T))} {o : RouteOp T} {r : RouteResp T o}
    (htr : th.trace = before ++ ⟨o, r⟩ :: after) : routeGuar before o := by
  have hkept : (routeSpec T).Kept [] th.trace := (h.threads th hth).kept
  rw [htr] at hkept
  have hguar := ((routeSpec T).kept_append.mp hkept).2.1
  rwa [routeSpec_ghost] at hguar

/-- After an error that is an answer there is nothing left to do but to return it. -/
theorem only_returns {tr : List (Done (RouteOp T) (RouteResp T))} {o : RouteOp T} (r : RouteResp T o)
    {e : StoreError} (h : routeGuar tr o) (he : Refused tr e) :
    (∃ other, o = .release other) ∨ o = .returned (.error (fromStore e)) := by
  cases o with
  | release other => exact .inl ⟨other, rfl⟩
  | returned result => exact .inr (congrArg RouteOp.returned (h e he))
  | hang => exact r.elim
  | markDown id => exact absurd he (h.1 e)
  | secondary ranked first => exact absurd he (h.1 e)
  | _ => exact absurd he (h e)

variable [RouteHash Addr]

theorem sound_step {w w' : RouteWorld Addr T} {e : RouteEvent Addr T} (h : (outline Addr T).Sound w)
    (he : Plain e) (hs : w.step e = some w') : (outline Addr T).Sound w' := by
  cases e with
  | tick nanos =>
      cases hs
      exact h.env trivial fun _ _ => trivial
  | apply addrs =>
      cases hs
      exact h.env trivial fun _ _ => trivial
  | request object block =>
      cases hs
      exact h.spawn ⟨Routed.start_wp _, trivial⟩ fun _ _ => ⟨trivial, trivial⟩
  | run i choice =>
      refine h.resume hs fun th o k r s ts _ _ _ hresp _ _ => ?_
      obtain ⟨rfl, hrely⟩ := Routing.respond_plain hresp he
      exact ⟨trivial, hrely, trivial, fun _ _ _ => trivial, fun _ _ _ => ⟨trivial, trivial⟩, nofun,
        nofun, .nil⟩

/-- In every run in which each error that a node answers with is a 404, 412 or 304: a node's down
window changes only when a request's last attempt was on it and got no answer; a request asks for
another node only to hedge, or after an attempt on its primary that got no answer; and after an
attempt that was answered with an error a request only drops its loads and returns that error. -/
theorem down_only_unanswered (w₀ w : RouteWorld Addr T) (es : List (RouteEvent Addr T)) (h₀ : w₀.threads = [])
    (hrun : Run step (fun _ e => Plain e) w₀ es w) :
    (∀ e w', w.step e = some w' → ∀ id < w.shared.cluster.fresh,
      (w'.shared.cluster.heap id).downUntilNanos ≠ (w.shared.cluster.heap id).downUntilNanos →
      ∃ th ∈ w.threads, ∃ before d err, th.trace = before ++ [d] ∧ ended d = some (id, .done (.error err)) ∧
        err.answered = false) ∧
    ∀ th ∈ w.threads,
      (∀ before after ranked primary r, th.trace = before ++ ⟨.secondary ranked primary, r⟩ :: after →
        (∃ start, before = start ++ [⟨.finishOrDelay primary, .delayed⟩]) ∨
          ∃ d ∈ before, ∃ outcome, ended d = some (primary, outcome) ∧ outcome.Unanswered) ∧
      ∀ before after d id err, th.trace = before ++ d :: after → ended d = some (id, .done (.error err)) →
        err.answered = true →
        (∀ o r, ⟨o, r⟩ ∈ after → (∃ other, o = .release other) ∨ o = .returned (.error (fromStore err))) ∧
        (th.prog = pure () → ⟨.returned (.error (fromStore err)), ()⟩ ∈ after) := by
  have hstart : (outline Addr T).Sound w₀ := by
    refine ⟨trivial, fun th hth => ?_, ?_⟩
    · rw [h₀] at hth
      cases hth
    · rw [h₀]
      exact .nil
  have hsound : (outline Addr T).Sound w := hrun.invariant (fun _ _ _ h he hs => sound_step h he hs) hstart
  refine ⟨fun e w' hs id hid hdown => ?_, fun th hth => ⟨fun before after ranked primary r htr => ?_, ?_⟩⟩
  · cases e with
    | tick nanos =>
        cases hs
        exact absurd rfl hdown
    | apply addrs =>
        cases hs
        exact absurd (congrArg Node.downUntilNanos (Cluster.apply_same _ _ addrs hid)) hdown
    | request object block =>
        cases hs
        exact absurd rfl hdown
    | run i choice =>
        obtain ⟨t, o, k, tr, r, s, ts, ht, hresp, rfl⟩ := System.resume_cases hs
        obtain rfl := Routing.respond_down hresp hdown
        have hmem := List.mem_of_getElem? ht
        obtain ⟨-, before, d, err, htr, hd⟩ := ((hsound.threads _ hmem).wp).1
        refine ⟨_, hmem, before, d, err, ?_, hd⟩
        rwa [Outline.at_, outline, routeSpec_ghost] at htr
  · exact (trace_plain hsound hth htr).2
  · intro before after d id err htr hd ha
    have hreturns : ∀ o r, ⟨o, r⟩ ∈ after → (∃ other, o = .release other) ∨
        o = .returned (.error (fromStore err)) := by
      intro o r hin
      obtain ⟨between, rest, rfl⟩ := List.append_of_mem hin
      rw [← List.cons_append, ← List.append_assoc] at htr
      exact only_returns r (trace_plain hsound hth htr) ⟨d, by simp, id, hd, ha⟩
    refine ⟨hreturns, fun hend => ?_⟩
    have hpost := (hsound.threads th hth).wp
    rw [hend] at hpost
    obtain ⟨start, result, hlast⟩ := hpost
    rw [Outline.at_, outline, routeSpec_ghost, List.nil_append, htr] at hlast
    -- the attempt is not the last operation, the return is
    rcases List.eq_nil_or_concat after with rfl | ⟨init, last, rfl⟩
    · obtain ⟨rfl⟩ := List.singleton_inj.mp (List.append_inj' hlast rfl).2
      cases hd
    · rw [List.concat_eq_append, ← List.cons_append, ← List.append_assoc] at hlast
      obtain rfl := List.singleton_inj.mp (List.append_inj' hlast rfl).2
      rcases hreturns (.returned result) () (by simp) with ⟨other, ho⟩ | ho
      · cases ho
      · cases ho
        simp

end RouteWorld

end

section

open RouteSample

namespace RouteWorld

/-- A request for the first block of an object, all of whose attempts end as `outcome` says. -/
def routeEvents (outcome : Outcome GetResponse) (rest : Nat) : List (RouteEvent Nat GetResponse) :=
  [.request 0 0, .run 0 .go, .run 0 (.finished outcome)] ++ List.replicate rest (.run 0 .go)

def sampleWorld : RouteWorld Nat GetResponse := ⟨⟨sampleCluster, 0, []⟩, []⟩

/-- Every attempt of the request was answered with an error. -/
def allRefused (th : Thread Routed (RouteOp GetResponse) (RouteResp GetResponse)) : Bool :=
  th.trace.all fun d => match ended d with
    | some (_, .done (.error e)) => e.answered
    | some _ => false
    | none => true

theorem refused_of_all {th : Thread Routed (RouteOp GetResponse) (RouteResp GetResponse)}
    (h : allRefused th = true) :
    ∀ d ∈ th.trace, ∀ id outcome, ended d = some (id, outcome) → ∃ e, outcome = .done (.error e) ∧
    e.answered = true := by
  intro d hd id outcome he
  have hall := List.all_eq_true.mp h d hd
  rw [he] at hall
  rcases outcome with _ | e | t
  · cases hall
  · exact ⟨e, rfl, hall⟩
  · cases hall

/-- Where a request has been sent on to. -/
def sentOn (th : Thread Routed (RouteOp GetResponse) (RouteResp GetResponse)) : List NodeId :=
  th.trace.filterMap fun
    | ⟨.secondary _ _, some id⟩ => some id
    | _ => none

/-- A read of an empty object: the owner answers that the range cannot be satisfied. It is marked
down, and the request is sent on to another node. -/
theorem down_though_answered : ∃ (es : List (RouteEvent Nat GetResponse)) (w : RouteWorld Nat GetResponse),
    Run step (fun _ _ => True) sampleWorld es w ∧
    (∀ th ∈ w.threads, ∀ d ∈ th.trace, ∀ id outcome, ended d = some (id, outcome) →
      ∃ e, outcome = .done (.error e) ∧ e.answered = true) ∧
    (w.shared.cluster.heap 1).isUp w.shared.now = false ∧ w.threads.map sentOn = [[0]] := by
  have hend : (runEvents step sampleWorld (routeEvents (.done (.error (.generic (some 416)))) 3)).any
      (fun w => w.threads.all allRefused && !(w.shared.cluster.heap 1).isUp w.shared.now &&
        decide (w.threads.map sentOn = [[0]])) = true := by decide
  obtain ⟨w, hw, hend⟩ := (Option.any_eq_true _ _).mp hend
  simp only [Bool.and_eq_true, Bool.not_eq_true', decide_eq_true_eq] at hend
  obtain ⟨⟨hall, hdown⟩, hsent⟩ := hend
  refine ⟨_, w, .of_events hw fun _ _ _ => trivial, fun th hth => ?_, hdown, hsent⟩
  exact refused_of_all (List.all_eq_true.mp hall th hth)

/-- A read of an object that is not there. -/
theorem down_only_unanswered_missing : ∃ w : RouteWorld Nat GetResponse,
    Run step (fun _ e => Plain e) sampleWorld (routeEvents (.done (.error .notFound)) 2) w ∧
    ∀ th ∈ w.threads, ∀ before after d id err, th.trace = before ++ d :: after →
      ended d = some (id, .done (.error err)) → err.answered = true →
      (∀ o r, ⟨o, r⟩ ∈ after → (∃ other, o = .release other) ∨ o = .returned (.error (fromStore err))) ∧
      (th.prog = pure () → ⟨.returned (.error (fromStore err)), ()⟩ ∈ after) := by
  obtain ⟨w, hw⟩ : ∃ w, runEvents step sampleWorld (routeEvents (.done (.error .notFound)) 2) = some w :=
    ⟨_, rfl⟩
  have hplain : ∀ e ∈ routeEvents (.done (.error .notFound)) 2, Plain e := by
    simp only [routeEvents, List.replicate, List.cons_append, List.nil_append, List.forall_mem_cons]
    refine ⟨trivial, trivial, ?_, trivial, trivial, by simp⟩
    rintro _ ⟨⟩ _
    decide
  have hrun : Run step (fun _ e => Plain e) sampleWorld _ w := .of_events hw fun _ e he => hplain e he
  exact ⟨w, hrun, fun th hth => ((down_only_unanswered sampleWorld w _ rfl hrun).2 th hth).2⟩

end RouteWorld

end

end Nestor.Client
