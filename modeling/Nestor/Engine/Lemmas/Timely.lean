import Nestor.Engine.Duty
import Nestor.Engine.Lemmas.World

/-!
# Timely answers

As long as an object keeps its current version and the engine has recorded no other, the cache and
the origin tell a task of no other version.
-/

namespace Nestor

open Lib

variable {m : ObjectMeta} {tr : Trace}

/-- The metadata names the current version of the history, the latest first. -/
def IsCurrent (hist : List (Option Version)) (m : ObjectMeta) : Prop :=
  ∃ v, hist.head? = some (some v) ∧ v.Names m

section

variable (ns : NamespaceState) (object : Bytes) (hist : List (Option Version))

/-- The request was sent when the object had seen that many versions. -/
def LateGet (n : Nat) (req : GetRequest) : Prop :=
  req.namespace = ns.name ∧ req.object = object ∧ n ≤ req.since

def LateHead (n : Nat) (req : HeadRequest) : Prop :=
  req.namespace = ns.name ∧ req.object = object ∧ n ≤ req.since

/-- The answer to a request that was sent since the object has the history. -/
def Fresh (requests : List GetRequest) (i : Nat) : Except OriginError GetResponse → Prop
  | .ok r => IsCurrent hist r.meta
  | .error .notModified => ∃ req v, requests[i]? = some req ∧ hist.head? = some (some v) ∧
      v.etag = req.options.ifNoneMatch ∧ v.etag.isSome
  | .error _ => True

/-- The answer is one of the time when the object has the history and no other version is
recorded. -/
def Timely : (o : Op) → Resp o → Prop
  | .metaLookup key _, .fresh m | .metaLookup key _, .stale m => key = ⟨ns.id, object⟩ → IsCurrent hist m
  | .sendGet origin name _, req => origin = ns.name ∧ name = object → LateGet ns object hist.length req
  | .hedge primary, some req => LateGet ns object hist.length primary → LateGet ns object hist.length req
  | .sendHead origin name, req => origin = ns.name ∧ name = object → LateHead ns object hist.length req
  | .awaitGet requests _ _, .ready (.answered i result) =>
      (∀ req ∈ requests, LateGet ns object hist.length req) → Fresh hist requests i result
  | .awaitHead req _, .ready (.ok m) => LateHead ns object hist.length req → IsCurrent hist m
  | _, _ => True

/-- The object has the history, and what is recorded is its current version. -/
structure Shared.Still (s : Shared) : Prop where
  history : s.history ns.name object = hist
  metas : ∀ entry, s.metas ⟨ns.id, object⟩ = some entry → IsCurrent hist entry.meta

/-- A task has asked for the object only since it has the history, and has been told of no version
but the current one. -/
structure Held.Late (g : Held) : Prop where
  gets : ∀ req ∈ g.gets, LateGet ns object hist.length req
  heads : ∀ req ∈ g.heads, LateHead ns object hist.length req
  told : ∀ m ∈ g.told, IsCurrent hist m

end

section

variable {ns : NamespaceState} {object : Bytes} {hist : List (Option Version)} {s : Shared}
  {o : Op} {r : Resp o}

theorem Shared.Still.lookupMeta (h : s.Still ns object hist) {ttl : Option Nat}
    (hm : s.lookupMeta ⟨ns.id, object⟩ ttl = .fresh m ∨ s.lookupMeta ⟨ns.id, object⟩ ttl = .stale m) :
    IsCurrent hist m := by
  obtain ⟨entry, hentry, rfl⟩ := Shared.entry_of_lookupMeta hm
  exact h.metas entry hentry

theorem Shared.Still.head_of_currentSince (h : s.Still ns object hist) {since : Nat} {v : Version}
    (hn : hist.length ≤ since) (hv : some v ∈ s.currentSince ns.name object since) :
    hist.head? = some (some v) := by
  rw [Shared.currentSince, h.history, Nat.sub_eq_zero_of_le hn, List.take_one] at hv
  exact Option.mem_toList.mp hv

theorem Shared.Still.fresh (h : s.Still ns object hist) {req : GetRequest} {v : Option Version}
    {requests : List GetRequest} {i : Nat} {result : Except OriginError GetResponse}
    (hreq : requests[i]? = some req) (hlate : LateGet ns object hist.length req)
    (hans : s.answers req v result = true) : Fresh hist requests i result := by
  obtain ⟨hns, hobject, hsince⟩ := hlate
  rcases result with e | response
  · cases e
    case notModified =>
      cases v with
      | none => cases hans
      | some v =>
          simp only [Shared.answers, Option.any_some, Bool.and_eq_true, decide_eq_true_eq, beq_iff_eq] at hans
          obtain ⟨⟨hcurrent, hsome⟩, heq⟩ := hans
          exact ⟨req, v, hreq, h.head_of_currentSince hsince (hns ▸ hobject ▸ hcurrent), heq.symm,
            heq ▸ hsome⟩
    all_goals trivial
  · cases v with
    | none => cases hans
    | some v =>
        simp only [Shared.answers, Option.any_some, Bool.and_eq_true, decide_eq_true_eq] at hans
        exact ⟨v, h.head_of_currentSince hsince (hns ▸ hobject ▸ hans.1.1.1), hans.1.1.2.1⟩

theorem Shared.Still.timely (h : s.Still ns object hist) (ha : s.Answers o r) :
    Timely ns object hist o r := by
  have hlen : hist.length = (s.history ns.name object).length := by rw [h.history]
  cases o
  case metaLookup key ttl =>
    cases r with
    | fresh m =>
        rintro rfl
        exact h.lookupMeta (.inl ha.symm)
    | stale m =>
        rintro rfl
        exact h.lookupMeta (.inr ha.symm)
    | missing => trivial
  case sendGet origin name options =>
    rintro ⟨rfl, rfl⟩
    obtain rfl : r = _ := ha
    exact ⟨rfl, rfl, hlen.le⟩
  case hedge primary =>
    cases r with
    | none => trivial
    | some req =>
        rintro ⟨hns, hobject, -⟩
        obtain rfl : req = _ := ha
        refine ⟨hns, hobject, ?_⟩
        rw [hns, hobject]
        exact hlen.le
  case sendHead origin name =>
    rintro ⟨rfl, rfl⟩
    obtain rfl : r = _ := ha
    exact ⟨rfl, rfl, hlen.le⟩
  case awaitGet requests hedge deadline =>
    rcases r with (⟨i, result⟩ | _) | _ | _
    case ready.answered =>
      intro hlate
      obtain ⟨req, v, hreq, hans⟩ := ha
      exact h.fresh hreq (hlate req (List.mem_of_getElem? hreq)) hans
    all_goals trivial
  case awaitHead req deadline =>
    rcases r with (e | m) | _ | _
    case ready.ok =>
      rintro ⟨hns, hobject, hsince⟩
      obtain ⟨v, hans⟩ := ha
      cases v with
      | none => cases hans
      | some v =>
          simp only [Shared.describes, Option.any_some, Bool.and_eq_true, decide_eq_true_eq] at hans
          exact ⟨v, h.head_of_currentSince hsince (hns ▸ hobject ▸ hans.1), hans.2⟩
    all_goals trivial
  all_goals trivial

variable [TagHash] {T : Terms} {g : Held}

theorem Held.Late.after (h : g.Late ns object hist) (hguar : T.guar g o)
    (hasks : o.About (.of ns object)) (hlate : Timely ns object hist o r) :
    (g.after o r).Late ns object hist := by
  have hquiet : g.quiet.Late ns object hist := ⟨List.forall_mem_nil _, List.forall_mem_nil _, h.told⟩
  cases o
  case metaLookup key ttl =>
    cases r with
    | fresh m => exact { hquiet with told := List.forall_mem_cons.mpr ⟨hlate hasks, h.told⟩ }
    | stale m => exact { hquiet with told := List.forall_mem_cons.mpr ⟨hlate hasks, h.told⟩ }
    | missing => exact { hquiet with }
  case sendGet origin name options =>
    exact { hquiet with gets := List.forall_mem_singleton.mpr (hlate hasks) }
  case hedge primary =>
    have hprimary := h.gets primary hguar
    cases r with
    | none => exact { hquiet with gets := List.forall_mem_singleton.mpr hprimary }
    | some req =>
        exact { hquiet with gets := List.forall_mem_cons.mpr ⟨hprimary,
          List.forall_mem_singleton.mpr (hlate hprimary)⟩ }
  case sendHead origin name =>
    exact { hquiet with heads := List.forall_mem_singleton.mpr (hlate hasks) }
  case awaitGet requests hedge deadline =>
    have hrequests : ∀ req ∈ requests, LateGet ns object hist.length req :=
      fun req hreq => h.gets req (hguar req hreq)
    rcases r with (⟨i, e | response⟩ | _) | _ | _
    case ready.answered.ok => exact { hquiet with told := List.forall_mem_cons.mpr ⟨hlate hrequests, h.told⟩ }
    all_goals exact { hquiet with gets := hrequests }
  case awaitHead req deadline =>
    rcases r with (e | m) | _ | _
    case ready.ok =>
      exact { hquiet with told := List.forall_mem_cons.mpr ⟨hlate (h.heads req hguar), h.told⟩ }
    all_goals exact { hquiet with }
  case register key => cases r <;> exact { hquiet with }
  case publish slot result => cases result <;> exact { hquiet with }
  all_goals exact { hquiet with }

theorem Held.Late.ghost (h : g.Late ns object hist) (hkept : T.spec.Kept g tr)
    (hasks : ∀ d ∈ tr, d.1.About (.of ns object)) (hlate : ∀ d ∈ tr, Timely ns object hist d.1 d.2) :
    (T.spec.ghost g tr).Late ns object hist := by
  induction tr generalizing g with
  | nil => exact h
  | cons d tr ih =>
      obtain ⟨hasked, hasks⟩ := List.forall_mem_cons.mp hasks
      obtain ⟨hanswer, hlate⟩ := List.forall_mem_cons.mp hlate
      exact ih (h.after hkept.1 hasked hanswer) hkept.2 hasks hlate

end

end Nestor
