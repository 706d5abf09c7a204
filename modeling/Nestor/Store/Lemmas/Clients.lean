import Nestor.Engine.Lemmas.Undisturbed
import Nestor.Store.Lemmas.Account

/-!
# What a step of a client does

The answers of `inner` with the changes behind them, and the calls of the engine a request makes.
-/

namespace Nestor.Store

open Lib

/-! ## Changes -/

section

variable {s : Shared} {ns object : Bytes} {changes : List Change}

theorem change_frame (ns : Bytes) (s : Shared) (changes : List Change) :
    (change ns s changes).metas = s.metas ∧ (change ns s changes).registry = s.registry := by
  induction changes generalizing s with
  | nil => exact ⟨rfl, rfl⟩
  | cons p changes ih => exact ih (s.setVersion ns p.1 p.2)

theorem history_change_of_ne (h : ∀ p ∈ changes, p.1 ≠ object) :
    (change ns s changes).history ns object = s.history ns object := by
  induction changes generalizing s with
  | nil => rfl
  | cons p changes ih =>
      obtain ⟨hne, h⟩ := List.forall_mem_cons.mp h
      refine (ih h).trans ?_
      obtain ⟨-, heq, -⟩ | heq := s.history_setVersion ns p.1 ns object p.2
      · exact absurd heq.symm hne
      · exact heq

theorem suffix_change (ns object : Bytes) (s : Shared) (changes : List Change) :
    s.history ns object <:+ (change ns s changes).history ns object := by
  induction changes generalizing s with
  | nil => exact List.suffix_rfl
  | cons p changes ih => exact (s.suffix_setVersion ns p.1 ns object p.2).trans (ih (s.setVersion ns p.1 p.2))

theorem head_change_singleton (v : Option Version) :
    ((change ns s [(object, v)]).history ns object).head? = some v := by
  obtain ⟨-, -, heq⟩ | heq := s.history_setVersion ns object ns object v
  · simp [change, heq]
  · simp [change, Shared.setVersion]

end

/-! ## Answers -/

section

variable {s : Shared} {ns : Bytes} {o : StoreOp} {x : StoreChoice} {r : StoreResp o} {changes : List Change}
  {a : Account}

/-- How an answer with the changes behind it goes into the account: what is changed is stale, and
was the request's to change. -/
structure Booked (a : Account) (o : StoreOp) (r : StoreResp o) (changes : List Change) : Prop where
  stale : (a.after o r).stale = changes.map (·.1) ++ a.stale
  running : (a.after o r).running = a.running
  wrote : ∀ l v, (a.after o r).wrote = some (l, v) → changes = [(l, some v)] ∨ changes = [] ∧
    a.wrote = some (l, v)
  rely : Account.rely o r
  touches : ∀ touches, a.Settles touches o → a.running = none ∧ ∀ p ∈ changes, p.1 ∈ touches
  /-- A request returns with nothing stale. -/
  last : (a.after o r).done = a.done ∨ changes = [] ∧ ∀ touches, a.Settles touches o → a.stale = []

theorem Booked.unchanged (hafter : a.after o r = a) (hrely : Account.rely o r)
    (hs : ∀ touches, a.Settles touches o → a.running = none) : Booked a o r [] := by
  refine ⟨?_, ?_, fun l v hw => .inr ⟨rfl, ?_⟩, hrely, fun touches h => ⟨hs touches h, List.forall_mem_nil _⟩,
    .inl ?_⟩
  · rw [hafter]; rfl
  · rw [hafter]
  · rwa [hafter] at hw
  · rw [hafter]

theorem Booked.changed {wrote : Option (Bytes × Version)}
    (hafter : a.after o r = { a with stale := changes.map (·.1) ++ a.stale, wrote := wrote })
    (hrely : Account.rely o r) (hw : wrote = none ∨ ∃ l v, wrote = some (l, v) ∧ changes = [(l, some v)])
    (hs : ∀ touches, a.Settles touches o → a.running = none ∧ ∀ p ∈ changes, p.1 ∈ touches) :
    Booked a o r changes := by
  refine ⟨?_, ?_, fun l v hv => ?_, hrely, hs, .inl ?_⟩
  · rw [hafter]
  · rw [hafter]
  · rw [hafter] at hv
    obtain rfl | ⟨l', v', rfl, hchanges⟩ := hw
    · cases hv
    · cases hv
      exact .inl hchanges
  · rw [hafter]

theorem inner_booked (h : inner s ns o x = some (r, changes)) (a : Account) : Booked a o r changes := by
  cases o
  case put location payload =>
    rcases x with _ | ⟨e | result, data⟩ | _ | _ <;> cases h
    · exact .unchanged rfl trivial fun _ hs => hs.1
    · exact .changed rfl trivial (.inr ⟨_, _, rfl, rfl⟩)
        fun _ hs => ⟨hs.1, List.forall_mem_singleton.mpr hs.2⟩
  case complete location =>
    rcases x with _ | ⟨e | result, data⟩ | _ | _ <;> cases h
    · exact .unchanged rfl trivial fun _ hs => hs.1
    · exact .changed rfl trivial (.inl rfl) fun _ hs => ⟨hs.1, List.forall_mem_singleton.mpr hs.2⟩
  case copy source target =>
    rcases x with _ | _ | (e | etag) | _
    case copied.ok =>
      obtain ⟨v, -, heq⟩ := Option.map_eq_some_iff.mp h
      cases heq
      exact .changed rfl trivial (.inl rfl) fun _ hs => ⟨hs.1, List.forall_mem_singleton.mpr hs.2⟩
    all_goals cases h
    exact .unchanged rfl trivial fun _ hs => hs.1
  case rename source target =>
    rcases x with _ | _ | (e | etag) | _
    case copied.ok =>
      obtain ⟨v, -, heq⟩ := Option.map_eq_some_iff.mp h
      cases heq
      refine .changed rfl trivial (.inl rfl) fun _ hs => ⟨hs.1, List.forall_mem_cons.mpr ⟨hs.2.1, ?_⟩⟩
      exact List.forall_mem_singleton.mpr hs.2.2
    all_goals cases h
    exact .unchanged rfl trivial fun _ hs => hs.1
  case deleted locations =>
    rcases x with _ | _ | _ | (_ | e | path)
    case deleted.some.ok =>
      simp only [inner, Option.ite_none_right_eq_some] at h
      obtain ⟨hany, heq⟩ := h
      cases heq
      have hmem : .ok path ∈ locations := by
        obtain ⟨location, hmem, heq⟩ := List.any_eq_true.mp hany
        cases location with
        | error e => cases heq
        | ok location => exact beq_iff_eq.mp heq ▸ hmem
      exact .changed rfl hmem (.inl rfl) fun _ hs => ⟨hs.1, List.forall_mem_singleton.mpr (hs.2 path hmem)⟩
    all_goals cases h
    all_goals exact .unchanged rfl trivial fun _ hs => hs.1
  case item result =>
    cases x <;> cases h
    refine .unchanged rfl trivial fun _ hs => ?_
    cases result with
    | ok path => exact hs.1
    | error e => exact hs
  case returned =>
    cases x <;> cases h
    exact ⟨rfl, rfl, fun l v hw => .inr ⟨rfl, hw⟩, trivial, fun _ hs => ⟨hs.1, List.forall_mem_nil _⟩,
      .inr ⟨rfl, fun _ hs => hs.2⟩⟩
  case call => cases x <;> cases h
  case join => cases x <;> cases h

end

/-! ## The calls of the engine -/

section

variable [TagHash] {fuel : Nat} {ns : NamespaceState} {object : Bytes}

/-- What a step of a request does to the world. -/
def Moves (fuel : Nat) (store : NestorStore) (w : World) (x : StoreChoice) :
    (o : StoreOp) → StoreResp o → World → Prop
  | .call c, j, w' => j = w.threads.length ∧ World.step fuel w (.call store.ns.id c) = some w'
  | .join j, _, w' => w' = w ∧ ∃ th, w.threads[j]? = some th ∧ th.ended = true
  | o, r, w' => ∃ changes, inner w.shared store.ns.name o x = some (r, changes) ∧
      w' = ⟨change store.ns.name w.shared changes, w.threads⟩

theorem respond_spec {store : NestorStore} {w w' : World} {o : StoreOp} {x : StoreChoice} {r : StoreResp o}
    {ts : List Request} (h : respond fuel store w o x = some (r, w', ts)) :
    ts = [] ∧ Moves fuel store w x o r w' := by
  have hinner {o : StoreOp} {r : StoreResp o} (h : (inner w.shared store.ns.name o x).map (fun p =>
      (p.1, (⟨change store.ns.name w.shared p.2, w.threads⟩ : World), ([] : List Request))) =
        some (r, w', ts)) :
      ts = [] ∧ ∃ changes, inner w.shared store.ns.name o x = some (r, changes) ∧
        w' = ⟨change store.ns.name w.shared changes, w.threads⟩ := by
    obtain ⟨⟨r', changes⟩, hr, heq⟩ := Option.map_eq_some_iff.mp h
    cases heq
    exact ⟨rfl, changes, hr, rfl⟩
  cases o
  case call c =>
    cases x with
    | go =>
        obtain ⟨w₁, hw, heq⟩ := Option.map_eq_some_iff.mp h
        cases heq
        exact ⟨rfl, rfl, hw⟩
    | _ => cases h
  case join j =>
    cases x with
    | go =>
        simp only [respond, Option.ite_none_right_eq_some] at h
        obtain ⟨hany, heq⟩ := h
        cases heq
        exact ⟨rfl, rfl, (Option.any_eq_true _ _).mp hany⟩
    | _ => cases h
  all_goals exact hinner h

def IsOwn : Call → Prop
  | .invalidate _ | .insert _ _ _ => True
  | _ => False

omit [TagHash] in
theorem insertBlocks_starts_nothing {bs : BlockSize} {key : ObjectKey} {tag : Nat} {m : ObjectMeta}
    {data : Bytes} (indexes : List Nat) : (insertBlocks bs key tag m data indexes).Only (·.tasks = []) := by
  induction indexes with
  | nil => trivial
  | cons index indexes ih => exact .step rfl fun _ => ih

theorem program_invalidate (hetag : ns.config.consistency.isImmutable = false) (object : Bytes) :
    program fuel (.invalidate ns object) =
      (do
        perform (.readaheadForget ⟨ns.id, object⟩)
        perform (.metaRemove ⟨ns.id, object⟩)
        perform .returned) := by
  simp only [program, Nestor.invalidate, hetag, Bool.false_eq_true, if_false]
  rfl

theorem invalidate_only (fuel : Nat) (hetag : ns.config.consistency.isImmutable = false) (object : Bytes) :
    (program fuel (.invalidate ns object)).Only fun o => o.tasks = [] ∧ ∀ key m, o ≠ .metaPut key m := by
  rw [program_invalidate hetag]
  refine .step ⟨rfl, by simp⟩ fun _ => .step ⟨rfl, by simp⟩ fun _ => ?_
  exact ⟨⟨rfl, by simp⟩, fun _ => trivial⟩

theorem own_starts_nothing (hetag : ns.config.consistency.isImmutable = false) {c : Call} (hc : IsOwn c) :
    (program fuel (c.task ns)).Only (·.tasks = []) := by
  cases c with
  | invalidate object => exact (invalidate_only fuel hetag object).mono fun _ h => h.1
  | insert object etag data =>
      refine .bind (.step rfl fun _ => (insertBlocks_starts_nothing _).bind fun _ => ⟨rfl, fun _ => trivial⟩)
        fun _ => ?_
      exact ⟨rfl, fun _ => trivial⟩
  | _ => cases hc

theorem removed_of_ended (fuel : Nat) (hetag : ns.config.consistency.isImmutable = false) {tr : Trace}
    {u : Unit} (h : Runs (program fuel (.invalidate ns object)) tr (.pure u)) :
    (⟨.metaRemove ⟨ns.id, object⟩, ()⟩ : Done Op Resp) ∈ tr := by
  rw [program_invalidate hetag] at h
  cases h with
  | cons h =>
      cases h with
      | cons h => exact List.mem_cons_of_mem _ List.mem_cons_self

end

end Nestor.Store
