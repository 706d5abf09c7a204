import Nestor.Store.Store

/-!
# What a request settles

`Account` keeps account of one request: the locations `inner` has changed and that are not
invalidated since, the call of the engine it waits for and the version it has put. Every program
returns only after it has invalidated all that was changed, and inserts only what it has put and
invalidated.
-/

namespace Nestor.Store

open Lib

theorem payloadBytes_eq (payload : List Bytes) : payloadBytes payload = payload.flatten := by
  rcases payload with _ | ⟨first, _ | ⟨second, chunks⟩⟩
  · rfl
  · simp [payloadBytes]
  · have hfold : chunks.foldl (· ++ ·) (first ++ second) = first ++ second ++ (chunks.map id).flatten :=
      List.foldl_append_eq_append
    simp [payloadBytes, hfold]

/-- The locations a request may change. -/
def Request.touches : Request → List Bytes
  | .putOpts location _ | .complete location => [location]
  | .copyOpts _ target => [target]
  | .renameOpts source target => [source, target]
  | .deleteStream locations => locations.filterMap fun
      | .ok location => some location
      | .error _ => none

structure Account where
  stale : List Bytes
  running : Option (Nat × Call)
  wrote : Option (Bytes × Version)
  done : Bool

namespace Account

def start : Account := ⟨[], none, none, false⟩

def returned (a : Account) : Account :=
  match a.running with
  | some (_, .invalidate location) => { a with running := none, stale := a.stale.filter (· ≠ location) }
  | _ => { a with running := none }

/-- What was stale is so no more only if it was invalidated. -/
theorem returned_spec (a : Account) : a.returned.running = none ∧ a.returned.wrote = a.wrote ∧
    a.returned.done = a.done ∧ ∀ location ∈ a.stale, location ∉ a.returned.stale → ∃ i, a.running =
      some (i, .invalidate location) := by
  unfold returned
  split
  · rename_i i location' hrunning
    refine ⟨rfl, rfl, rfl, fun location hin hout => ⟨i, ?_⟩⟩
    obtain rfl : location = location' := by
      by_contra hne
      exact hout (List.mem_filter.mpr ⟨hin, decide_eq_true hne⟩)
    exact hrunning
  · exact ⟨rfl, rfl, rfl, fun location hin hout => absurd hin hout⟩

def after (a : Account) : (o : StoreOp) → StoreResp o → Account
  | .put location payload, .ok r =>
      { a with stale := location :: a.stale, wrote := some (location, ⟨payload.flatten, r.eTag⟩) }
  | .complete location, .ok _ => { a with stale := location :: a.stale, wrote := none }
  | .copy _ target, .ok _ => { a with stale := target :: a.stale, wrote := none }
  | .rename source target, .ok _ => { a with stale := source :: target :: a.stale, wrote := none }
  | .deleted _, some (.ok path) => { a with stale := path :: a.stale, wrote := none }
  | .call c, i => { a with running := some (i, c) }
  | .join _, _ => a.returned
  | .returned _, _ => { a with done := true }
  | _, _ => a

/-- The call is one of those the store makes: an object it may have changed is invalidated, and what
it has put is inserted once the object is invalidated. -/
def Calls (touches : List Bytes) (a : Account) : Call → Prop
  | .invalidate location => location ∈ touches
  | .insert location etag data =>
      location ∈ touches ∧ a.wrote = some (location, ⟨data, etag⟩) ∧ location ∉ a.stale
  | _ => False

def Settles (touches : List Bytes) (a : Account) : StoreOp → Prop
  | .put location _ | .complete location => a.running = none ∧ location ∈ touches
  | .copy _ target => a.running = none ∧ target ∈ touches
  | .rename source target => a.running = none ∧ source ∈ touches ∧ target ∈ touches
  | .deleted locations => a.running = none ∧ ∀ location, .ok location ∈ locations → location ∈ touches
  | .call c => a.running = none ∧ a.Calls touches c
  | .join i => ∃ c, a.running = some (i, c)
  | .item (.ok path) => a.running = none ∧ path ∉ a.stale
  | .item (.error _) => a.running = none
  | .returned _ => a.running = none ∧ a.stale = []

/-- The stream of `inner` is about the locations it was given. -/
def rely : (o : StoreOp) → StoreResp o → Prop
  | .deleted locations, some (.ok path) => .ok path ∈ locations
  | _, _ => True

def spec (touches : List Bytes) : Spec StoreOp StoreResp Account where
  guar a o := a.done = false ∧ a.Settles touches o
  rely := fun _ => rely
  next := after

/-- The request is between two calls, and all it has changed is invalidated. -/
structure Idle (a : Account) : Prop where
  stale : a.stale = []
  running : a.running = none
  done : a.done = false

variable {touches : List Bytes} {a : Account} {location : Bytes}

theorem invalidate_wp (ht : location ∈ touches) (hr : a.running = none) (hd : a.done = false) :
    wp (spec touches) (NestorStore.invalidate location)
      (fun a' _ => a' = { a with stale := a.stale.filter (· ≠ location) }) a := by
  refine wp_then ⟨hd, hr, ht⟩ fun i _ => wp_call.mpr ⟨⟨hd, _, rfl⟩, fun _ _ => ?_⟩
  simp [spec, after, returned, hr]

theorem returned_wp {result : Except StoreError (Option PutResult)} (h : a.Idle) :
    wp (spec touches) (ask (.returned result)) (fun a' _ => a'.done = true) a :=
  wp_call.mpr ⟨⟨h.done, h.running, h.stale⟩, fun _ _ => rfl⟩

theorem populate_wp {store : NestorStore} {payload : List Bytes} {result : PutResult} (h : a.Idle)
    (ht : location ∈ touches) (hw : a.wrote = some (location, ⟨payload.flatten, result.eTag⟩)) :
    wp (spec touches) (store.populate location payload result) (fun a' _ => a'.Idle) a := by
  unfold NestorStore.populate
  split
  · refine wp_then ⟨h.done, h.running, ht, ?_, ?_⟩ fun i _ => wp_call.mpr ⟨⟨h.done, _, rfl⟩, fun _ _ => ?_⟩
    · rw [payloadBytes_eq]
      exact hw
    · simp [h.stale]
    · exact ⟨h.stale, rfl, h.done⟩
  · exact h

theorem settle_wp {p : StoreProgram Unit} (ht : location ∈ touches) (hs : a.stale = [location])
    (hr : a.running = none) (hd : a.done = false)
    (h : wp (spec touches) p (fun a' _ => a'.done = true) { a with stale := [] }) :
    wp (spec touches) (do NestorStore.invalidate location; p) (fun a' _ => a'.done = true) a := by
  refine wp_seq (invalidate_wp ht hr hd) fun a' _ ha' => ?_
  have hnil : a' = { a with stale := [] } := by simp [ha', hs]
  rwa [hnil]

theorem deleteItems_wp {locations : List (Except StoreError Bytes)}
    (ht : ∀ l, .ok l ∈ locations → l ∈ touches) (left : Nat) (h : a.Idle) :
    wp (spec touches) (NestorStore.deleteItems locations left) (fun a' _ => a'.Idle) a := by
  induction left generalizing a with
  | zero => exact h
  | succ left ih =>
      refine wp_then ⟨h.done, h.running, ht⟩ fun item hitem => ?_
      rcases item with _ | e | path
      · exact h
      · exact wp_then ⟨h.done, h.running⟩ fun _ _ => ih h
      · refine wp_seq (invalidate_wp (ht path hitem) h.running h.done) fun a' _ ha' => ?_
        have hidle : a'.Idle := by
          subst ha'
          exact ⟨by simp [spec, after, h.stale], h.running, h.done⟩
        exact wp_then ⟨hidle.done, hidle.running, by simp [hidle.stale]⟩ fun _ _ => ih hidle

theorem program_wp (store : NestorStore) (r : Request) :
    wp (spec r.touches) (store.program r) (fun a _ => a.done = true) .start := by
  have hidle : start.Idle := ⟨rfl, rfl, rfl⟩
  cases r with
  | putOpts location payload =>
      have ht : location ∈ (Request.putOpts location payload).touches := List.mem_singleton_self _
      refine wp_then ⟨rfl, rfl, ht⟩ fun answer _ => ?_
      cases answer with
      | error e => exact returned_wp hidle
      | ok result =>
          refine settle_wp ht rfl rfl rfl (wp_seq (populate_wp ⟨rfl, rfl, rfl⟩ ht rfl) fun a _ ha => ?_)
          exact returned_wp ha
  | complete location =>
      have ht : location ∈ (Request.complete location).touches := List.mem_singleton_self _
      refine wp_then ⟨rfl, rfl, ht⟩ fun answer _ => ?_
      cases answer with
      | error e => exact returned_wp hidle
      | ok result => exact settle_wp ht rfl rfl rfl (returned_wp ⟨rfl, rfl, rfl⟩)
  | copyOpts source target =>
      have ht : target ∈ (Request.copyOpts source target).touches := List.mem_singleton_self _
      refine wp_then ⟨rfl, rfl, ht⟩ fun answer _ => ?_
      cases answer with
      | error e => exact returned_wp hidle
      | ok result => exact settle_wp ht rfl rfl rfl (returned_wp ⟨rfl, rfl, rfl⟩)
  | renameOpts source target =>
      have hs : source ∈ (Request.renameOpts source target).touches := List.mem_cons_self
      have ht : target ∈ (Request.renameOpts source target).touches :=
        List.mem_cons_of_mem _ List.mem_cons_self
      refine wp_then ⟨rfl, rfl, hs, ht⟩ fun answer _ => ?_
      cases answer with
      | error e => exact returned_wp hidle
      | ok result =>
          refine wp_seq (invalidate_wp hs rfl rfl) fun a₁ _ h₁ => wp_seq (invalidate_wp ht ?_ ?_)
            fun a₂ _ h₂ => ?_
          · rw [h₁]; rfl
          · rw [h₁]; rfl
          · subst h₂ h₁
            refine returned_wp ⟨?_, rfl, rfl⟩
            simp only [spec, after, start, List.filter_filter]
            refine List.filter_eq_nil_iff.mpr fun l hl => ?_
            simp only [List.mem_cons, List.not_mem_nil, or_false] at hl
            rcases hl with rfl | rfl <;> simp
  | deleteStream locations =>
      have ht (l : Bytes) (hl : .ok l ∈ locations) : l ∈ (Request.deleteStream locations).touches :=
        List.mem_filterMap.mpr ⟨.ok l, hl, rfl⟩
      exact wp_seq (deleteItems_wp ht locations.length hidle) fun a _ ha => returned_wp ha

end Account

end Nestor.Store
