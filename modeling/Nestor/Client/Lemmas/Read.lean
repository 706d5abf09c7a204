import Nestor.Client.Lemmas.Hedged
import Nestor.Client.Read
import Nestor.Core.Lemmas.Block
import Nestor.Lib.Percent

/-!
# What a routed read is made of

A request for a block returns what one of its attempts was answered with. While a body is read, what
it has yielded and what is left of its responses is the part of one version up to the next block.
-/

namespace Nestor.Client

open Lib Store

/-! ## What a request for a block returns -/

section

variable {T : Type} {P : T → Prop}

/-- Every attempt that succeeds does so with a value that meets `P`. -/
def attemptSpec (P : T → Prop) : Spec (RouteOp T) (RouteResp T) Unit where
  guar := fun _ _ => True
  rely := fun _ o r => ∀ id t, ended ⟨o, r⟩ = some (id, .done (.ok t)) → P t
  next := fun _ _ _ => ()

/-- A result that is no error meets `P`. -/
def Sound (P : T → Prop) (_ : Unit) (result : Except OriginError T) : Prop := ∀ t, result = .ok t → P t

theorem sound_error (e : OriginError) : Sound P () (.error e) := fun _ h => nomatch h

theorem abandon_sound {α : Type} {Q : Unit → α → Prop} (ids : List NodeId) :
    wp (attemptSpec P) (abandon ids) Q () := by
  induction ids with
  | nil => exact ⟨trivial, nofun⟩
  | cons id ids ih => exact ⟨trivial, fun _ _ => ih⟩

theorem settle_sound {id : NodeId} {outcome : Outcome T} (h : ∀ t, outcome = .done (.ok t) → P t) :
    wp (attemptSpec P) (settle id outcome) (Sound P) () := by
  cases outcome with
  | unbuilt => exact ⟨trivial, fun _ _ => sound_error .io⟩
  | done result =>
      cases result with
      | ok t =>
          refine ⟨trivial, fun _ _ => ⟨trivial, fun _ _ t' ht => ?_⟩⟩
          cases ht
          exact h t rfl
      | error e =>
          rw [settle]
          split
          · exact ⟨trivial, fun _ _ => ⟨trivial, fun _ _ => sound_error .io⟩⟩
          · exact ⟨trivial, fun _ _ => sound_error (fromStore e)⟩

theorem attempt_sound (id : NodeId) : wp (attemptSpec P) (attempt id) (Sound P) () := by
  refine ⟨trivial, fun r hr => ?_⟩
  cases r with
  | none => exact abandon_sound [id]
  | some outcome => exact settle_sound fun t ht => hr id t (by rw [ht]; rfl)

theorem handOver_sound {id other : NodeId} {outcome : Outcome T} (h : ∀ t, outcome = .done (.ok t) → P t) :
    wp (attemptSpec P) (handOver id other outcome) (Sound P) () := by
  refine wp_seq (settle_sound h) fun _ result hresult => ?_
  rcases result with (_ | _ | _ | _ | _ | _) | t
  case error.io => exact attempt_sound other
  all_goals exact ⟨trivial, fun _ _ => hresult⟩

theorem firstResult_sound (hedge : Bool) (ranked : List NodeId) (primary : NodeId) :
    wp (attemptSpec P) (firstResult hedge ranked primary) (Sound P) () := by
  cases hedge with
  | false => exact attempt_sound primary
  | true =>
      refine ⟨trivial, fun r hr => ?_⟩
      cases r with
      | finished outcome => exact settle_sound fun t ht => hr primary t (by rw [ht]; rfl)
      | dropped => exact abandon_sound [primary]
      | delayed =>
          refine ⟨trivial, fun r _ => ?_⟩
          cases r with
          | none => exact attempt_sound primary
          | some secondary =>
              refine ⟨trivial, fun r hr => ?_⟩
              cases r with
              | dropped => exact abandon_sound [primary, secondary]
              | first outcome => exact handOver_sound fun t ht => hr primary t (by rw [ht]; rfl)
              | second outcome => exact handOver_sound fun t ht => hr secondary t (by rw [ht]; rfl)

theorem hedged_sound (hedge : Bool) (ranked : List NodeId) :
    wp (attemptSpec P) (hedged hedge ranked) (Sound P) () := by
  unfold hedged
  refine wp_then trivial fun r _ => ?_
  cases r with
  | none => exact sound_error .io
  | some primary =>
      refine wp_seq (firstResult_sound hedge ranked primary) fun _ result hresult => ?_
      rcases result with (_ | _ | _ | _ | _ | _) | t
      case error.io =>
        refine ⟨trivial, fun r _ => ?_⟩
        cases r with
        | none => exact sound_error .io
        | some failover => exact attempt_sound failover
      all_goals exact hresult

/-- Every attempt of the trace that succeeds does so with a value that meets `P`. -/
def Honest (P : T → Prop) (tr : List (Done (RouteOp T) (RouteResp T))) : Prop :=
  ∀ d ∈ tr, ∀ id t, ended d = some (id, .done (.ok t)) → P t

theorem sound_runs {α : Type} {p : RouteProgram T α} {Q : Unit → α → Prop}
    {tr : List (Done (RouteOp T) (RouteResp T))} {a : α} (h : wp (attemptSpec P) p Q ())
    (hruns : Runs p tr (pure a)) (hhonest : Honest P tr) : Q () a :=
  (wp_runs_of (P := fun o r => ∀ id t, ended ⟨o, r⟩ = some (id, .done (.ok t)) → P t)
    (fun _ _ _ _ hr => hr) h hruns hhonest).2

end

/-! ## Nodes -/

/-- A node whose object is the version answers with the requested bytes of it, unless the stream
breaks off, and does so only if the version has the ETag asked for. The client sends an ETag as
text. -/
structure Answers (v : Version) (options : GetOptions) (r : GetResponse) : Prop where
  ifMatch : ∀ tag, options.ifMatch = some tag → v.etag = some (utf8Lossy tag)
  names : v.Names r.meta
  bytes : ∀ range, options.range = some range → (∀ e, .error e ∉ r.body) →
    bodyBytes r.body = slice v.data range.start (min range.stop v.data.length)

/-- The answer of a node whose object is one of the versions. -/
def AnsweredBy (V : Version → Prop) (options : GetOptions) (r : GetResponse) : Prop :=
  ∃ v, V v ∧ Answers v options r

/-- The versions an object may have: the ETags of a store are text and name one version, and no
version is larger than a routed read can reach. -/
structure Versioned (V : Version → Prop) (bs : BlockSize) : Prop where
  text : ∀ v, V v → ∀ tag, v.etag = some tag → utf8Lossy tag = tag
  one : ∀ v w, V v → V w → v.etag.isSome → v.etag = w.etag → v = w
  size : ∀ v, V v → v.data.length < maxU32 * bs.bytes

/-! ## Bodies -/

theorem bodyBytes_append {xs : List BodyItem} (h : ∀ e, .error e ∉ xs) (ys : List BodyItem) :
    bodyBytes (xs ++ ys) = bodyBytes xs ++ bodyBytes ys := by
  induction xs with
  | nil => rfl
  | cons item xs ih =>
      cases item with
      | error e => exact absurd List.mem_cons_self (h e)
      | ok chunk =>
          rw [List.cons_append, bodyBytes, bodyBytes, ih fun e he => h e (List.mem_cons_of_mem _ he),
            List.append_assoc]

/-- All items there have been, in the order in which they are yielded. -/
def RoutedBody.received (b : RoutedBody) : List BodyItem := b.out ++ b.first ++ b.current

/-- The blocks before `next` have been received. -/
structure Reading (config : ClusterConfig) (V : Version → Prop) (v : Version) (start last stop : Nat)
    (ifMatch : Option Bytes) (b : RoutedBody) (next : Nat) : Prop where
  items : b.rest.items = config.pieces next last stop ifMatch
  next_le : next ≤ last + 1
  start_le : start ≤ next * config.blockSize.bytes
  answered : b.rest.All fun piece result => Sound (AnsweredBy V piece.2) () result
  bytes : (∀ e, .error e ∉ b.received) →
    bodyBytes b.received = slice v.data start (min (next * config.blockSize.bytes) stop)

section

variable {config : ClusterConfig} {V : Version → Prop} {v : Version} {start last stop : Nat}
  {ifMatch : Option Bytes} {b b' : RoutedBody} {next : Nat}

/-- The items of the body are moved on, or the other blocks are. -/
theorem Reading.move (h : Reading config V v start last stop ifMatch b next) (hrec : b'.received = b.received)
    (hitems : b'.rest.items = b.rest.items)
    (hall : b'.rest.All fun piece result => Sound (AnsweredBy V piece.2) () result) :
    Reading config V v start last stop ifMatch b' next where
  items := hitems.trans h.items
  next_le := h.next_le
  start_le := h.start_le
  answered := hall
  bytes := by
    rw [hrec]
    exact h.bytes

theorem ClusterConfig.pieces_cons {piece : Piece} {pieces : List Piece}
    (h : config.pieces next last stop ifMatch = piece :: pieces) :
    next ≤ last ∧ piece = config.piece stop ifMatch next ∧ pieces = config.pieces (next + 1)
      last stop ifMatch := by
  unfold ClusterConfig.pieces at h
  have hle : next ≤ last := by
    by_contra hlt
    rw [show last + 1 - next = 0 by omega] at h
    cases h
  rw [show last + 1 - next = last + 1 - (next + 1) + 1 by omega, List.range'_succ, List.map_cons] at h
  cases h
  exact ⟨hle, rfl, rfl⟩

theorem Reading.receive {rest : Buffered Piece (Except OriginError GetResponse)} {piece : Piece}
    {result : Except OriginError GetResponse} (h : Reading config V v start last stop ifMatch b next)
    (hone : ∀ w options r, V w → options.ifMatch = ifMatch → Answers w options r → w = v)
    (hstop : stop ≤ v.data.length)
    (hlast : next ≤ last → next < maxU32 ∧ next * config.blockSize.bytes < stop)
    (hidle : b.first = [] ∧ b.current = []) (htake : b.rest.take = some ((piece, result), rest)) :
    Reading config V v start last stop ifMatch (b.receive rest result) (next + 1) := by
  obtain ⟨hitems, htaken⟩ := Buffered.take_spec htake
  obtain ⟨hsound, hall⟩ := htaken h.answered
  obtain ⟨hle, rfl, hrest⟩ := ClusterConfig.pieces_cons (h.items.symm.trans hitems)
  obtain ⟨hmax, hlt⟩ := hlast hle
  have hstart := h.start_le
  have hrec : b.received = b.out := by simp [RoutedBody.received, hidle]
  cases result with
  | error e =>
      refine ⟨hrest.symm ▸ rfl, by omega, by rw [Nat.add_mul]; omega, hall, fun hno => ?_⟩
      exact absurd (by simp [RoutedBody.received, RoutedBody.receive]) (hno e)
  | ok response =>
      refine ⟨hrest.symm ▸ rfl, by omega, by rw [Nat.add_mul]; omega, hall, fun hno => ?_⟩
      have heq : (b.receive rest (.ok response)).received = b.out ++ response.body := by
        simp [RoutedBody.received, RoutedBody.receive, hidle]
      rw [heq] at hno ⊢
      have hout : ∀ e, .error e ∉ b.out := fun e he => hno e (List.mem_append_left _ he)
      have hbefore := h.bytes (hrec.symm ▸ hout)
      obtain ⟨w, hw, hanswers⟩ := hsound response rfl
      obtain rfl := hone w _ response hw rfl hanswers
      have hbody := hanswers.bytes _ rfl fun e he => hno e (List.mem_append_right _ he)
      rw [config.blockSize.blockRange_eq hmax, Nat.min_eq_left ((Nat.min_le_right _ _).trans hstop)] at hbody
      rw [bodyBytes_append hout, ← hrec, hbefore, hbody, Nat.min_eq_left (Nat.le_of_lt hlt)]
      exact slice_append w.data hstart (Nat.le_min.mpr ⟨Nat.mul_le_mul_right _ (Nat.le_succ next),
        Nat.le_of_lt hlt⟩)

theorem Reading.step {window : Nat} {e : BodyEvent} (h : Reading config V v start last stop ifMatch b next)
    (hone : ∀ w options r, V w → options.ifMatch = ifMatch → Answers w options r → w = v)
    (hstop : stop ≤ v.data.length)
    (hlast : ∀ i, i ≤ last → next ≤ i → i < maxU32 ∧ i * config.blockSize.bytes < stop)
    (hfinish : ∀ k result piece, e = .finish k result → b.rest.running[k]? = some (piece, none) →
      Sound (AnsweredBy V piece.2) () result)
    (hstep : b.step window e = some b') :
    ∃ next', next ≤ next' ∧ Reading config V v start last stop ifMatch b' next' := by
  cases e with
  | first =>
      dsimp only [RoutedBody.step] at hstep
      split at hstep
      · cases hstep
      · rename_i item first hfirst
        cases hstep
        exact ⟨next, Nat.le_refl _, h.move (by simp [RoutedBody.received, hfirst]) rfl h.answered⟩
  | start =>
      obtain ⟨-, hstep⟩ := Option.ite_none_right_eq_some.mp hstep
      obtain ⟨rest, hrest, rfl⟩ := Option.map_eq_some_iff.mp hstep
      obtain ⟨hitems, hall⟩ := Buffered.start_spec hrest
      exact ⟨next, Nat.le_refl _, h.move rfl hitems (hall h.answered)⟩
  | finish k result =>
      obtain ⟨rest, hrest, rfl⟩ := Option.map_eq_some_iff.mp hstep
      obtain ⟨hitems, piece, hpiece, hall⟩ := Buffered.finish_spec hrest
      exact ⟨next, Nat.le_refl _, h.move rfl hitems (hall (hfinish k result piece rfl hpiece) h.answered)⟩
  | take =>
      obtain ⟨hidle, hstep⟩ := Option.ite_none_right_eq_some.mp hstep
      obtain ⟨⟨⟨piece, result⟩, rest⟩, htake, rfl⟩ := Option.map_eq_some_iff.mp hstep
      exact ⟨next + 1, Nat.le_succ next, h.receive hone hstop (hlast next · (Nat.le_refl next)) hidle htake⟩
  | next =>
      dsimp only [RoutedBody.step] at hstep
      split at hstep
      · cases hstep
      · rename_i item current hcurrent
        obtain ⟨hfirst, hstep⟩ := Option.ite_none_right_eq_some.mp hstep
        cases hstep
        exact ⟨next, Nat.le_refl _, h.move (by simp [RoutedBody.received, hfirst, hcurrent]) rfl h.answered⟩

end

end Nestor.Client
