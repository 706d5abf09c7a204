import Nestor.Engine.Nestor

/-!
# Streams as a caller holds them

`get_opts` and `head` of `nestor.rs` with the result they return, and `ReadStream::ready` of
`reader.rs`. `getOpts` and `headCall` are these calls with a caller that takes whatever comes.
-/

namespace Nestor

open Lib

/-- `Nestor::head`. -/
def headMeta (fuel : Nat) (ns : NamespaceState) (object : Bytes) :
    Program (Except NestorError ObjectMeta) := do
  let key : ObjectKey := ⟨ns.id, object⟩
  match ← perform (.metaLookup key ns.metaTtl) with
  | .fresh m => pure (.ok m)
  | _ =>
      match ← head fuel ns key object with
      | none => hang
      | some result => pure result

theorem head_described (fuel : Nat) (ns : NamespaceState) (object : Bytes) :
    (head fuel ns ⟨ns.id, object⟩ object >>= fun result =>
      match result with
      | none => hang
      | some (.ok m) => perform (.described m)
      | some (.error e) => perform (.failed e)) =
    (head fuel ns ⟨ns.id, object⟩ object >>= fun result =>
      match result with
      | none => hang
      | some result => pure result) >>= fun result =>
      match result with
      | .error e => perform (.failed e)
      | .ok m => perform (.described m) := by
  rw [Prog.bind_assoc]
  refine congrArg (head fuel ns ⟨ns.id, object⟩ object >>= ·) (funext fun result => ?_)
  cases result with
  | none =>
      refine congrArg (Prog.op Op.hang) (funext fun never => ?_)
      cases never
  | some result => cases result <;> rfl

theorem headCall_eq (fuel : Nat) (ns : NamespaceState) (object : Bytes) :
    headCall fuel ns object = headMeta fuel ns object >>= fun result =>
      match result with
      | .error e => perform (.failed e)
      | .ok m => perform (.described m) := by
  rw [headCall, headMeta, Prog.bind_assoc]
  refine congrArg (perform (.metaLookup ⟨ns.id, object⟩ ns.metaTtl) >>= ·) (funext fun found => ?_)
  cases found with
  | fresh m => rfl
  | stale m => exact head_described fuel ns object
  | missing => exact head_described fuel ns object

/-- `ReadStream::range` of a stream that was opened with `range`, when its metadata cell holds
`known`. -/
def reportedRange (range : Range) (known : Option ObjectMeta) : Range :=
  match known.map (·.size) with
  | some size => ⟨range.start, min range.stop size⟩
  | none => range

/-- `ReadStream::content_length`. -/
def contentLength (range : Range) (known : Option ObjectMeta) : Option Nat :=
  (known.map (·.size)).map fun _ =>
    let range := reportedRange range known
    subU64 range.stop range.start

variable [TagHash]

structure ReadStream where
  reader : Reader
  range : Range
  peeked : Option Bytes

def openStream (fuel : Nat) (ns : NamespaceState) (object : Bytes) (request : ReadRange)
    (policy : FetchPolicy) :
    Program (Except NestorError ReadStream) := do
  match ← resolveCtx fuel ns object request policy with
  | .error e => pure (.error e)
  | .ok (ctx, fetched) =>
      match readRange ctx request with
      | none => hang
      | some (.error e) => pure (.error e)
      | some (.ok range) =>
          if 0 < ns.config.readahead then
            let sequential ← perform (.readaheadObserve ctx.key range)
            if sequential then spawnReadahead ns ctx range
          pure (.ok ⟨Reader.new request ctx range fetched, range, none⟩)

theorem getOpts_eq (fuel : Nat) (ns : NamespaceState) (object : Bytes) (request : ReadRange)
    (policy : FetchPolicy) :
    getOpts fuel ns object request policy = openStream fuel ns object request policy >>= fun opened =>
      match opened with
      | .error e => perform (.failed e)
      | .ok s => perform (.opened s.range s.reader.known) >>= fun _ => s.reader.stream fuel fuel := by
  rw [getOpts, openStream, Prog.bind_assoc]
  refine congrArg (resolveCtx fuel ns object request policy >>= ·) (funext fun resolved => ?_)
  cases resolved with
  | error e => rfl
  | ok p =>
      obtain ⟨ctx, fetched⟩ := p
      cases hr : readRange ctx request with
      | none =>
          simp only [hr]
          exact congrArg (Prog.op Op.hang) (funext nofun)
      | some range =>
          cases range with
          | error e =>
              simp only [hr]
              rfl
          | ok range =>
              simp only [hr]
              split
              · simp only [Prog.bind_assoc]
                refine congrArg (perform (.readaheadObserve ctx.key range) >>= ·)
                  (funext fun sequential => ?_)
                split
                · simp only [Prog.bind_assoc]
                  rfl
                · rfl
              · rfl

namespace ReadStream

/-- `ReadStream::ready`: the metadata, which may only come with the first chunk. -/
def ready (fuel : Nat) (s : ReadStream) : Program (ReadStream × Except NestorError ObjectMeta) := do
  let known (s : ReadStream) : Except NestorError ObjectMeta :=
    s.reader.reported.elim (.error (.range s.range 0)) .ok
  if s.reader.reported.isNone && s.peeked.isNone then
    match ← s.reader.nextItem fuel with
    | (r, some (.ok chunk)) =>
        let s := { s with reader := r, peeked := some chunk }
        pure (s, known s)
    | (r, some (.error e)) => pure ({ s with reader := r }, .error e)
    | (r, none) =>
        let s := { s with reader := r }
        pure (s, known s)
  else pure (s, known s)

end ReadStream

end Nestor
