import Nestor.Core.Error

/-!
# Errors of object stores

`error.rs` of the store bindings: what `object_store::Error` becomes as the error of an origin, and
what the errors of the engine become as one. Of the causes an error carries only the HTTP status is
kept, where a server has answered with one.
-/

namespace Nestor.Store

inductive StoreError where
  | generic (status : Option Nat)
  | notFound
  | invalidPath
  | joinError
  | notSupported
  | alreadyExists
  | precondition
  | notModified
  | notImplemented
  | permissionDenied
  | unauthenticated
  | unknownConfigurationKey
deriving DecidableEq, Repr

def fromStore : StoreError → OriginError
  | .notFound => .notFound
  | .precondition => .preconditionFailed
  | .notModified => .notModified
  | _ => .io

/-- The server has answered: the error stands for a status code. -/
def StoreError.answered : StoreError → Bool
  | .generic status => status.isSome
  | .notFound | .alreadyExists | .precondition | .notModified | .permissionDenied | .unauthenticated => true
  | _ => false

/-- The variant, without what it carries. -/
def StoreError.variant : StoreError → StoreError
  | .generic _ => .generic none
  | e => e

/-- `status` is that of the cause, if the error is one of the origin's own. -/
def toStore (status : Option Nat) (e : NestorError) : StoreError :=
  if e.isNotFound then .notFound
  else if e.isStale then .precondition
  else match e with
    | .origin .io => .generic status
    | _ => .generic none

end Nestor.Store
