import Mathlib.Data.Nat.Basic

/-!
# Errors

`OriginError` is what an origin reports, `NestorError` is what callers see (`error.rs`). The
payloads of I/O and foyer errors are not looked at by any modelled function and are left out.
-/

namespace Nestor

abbrev Bytes := List UInt8

/-- A half-open range of offsets, `Range<u64>`. -/
structure Range where
  start : Nat
  stop : Nat
deriving DecidableEq, Repr

namespace Range

def isEmpty (r : Range) : Bool := r.stop ≤ r.start

/-- The number of offsets in the range, `Range::count`. -/
def count (r : Range) : Nat := r.stop - r.start

end Range

inductive OriginError where
  | notFound
  | preconditionFailed
  | notModified
  | shortRead (expected got : Nat)
  | timeout (after : Nat)
  | io
deriving DecidableEq, Repr

def OriginError.isRetryable : OriginError → Bool
  | .io | .shortRead _ _ | .timeout _ => true
  | _ => false

inductive NestorError where
  | notFound
  | unknownNamespace
  | range (range : Range) (size : Nat)
  | stale
  | origin (error : OriginError)
  | cache
  | cancelled
  | closed
  | shared (inner : NestorError)
deriving DecidableEq, Repr

namespace NestorError

def isNotFound : NestorError → Bool
  | .notFound => true
  | .shared inner => inner.isNotFound
  | _ => false

def isStale : NestorError → Bool
  | .stale => true
  | .shared inner => inner.isStale
  | _ => false

def isCancelled : NestorError → Bool
  | .cancelled => true
  | .shared inner => inner.isCancelled
  | _ => false

theorem not_isStale_of_isCancelled {e : NestorError} (h : e.isCancelled) : e.isStale = false := by
  induction e with
  | cancelled => rfl
  | shared inner ih => exact ih h
  | _ => cases h

/-- `From<Arc<NestorError>>`: the error itself if this was the last reference to it, else a shared
one. -/
def ofArc (sole : Bool) (e : NestorError) : NestorError := if sole then e else .shared e

/-- `From<OriginError>`. -/
def ofOrigin : OriginError → NestorError
  | .notFound => .notFound
  | .preconditionFailed => .stale
  | other => .origin other

end NestorError

end Nestor
