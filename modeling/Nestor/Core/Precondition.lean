import Nestor.Core.Key
import Nestor.Lib.Percent
import Nestor.Lib.Text

/-!
# Preconditions

Of `origin.rs`: HTTP-style preconditions, evaluated against the metadata of an object. Instants are
nanoseconds since the epoch; one before it counts as the epoch itself.
-/

namespace Nestor

open Lib

namespace ObjectMeta

def weakMark : Bytes := ascii "W/"

/-- `trim_start_matches("W/")`. -/
def strongPart (etag : Bytes) : Bytes := trimStart [weakMark] etag

def etagMatches (m : ObjectMeta) (candidates : Bytes) : Bool :=
  let etag := (m.etag.filter fun e => utf8Lossy e = e).map strongPart
  ((candidates.splitOn 44).map trimText).any fun candidate =>
    candidate = ascii "*" || etag.any fun e => strongPart candidate = e

def wholeSeconds (instant : Nat) : Nat := instant / 1000000000

def modifiedAfter (m : ObjectMeta) (instant : Nat) : Option Bool :=
  m.lastModified.map fun modified => wholeSeconds instant < wholeSeconds modified

end ObjectMeta

structure Preconditions where
  ifMatch : Option Bytes
  ifNoneMatch : Option Bytes
  ifModifiedSince : Option Nat
  ifUnmodifiedSince : Option Nat
deriving DecidableEq

inductive Precondition where
  | satisfied
  | notModified
  | failed
deriving DecidableEq

namespace Preconditions

/-- `If-None-Match` and `If-Modified-Since`, which come last. -/
def lastSteps (p : Preconditions) (m : ObjectMeta) : Precondition :=
  match p.ifNoneMatch with
  | some candidates => if m.etagMatches candidates then .notModified else .satisfied
  | none =>
      if p.ifModifiedSince.any fun since => m.modifiedAfter since = some false then .notModified
        else .satisfied

def evaluate (p : Preconditions) (m : ObjectMeta) : Precondition :=
  if p.ifMatch.any fun candidates => !m.etagMatches candidates then .failed
  else if p.ifUnmodifiedSince.any fun since => m.modifiedAfter since = some true then .failed
  else p.lastSteps m

end Preconditions

end Nestor
