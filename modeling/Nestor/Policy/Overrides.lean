import Nestor.Core.Namespace
import Nestor.S3.Http

/-!
# Overrides of the fetch policy

`FetchOverrides` of `policy.rs`, what the header `x-nestor-fetch` may ask for. Durations are read by
the crate `humantime`.
-/

namespace Nestor

open Lib S3

/-- `humantime::parse_duration`, in nanoseconds. -/
class Humantime where
  parseDuration : Bytes → Option Nat

structure FetchOverrides where
  attempts : Option Nat
  backoff : Option Nat
  backoffMax : Option Nat
  firstByte : Option Nat
  attempt : Option Nat
  deadline : Option Nat
  hedge : Option Bool
deriving DecidableEq

inductive PolicyParseError where
  | badSyntax (pair : Bytes)
  | badKey (key : Bytes)
  | badValue (key value : Bytes)
deriving DecidableEq

/-- A word of a header as `Debug` writes it: only quotes and backslashes need an escape there. -/
def debugWord (s : Bytes) : Bytes :=
  ascii "\"" ++ (s.flatMap fun b => if b = 34 ∨ b = 92 then [92, b] else [b]) ++ ascii "\""

def PolicyParseError.message : PolicyParseError → Bytes
  | .badSyntax pair => ascii "expected key=value, got " ++ debugWord pair
  | .badKey key => ascii "unknown fetch setting " ++ debugWord key
  | .badValue key value => ascii "bad value " ++ debugWord value ++ ascii " for " ++ key

namespace FetchOverrides

def default : FetchOverrides := ⟨none, none, none, none, none, none, none⟩

/-- A value that cannot be read is an error for its key. -/
def valueOf {α : Type} (key value : Bytes) (read : Option α) : Except PolicyParseError α :=
  match read with
  | some a => .ok a
  | none => .error (.badValue key value)

def readHedge (value : Bytes) : Option Bool :=
  if value = ascii "on" ∨ value = ascii "true" then some true
  else if value = ascii "off" ∨ value = ascii "false" then some false
  else none

variable [Humantime]

/-- One pair of the text. -/
def set (o : FetchOverrides) (pair : Bytes) : Except PolicyParseError FetchOverrides :=
  match splitOnce 61 pair with
  | none => .error (.badSyntax pair)
  | some (key, value) =>
      let duration := valueOf key value (Humantime.parseDuration value)
      if key = ascii "attempts" then
        (valueOf key value (parseU32 value)).map fun n => { o with attempts := some n }
      else if key = ascii "backoff" then duration.map fun d => { o with backoff := some d }
      else if key = ascii "backoff_max" then duration.map fun d => { o with backoffMax := some d }
      else if key = ascii "first_byte" then duration.map fun d => { o with firstByte := some d }
      else if key = ascii "attempt" then duration.map fun d => { o with attempt := some d }
      else if key = ascii "deadline" then duration.map fun d => { o with deadline := some d }
      else if key = ascii "hedge" then
        (valueOf key value (readHedge value)).map fun h => { o with hedge := some h }
      else .error (.badKey key)

def parse (text : Bytes) : Except PolicyParseError FetchOverrides := (splitWhitespace text).foldlM set default

end FetchOverrides

def FetchPolicy.with (p : FetchPolicy) (overrides : FetchOverrides) : FetchPolicy where
  attempts := max (overrides.attempts.getD p.attempts) 1
  backoff := overrides.backoff.getD p.backoff
  backoffMax := overrides.backoffMax.getD p.backoffMax
  firstByte := overrides.firstByte.getD p.firstByte
  attempt := overrides.attempt.getD p.attempt
  deadline := overrides.deadline.getD p.deadline
  hedge := overrides.hedge.getD p.hedge

end Nestor
