import Nestor.Core.Precondition
import Nestor.Policy.Overrides
import Nestor.S3.Auth

/-!
# Headers of GET and HEAD

`headers.rs`. Reading and writing HTTP dates is code of the crate `chrono`.
-/

namespace Nestor.S3

open Lib

class HttpDates where
  httpDate : Nat → HeaderValue
  parse : Bytes → Option Nat

def fetchOverrides [Humantime] (headers : HeaderMap) : Except S3Error FetchOverrides :=
  match headers.get .xNestorFetch with
  | none => .ok .default
  | some value =>
      match value.toStr with
      | none => .error (.invalidRequest "x-nestor-fetch is not valid text")
      | some text => (FetchOverrides.parse text).mapError fun e =>
          ⟨400, ascii "InvalidRequest", ascii "x-nestor-fetch: " ++ e.message, []⟩

def dash : UInt8 := 45

/-- The two bounds of a range. -/
def readBounds : Bytes → Bytes → Option ReadRange
  | [], suffix => (parseU64 suffix).map .suffix
  | start, [] => (parseU64 start).map .from
  | start, stop => do
      let start ← parseU64 start
      let stop ← parseU64 stop
      if start ≤ stop then some (.bounded ⟨start, min (stop + 1) (2 ^ 64 - 1)⟩) else none

def parseRange (headers : HeaderMap) : Option ReadRange := do
  let value := trimText (← headerText headers .range)
  let spec := trimText (← value.dropPrefix? (ascii "bytes="))
  if comma ∈ spec then none
  else
    let (start, stop) ← splitOnce dash spec
    readBounds (trimText start) (trimText stop)

variable [HttpDates]

def parseHttpDate (value : HeaderValue) : Option Nat := value.toStr.bind HttpDates.parse

def preconditions (headers : HeaderMap) : Preconditions where
  ifMatch := headerText headers .ifMatch
  ifNoneMatch := headerText headers .ifNoneMatch
  ifModifiedSince := (headers.get .ifModifiedSince).bind parseHttpDate
  ifUnmodifiedSince := (headers.get .ifUnmodifiedSince).bind parseHttpDate

def HeaderValue.bytesUnit : HeaderValue := ⟨ascii "bytes", by decide⟩

def objectHeaders (out : HeaderMap) (m : ObjectMeta) : HeaderMap :=
  let out := out.insert .acceptRanges .bytesUnit
  let out := match m.etag.bind HeaderValue.fromStr with
    | some v => out.insert .etag v
    | none => out
  match m.lastModified with
  | some modified => out.insert .lastModified (HttpDates.httpDate modified)
  | none => out

/-- `bytes {first}-{last}/{size}`. -/
def HeaderValue.contentRange (first last size : Nat) : HeaderValue :=
  ⟨ascii "bytes " ++ decimal first ++ (ascii "-" ++ decimal last) ++ (ascii "/" ++ decimal size), by
    have hbytes : ∀ b ∈ ascii "bytes ", isValueByte b := by decide
    have hdash : ∀ b ∈ ascii "-", isValueByte b := by decide
    have hslash : ∀ b ∈ ascii "/", isValueByte b := by decide
    simp only [List.forall_mem_append]
    have hdigits (n : Nat) : ∀ b ∈ decimal n, isValueByte b :=
      fun b hb => isValueByte_digit (isDigit_decimal n b hb)
    exact ⟨⟨⟨hbytes, hdigits first⟩, hdash, hdigits last⟩, hslash, hdigits size⟩⟩

/-- The end of the range is not checked to be positive: the last position wraps. -/
def contentHeaders (out : HeaderMap) (range : Range) (size : Nat) (part : Bool) : HeaderMap :=
  let out := out.insert .contentLength (.ofNat (range.stop - range.start))
  if part then
    out.insert .contentRange (.contentRange range.start ((range.stop + (2 ^ 64 - 1)) % 2 ^ 64) size)
  else out

end Nestor.S3
