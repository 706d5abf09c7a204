import Mathlib.Algebra.Group.Nat.Defs
import Nestor.Core.Error
import Nestor.Lib.Percent
import Nestor.Lib.Text

/-!
# Requests

The parts of the crate `http` the endpoint works with. Text is its UTF-8 bytes. A `HeaderMap` is the
list of its entries; a name may have several values.
-/

namespace Nestor.S3

open Lib

def isDigit (b : UInt8) : Bool := 48 ≤ b.toNat && b.toNat ≤ 57

def isLower (b : UInt8) : Bool := 97 ≤ b.toNat && b.toNat ≤ 122

def isUpper (b : UInt8) : Bool := 65 ≤ b.toNat && b.toNat ≤ 90

def lowerByte (b : UInt8) : UInt8 := if isUpper b then b + 32 else b

/-- `to_ascii_lowercase`. -/
def lower (s : Bytes) : Bytes := s.map lowerByte

/-- `eq_ignore_ascii_case`. -/
def eqIgnoreCase (a b : Bytes) : Bool := lower a = lower b

/-- The bytes of a token: of a method or a header name. -/
def isToken (b : UInt8) : Bool := isDigit b || isLower b || isUpper b || b ∈ ascii "!#$%&'*+-.^_`|~"

structure Method where
  name : Bytes
  token : ∀ b ∈ name, isToken b
deriving DecidableEq

namespace Method

def get : Method := ⟨ascii "GET", by decide⟩
def head : Method := ⟨ascii "HEAD", by decide⟩
def put : Method := ⟨ascii "PUT", by decide⟩
def post : Method := ⟨ascii "POST", by decide⟩
def delete : Method := ⟨ascii "DELETE", by decide⟩

end Method

/-- A header name is lower-case. -/
structure HeaderName where
  name : Bytes
  valid : ∀ b ∈ name, isToken b ∧ ¬ isUpper b
deriving DecidableEq

namespace HeaderName

def acceptRanges : HeaderName := ⟨ascii "accept-ranges", by decide⟩
def authorization : HeaderName := ⟨ascii "authorization", by decide⟩
def connection : HeaderName := ⟨ascii "connection", by decide⟩
def contentEncoding : HeaderName := ⟨ascii "content-encoding", by decide⟩
def contentLength : HeaderName := ⟨ascii "content-length", by decide⟩
def contentMd5 : HeaderName := ⟨ascii "content-md5", by decide⟩
def contentRange : HeaderName := ⟨ascii "content-range", by decide⟩
def contentType : HeaderName := ⟨ascii "content-type", by decide⟩
def date : HeaderName := ⟨ascii "date", by decide⟩
def etag : HeaderName := ⟨ascii "etag", by decide⟩
def expect : HeaderName := ⟨ascii "expect", by decide⟩
def host : HeaderName := ⟨ascii "host", by decide⟩
def ifMatch : HeaderName := ⟨ascii "if-match", by decide⟩
def ifModifiedSince : HeaderName := ⟨ascii "if-modified-since", by decide⟩
def ifNoneMatch : HeaderName := ⟨ascii "if-none-match", by decide⟩
def ifUnmodifiedSince : HeaderName := ⟨ascii "if-unmodified-since", by decide⟩
def keepAlive : HeaderName := ⟨ascii "keep-alive", by decide⟩
def lastModified : HeaderName := ⟨ascii "last-modified", by decide⟩
def range : HeaderName := ⟨ascii "range", by decide⟩
def te : HeaderName := ⟨ascii "te", by decide⟩
def trailer : HeaderName := ⟨ascii "trailer", by decide⟩
def transferEncoding : HeaderName := ⟨ascii "transfer-encoding", by decide⟩
def upgrade : HeaderName := ⟨ascii "upgrade", by decide⟩
def xAmzContentSha256 : HeaderName := ⟨ascii "x-amz-content-sha256", by decide⟩
def xAmzCopySource : HeaderName := ⟨ascii "x-amz-copy-source", by decide⟩
def xAmzDate : HeaderName := ⟨ascii "x-amz-date", by decide⟩
def xAmzDecodedContentLength : HeaderName := ⟨ascii "x-amz-decoded-content-length", by decide⟩
def xAmzSecurityToken : HeaderName := ⟨ascii "x-amz-security-token", by decide⟩
def xAmzTrailer : HeaderName := ⟨ascii "x-amz-trailer", by decide⟩
def xNestorFetch : HeaderName := ⟨ascii "x-nestor-fetch", by decide⟩

end HeaderName

/-- What a header value may contain: anything but control characters, and tabs. -/
def isValueByte (b : UInt8) : Bool := 32 ≤ b.toNat && b.toNat ≠ 127 || b.toNat = 9

def isVisible (b : UInt8) : Bool := 32 ≤ b.toNat && b.toNat < 127 || b.toNat = 9

structure HeaderValue where
  bytes : Bytes
  valid : ∀ b ∈ bytes, isValueByte b
deriving DecidableEq

namespace HeaderValue

def fromStr (s : Bytes) : Option HeaderValue :=
  if h : ∀ b ∈ s, isValueByte b then some ⟨s, h⟩ else none

/-- The value as text, if it is visible ASCII. -/
def toStr (v : HeaderValue) : Option Bytes := if ∀ b ∈ v.bytes, isVisible b then some v.bytes else none

end HeaderValue

abbrev HeaderMap := List (HeaderName × HeaderValue)

namespace HeaderMap

def get (headers : HeaderMap) (name : HeaderName) : Option HeaderValue :=
  (headers.find? (·.1 = name)).map (·.2)

/-- The values of a name given as text, which need not be a header name at all. -/
def getAll (headers : HeaderMap) (name : Bytes) : List HeaderValue :=
  (headers.filter (·.1.name = name)).map (·.2)

def containsKey (headers : HeaderMap) (name : HeaderName) : Bool := (headers.get name).isSome

/-- Sets the only value of a name. -/
def insert (headers : HeaderMap) (name : HeaderName) (value : HeaderValue) : HeaderMap :=
  headers.filter (·.1 ≠ name) ++ [(name, value)]

def append (headers : HeaderMap) (name : HeaderName) (value : HeaderValue) : HeaderMap :=
  headers ++ [(name, value)]

def keys (headers : HeaderMap) : List HeaderName := (headers.map (·.1)).dedup

end HeaderMap

structure Uri where
  authority : Option Bytes
  path : Bytes
  query : Option Bytes
deriving DecidableEq

structure Request where
  method : Method
  uri : Uri
  headers : HeaderMap
deriving DecidableEq

/-! ## Numbers -/

/-- The number written as decimal digits. -/
def decimal (n : Nat) : Bytes := (Nat.toDigits 10 n).map fun c => UInt8.ofNat c.toNat

def digits : Bytes → Option Nat
  | [] => none
  | s => if s.all isDigit then some (s.foldl (fun n b => 10 * n + (b.toNat - 48)) 0) else none

/-- `parse::<u64>`. -/
def parseU64 (s : Bytes) : Option Nat :=
  let s := (s.dropPrefix? (ascii "+")).getD s
  (digits s).filter (· < 2 ^ 64)

/-- `parse::<u32>`. -/
def parseU32 (s : Bytes) : Option Nat :=
  let s := (s.dropPrefix? (ascii "+")).getD s
  (digits s).filter (· < 2 ^ 32)

/-- `parse::<i64>`. -/
def parseI64 (s : Bytes) : Option Int :=
  match s.dropPrefix? (ascii "-") with
  | some s => (digits s).bind fun n => if n ≤ 2 ^ 63 then some (-(n : Int)) else none
  | none =>
      let s := (s.dropPrefix? (ascii "+")).getD s
      (digits s).bind fun n => if n < 2 ^ 63 then some (n : Int) else none

end Nestor.S3
