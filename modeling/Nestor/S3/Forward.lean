import Nestor.S3.Auth
import Nestor.S3.Addressing

/-!
# Requests forwarded to the origin

`forward.rs`, and of `origin.rs` what it takes: a request is addressed anew, stripped of what the
client signed it with, and signed with the credentials of the origin. Its body is that of `body.rs`.
-/

namespace Nestor.S3

open Lib

structure OriginConfig where
  scheme : Bytes
  authority : Option Bytes
  region : Bytes
  virtualHosted : Bool

namespace OriginConfig

def bucketHost (origin : OriginConfig) (bucket : Bytes) : Except S3Error Bytes :=
  match origin.authority with
  | none => .error (.internal "origin endpoint has no authority")
  | some authority => .ok (if origin.virtualHosted then bucket ++ ascii "." ++ authority else authority)

end OriginConfig

def presignParams : List Bytes :=
  [ascii "X-Amz-Algorithm", ascii "X-Amz-Credential", ascii "X-Amz-Date", ascii "X-Amz-Expires",
    ascii "X-Amz-SignedHeaders", ascii "X-Amz-Signature", ascii "X-Amz-Security-Token"]

/-! ## Headers -/

def isHopByHop (name : HeaderName) : Bool :=
  name = .connection || name = .te || name = .trailer || name = .transferEncoding || name = .upgrade ||
    name = .keepAlive || (name.name.dropPrefix? (ascii "proxy-")).isSome

/-- The headers that are not forwarded. -/
def isWithheld (name : HeaderName) : Bool :=
  isHopByHop name || name = .host || name = .authorization || name = .contentLength || name = .xAmzDate ||
    name = .xAmzContentSha256 || name = .xAmzSecurityToken || name = .xAmzDecodedContentLength ||
    name = .xAmzTrailer || name = .expect

/-- The codings of a streamed body, without the one that makes it a stream. -/
def keptCodings (value : HeaderValue) : List Bytes :=
  (((value.toStr.getD []).splitOn comma).map trimText).filter fun e =>
    e ≠ [] && !eqIgnoreCase e (ascii "aws-chunked")

/-- What becomes of one header. -/
def upstreamHeader (streaming : Bool) (headers : HeaderMap) (header : HeaderName × HeaderValue) : HeaderMap :=
  let (name, value) := header
  if isWithheld name then headers
  else if name = .contentEncoding && streaming then
    let kept := keptCodings value
    if kept = [] then headers
    else match HeaderValue.fromStr ([comma].intercalate kept) with
      | some v => headers.append .contentEncoding v
      | none => headers
  else headers.append name value

def contentLength (incoming : HeaderMap) (streaming : Bool) : Except S3Error (Option Nat) :=
  if streaming then
    match (headerText incoming .xAmzDecodedContentLength).bind parseU64 with
    | some decoded => .ok (some decoded)
    | none => .error (.invalidRequest "missing x-amz-decoded-content-length")
  else .ok ((headerText incoming .contentLength).bind parseU64)

def upstreamHeaders (incoming : HeaderMap) (streaming : Bool) : Except S3Error HeaderMap := do
  let headers := incoming.foldl (upstreamHeader streaming) []
  match ← contentLength incoming streaming with
  | some len => pure (headers.insert .contentLength (.ofNat len))
  | none => pure headers

/-! ## Target -/

def isPresignParam (name : Bytes) : Bool := presignParams.any (eqIgnoreCase · name)

def upstreamQuery (rawQuery : Bytes) : Bytes :=
  [ampersand].intercalate
    (((rawQuery.splitOn ampersand).filter (· ≠ [])).filter fun p => !isPresignParam (nameValue p).1)

def endsWithSlash (path : Bytes) : Bool := path.getLast? = some slash

def upstreamHost (origin : OriginConfig) (target : Target) : Except S3Error Bytes :=
  match target.bucket with
  | some bucket => origin.bucketHost bucket
  | none =>
      match origin.authority with
      | some authority => .ok authority
      | none => .error (.internal "origin endpoint has no authority")

def upstreamPath (origin : OriginConfig) (target : Target) : Bytes :=
  let path := match target.bucket with
    | some bucket => if origin.virtualHosted then [slash] else slash :: bucket
    | none => [slash]
  match target.key with
  | some key => (if endsWithSlash path then path else path ++ [slash]) ++ uriEncode key false
  | none =>
      if target.bucket.isSome && !origin.virtualHosted && !endsWithSlash path then path ++ [slash] else path

/-- Whether the crate `http` parses a URI that consists of these parts, with a scheme. -/
class UriSyntax where
  parses : Bytes → Uri → Bool

variable [UriSyntax]

def upstreamUri (origin : OriginConfig) (target : Target) (rawQuery : Bytes) :
    Except S3Error (Uri × Bytes) := do
  let host ← upstreamHost origin target
  let uri : Uri := ⟨some host, upstreamPath origin target, nonEmpty (upstreamQuery rawQuery)⟩
  if UriSyntax.parses origin.scheme uri then pure (uri, host)
  else throw (.internal "failed to build upstream uri")

/-! ## The forwarded request -/

def isStreaming (headers : HeaderMap) : Bool :=
  (headerText headers .xAmzContentSha256).any fun v => (v.dropPrefix? (ascii "STREAMING-")).isSome

variable [Crypto] [Chrono]

/-- The request `Forwarder::forward` sends, given the answer of the credential provider if there is
one; `none` where the signer panics. -/
def upstreamRequest (origin : OriginConfig) (provided : Option (Except Bytes Credentials))
    (keys : SigningKeys) (req : Request) (target : Target) (now : Int) :
    Except S3Error (Option (Request × SigningKeys)) := do
  let (uri, host) ← upstreamUri origin target (req.uri.query.getD [])
  let headers ← upstreamHeaders req.headers (isStreaming req.headers)
  match HeaderValue.fromStr host with
  | none => throw (.internal "invalid host")
  | some host =>
      let headers := headers.insert .host host
      match provided with
      | none => pure (some (⟨req.method, uri, headers⟩, keys))
      | some (.error e) => throw (.badGateway (ascii "failed to obtain origin credentials: " ++ e))
      | some (.ok creds) =>
          pure ((keys.sign req.method uri headers creds origin.region now).map fun (headers, keys) =>
            (⟨req.method, uri, headers⟩, keys))

end Nestor.S3
