import Nestor.S3.Sigv4

/-!
# Verification of requests

`auth.rs`: a request is signed in its `Authorization` header or, presigned, in its query.
-/

namespace Nestor.S3

open Lib

def maxSkewSecs : Int := 15 * 60

def maxPresignSecs : Int := 7 * 24 * 3600

/-- The nanoseconds of a second. -/
def second : Int := 1000000000

inductive Auth where
  | anonymous
  | static (accessKey secretKey : Bytes)
deriving DecidableEq

def hostOf (headers : HeaderMap) (uri : Uri) : Bytes :=
  (((headers.get .host).bind HeaderValue.toStr).or uri.authority).getD []

def queryParam (rawQuery : Bytes) (name : Bytes) : Option Bytes :=
  (((rawQuery.splitOn ampersand).map nameValue).find? fun p => percentDecode p.1 = name).map fun p =>
    percentDecode p.2

def constantTimeEq (a b : Bytes) : Bool :=
  if a.length ≠ b.length then false else (a.zip b).foldl (fun acc p => acc ||| (p.1 ^^^ p.2)) 0 = (0 : UInt8)

/-- What a request is to be verified by. -/
structure Presented where
  auth : Authorization
  amzDate : Bytes
  payloadHash : Bytes
  skipQuery : Option Bytes
deriving DecidableEq

/-- How a request can fail: with an error that is answered, or in a panic. -/
inductive Failure where
  | error (e : S3Error)
  | panicked
deriving DecidableEq

/-- `ok_or_else`. -/
def orInvalid {α : Type} (a : Option α) (message : String) : Except Failure α :=
  match a with
  | some a => .ok a
  | none => .error (.error (.invalidRequest message))

def headerText (headers : HeaderMap) (name : HeaderName) : Option Bytes :=
  (headers.get name).bind HeaderValue.toStr

def presentedInHeader (headers : HeaderMap) (header : HeaderValue) : Except Failure Presented := do
  let header ← orInvalid header.toStr "malformed Authorization header"
  let auth ← orInvalid (Authorization.parseHeader header) "unsupported Authorization header"
  let amzDate ← orInvalid (((headers.get .xAmzDate).or (headers.get .date)).bind HeaderValue.toStr)
    "missing x-amz-date"
  let payloadHash ← orInvalid (headerText headers .xAmzContentSha256) "missing x-amz-content-sha256"
  pure ⟨auth, amzDate, payloadHash, none⟩

section

variable [Chrono]

def presentedInQuery (rawQuery : Bytes) (now : Int) : Except Failure Presented := do
  let credential ← orInvalid (queryParam rawQuery (ascii "X-Amz-Credential")) "missing X-Amz-Credential"
  let signed ← orInvalid (queryParam rawQuery (ascii "X-Amz-SignedHeaders")) "missing X-Amz-SignedHeaders"
  let sig ← orInvalid (queryParam rawQuery (ascii "X-Amz-Signature")) "missing X-Amz-Signature"
  let amzDate ← orInvalid (queryParam rawQuery (ascii "X-Amz-Date")) "missing X-Amz-Date"
  let expires ← orInvalid ((queryParam rawQuery (ascii "X-Amz-Expires")).bind parseI64)
    "missing X-Amz-Expires"
  if ¬ (1 ≤ expires ∧ expires ≤ maxPresignSecs) then throw (.error (.invalidRequest "invalid X-Amz-Expires"))
  let issued ← orInvalid (Chrono.parseAmzDate amzDate) "invalid X-Amz-Date"
  -- the sum of a date and a duration is checked
  if Chrono.last < issued + expires * second then throw .panicked
  if issued + expires * second < now then throw (.error .expired)
  let auth ← orInvalid (Authorization.fromQuery credential signed sig) "invalid X-Amz-Credential"
  pure ⟨auth, amzDate, S3.unsignedPayload, some (ascii "X-Amz-Signature")⟩

def presented (req : Request) (now : Int) : Except Failure Presented :=
  let rawQuery := req.uri.query.getD []
  match req.headers.get .authorization with
  | some header => presentedInHeader req.headers header
  | none =>
      if (queryParam rawQuery (ascii "X-Amz-Algorithm")).isSome then presentedInQuery rawQuery now
      else .error (.error (.accessDenied "anonymous access is not allowed"))

/-- A request signed in its header must have been signed just now. -/
def checkSkew (p : Presented) (now : Int) : Except Failure Unit :=
  if p.skipQuery = none then
    match Chrono.parseAmzDate p.amzDate with
    | none => .error (.error (.invalidRequest "invalid x-amz-date"))
    | some issued =>
        if maxSkewSecs < ((now - issued).tdiv second).natAbs then .error (.error .requestTimeTooSkewed)
          else .ok ()
  else .ok ()

end

variable [Crypto] [Chrono]

def canonicalOf (req : Request) (p : Presented) : Bytes :=
  canonicalRequest ⟨req.method, req.uri.path, req.uri.query.getD [], req.headers, hostOf req.headers req.uri,
    p.auth.signedHeaders, p.payloadHash, p.skipQuery⟩

/-- The signature a request must carry, and the keys kept after deriving it. -/
def expectedSignature (secretKey : Bytes) (req : Request) (p : Presented) (keys : SigningKeys) :
    Bytes × SigningKeys :=
  let sts := stringToSign p.amzDate (scope p.auth.date p.auth.region) (canonicalOf req p)
  let (key, keys) := keys.get secretKey p.auth.date p.auth.region
  (signature key sts, keys)

def checkPresented (accessKey : Bytes) (p : Presented) (now : Int) : Except Failure Unit := do
  if !constantTimeEq p.auth.accessKey accessKey then throw (.error .invalidAccessKey)
  checkSkew p now
  if !(p.auth.date.isPrefixOf p.amzDate) then throw (.error .signatureMismatch)

def Auth.verify (auth : Auth) (req : Request) (now : Int) (keys : SigningKeys) :
    Except Failure Unit × SigningKeys :=
  match auth with
  | .anonymous => (.ok (), keys)
  | .static accessKey secretKey =>
      match presented req now with
      | .error e => (.error e, keys)
      | .ok p =>
          match checkPresented accessKey p now with
          | .error e => (.error e, keys)
          | .ok () =>
              let (expected, keys) := expectedSignature secretKey req p keys
              (if constantTimeEq expected p.auth.signature then .ok ()
              else .error (.error .signatureMismatch), keys)

end Nestor.S3
