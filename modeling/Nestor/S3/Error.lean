import Nestor.S3.Http

/-!
# Error responses

`error.rs` of the endpoint: the S3 error documents.
-/

namespace Nestor.S3

open Lib

structure S3Error where
  status : Nat
  code : Bytes
  message : Bytes
  resource : Bytes
deriving DecidableEq

inductive Body where
  | empty
  | text (bytes : Bytes)
  /-- The stream of a read. -/
  | stream
deriving DecidableEq

structure Response where
  status : Nat
  headers : HeaderMap
  body : Body
deriving DecidableEq

namespace S3Error

def new (status : Nat) (code message : String) : S3Error := ⟨status, ascii code, ascii message, []⟩

def about (e : S3Error) (resource : Bytes) : S3Error := { e with resource := resource }

def noSuchKey (key : Bytes) : S3Error := (new 404 "NoSuchKey" "The specified key does not exist.").about key

def noSuchBucket (bucket : Bytes) : S3Error :=
  (new 404 "NoSuchBucket" "The specified bucket does not exist").about bucket

def invalidBucketName (bucket : Bytes) : S3Error :=
  (new 400 "InvalidBucketName" "The specified bucket is not valid.").about bucket

def invalidRange (key : Bytes) : S3Error :=
  (new 416 "InvalidRange" "The requested range is not satisfiable").about key

def preconditionFailed (key : Bytes) : S3Error :=
  (new 412 "PreconditionFailed" "At least one of the pre-conditions you specified did not hold").about key

def accessDenied (message : String) : S3Error := new 403 "AccessDenied" message

def signatureMismatch : S3Error :=
  new 403 "SignatureDoesNotMatch"
    "The request signature we calculated does not match the signature you provided."

def invalidAccessKey : S3Error :=
  new 403 "InvalidAccessKeyId" "The AWS Access Key Id you provided does not exist in our records."

def requestTimeTooSkewed : S3Error :=
  new 403 "RequestTimeTooSkewed" "The difference between the request time and the server's time is too large."

def expired : S3Error := new 403 "AccessDenied" "Request has expired"

def invalidRequest (message : String) : S3Error := new 400 "InvalidRequest" message

def internal (message : String) : S3Error := new 500 "InternalError" message

def badGateway (message : Bytes) : S3Error := ⟨502, ascii "InternalError", message, []⟩

/-- The texts of errors: `thiserror` writes them, and where an error wraps a foreign one it is that
error's own. -/
structure ErrorText where
  nestor : NestorError → Bytes
  origin : OriginError → Bytes

def fromNestor (text : ErrorText) (e : NestorError) (key : Bytes) : S3Error :=
  if e.isNotFound then noSuchKey key
  else if e.isStale then preconditionFailed key
  else match e with
    | .range _ _ => invalidRange key
    | .unknownNamespace => noSuchBucket key
    | .closed => new 503 "ServiceUnavailable" "cache is shutting down"
    | .origin (.timeout d) => ⟨504, ascii "GatewayTimeout", text.origin (.timeout d), key⟩
    | other => badGateway (text.nestor other)

def escape (text : Bytes) : Bytes :=
  text.flatMap fun b =>
    if b = 38 then ascii "&amp;"
    else if b = 60 then ascii "&lt;"
    else if b = 62 then ascii "&gt;"
    else if b = 34 then ascii "&quot;"
    else if b = 39 then ascii "&apos;"
    else [b]

def body (e : S3Error) : Bytes :=
  ascii "<?xml version=\"1.0\" encoding=\"UTF-8\"?>\n<Error><Code>" ++ e.code ++ ascii "</Code><Message>" ++
    escape e.message ++ ascii "</Message><Resource>" ++ escape e.resource ++ ascii "</Resource></Error>"

end S3Error

theorem isValueByte_digit {b : UInt8} (h : isDigit b) : isValueByte b := by
  simp only [isDigit, Bool.and_eq_true, decide_eq_true_eq] at h
  simp only [isValueByte, Bool.or_eq_true, Bool.and_eq_true, decide_eq_true_eq]
  left
  constructor <;> omega

theorem isDigit_decimal (n : Nat) : ∀ b ∈ decimal n, isDigit b := by
  intro b hb
  obtain ⟨c, hc, rfl⟩ := List.mem_map.mp hb
  have hd := Nat.isDigit_of_mem_toDigits (by decide) (by decide) hc
  simp only [Char.isDigit, Bool.and_eq_true, decide_eq_true_eq, ge_iff_le, UInt32.le_iff_toNat_le] at hd
  obtain ⟨hlo, hhi⟩ := hd
  have hlo : 48 ≤ c.toNat := hlo
  have hhi : c.toNat ≤ 57 := hhi
  have hn : (UInt8.ofNat c.toNat).toNat = c.toNat := by
    rw [UInt8.toNat_ofNat']
    omega
  simp only [isDigit, hn, Bool.and_eq_true, decide_eq_true_eq]
  exact ⟨hlo, hhi⟩

/-- `HeaderValue::from` of a number. -/
def HeaderValue.ofNat (n : Nat) : HeaderValue :=
  ⟨decimal n, fun b hb => isValueByte_digit (isDigit_decimal n b hb)⟩

def HeaderValue.xml : HeaderValue := ⟨ascii "application/xml", by decide⟩

/-- `IntoResponse`. -/
def S3Error.intoResponse (e : S3Error) : Response where
  status := e.status
  headers := [(.contentType, .xml), (.contentLength, .ofNat e.body.length)]
  body := .text e.body

end Nestor.S3
