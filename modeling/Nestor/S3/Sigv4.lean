import Mathlib.Data.List.Destutter
import Mathlib.Data.List.Sort
import Nestor.S3.Error

/-!
# Signature Version 4

`sigv4.rs`: canonicalisation, the derivation of signing keys, the `Authorization` header, and the
signer. The hash functions and the formats of dates are code of other crates. Times are in
nanoseconds since the epoch.
-/

namespace Nestor.S3

open Lib

/-- SHA-256 and HMAC-SHA-256, of the crates `sha2` and `hmac`. -/
class Crypto where
  sha256 : Bytes → Bytes
  hmac : Bytes → Bytes → Bytes

/-- Writing and reading `%Y%m%dT%H%M%SZ`, of the crate `chrono`, and the last instant it has. -/
class Chrono where
  amzDate : Int → Bytes
  parseAmzDate : Bytes → Option Int
  last : Int

def algorithm : Bytes := ascii "AWS4-HMAC-SHA256"

def service : Bytes := ascii "s3"

def unsignedPayload : Bytes := ascii "UNSIGNED-PAYLOAD"

def terminator : Bytes := ascii "aws4_request"

def newline : UInt8 := 10

def slash : UInt8 := 47

def colon : UInt8 := 58

def ampersand : UInt8 := 38

def equals : UInt8 := 61

def comma : UInt8 := 44

def semicolon : UInt8 := 59

/-! ## Canonical requests -/

def isUnreserved (b : UInt8) : Bool := isDigit b || isLower b || isUpper b || b ∈ ascii "-_.~"

def uriEncode (input : Bytes) (encodeSlash : Bool) : Bytes :=
  percentEncode (fun b => isUnreserved b || !encodeSlash && b = slash) input

def percentDecode (input : Bytes) : Bytes := utf8Lossy (percentDecodeBytes input)

def canonicalUri (rawPath : Bytes) : Bytes :=
  let path := if rawPath = [] then [slash] else rawPath
  uriEncode (percentDecode path) false

/-- The order of strings. -/
def lexLe : Bytes → Bytes → Bool
  | [], _ => true
  | _ :: _, [] => false
  | a :: as, b :: bs => a < b || a = b && lexLe as bs

def pairLe (p q : Bytes × Bytes) : Bool := if p.1 = q.1 then lexLe p.2 q.2 else lexLe p.1 q.1

/-- `split_once('=')`, where a text without `=` is a name without a value. -/
def nameValue (pair : Bytes) : Bytes × Bytes := (splitOnce equals pair).getD (pair, [])

def canonicalQuery (rawQuery : Bytes) (skip : Option Bytes) : Bytes :=
  let pairs := ((rawQuery.splitOn ampersand).filter (· ≠ [])).map fun pair =>
    (uriEncode (percentDecode (nameValue pair).1) true, uriEncode (percentDecode (nameValue pair).2) true)
  let pairs := pairs.filter fun p => skip.all fun s => !eqIgnoreCase p.1 s
  let pairs := pairs.insertionSort (pairLe · ·)
  [ampersand].intercalate (pairs.map fun p => p.1 ++ equals :: p.2)

/-- Every run of blanks becomes one space. -/
def collapse (lastSpace : Bool) : Bytes → Bytes
  | [] => []
  | b :: rest =>
      if b = 32 ∨ b = 9 then (if lastSpace then [] else [32]) ++ collapse true rest else b ::
        collapse false rest

def normalizeValue (value : Bytes) : Bytes := collapse false (trimText value)

def canonicalHeader (headers : HeaderMap) (host name : Bytes) : Bytes :=
  let value := if name = ascii "host" then normalizeValue host
    else
      let values := (headers.getAll name).map fun v => normalizeValue (utf8Lossy v.bytes)
      [comma].intercalate (values.insertionSort (lexLe · ·))
  name ++ colon :: value ++ [newline]

def canonicalHeaders (headers : HeaderMap) (signed : List Bytes) (host : Bytes) : Bytes :=
  signed.flatMap (canonicalHeader headers host)

structure Canonical where
  method : Method
  rawPath : Bytes
  rawQuery : Bytes
  headers : HeaderMap
  host : Bytes
  signedHeaders : List Bytes
  payloadHash : Bytes
  skipQuery : Option Bytes

def canonicalRequest (c : Canonical) : Bytes :=
  c.method.name ++ newline :: (canonicalUri c.rawPath ++ newline :: (canonicalQuery c.rawQuery c.skipQuery ++
    newline :: (canonicalHeaders c.headers c.signedHeaders c.host ++ newline ::
      ([semicolon].intercalate c.signedHeaders ++ newline :: c.payloadHash))))

/-! ## Signing keys and signatures -/

/-- The lower-case hex digit of a number below sixteen. -/
def lowerHexDigit (n : Nat) : UInt8 := UInt8.ofNat (if n < 10 then 48 + n else 87 + n)

def hexEncode (bytes : Bytes) : Bytes :=
  bytes.flatMap fun b => [lowerHexDigit (b.toNat / 16), lowerHexDigit (b.toNat % 16)]

def scope (date region : Bytes) : Bytes :=
  date ++ slash :: (region ++ slash :: (service ++ slash :: terminator))

section

variable [Crypto]

def sha256Hex (data : Bytes) : Bytes := hexEncode (Crypto.sha256 data)

def stringToSign (amzDate scope canonical : Bytes) : Bytes :=
  algorithm ++ newline :: (amzDate ++ newline :: (scope ++ newline :: sha256Hex canonical))

def signingKey (secret date region : Bytes) : Bytes :=
  let kDate := Crypto.hmac (ascii "AWS4" ++ secret) date
  let kRegion := Crypto.hmac kDate region
  let kService := Crypto.hmac kRegion service
  Crypto.hmac kService terminator

def signature (key stringToSign : Bytes) : Bytes := hexEncode (Crypto.hmac key stringToSign)

/-- A derived key that is kept. -/
structure SigningKey where
  secret : Bytes
  day : Bytes
  region : Bytes
  key : Bytes
  derived : key = signingKey secret day region

def signingKeysKept : Nat := 8

/-- The keys derived last. -/
structure SigningKeys where
  entries : List SigningKey
  kept : entries.length ≤ signingKeysKept

namespace SigningKeys

def default : SigningKeys := ⟨[], Nat.zero_le _⟩

/-- The entries with one more, and without the oldest if there are enough already. -/
def push (keys : SigningKeys) (entry : SigningKey) : SigningKeys where
  entries := (if keys.entries.length = signingKeysKept then keys.entries.drop 1 else keys.entries) ++ [entry]
  kept := by
    have := keys.kept
    have hpos : signingKeysKept = 8 := rfl
    split
    · simp only [List.length_append, List.length_drop, List.length_singleton]
      omega
    · simp only [List.length_append, List.length_singleton]
      omega

def get (keys : SigningKeys) (secret day region : Bytes) : Bytes × SigningKeys :=
  match keys.entries.find? fun e => e.day = day ∧ e.region = region ∧ e.secret = secret with
  | some entry => (entry.key, keys)
  | none =>
      let key := signingKey secret day region
      (key, keys.push ⟨secret, day, region, key, rfl⟩)

end SigningKeys

end

/-! ## The `Authorization` header -/

structure Authorization where
  accessKey : Bytes
  date : Bytes
  region : Bytes
  signedHeaders : List Bytes
  signature : Bytes
deriving DecidableEq

namespace Authorization

def assemble (credential signedHeaders signature : Bytes) : Option Authorization :=
  match credential.splitOn slash with
  | [accessKey, date, region, s, t] =>
      if s = service ∧ t = terminator then
        some ⟨accessKey, date, region, (signedHeaders.splitOn semicolon).map lower, signature⟩
      else none
  | _ => none

/-- The parts of the header that have been read. -/
structure Parts where
  credential : Option Bytes
  signedHeaders : Option Bytes
  signature : Option Bytes

def readPart (parts : Parts) (part : Bytes) : Option Parts := do
  let (k, v) ← splitOnce equals (trimText part)
  if k = ascii "Credential" then some { parts with credential := some v }
  else if k = ascii "SignedHeaders" then some { parts with signedHeaders := some v }
  else if k = ascii "Signature" then some { parts with signature := some v }
  else none

def parseHeader (value : Bytes) : Option Authorization := do
  let rest ← value.dropPrefix? algorithm
  let rest := trimStart whiteSpace rest
  let parts ← (rest.splitOn comma).foldlM readPart ⟨none, none, none⟩
  assemble (← parts.credential) (← parts.signedHeaders) (← parts.signature)

def fromQuery (credential signedHeaders signature : Bytes) : Option Authorization :=
  assemble credential signedHeaders signature

def headerValue (a : Authorization) : Bytes :=
  algorithm ++ ascii " Credential=" ++ a.accessKey ++ slash :: scope a.date a.region ++ ascii
    ", SignedHeaders=" ++ [semicolon].intercalate a.signedHeaders ++ ascii ", Signature=" ++ a.signature

end Authorization

/-! ## Signing -/

structure Credentials where
  accessKey : Bytes
  secretKey : Bytes
  sessionToken : Option Bytes

/-- The headers a signature covers. -/
def isSigned (name : HeaderName) : Bool :=
  (name.name.dropPrefix? (ascii "x-amz-")).isSome || name = .host || name = .contentType || name =
    .contentMd5 || name = .range

def signedNames (headers : HeaderMap) : List Bytes :=
  let names := (headers.keys.filter isSigned).map (·.name)
  (names.insertionSort (lexLe · ·)).destutter (· ≠ ·)

def HeaderValue.unsignedPayload : HeaderValue := ⟨S3.unsignedPayload, by decide⟩

variable [Crypto] [Chrono]

/-- The headers with the date, and the security token if it can be a header. -/
def datedHeaders (headers : HeaderMap) (date : HeaderValue) (sessionToken : Option Bytes) : HeaderMap :=
  let headers := (headers.insert .xAmzDate date).insert .xAmzContentSha256 .unsignedPayload
  match sessionToken.bind HeaderValue.fromStr with
  | some v => headers.insert .xAmzSecurityToken v
  | none => headers

/-- `SigningKeys::sign`; `none` where it panics. -/
def SigningKeys.sign (keys : SigningKeys) (method : Method) (uri : Uri) (headers : HeaderMap)
    (creds : Credentials) (region : Bytes) (now : Int) : Option (HeaderMap × SigningKeys) := do
  let host := ((headers.get .host).bind HeaderValue.toStr).getD []
  let date := Chrono.amzDate now
  let day := date.take 8
  if date.length < 8 then none
  else
    let dateValue ← HeaderValue.fromStr date
    let headers := datedHeaders headers dateValue creds.sessionToken
    let signed := signedNames headers
    let canonical := canonicalRequest ⟨method, uri.path, uri.query.getD [], headers, host, signed,
      S3.unsignedPayload, none⟩
    let sts := stringToSign date (scope day region) canonical
    let (key, keys) := keys.get creds.secretKey day region
    let auth : Authorization := ⟨creds.accessKey, day, region, signed, signature key sts⟩
    let value ← HeaderValue.fromStr auth.headerValue
    some (headers.insert .authorization value, keys)

end Nestor.S3
