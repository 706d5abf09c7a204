import Nestor.Engine.Stream
import Nestor.S3.Forward
import Nestor.S3.Headers

/-!
# Routing

`routes.rs`: a request is authenticated and its bucket resolved. GET and HEAD of an object without a
query are served from the cache. Everything else is forwarded, and what a successful answer changes
is applied to the cache.

An `expect` that fails is `none`. Buckets become namespaces on first use; `Namespaces` is what
`S3Service::namespace` returns for a bucket.
-/

namespace Nestor.S3

open Lib

abbrev Namespaces := Bytes → Except S3Error NamespaceState

/-! ## Serving from the cache -/

def unsatisfiable (key : Bytes) (size : Nat) : Response :=
  let response := (S3Error.invalidRange key).intoResponse
  match HeaderValue.fromStr (ascii "bytes */" ++ decimal size) with
  | some v => { response with headers := response.headers.insert .contentRange v }
  | none => response

def readFailure (text : S3Error.ErrorText) (e : NestorError) (key : Bytes) : Except S3Error Response :=
  match e with
  | .range _ size => .ok (unsatisfiable key size)
  | other => .error (.fromNestor text other key)

def HeaderValue.octetStream : HeaderValue := ⟨ascii "application/octet-stream", by decide⟩

/-- The response once the metadata is known. -/
def respond [HttpDates] (headers : HeaderMap) (key : Bytes) (m : ObjectMeta) (body : Body) :
    Except S3Error Response :=
  let range := parseRange headers
  let out := (objectHeaders [] m).insert .contentType .octetStream
  match (preconditions headers).evaluate m with
  | .notModified => .ok ⟨304, out, .empty⟩
  | .failed => .error (.preconditionFailed key)
  | .satisfied =>
      match (range.getD .full).resolve m.size with
      | .error _ => .ok (unsatisfiable key m.size)
      | .ok resolved =>
          let out := contentHeaders out resolved m.size range.isSome
          .ok ⟨if range.isSome then 206 else 200, out, body⟩

section

variable [TagHash] [HttpDates] [Humantime]

/-- What is served, and the stream that is its body. -/
abbrev Served := Except S3Error (Response × Option ReadStream)

def serveHead (fuel : Nat) (text : S3Error.ErrorText) (ns : NamespaceState) (headers : HeaderMap)
    (key : Bytes) :
    Program Served := do
  match ← headMeta fuel ns key with
  | .error e => pure (.error (.fromNestor text e key))
  | .ok m => pure ((respond headers key m .empty).map (·, none))

def serveGet (fuel : Nat) (text : S3Error.ErrorText) (ns : NamespaceState) (headers : HeaderMap)
    (key : Bytes) :
    Program Served := do
  match fetchOverrides headers with
  | .error e => pure (.error e)
  | .ok overrides =>
      let request := (parseRange headers).getD .full
      match ← openStream fuel ns key request (ns.config.fetch.with overrides) with
      | .error e => pure ((readFailure text e key).map (·, none))
      | .ok stream =>
          match ← stream.ready fuel with
          | (_, .error e) => pure ((readFailure text e key).map (·, none))
          | (stream, .ok m) => pure ((respond headers key m .stream).map (·, some stream))

def serve (fuel : Nat) (text : S3Error.ErrorText) (namespaces : Namespaces) (req : Request)
    (target : Target) :
    Program (Option Served) := do
  match target.bucket, target.key with
  | some bucket, some key =>
      match namespaces bucket with
      | .error e => pure (some (.error e))
      | .ok ns =>
          if req.method = .head then some <$> serveHead fuel text ns req.headers key
          else some <$> serveGet fuel text ns req.headers key
  | _, _ => pure none

end

/-! ## Classifying writes -/

inductive Mutation where
  | none
  | putObject
  | deleteObject
  | completeMultipart
  | deleteObjects
deriving DecidableEq

def classify (method : Method) (target : Target) (rawQuery : Bytes) (copy : Bool) : Mutation :=
  if method = .put ∧ target.key.isSome then
    if (queryParam rawQuery (ascii "partNumber")).isSome then .none
    else if copy ∨ rawQuery = [] then .putObject
    else .none
  else if method = .delete ∧ target.key.isSome ∧ rawQuery = [] then .deleteObject
  else if method = .post ∧ target.key.isSome ∧ (queryParam rawQuery (ascii "uploadId")).isSome then
  .completeMultipart
  else if method = .post ∧ target.key = Option.none ∧ (queryParam rawQuery (ascii "delete")).isSome then
  .deleteObjects
  else .none

/-! ## The keys of `DeleteObjects` -/

/-- What the crate `quick_xml` reads from a document, up to its end or the first error. -/
inductive XmlEvent where
  | start (localName : Bytes)
  | stop (localName : Bytes)
  | text (content : Bytes)
  | generalRef (charRef predefined : Option Bytes)
  | other

class XmlReader where
  events : Bytes → List XmlEvent

/-- No document has events. -/
abbrev XmlReader.blank : XmlReader := ⟨fun _ => []⟩

/-- The keys read so far, and the key that is being read. -/
def deleteKeysStep (state : List Bytes × Option Bytes) (event : XmlEvent) : List Bytes × Option Bytes :=
  let (keys, current) := state
  match event with
  | .start name => (keys, if name = ascii "Key" then some [] else current)
  | .stop name =>
      if name = ascii "Key" then (keys ++ current.toList, none) else (keys, current)
  | .text content => (keys, current.map (· ++ content))
  | .generalRef charRef predefined => (keys, current.map (· ++ (charRef.or predefined).getD []))
  | .other => (keys, current)

def deleteKeys [XmlReader] (xml : Bytes) : List Bytes :=
  ((XmlReader.events xml).foldl deleteKeysStep ([], none)).1

/-! ## Forwarding -/

/-- What a successful answer changes. -/
inductive CacheUpdate where
  | invalidate (ns : NamespaceState) (key : Bytes)
  | insert (ns : NamespaceState) (key : Bytes) (etag : Option Bytes) (data : Bytes)
  /-- `Origins::written`. -/
  | written (bucket key : Bytes) (size : Nat)
deriving DecidableEq

/-- The answer of the origin, and the body of the request if it was captured whole. -/
structure Answer where
  response : Response
  captured : Option Bytes

def deleteObjectsMaxBody : Nat := 4 * 1024 * 1024

def captureLimit (mutation : Mutation) (copy : Bool) (populateMax : Option Nat) : Option Nat :=
  match mutation with
  | .putObject => if copy then none else populateMax
  | .deleteObjects => some deleteObjectsMaxBody
  | _ => none

def payloadSize (headers : HeaderMap) : Option Nat :=
  (((headers.get .xAmzDecodedContentLength).or (headers.get .contentLength)).bind
    HeaderValue.toStr).bind parseU64

def isSuccess (status : Nat) : Bool := 200 ≤ status && status < 300

def populate (ns : NamespaceState) (key : Bytes) (response : Response) (data : Bytes) : CacheUpdate :=
  .insert ns key ((response.headers.get .etag).map (·.bytes)) data

/-- What a write that succeeded changes; `none` where the key is expected and missing. -/
def mutationUpdates [XmlReader] (mutation : Mutation) (ns : NamespaceState) (bucket : Bytes)
    (key : Option Bytes) (answer : Answer) (size : Option Nat) : Option (List CacheUpdate) :=
  match mutation with
  | .none => some []
  | .putObject => key.map fun key =>
      .invalidate ns key :: (answer.captured.toList.map (populate ns key answer.response) ++
        size.toList.map (.written bucket key))
  | .deleteObject | .completeMultipart => key.map fun key => [.invalidate ns key]
  | .deleteObjects => some ((answer.captured.toList.flatMap deleteKeys).map (.invalidate ns))

/-- `forward`, given what the forwarder returns. -/
def forward [XmlReader] (namespaces : Namespaces) (populateMax : Option Nat) (req : Request) (target : Target)
    (rawQuery : Bytes) (answer : Except S3Error Answer) :
    Option (Except S3Error Response × List CacheUpdate) := do
  let copy := req.headers.containsKey .xAmzCopySource
  let mutation := classify req.method target rawQuery copy
  match answer with
  | .error e => some (.error e, [])
  | .ok answer =>
      let answer := if (captureLimit mutation copy populateMax).isSome then answer
        else { answer with captured := none }
      if !isSuccess answer.response.status then some (.ok answer.response, [])
      else match target.bucket with
        | none => some (.ok answer.response, [])
        | some bucket =>
            match namespaces bucket with
            | .error e => some (.error e, [])
            | .ok ns =>
                let updates ← mutationUpdates mutation ns bucket target.key answer (payloadSize req.headers)
                some (.ok answer.response, updates)

/-! ## Dispatch -/

inductive Route where
  | serve (target : Target)
  | forward (target : Target) (rawQuery : Bytes)
deriving DecidableEq

/-- Where `dispatch` sends a request. -/
def route [Crypto] [Chrono] (auth : Auth) (addressing : Addressing) (keys : SigningKeys) (req : Request)
    (now : Int) :
    Except Failure Route := do
  (auth.verify req now keys).1
  let target ← (addressing.resolve (hostOf req.headers req.uri) req.uri.path).mapError .error
  let rawQuery := req.uri.query.getD []
  if (req.method = .get ∨ req.method = .head) ∧ target.key.isSome ∧ rawQuery = [] then pure (.serve target)
  else pure (.forward target rawQuery)

/-- `handle` turns errors into responses. -/
def handled (result : Except S3Error Response) : Response :=
  match result with
  | .ok response => response
  | .error e => e.intoResponse

end Nestor.S3
