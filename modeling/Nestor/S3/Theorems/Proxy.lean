import Nestor.S3.Lemmas.Forward
import Nestor.S3.Routes
import Nestor.Store.Path

/-!
# What the endpoint does with requests it forwards
-/

namespace Nestor.S3

open Lib

variable {uri : Uri} {now : Int} {origin : OriginConfig} {target : Target}
    {rawQuery bucket host path originHost : Bytes} {addressing : Addressing}

/-! ## Credentials -/

/-- The headers a request is signed with. -/
def signingHeaders : List HeaderName := [.authorization, .xAmzDate, .xAmzContentSha256, .xAmzSecurityToken]

/-- Before it is signed, a forwarded request has none of the headers it is signed with. -/
theorem not_mem_of_signingHeader {incoming headers : HeaderMap} {streaming : Bool} {host : HeaderValue}
    (hh : upstreamHeaders incoming streaming = .ok headers) {name : HeaderName} {value : HeaderValue}
    (hn : name ∈ signingHeaders) : (name, value) ∉ headers.insert .host host := by
  have hall : ∀ name ∈ signingHeaders, name ≠ .contentLength ∧ name ≠ .host ∧ isWithheld name = true := by
    decide
  obtain ⟨hlength, hhost, hw⟩ := hall name hn
  intro hmem
  obtain ⟨-, hmem⟩ | ⟨he, -⟩ := HeaderMap.mem_insert.mp hmem
  · obtain he | he := mem_upstreamHeaders hh hmem
    · exact hlength he
    · rw [hw] at he
      cases he
  · exact hhost he

section

variable [Chrono]

/-- A header as the signer writes it with the credentials of the origin. -/
inductive OriginSigned (creds : Credentials) (now : Int) : HeaderName → HeaderValue → Prop
  | authorization {value : HeaderValue} (auth : Authorization) (hk : auth.accessKey = creds.accessKey)
      (hv : value.bytes = auth.headerValue) : OriginSigned creds now .authorization value
  | date {value : HeaderValue} (hv : value.bytes = Chrono.amzDate now) : OriginSigned creds now
      .xAmzDate value
  | payload : OriginSigned creds now .xAmzContentSha256 .unsignedPayload
  | token {value : HeaderValue} (hv : creds.sessionToken = some value.bytes) :
      OriginSigned creds now .xAmzSecurityToken value

variable [Crypto]

theorem originSigned_of_sign {keys keys' : SigningKeys} {method : Method} {headers headers' : HeaderMap}
    {creds : Credentials} {region : Bytes} (hnone : ∀ name ∈ signingHeaders, ∀ value, (name, value) ∉ headers)
    (h : keys.sign method uri headers creds region now = some (headers', keys')) {name : HeaderName}
    {value : HeaderValue} (hmem : (name, value) ∈ headers') (hn : name ∈ signingHeaders) :
    OriginSigned creds now name value := by
  obtain ⟨date, auth, hdate, hauth, rfl⟩ := sign_cases h
  obtain ⟨-, hmem⟩ | ⟨rfl, rfl⟩ := HeaderMap.mem_insert.mp hmem
  · obtain hmem | ⟨rfl, rfl⟩ | ⟨rfl, rfl⟩ | ⟨rfl, htoken⟩ := mem_datedHeaders hmem
    · exact (hnone name hn value hmem).elim
    · exact .date (HeaderValue.fromStr_eq_some hdate)
    · exact .payload
    · obtain ⟨token, ht, hv⟩ := Option.bind_eq_some_iff.mp htoken
      exact .token (by rw [ht, HeaderValue.fromStr_eq_some hv])
  · exact .authorization _ rfl (HeaderValue.fromStr_eq_some hauth)

variable [UriSyntax]

theorem upstreamRequest_eq_ok {provided : Option (Except Bytes Credentials)}
    {keys keys' : SigningKeys} {req sent : Request}
    (h : upstreamRequest origin provided keys req target now = .ok (some (sent, keys'))) :
    ∃ headers host hostValue, upstreamUri origin target (req.uri.query.getD []) = .ok (sent.uri, host) ∧
      upstreamHeaders req.headers (isStreaming req.headers) = .ok headers ∧
      (provided = none ∧ sent.headers = headers.insert .host hostValue ∨
        ∃ creds, provided = some (.ok creds) ∧ keys.sign req.method sent.uri (headers.insert .host hostValue)
          creds origin.region now = some (sent.headers, keys')) := by
  obtain ⟨⟨uri, host⟩, hu, h⟩ := bind_eq_ok.mp h
  obtain ⟨headers, hh, h⟩ := bind_eq_ok.mp h
  cases hv : HeaderValue.fromStr host with
  | none =>
      rw [hv] at h
      cases h
  | some hostValue =>
      rw [hv] at h
      match provided with
      | none =>
          cases h
          exact ⟨headers, host, hostValue, hu, hh, .inl ⟨rfl, rfl⟩⟩
      | some (.error e) => cases h
      | some (.ok creds) =>
          obtain ⟨⟨headers', keys₁⟩, hs, he⟩ := Option.map_eq_some_iff.mp (Except.ok.inj h)
          cases he
          exact ⟨headers, host, hostValue, hu, hh, .inr ⟨creds, rfl, hs⟩⟩

/-- Of what the client signed its request with, nothing in the headers is forwarded. In the query,
the presign parameters are dropped by their names as they are written: they are all gone if none is
written otherwise. The other pairs are kept. -/
theorem credentials_withheld {origin : OriginConfig} {provided : Option (Except Bytes Credentials)}
    {keys keys' : SigningKeys} {req sent : Request} {target : Target} {now : Int}
    (h : upstreamRequest origin provided keys req target now = .ok (some (sent, keys'))) :
    (∀ name value, (name, value) ∈ sent.headers → name ∈ signingHeaders →
      ∃ creds, provided = some (.ok creds) ∧ OriginSigned creds now name value) ∧
    (queryPairs (sent.uri.query.getD [])).filter (fun p => !readsAsPresign p) =
      (queryPairs (req.uri.query.getD [])).filter (fun p => !readsAsPresign p) ∧
    ((∀ p ∈ queryPairs (sent.uri.query.getD []), ¬ readsAsPresign p) ↔
      ∀ p ∈ queryPairs (req.uri.query.getD []), readsAsPresign p → isPresignParam (nameValue p).1) := by
  obtain ⟨headers, host, hostValue, hu, hh, hsent⟩ := upstreamRequest_eq_ok h
  have hquery : queryPairs (sent.uri.query.getD []) =
      (queryPairs (req.uri.query.getD [])).filter fun p => !isPresignParam (nameValue p).1 := by
    rw [(upstreamUri_eq_ok hu).2, ← queryPairs_upstreamQuery]
    unfold nonEmpty
    split
    · rename_i hnil
      rw [hnil]
      rfl
    · rfl
  refine ⟨?_, ?_, ?_⟩
  · intro name value hmem hn
    obtain ⟨-, hs⟩ | ⟨creds, hp, hs⟩ := hsent
    · rw [hs] at hmem
      exact (not_mem_of_signingHeader hh hn hmem).elim
    · exact ⟨creds, hp, originSigned_of_sign (fun _ hn _ => not_mem_of_signingHeader hh hn) hs hmem hn⟩
  · rw [hquery, List.filter_filter]
    refine List.filter_congr fun p _ => ?_
    cases hp : isPresignParam (nameValue p).1 with
    | false => simp
    | true => simp [readsAsPresign_of_isPresignParam hp]
  · rw [hquery]
    simp only [List.mem_filter, Bool.not_eq_true', and_imp]
    constructor
    · intro hall p hp hr
      by_contra hno
      exact hall p hp (Bool.eq_false_iff.mpr hno) hr
    · intro hall p hp hno hr
      rw [hall p hp hr] at hno
      cases hno

end

/-- Every URI parses. -/
abbrev laxSyntax : UriSyntax := ⟨fun _ _ => true⟩

/-- Hashes of no bytes. -/
abbrev noCrypto : Crypto := ⟨fun _ => [], fun _ _ => []⟩

/-- No dates. -/
abbrev noChrono : Chrono := ⟨fun _ => [], fun _ => none, 0⟩

def sampleOrigin : OriginConfig := ⟨ascii "http", some (ascii "origin"), ascii "r", false⟩

def sampleTarget : Target := ⟨some (ascii "bucket"), some (ascii "k")⟩

/-- What is sent for a request with a query to an origin that needs no credentials. -/
def sentSample (method : Method) (query : Bytes) : Except S3Error (Option Request) :=
  (@upstreamRequest laxSyntax noCrypto noChrono sampleOrigin none (@SigningKeys.default noCrypto)
    ⟨method, ⟨none, ascii "/bucket/k", some query⟩, []⟩ sampleTarget 0).map (·.map (·.1))

/-- A presign parameter that is written with an escape is forwarded. -/
theorem credentials_withheld_escape :
    (sentSample .put (ascii "X%2DAmz-Signature=abc")).map (·.bind (·.uri.query)) =
        .ok (some (ascii "X%2DAmz-Signature=abc")) ∧
      queryParam (ascii "X%2DAmz-Signature=abc") (ascii "X-Amz-Signature") = some (ascii "abc") := by
  decide

theorem credentials_withheld_plain :
    ∃ sent, sentSample .put (ascii "x-amz-signature=abc&a=1") = .ok (some sent) ∧
      sent.uri.query = some (ascii "a=1") ∧ ∀ p ∈ queryPairs (sent.uri.query.getD []),
      ¬ readsAsPresign p := by
  have hq : (sentSample .put (ascii "x-amz-signature=abc&a=1")).map (·.map (·.uri.query)) =
      .ok (some (some (ascii "a=1"))) := by decide
  unfold sentSample at hq ⊢
  cases hu : @upstreamRequest laxSyntax noCrypto noChrono sampleOrigin none (@SigningKeys.default noCrypto)
      ⟨.put, ⟨none, ascii "/bucket/k", some (ascii "x-amz-signature=abc&a=1")⟩, []⟩ sampleTarget 0 with
  | error e =>
      rw [hu] at hq
      cases hq
  | ok result =>
      match result with
      | none =>
          rw [hu] at hq
          cases hq
      | some (sent, keys') =>
          rw [hu] at hq
          have hclean := (@credentials_withheld noChrono noCrypto laxSyntax _ _ _ _ _ _ _ _ hu).2.2.mpr
            (by decide)
          exact ⟨sent, rfl, Option.some.inj (Except.ok.inj hq), hclean⟩

/-! ## Writes and the cache -/

/-- What a write of an object is to be classified as. -/
def writeMutation (method : Method) : Mutation := if method = .put then .putObject else .deleteObject

theorem classify_write {method : Method} (copy : Bool)
    (hm : method = .put ∨ method = .delete) (hk : target.key.isSome) (hq : upstreamQuery rawQuery = []) :
    classify method target rawQuery copy =
      if rawQuery = [] ∨ method = .put ∧ copy then writeMutation method else .none := by
  have hpart : queryParam rawQuery (ascii "partNumber") = none :=
    queryParam_of_upstreamQuery hq (by decide) (by decide)
  obtain rfl | rfl := hm
  · simp [classify, writeMutation, hk, hpart, or_comm]
  · have hne : Method.delete ≠ .put ∧ Method.delete ≠ .post := by decide
    simp [classify, writeMutation, hk, hne]

theorem forward_success [XmlReader] {namespaces : Namespaces} (populateMax : Option Nat) (req : Request)
    (rawQuery : Bytes) {answer : Answer} {ns : NamespaceState} (hs : isSuccess answer.response.status)
    (hb : target.bucket = some bucket) (hns : namespaces bucket = .ok ns) :
    ∃ captured, forward namespaces populateMax req target rawQuery (.ok answer) =
      (mutationUpdates (classify req.method target rawQuery (req.headers.containsKey .xAmzCopySource))
        ns bucket target.key ⟨answer.response, captured⟩ (payloadSize req.headers)).map fun updates =>
          (.ok answer.response, updates) := by
  unfold forward
  simp only [hb, hns]
  split
  · exact ⟨answer.captured, by simp [hs, Option.map_eq_bind]⟩
  · exact ⟨none, by simp [hs, Option.map_eq_bind]⟩

theorem invalidate_mem_writeUpdates [XmlReader] (method : Method) (ns : NamespaceState) (bucket key : Bytes)
    (answer : Answer) (size : Option Nat) :
    ∃ updates, mutationUpdates (writeMutation method) ns bucket (some key) answer size = some updates ∧
      .invalidate ns key ∈ updates := by
  unfold writeMutation
  split
  · exact ⟨_, rfl, List.mem_cons_self⟩
  · exact ⟨_, rfl, List.mem_cons_self⟩

/-- A write of an object whose query the origin does not get to see is classified as such if the
client's query is empty, or it is a copy. The answer of the origin then invalidates the object,
unless the path has no bucket. -/
theorem write_invalidates [XmlReader] {namespaces : Namespaces} {populateMax : Option Nat} {req : Request}
    {target : Target} {rawQuery key : Bytes} {answer : Answer} {ns : Bytes → NamespaceState}
    (hm : req.method = .put ∨ req.method = .delete) (hk : target.key = some key)
    (hq : upstreamQuery rawQuery = []) (hns : ∀ bucket, namespaces bucket = .ok (ns bucket))
    (hs : isSuccess answer.response.status) :
    (classify req.method target rawQuery (req.headers.containsKey .xAmzCopySource) = writeMutation
      req.method ↔ rawQuery = [] ∨ req.method = .put ∧ req.headers.containsKey .xAmzCopySource) ∧
    ((∃ bucket updates, target.bucket = some bucket ∧
        forward namespaces populateMax req target rawQuery (.ok answer) =
          some (.ok answer.response, updates) ∧
        .invalidate (ns bucket) key ∈ updates) ↔
      (rawQuery = [] ∨ req.method = .put ∧ req.headers.containsKey .xAmzCopySource)
        ∧ target.bucket.isSome) := by
  have hkey : target.key.isSome := by simp [hk]
  have hclassify := classify_write (req.headers.containsKey .xAmzCopySource) hm hkey hq
  have hwrite : writeMutation req.method ≠ .none := by
    unfold writeMutation
    split <;> simp
  have hiff : classify req.method target rawQuery (req.headers.containsKey .xAmzCopySource) =
      writeMutation req.method ↔ rawQuery = [] ∨ req.method = .put ∧
      req.headers.containsKey .xAmzCopySource := by
    rw [hclassify]
    split
    · rename_i hc
      simp [hc]
    · rename_i hc
      simp [hc, Ne.symm hwrite]
  refine ⟨hiff, ?_⟩
  constructor
  · rintro ⟨bucket, updates, hb, hf, hmem⟩
    refine ⟨?_, by simp [hb]⟩
    by_contra hc
    obtain ⟨captured, he⟩ := forward_success populateMax req rawQuery hs hb (hns bucket)
    rw [hclassify, if_neg hc] at he
    rw [he] at hf
    cases hf
    cases hmem
  · rintro ⟨hc, hb⟩
    obtain ⟨bucket, hb⟩ := Option.isSome_iff_exists.mp hb
    obtain ⟨captured, he⟩ := forward_success populateMax req rawQuery hs hb (hns bucket)
    rw [hiff.mpr hc, hk] at he
    obtain ⟨updates, hu, hmem⟩ := invalidate_mem_writeUpdates req.method (ns bucket) bucket key
      ⟨answer.response, captured⟩ (payloadSize req.headers)
    rw [hu] at he
    exact ⟨bucket, updates, hb, he, hmem⟩

def sampleNs : NamespaceState := ⟨0, ascii "bucket", .default⟩

def sampleWrite (method : Method) (query : Bytes) : Request :=
  ⟨method, ⟨none, ascii "/bucket/k", some query⟩, []⟩

/-- The updates after the origin has answered a write of `/bucket/k` with `200`. -/
def updatesSample (method : Method) (query : Bytes) : Option (List CacheUpdate) :=
  (@forward .blank (fun _ => .ok sampleNs) none (sampleWrite method query) sampleTarget query
    (.ok ⟨⟨200, [], .empty⟩, none⟩)).map (·.2)

theorem write_invalidates_presigned :
    let query := ascii "X-Amz-Algorithm=AWS4-HMAC-SHA256&X-Amz-Signature=abc"
    upstreamQuery query = [] ∧ classify .put sampleTarget query false = .none ∧
      classify .delete sampleTarget query false = .none ∧ updatesSample .put query = some [] ∧
      updatesSample .delete query = some [] := by
  decide

theorem write_invalidates_plain :
    ∃ bucket updates, sampleTarget.bucket = some bucket ∧
      @forward .blank (fun _ => .ok sampleNs) none (sampleWrite .delete []) sampleTarget []
      (.ok ⟨⟨200, [], .empty⟩, none⟩) =
        some (.ok ⟨200, [], .empty⟩, updates) ∧ .invalidate sampleNs (ascii "k") ∈ updates := by
  have hinv := (@write_invalidates .blank (fun _ => .ok sampleNs) none (sampleWrite .delete []) sampleTarget
    [] (ascii "k") ⟨⟨200, [], .empty⟩, none⟩ (fun _ => sampleNs) (.inr rfl) rfl rfl (fun _ => rfl) rfl).2
  exact hinv.mpr ⟨.inl rfl, rfl⟩

/-! ## Names of objects -/

/-- The key a forwarded request writes, as the origin decodes it. -/
def writtenKey (origin : OriginConfig) (target : Target) (uri : Uri) : Option Bytes :=
  (uri.path.dropPrefix? (keyStem origin target)).map percentDecode

theorem writtenKey_eq [UriSyntax] {key : Bytes} (hr : addressing.resolve host path = .ok target)
    (hk : target.key = some key) (hu : upstreamUri origin target rawQuery = .ok (uri, originHost)) :
    writtenKey origin target uri = some key := by
  have hpath : uri.path = keyStem origin target ++ uriEncode key false := by
    rw [(upstreamUri_eq_ok hu).2, upstreamPath_eq fun _ hb => Addressing.wellFormed_of_resolve hr hb, hk]
    rfl
  rw [writtenKey, hpath, dropPrefix?_eq_some.mpr rfl, Option.map_some, percentDecode_uriEncode,
    (Addressing.key_of_resolve hr hk).2]

/-- Reads of a key ask the origin for the object that writes of it go to, if the key consists of
legal segments and none of them is empty. -/
theorem same_object [UriSyntax] [Store.PathPart] [Store.LawfulPathPart] {addressing : Addressing}
    {host path key rawQuery originHost : Bytes} {target : Target} {origin : OriginConfig} {uri : Uri}
    (hr : addressing.resolve host path = .ok target) (hk : target.key = some key)
    (hu : upstreamUri origin target rawQuery = .ok (uri, originHost)) :
    writtenKey origin target uri = some (Store.pathOf key) ↔ (Store.segments key).all Store.isSegment := by
  rw [writtenKey_eq hr hk hu, Option.some.injEq, eq_comm,
    Store.pathOf_eq_self (Addressing.key_of_resolve hr hk).1]

def escapeDots (s : Bytes) : Bytes :=
  if s = ascii "." then ascii "%2E" else if s = ascii ".." then ascii "%2E%2E" else s

/-- Everything is legal but dots. -/
abbrev dotParts : Store.PathPart := ⟨fun s => s ≠ ascii "." && s ≠ ascii "..", escapeDots⟩

theorem lawful_dotParts : @Store.LawfulPathPart dotParts := by
  refine @Store.LawfulPathPart.mk dotParts ?_ ?_
  · intro s hs
    change 47 ∉ escapeDots s
    unfold escapeDots
    split
    · decide
    · split
      · decide
      · exact hs
  · intro s _ hl
    have hl : (decide (s ≠ ascii ".") && decide (s ≠ ascii "..")) = false := hl
    rw [Bool.and_eq_false_iff, decide_eq_false_iff_not, decide_eq_false_iff_not, not_not, not_not] at hl
    obtain rfl | rfl := hl
    · decide
    · decide

/-- What is written for a path, and what is read for it. -/
def objectSample (path : Bytes) : Except S3Error (Option Bytes × Option Bytes) := do
  let target ← Addressing.path.resolve [] path
  let (uri, _) ← @upstreamUri laxSyntax sampleOrigin target []
  pure (writtenKey sampleOrigin target uri, target.key.map (@Store.pathOf dotParts))

/-- A slash at the end is written and not read. -/
theorem same_object_slash :
    objectSample (ascii "/bucket/a/") = .ok (some (ascii "a/"), some (ascii "a")) ∧
      objectSample (ascii "/bucket/a") = .ok (some (ascii "a"), some (ascii "a")) := by
  decide

theorem same_object_plain :
    writtenKey sampleOrigin sampleTarget ⟨some (ascii "origin"), ascii "/bucket/k", none⟩ =
      some (@Store.pathOf dotParts (ascii "k")) := by
  have hr : Addressing.path.resolve [] (ascii "/bucket/k") = .ok sampleTarget := by decide
  have hu : @upstreamUri laxSyntax sampleOrigin sampleTarget [] =
      .ok (⟨some (ascii "origin"), ascii "/bucket/k", none⟩, ascii "origin") := by decide
  exact (@same_object laxSyntax dotParts lawful_dotParts _ _ _ _ _ _ _ _ _ hr rfl hu).mpr (by decide)

/-! ## Buckets -/

/-- What stands before the first slash of a path, after the one it starts with. -/
def firstSegment (path : Bytes) : Option Bytes :=
  (nonEmpty (strippedPath path)).map fun rest => ((splitOnce slash rest).map (·.1)).getD rest

/-- The bucket an origin reads off the host of a request, or else off its path. -/
def originBucket (origin : OriginConfig) (uri : Uri) : Option Bytes :=
  let label := do
    let host ← uri.authority
    let authority ← origin.authority
    host.dropSuffix? (ascii "." ++ authority)
  if origin.virtualHosted then label.or (firstSegment uri.path) else firstSegment uri.path

theorem firstSegment_bucket (h : wellFormedBucket bucket) (rest : Bytes) :
    firstSegment (slash :: (bucket ++ slash :: rest)) = some bucket := by
  have hno := slash_not_mem_bucket (isBucketByte_of_wellFormed h)
  have hne : nonEmpty (bucket ++ slash :: rest) = some (bucket ++ slash :: rest) :=
    nonEmpty_eq_some.mpr ⟨by simp, rfl⟩
  rw [firstSegment, strippedPath_cons, hne, Option.map_some, splitOnce_append _ hno]
  rfl

theorem firstSegment_key {key : Bytes} (h : key ≠ []) :
    (firstSegment (slash :: uriEncode key false)).isSome := by
  have hne : uriEncode key false ≠ [] := fun he => h (uriEncode_injective (he.trans rfl))
  rw [firstSegment, strippedPath_cons, nonEmpty_eq_some.mpr ⟨hne, rfl⟩]
  rfl

/-- The origin reads the bucket of the target. -/
theorem originBucket_some [UriSyntax] (hr : addressing.resolve host path = .ok target)
    (hu : upstreamUri origin target rawQuery = .ok (uri, originHost)) (hb : target.bucket = some bucket) :
    originBucket origin uri = some bucket := by
  obtain ⟨hh, rfl⟩ := upstreamUri_eq_ok hu
  have hpath : upstreamPath origin target = keyStem origin target ++ uriEncode (target.key.getD []) false :=
    upstreamPath_eq fun _ hb => Addressing.wellFormed_of_resolve hr hb
  simp only [upstreamHost, hb, OriginConfig.bucketHost] at hh
  cases ha : origin.authority with
  | none =>
      rw [ha] at hh
      cases hh
  | some authority =>
      rw [ha] at hh
      cases hv : origin.virtualHosted with
      | true =>
          rw [hv] at hh
          cases hh
          have hlabel : (bucket ++ (ascii "." ++ authority)).dropSuffix? (ascii "." ++ authority) =
              some bucket :=
            dropSuffix?_eq_some.mpr rfl
          simp [originBucket, hv, ha, hlabel]
      | false =>
          have hstem : keyStem origin target = slash :: (bucket ++ [slash]) := by simp [keyStem, hb, hv]
          have hseg := firstSegment_bucket (Addressing.wellFormed_of_resolve hr hb)
            (uriEncode (target.key.getD []) false)
          simp [originBucket, hv, hpath, hstem, hseg]

/-- Without one it reads the first segment of the key as a bucket. -/
theorem originBucket_none [UriSyntax] (hr : addressing.resolve host path = .ok target)
    (hu : upstreamUri origin target rawQuery = .ok (uri, originHost)) (hb : target.bucket = none) :
    (originBucket origin uri).isSome ↔ target.key.isSome := by
  obtain ⟨hh, rfl⟩ := upstreamUri_eq_ok hu
  have hpath : upstreamPath origin target = slash :: uriEncode (target.key.getD []) false := by
    rw [upstreamPath_eq fun _ hb => Addressing.wellFormed_of_resolve hr hb, keyStem, hb]
    rfl
  have hlabel {authority : Bytes} : authority.dropSuffix? (ascii "." ++ authority) = none := by
    cases hd : authority.dropSuffix? (ascii "." ++ authority) with
    | none => rfl
    | some label =>
        have := congrArg List.length (dropSuffix?_eq_some.mp hd)
        simp only [List.length_append, show (ascii ".").length = 1 from rfl] at this
        omega
  have hbucket : originBucket origin ⟨some originHost, upstreamPath origin target,
      nonEmpty (upstreamQuery rawQuery)⟩ = firstSegment (upstreamPath origin target) := by
    simp only [upstreamHost, hb] at hh
    cases ha : origin.authority with
    | none =>
        rw [ha] at hh
        cases hh
    | some authority =>
        rw [ha] at hh
        cases hh
        simp [originBucket, ha, hlabel]
  rw [hbucket, hpath]
  cases hk : target.key with
  | none => decide
  | some key => simpa using firstSegment_key (Addressing.key_of_resolve hr hk).1

theorem route_cases [Crypto] [Chrono] {auth : Auth} {keys : SigningKeys} {req : Request} {r : Route}
    (h : route auth addressing keys req now = .ok r) :
    ∃ target, addressing.resolve (hostOf req.headers req.uri) req.uri.path = .ok target ∧
      (r = .serve target ∧ target.key.isSome ∨ r = .forward target (req.uri.query.getD [])) := by
  obtain ⟨_, -, h⟩ := bind_eq_ok.mp h
  obtain ⟨target, ht, h⟩ := bind_eq_ok.mp h
  refine ⟨target, mapError_eq_ok.mp ht, ?_⟩
  dsimp only at h
  split at h
  · rename_i hc
    cases h
    exact .inl ⟨rfl, hc.2.1⟩
  · cases h
    exact .inr rfl

/-- A request that is served names a bucket and a key, and the bucket the origin reads off one that
is forwarded is the one that was found well formed, unless the path has an empty bucket before its
key. -/
theorem bucket_addressed [Crypto] [Chrono] [UriSyntax] {auth : Auth} {addressing : Addressing}
    {keys : SigningKeys} {req : Request} {now : Int} :
    (∀ target, route auth addressing keys req now = .ok (.serve target) →
      (target.bucket.isSome ∧ target.key.isSome ↔
        ¬ addressing.NoBucket (hostOf req.headers req.uri) req.uri.path)) ∧
    ∀ target rawQuery origin uri originHost, route auth addressing keys req now =
      .ok (.forward target rawQuery) → upstreamUri origin target rawQuery = .ok (uri, originHost) →
      ((∀ bucket, originBucket origin uri = some bucket → target.bucket = some bucket ∧
        wellFormedBucket bucket) ↔ ¬ addressing.NoBucket (hostOf req.headers req.uri) req.uri.path) := by
  constructor
  · intro target h
    obtain ⟨target', hr, ⟨he, hk⟩ | he⟩ := route_cases h
    · cases he
      simp [Addressing.noBucket_iff hr, hk, Option.isSome_iff_ne_none]
    · cases he
  · intro target rawQuery origin uri originHost h hu
    obtain ⟨target', hr, ⟨he, -⟩ | he⟩ := route_cases h
    · cases he
    · cases he
      rw [Addressing.noBucket_iff hr]
      cases hb : target.bucket with
      | some bucket =>
          rw [originBucket_some hr hu hb]
          simp [Addressing.wellFormed_of_resolve hr hb]
      | none =>
          rw [← originBucket_none hr hu hb]
          cases originBucket origin uri <;> simp

/-- Where a request goes that needs no authentication, with buckets in the path. -/
def routeSample (method : Method) (path : Bytes) : Except Failure Route :=
  @route noCrypto noChrono .anonymous .path (@SigningKeys.default noCrypto) ⟨method, ⟨none, path, none⟩, []⟩ 0

/-- The bucket the origin reads off a request that is forwarded. -/
def originBucketSample (target : Target) : Except S3Error (Option Bytes) :=
  (@upstreamUri laxSyntax sampleOrigin target []).map fun p => originBucket sampleOrigin p.1

theorem bucket_addressed_empty :
    routeSample .get (ascii "//key") = .ok (.serve ⟨none, some (ascii "key")⟩) ∧
      routeSample .put (ascii "//No_Bucket/key") = .ok (.forward ⟨none, some (ascii "No_Bucket/key")⟩ []) ∧
      originBucketSample ⟨none, some (ascii "No_Bucket/key")⟩ = .ok (some (ascii "No_Bucket")) ∧
      wellFormedBucket (ascii "No_Bucket") = false := by
  decide

theorem bucket_addressed_plain :
    routeSample .get (ascii "/bucket/k") = .ok (.serve sampleTarget) ∧
      sampleTarget.bucket.isSome ∧ sampleTarget.key.isSome := by
  have hr : routeSample .get (ascii "/bucket/k") = .ok (.serve sampleTarget) := by decide
  refine ⟨hr, ((@bucket_addressed noCrypto noChrono laxSyntax _ _ _ _ _).1 _ hr).mpr ?_⟩
  rintro ⟨-, rest, -, hp⟩
  have hhead : some (98 : UInt8) = some 47 := congrArg List.head? hp
  revert hhead
  decide

end Nestor.S3
