import Nestor.S3.Lemmas.Addressing

/-!
# What verification guarantees
-/

namespace Nestor.S3

open Lib

/-! ## How long a request can be replayed -/

section

variable [Chrono]

/-- The last second a presigned query has not expired at, going by its date and its lifetime. -/
def validUntil (rawQuery : Bytes) : Option Int := do
  let amzDate ← queryParam rawQuery (ascii "X-Amz-Date")
  let expires ← (queryParam rawQuery (ascii "X-Amz-Expires")).bind parseI64
  let issued ← Chrono.parseAmzDate amzDate
  some ((issued + expires * second) / second)

theorem Presigned.validUntil_eq {rawQuery : Bytes} {p : Presented} {issued expires : Int}
    (h : Presigned rawQuery p issued expires) :
    validUntil rawQuery = some ((issued + expires * second) / second) := by
  simp [validUntil, h.date, h.lifetime, h.issued]

end

section

variable [Crypto] [Chrono]

/-- A signed request is good for half an hour. A presigned one that is accepted is good for seven
days and a quarter of an hour more unless it will expire later than that, and nothing rejects a date
in the future. -/
theorem replay_window {accessKey secretKey : Bytes} {req : Request} {t₁ : Int} {keys : SigningKeys}
    (hwhole : ∀ text t, Chrono.parseAmzDate text = some t → second ∣ t)
    (h₁ : ((Auth.static accessKey secretKey).verify req (t₁ * second) keys).1 = .ok ()) :
    (req.headers.containsKey .authorization = true → ∀ t₂ keys', t₁ ≤ t₂ →
      ((Auth.static accessKey secretKey).verify req (t₂ * second) keys').1 = .ok () → t₂ - t₁ ≤ 30 * 60) ∧
    (req.headers.containsKey .authorization = false →
      ((∀ t₂ keys', t₁ ≤ t₂ → ((Auth.static accessKey secretKey).verify req (t₂ * second) keys').1 = .ok () →
          t₂ - t₁ ≤ 7 * 24 * 3600 + 15 * 60) ↔
        ∀ last, validUntil (req.uri.query.getD []) = some last → last ≤ t₁ + (7 * 24 * 3600 + 15 * 60))) := by
  constructor
  · intro hkey t₂ keys' ht h₂
    obtain ⟨header, hh⟩ := Option.isSome_iff_exists.mp hkey
    obtain ⟨p, issued, hp, hi, hle⟩ := verify_header h₁ hh
    obtain ⟨p', issued', hp', hi', hle'⟩ := verify_header h₂ hh
    cases hp.symm.trans hp'
    cases hi.symm.trans hi'
    obtain ⟨at', rfl⟩ := hwhole _ _ hi
    have hsub (t : Int) : (t * second - second * at').tdiv second = t - at' := by
      rw [show t * second - second * at' = (t - at') * second by rw [Int.sub_mul, Int.mul_comm second]]
      exact Int.mul_tdiv_cancel _ (by decide)
    rw [hsub] at hle hle'
    unfold maxSkewSecs at hle hle'
    omega
  · intro hkey
    have hh := Option.not_isSome_iff_eq_none.mp (Bool.eq_false_iff.mp hkey)
    obtain ⟨p, issued, expires, hpre, hacc⟩ := verify_presigned h₁ hh
    have hpos : 0 < second := by decide
    have hlast (t : Int) (keys' : SigningKeys) :
        ((Auth.static accessKey secretKey).verify req (t * second) keys').1 = .ok () ↔
          t ≤ (issued + expires * second) / second := by
      rw [hacc, Int.le_ediv_iff_mul_le hpos]
    rw [hpre.validUntil_eq]
    constructor
    · rintro hall last ⟨⟩
      have := hall _ keys ((hlast _ _).mp h₁) ((hlast _ _).mpr le_rfl)
      omega
    · intro hle t₂ keys' ht h₂
      have := hle _ rfl
      have := (hlast _ _).mp h₂
      omega

end

/-- Hashes of four bytes. -/
abbrev shortCrypto : Crypto := ⟨List.take 4, fun _ data => data.take 4⟩

/-- A number in this many digits. -/
def padded (width n : Nat) : Bytes := (List.replicate width 48 ++ decimal n).drop (decimal n).length

/-- `%Y%m%dT%H%M%SZ` of the second, where the year begins in March. -/
def writeDate (t : Nat) : Bytes :=
  let day := t / 86400 + 719468
  let ofEra := day % 146097
  let yearOfEra := (ofEra - ofEra / 1460 + ofEra / 36524 - ofEra / 146096) / 365
  let ofYear := ofEra - (365 * yearOfEra + yearOfEra / 4 - yearOfEra / 100)
  let month := (5 * ofYear + 2) / 153
  let year := day / 146097 * 400 + yearOfEra
  padded 4 (if month < 10 then year else year + 1) ++ padded 2
    (if month < 10 then month + 3 else month - 9) ++ padded 2 (ofYear - (153 * month + 2) / 5 + 1) ++ ascii
    "T" ++ padded 2 (t / 3600 % 24) ++
    padded 2 (t / 60 % 60) ++ padded 2 (t % 60) ++ ascii "Z"

/-- The second with that text, if there is one. -/
def readDate (text : Bytes) : Option Nat := do
  let number (i n : Nat) := digits ((text.drop i).take n)
  let year ← number 0 4
  let month ← number 4 2
  let day ← number 6 2
  let year' := if 2 < month then year else year - 1
  let ofYear := (153 * (if 2 < month then month - 3 else month + 9) + 2) / 5 + day - 1
  let days := 365 * year' + year' / 4 - year' / 100 + year' / 400 + ofYear - 719468
  let t := days * 86400 + (← number 9 2) * 3600 + (← number 11 2) * 60 + (← number 13 2)
  if writeDate t = text then some t else none

/-- The calendar of `chrono`, for the years 1970 to 9999. -/
abbrev civilChrono : Chrono where
  amzDate t := writeDate (t / second).toNat
  parseAmzDate text := (readDate text).map fun n => n * second
  last := 8210266876799 * second + 999999999

def presignedUri (date sig : Bytes) : Uri where
  authority := none
  path := ascii "/k"
  query := some (ascii "X-Amz-Algorithm=AWS4-HMAC-SHA256&X-Amz-Credential=AK/" ++ date.take 8 ++
    ascii "/r/s3/aws4_request&X-Amz-Date=" ++ date ++
    ascii "&X-Amz-Expires=60&X-Amz-SignedHeaders=host&X-Amz-Signature=" ++ sig)

/-- A request of the year 2033, signed with the key `SK`. -/
def futureRequest : Request :=
  let unsigned : Request := ⟨.get, presignedUri (ascii "20330518T033320Z") [], []⟩
  let p : Presented := ⟨⟨ascii "AK", ascii "20330518", ascii "r", [ascii "host"], []⟩,
    ascii "20330518T033320Z", S3.unsignedPayload, some (ascii "X-Amz-Signature")⟩
  let sig := (@expectedSignature shortCrypto (ascii "SK") unsigned p (@SigningKeys.default shortCrypto)).1
  ⟨.get, presignedUri (ascii "20330518T033320Z") sig, []⟩

/-- The request accepted or not at a second, with the key pair `AK`, `SK`. -/
def verifySample (crypto : Crypto) (req : Request) (t : Int) : Except Failure Unit :=
  (@Auth.verify crypto civilChrono (.static (ascii "AK") (ascii "SK")) req (t * second) .default).1

theorem replay_window_future :
    verifySample shortCrypto futureRequest 0 = .ok () ∧
      verifySample shortCrypto futureRequest 2000000000 = .ok () ∧
      ¬ (2000000000 - 0 ≤ (7 * 24 * 3600 + 15 * 60 : Int)) := by
  decide

theorem replay_window_issued :
    verifySample shortCrypto futureRequest 2000000000 = .ok () ∧
      ∀ t₂ keys', 2000000000 ≤ t₂ →
        (@Auth.verify shortCrypto civilChrono (.static (ascii "AK") (ascii "SK")) futureRequest (t₂ * second)
          keys').1 = .ok () → t₂ - 2000000000 ≤ 7 * 24 * 3600 + 15 * 60 := by
  have hv : verifySample shortCrypto futureRequest 2000000000 = .ok () := by decide
  have hwhole (text : Bytes) (t : Int) (h : civilChrono.parseAmzDate text = some t) : second ∣ t := by
    obtain ⟨n, -, rfl⟩ := Option.map_eq_some_iff.mp h
    exact ⟨n, Int.mul_comm _ _⟩
  have hlast : @validUntil civilChrono (futureRequest.uri.query.getD []) = some 2000000060 := by decide
  refine ⟨hv, ((@replay_window shortCrypto civilChrono _ _ _ _ _ hwhole hv).2 rfl).mpr ?_⟩
  rintro last hl
  cases hlast.symm.trans hl
  decide

/-! ## What is signed is accepted -/

theorem skew_le {now t : Int} (ht : (t - now).natAbs ≤ 15 * 60 * second) :
    ((t - now / second * second).tdiv second).natAbs ≤ maxSkewSecs := by
  have hpos : 0 < second := by decide
  have hm := Int.emod_add_mul_ediv now second
  have h₀ := Int.emod_nonneg now hpos.ne'
  have h₁ := Int.emod_lt_of_pos now hpos
  have hdiv (d : Int) : (d.tdiv second).natAbs = d.natAbs / 1000000000 := Int.natAbs_tdiv _ _
  rw [hdiv]
  unfold maxSkewSecs second at *
  omega

section

variable [Crypto] [Chrono]

/-- The signature of the signer is the one expected of its `Authorization`. -/
theorem expectedSignature_authorizationOf {method : Method} {uri : Uri} {headers : HeaderMap} {host : Bytes}
    {value : HeaderValue} (creds : Credentials) {region : Bytes} {now : Int} (keys : SigningKeys)
    {auth : Authorization} (hauth : auth = authorizationOf method uri headers host creds region now)
    (hhost : hostOf (headers.insert .authorization value) uri = host) :
    auth.signature = (expectedSignature creds.secretKey ⟨method, uri, headers.insert .authorization value⟩
      ⟨auth, Chrono.amzDate now, S3.unsignedPayload, none⟩ keys).1 := by
  subst hauth
  have hsigned : ∀ n ∈ signedNames headers, n ≠ ascii "authorization" := by
    intro n hn
    obtain ⟨name, -, hs, rfl⟩ := mem_signedNames hn
    exact (isSigned_name hs).2
  have hcanonical : canonicalOf ⟨method, uri, headers.insert .authorization value⟩
      ⟨authorizationOf method uri headers host creds region now, Chrono.amzDate now, S3.unsignedPayload,
        none⟩ = canonicalRequest ⟨method, uri.path, uri.query.getD [], headers, host, signedNames headers,
          S3.unsignedPayload, none⟩ := by
    rw [canonicalOf, hhost]
    exact canonicalRequest_insert_authorization (c := ⟨method, uri.path, uri.query.getD [], headers, host,
      signedNames headers, S3.unsignedPayload, none⟩) hsigned
  rw [expectedSignature_fst, hcanonical]
  rfl

/-- A request the signer has signed is accepted for a quarter of an hour before and after, whatever
keys either side has kept. -/
theorem verify_sign {accessKey secretKey region : Bytes} {sessionToken : Option Bytes} {method : Method}
    {uri : Uri} {headers : HeaderMap} {host : HeaderValue} {now t : Int}
    (hhost : headers.get .host = some host) (hvisible : ∀ b ∈ host.bytes, isVisible b)
    (hk : CredentialPart accessKey) (hr : CredentialPart region) (hnow : Dated now)
    (ht : (t - now).natAbs ≤ 15 * 60 * second) (keys keys' : SigningKeys) :
    ∃ headers' auth,
      (keys.sign method uri headers ⟨accessKey, secretKey, sessionToken⟩ region now).map (·.1) =
        some headers' ∧
      headerText headers' .authorization = some auth.headerValue ∧
      Authorization.parseHeader auth.headerValue = some auth ∧
      (keys.get secretKey auth.date auth.region).1 = signingKey secretKey auth.date auth.region ∧
      ((Auth.static accessKey secretKey).verify ⟨method, uri, headers'⟩ t keys').1 = .ok () := by
  let creds : Credentials := ⟨accessKey, secretKey, sessionToken⟩
  have hk' : CredentialPart creds.accessKey := hk
  obtain ⟨date, value, auth, hdate, hauth, hvalue, hw, hsign⟩ :=
    sign_eq_some keys method uri headers hnow hk' hr
  have hparse := Authorization.parseHeader_headerValue hw
  have hget {name : HeaderName} (hn : name ≠ .authorization) (ht : name ≠ .xAmzSecurityToken) :
      ((datedHeaders headers date sessionToken).insert .authorization value).get name =
        ((headers.insert .xAmzDate date).insert .xAmzContentSha256 .unsignedPayload).get name := by
    rw [HeaderMap.get_insert_ne hn, get_datedHeaders ht]
  refine ⟨_, auth, hsign, ?_, hparse, keys.get_fst .., verify_static_iff.mpr ?_⟩
  · rw [headerText, HeaderMap.get_insert_self]
    exact hvalue
  refine ⟨⟨auth, Chrono.amzDate now, S3.unsignedPayload, none⟩, ?_, ?_,
    expectedSignature_authorizationOf creds keys' hauth ?_⟩
  · simp only [presented, HeaderMap.get_insert_self]
    refine presentedInHeader_ok_iff.mpr ⟨_, _, _, _, hvalue, hparse, ?_, ?_, rfl⟩
    · rw [hget (by decide) (by decide), HeaderMap.get_insert_ne (by decide), HeaderMap.get_insert_self]
      exact hdate
    · rw [headerText, hget (by decide) (by decide), HeaderMap.get_insert_self]
      decide
  · rw [hauth]
    refine checkPresented_ok_iff.mpr ⟨rfl, (checkSkew_ok_iff rfl).mpr ⟨_, hnow.reads, skew_le ht⟩, ?_⟩
    exact List.take_prefix _ _
  · have hstr : host.toStr = some host.bytes := if_pos hvisible
    rw [hostOf, hget (by decide) (by decide), HeaderMap.get_insert_ne (by decide),
      HeaderMap.get_insert_ne (by decide), hhost]
    simp [hstr]

end

def sampleUri : Uri := ⟨none, ascii "/bucket/a%20b", some (ascii "b=2&a")⟩

def sampleHost : HeaderValue := ⟨ascii "localhost:9000", by decide⟩

/-- Some nanoseconds after the second `1700000000`. -/
def sampleNow : Int := 1700000000 * second + 5

/-- A request with only a `Host`, signed with the key pair `AK`, `SK`. -/
def signSample : Option HeaderMap :=
  (@SigningKeys.sign shortCrypto civilChrono (@SigningKeys.default shortCrypto) .get sampleUri
    [(.host, sampleHost)] ⟨ascii "AK", ascii "SK", some (ascii "token")⟩ (ascii "r") sampleNow).map (·.1)

theorem verify_sign_sample :
    ∃ headers', signSample = some headers' ∧ verifySample shortCrypto ⟨.get, sampleUri, headers'⟩ 1700000900 =
      .ok () := by
  have hpart : CredentialPart (ascii "AK") ∧ CredentialPart (ascii "r") ∧
      CredentialPart (ascii "20231114T221320Z") :=
    ⟨⟨by decide, by decide, by decide⟩, ⟨by decide, by decide, by decide⟩, ⟨by decide, by decide, by decide⟩⟩
  have hdate : civilChrono.amzDate sampleNow = ascii "20231114T221320Z" := by decide
  have hnow : @Dated civilChrono sampleNow := by
    refine @Dated.mk civilChrono sampleNow ?_ ?_ ?_ <;> rw [hdate]
    · exact hpart.2.2
    · decide
    · decide
  obtain ⟨headers', auth, hs, -, -, -, hv⟩ := @verify_sign shortCrypto civilChrono _ (ascii "SK") _
    (some (ascii "token")) .get sampleUri [(.host, sampleHost)] sampleHost sampleNow (1700000900 * second)
    (by decide) (by decide) hpart.1
    hpart.2.1 hnow (by decide) (@SigningKeys.default shortCrypto) (@SigningKeys.default shortCrypto)
  exact ⟨headers', hs, hv⟩

/-! ## What a signature stands for -/

section

variable [Crypto] [Chrono]

/-- Requests that are accepted by the same signature are for the same method. They are for the same
object unless their hosts name different buckets: the host need not be signed. -/
theorem signature_binds_target {addressing : Addressing} {accessKey secretKey : Bytes} {req₁ req₂ : Request}
    {now₁ now₂ : Int} {keys₁ keys₂ : SigningKeys} {p₁ p₂ : Presented}
    (hsha : Function.Injective Crypto.sha256) (hhmac : ∀ key, Function.Injective (Crypto.hmac key))
    (hu₁ : req₁.uri.Rooted) (hu₂ : req₂.uri.Rooted)
    (hv₁ : ((Auth.static accessKey secretKey).verify req₁ now₁ keys₁).1 = .ok ())
    (hv₂ : ((Auth.static accessKey secretKey).verify req₂ now₂ keys₂).1 = .ok ())
    (hp₁ : presented req₁ now₁ = .ok p₁) (hp₂ : presented req₂ now₂ = .ok p₂)
    (hsig : p₁.auth.signature = p₂.auth.signature) (hamz : p₁.amzDate = p₂.amzDate)
    (hdate : p₁.auth.date = p₂.auth.date) (hregion : p₁.auth.region = p₂.auth.region) :
    req₁.method = req₂.method ∧ ∀ target₁ target₂,
      addressing.resolve (hostOf req₁.headers req₁.uri) req₁.uri.path = .ok target₁ →
      addressing.resolve (hostOf req₂.headers req₂.uri) req₂.uri.path = .ok target₂ →
      (target₁ = target₂ ↔ ∀ bucket, addressing.Names (hostOf req₁.headers req₁.uri) bucket ↔
        addressing.Names (hostOf req₂.headers req₂.uri) bucket) := by
  obtain ⟨p, hp, -, hs₁⟩ := verify_static_iff.mp hv₁
  cases hp₁.symm.trans hp
  obtain ⟨p, hp, -, hs₂⟩ := verify_static_iff.mp hv₂
  cases hp₂.symm.trans hp
  rw [hs₁, hs₂, expectedSignature_fst, expectedSignature_fst, hamz, hdate, hregion] at hsig
  have hcanonical := stringToSign_inj hsha (hhmac _ (hexEncode_injective hsig))
  obtain ⟨hmethod, huri⟩ := canonicalRequest_inj hcanonical
  refine ⟨hmethod, fun target₁ target₂ h₁ h₂ => ?_⟩
  exact Addressing.resolve_eq_iff h₁ h₂ (percentDecode_strippedPath hu₁ hu₂ huri)

end

/-- Hashes that keep everything, and so are injective. -/
abbrev plainCrypto : Crypto := ⟨id, fun _ data => data⟩

/-- An `Authorization` for `/k` that covers the date alone. -/
def dateAuthorization : Authorization :=
  let unsigned : Authorization := ⟨ascii "AK", ascii "20231114", ascii "r", [ascii "x-amz-date"], []⟩
  let req : Request := ⟨.get, ⟨none, ascii "/k", none⟩, [(.xAmzDate, ⟨ascii "20231114T221320Z", by decide⟩)]⟩
  { unsigned with signature := (@expectedSignature plainCrypto (ascii "SK") req
      ⟨unsigned, ascii "20231114T221320Z", [], none⟩ (@SigningKeys.default plainCrypto)).1 }

def dateAuthorizationValue : HeaderValue := ⟨dateAuthorization.headerValue, by decide +kernel⟩

/-- The signed request, sent to some host. -/
def hostRequest (host : HeaderValue) : Request :=
  ⟨.get, ⟨none, ascii "/k", none⟩, [(.host, host), (.xAmzDate, ⟨ascii "20231114T221320Z", by decide⟩),
    (.xAmzContentSha256, ⟨[], by decide⟩), (.authorization, dateAuthorizationValue)]⟩

def aaaHost : HeaderValue := ⟨ascii "aaa.d", by decide⟩

def aaaPortHost : HeaderValue := ⟨ascii "aaa.d:80", by decide⟩

def bbbHost : HeaderValue := ⟨ascii "bbb.d", by decide⟩

theorem signature_binds_target_host :
    let addressing := Addressing.virtualHosted (ascii "d")
    let p : Presented := ⟨dateAuthorization, ascii "20231114T221320Z", [], none⟩
    verifySample plainCrypto (hostRequest aaaHost) 1700000000 = .ok () ∧
      verifySample plainCrypto (hostRequest bbbHost) 1700000000 = .ok () ∧
      @presented civilChrono (hostRequest aaaHost) (1700000000 * second) = .ok p ∧
      @presented civilChrono (hostRequest bbbHost) (1700000000 * second) = .ok p ∧
      addressing.resolve (hostOf (hostRequest aaaHost).headers (hostRequest aaaHost).uri) (ascii "/k") =
        .ok ⟨some (ascii "aaa"), some (ascii "k")⟩ ∧
      addressing.resolve (hostOf (hostRequest bbbHost).headers (hostRequest bbbHost).uri) (ascii "/k") =
        .ok ⟨some (ascii "bbb"), some (ascii "k")⟩ := by
  decide +kernel

theorem signature_binds_target_port :
    let addressing := Addressing.virtualHosted (ascii "d")
    addressing.resolve (hostOf (hostRequest aaaHost).headers (hostRequest aaaHost).uri) (ascii "/k") =
      addressing.resolve (hostOf (hostRequest aaaPortHost).headers (hostRequest aaaPortHost).uri)
      (ascii "/k") := by
  intro addressing
  have hinj : Function.Injective (id : Bytes → Bytes) := fun _ _ h => h
  have hrooted (host : HeaderValue) : (hostRequest host).uri.Rooted := .inr (.inr ⟨ascii "k", rfl⟩)
  have hv₁ : verifySample plainCrypto (hostRequest aaaHost) 1700000000 = .ok () := by decide +kernel
  have hv₂ : verifySample plainCrypto (hostRequest aaaPortHost) 1700000000 = .ok () := by decide +kernel
  have hp₁ : @presented civilChrono (hostRequest aaaHost) (1700000000 * second) =
    .ok ⟨dateAuthorization, ascii "20231114T221320Z", [], none⟩ := by decide +kernel
  have hp₂ : @presented civilChrono (hostRequest aaaPortHost) (1700000000 * second) =
    .ok ⟨dateAuthorization, ascii "20231114T221320Z", [], none⟩ := by decide +kernel
  have hbound := @signature_binds_target plainCrypto civilChrono addressing _ _ _ _ _ _ _ _ _ _ hinj
    (fun _ => hinj) (hrooted aaaHost) (hrooted aaaPortHost) hv₁ hv₂ hp₁ hp₂ rfl rfl rfl rfl
  have hr₁ : addressing.resolve (hostOf (hostRequest aaaHost).headers (hostRequest aaaHost).uri)
    (ascii "/k") = .ok ⟨some (ascii "aaa"), some (ascii "k")⟩ := by decide
  have hr₂ : addressing.resolve (hostOf (hostRequest aaaPortHost).headers (hostRequest aaaPortHost).uri)
    (ascii "/k") = .ok ⟨some (ascii "aaa"), some (ascii "k")⟩ := by decide
  have htarget := (hbound.2 _ _ hr₁ hr₂).mpr ?_
  · rw [hr₁, hr₂, htarget]
  · intro bucket
    have hname : hostname (ascii "aaa.d") = hostname (ascii "aaa.d:80") := by decide
    exact Iff.of_eq (congrArg (fun h => bucket ≠ [] ∧ h = bucket ++ ascii "." ++ ascii "d") hname)

end Nestor.S3
