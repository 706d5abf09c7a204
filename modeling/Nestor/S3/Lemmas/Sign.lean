import Nestor.S3.Lemmas.Auth
import Nestor.S3.Lemmas.Http

/-!
# The signer and the `Authorization` header

The header a signer writes is read back part by part: no part contains the separator it is cut at.
-/

namespace Nestor.S3

open Lib

variable {b : UInt8} {a : Authorization} {k v region : Bytes} {headers : HeaderMap}
    {name : HeaderName} {creds : Credentials} {now : Int}

/-! ## Hex digits -/

theorem lowerHexDigit_cases {n : Nat} (h : n < 16) :
    isDigit (lowerHexDigit n) ∨ isLower (lowerHexDigit n) := by
  have hall : ∀ n ∈ List.range 16, isDigit (lowerHexDigit n) ∨ isLower (lowerHexDigit n) := by decide
  exact hall n (List.mem_range.mpr h)

theorem hexEncode_cases {bytes : Bytes} (h : b ∈ hexEncode bytes) : isDigit b ∨ isLower b := by
  obtain ⟨x, -, hb⟩ := List.mem_flatMap.mp h
  have hx : x.toNat < 256 := x.toNat_lt
  simp only [List.mem_cons, List.not_mem_nil, or_false] at hb
  obtain rfl | rfl := hb
  · exact lowerHexDigit_cases (by omega)
  · exact lowerHexDigit_cases (by omega)

theorem isToken_of_digit_or_lower (h : isDigit b ∨ isLower b) : isToken b := by
  obtain h | h := h <;> simp [isToken, h]

/-! ## Reading the header back -/

/-- A part of a credential, which is cut at slashes inside a header that is cut at commas. -/
structure CredentialPart (s : Bytes) : Prop where
  visible : ∀ b ∈ s, isVisible b
  no_slash : slash ∉ s
  no_comma : comma ∉ s

theorem CredentialPart.service : CredentialPart service := ⟨by decide, by decide, by decide⟩

theorem CredentialPart.terminator : CredentialPart terminator := ⟨by decide, by decide, by decide⟩

theorem CredentialPart.take {s : Bytes} (h : CredentialPart s) (n : Nat) : CredentialPart (s.take n) where
  visible b hb := h.visible b (List.mem_of_mem_take hb)
  no_slash hs := h.no_slash (List.mem_of_mem_take hs)
  no_comma hs := h.no_comma (List.mem_of_mem_take hs)

/-- An `Authorization` that a header can carry. -/
structure Authorization.Writable (a : Authorization) : Prop where
  accessKey : CredentialPart a.accessKey
  date : CredentialPart a.date
  region : CredentialPart a.region
  names : ∀ n ∈ a.signedHeaders, n ≠ [] ∧ ∀ b ∈ n, isToken b ∧ ¬ isUpper b
  some_name : a.signedHeaders ≠ []
  signature : ∀ b ∈ a.signature, isDigit b ∨ isLower b

theorem lower_eq_self {s : Bytes} (h : ∀ b ∈ s, ¬ isUpper b) : lower s = s := by
  refine (List.map_congr_left fun b hb => ?_).trans (List.map_id s)
  rw [lowerByte, if_neg (h b hb), id]

namespace Authorization

theorem assemble_scope (h : a.Writable) :
    assemble (a.accessKey ++ slash :: scope a.date a.region) ([semicolon].intercalate a.signedHeaders)
      a.signature = some a := by
  have hcred : ([slash].intercalate [a.accessKey, a.date, a.region, service, terminator]).splitOn slash =
      [a.accessKey, a.date, a.region, service, terminator] := by
    refine List.splitOn_intercalate _ ?_ (by simp)
    simp [h.accessKey.no_slash, h.date.no_slash, h.region.no_slash, CredentialPart.service.no_slash,
      CredentialPart.terminator.no_slash]
  have hjoin : a.accessKey ++ slash :: scope a.date a.region =
      [slash].intercalate [a.accessKey, a.date, a.region, service, terminator] := by
    simp [List.intercalate, scope]
  have hnames : (([semicolon].intercalate a.signedHeaders).splitOn semicolon).map
      lower = a.signedHeaders := by
    rw [List.splitOn_intercalate]
    · refine (List.map_congr_left fun n hn => ?_).trans (List.map_id _)
      exact lower_eq_self fun b hb => ((h.names n hn).2 b hb).2
    · intro n hn hs
      have := ((h.names n hn).2 _ hs).1
      revert this
      decide
    · exact h.some_name
  rw [assemble, hjoin, hcred]
  simp [hnames]

theorem headerValue_eq (a : Authorization) : a.headerValue = algorithm ++ 32 :: [comma].intercalate
    [ascii "Credential" ++ equals :: (a.accessKey ++ slash :: scope a.date a.region),
      32 :: (ascii "SignedHeaders" ++ equals :: [semicolon].intercalate a.signedHeaders),
      32 :: (ascii "Signature" ++ equals :: a.signature)] := by
  have hc : ascii " Credential=" = 32 :: (ascii "Credential" ++ [equals]) := by decide
  have hh : ascii ", SignedHeaders=" = comma :: 32 :: (ascii "SignedHeaders" ++ [equals]) := by decide
  have hs : ascii ", Signature=" = comma :: 32 :: (ascii "Signature" ++ [equals]) := by decide
  simp [headerValue, hc, hh, hs, List.intercalate]

theorem mem_names (h : a.Writable)
    (hb : b ∈ [semicolon].intercalate a.signedHeaders) : b = semicolon ∨ isToken b := by
  obtain rfl | ⟨n, hn, hb⟩ := mem_intercalate hb
  · exact .inl rfl
  · exact .inr ((h.names n hn).2 b hb).1

theorem readPart_eq {part : Bytes} (parts : Parts) (ht : trimText part = k ++ equals :: v) (hk : equals ∉ k) :
    readPart parts part =
      if k = ascii "Credential" then some { parts with credential := some v }
      else if k = ascii "SignedHeaders" then some { parts with signedHeaders := some v }
      else if k = ascii "Signature" then some { parts with signature := some v }
      else none := by
  rw [readPart, ht, splitOnce_append v hk]
  rfl

theorem isGraph_names (h : a.Writable) (hb : b ∈ [semicolon].intercalate a.signedHeaders) : isGraph b:= by
  obtain rfl | hb := mem_names h hb
  · decide
  · exact isGraph_of_isToken hb

theorem isGraph_signature (h : a.Writable) (hb : b ∈ a.signature) : isGraph b :=
  isGraph_of_isToken (isToken_of_digit_or_lower (h.signature b hb))

theorem trimText_credential (a : Authorization) :
    trimText (ascii "Credential" ++ equals :: (a.accessKey ++ slash :: scope a.date a.region)) =
      ascii "Credential" ++ equals :: (a.accessKey ++ slash :: scope a.date a.region) := by
  refine trimText_eq_self ?_ ?_
  · intro b hb
    cases hb
    decide
  · have hlast : (ascii "Credential" ++ equals :: (a.accessKey ++ slash :: scope a.date a.region)).getLast? =
        some 116 := by
      have hterm : terminator.getLast? = some 116 := by decide
      simp [scope, List.getLast?_append, List.getLast?_cons, hterm]
    intro b hb
    rw [hlast] at hb
    cases hb
    decide

theorem trimText_assignment (hk : ∀ b ∈ k, isGraph b) (hv : ∀ b ∈ v, isGraph b) :
    trimText (32 :: (k ++ equals :: v)) = k ++ equals :: v := by
  rw [trimText_space]
  refine trimText_of_graph fun b hb => ?_
  rw [List.mem_append, List.mem_cons] at hb
  obtain hb | rfl | hb := hb
  · exact hk b hb
  · decide
  · exact hv b hb

theorem comma_not_mem_credential (h : a.Writable) :
    comma ∉ ascii "Credential" ++ equals :: (a.accessKey ++ slash :: scope a.date a.region) := by
  have hk : comma ∉ ascii "Credential" := by decide
  have hs : comma ≠ slash ∧ comma ≠ equals := by decide
  simp [scope, hk, hs, h.accessKey.no_comma, h.date.no_comma, h.region.no_comma,
    CredentialPart.service.no_comma, CredentialPart.terminator.no_comma]

theorem comma_not_mem_assignment (hk : comma ∉ k) (hv : comma ∉ v) :
    comma ∉ 32 :: (k ++ equals :: v) := by
  have hs : comma ≠ 32 ∧ comma ≠ equals := by decide
  simp [hk, hv, hs]

theorem comma_not_mem_names (h : a.Writable) :
    comma ∉ [semicolon].intercalate a.signedHeaders := by
  intro hc
  have := mem_names h hc
  revert this
  decide

theorem comma_not_mem_signature (h : a.Writable) : comma ∉ a.signature := by
  intro hc
  have := h.signature _ hc
  revert this
  decide

/-- The header's value is read back as what it was written from. -/
theorem parseHeader_headerValue (h : a.Writable) : parseHeader a.headerValue = some a := by
  rw [parseHeader, headerValue_eq, dropPrefix?_eq_some.mpr rfl]
  simp only [Option.bind_eq_bind, Option.bind_some, trimStart_space]
  rw [trimStart_of_head, List.splitOn_intercalate]
  · simp only [List.foldlM_cons, List.foldlM_nil, Option.bind_eq_bind]
    rw [readPart_eq _ (trimText_credential a) (by decide), if_pos rfl]
    simp only [Option.bind_some]
    rw [readPart_eq _ (trimText_assignment (by decide) fun b hb => isGraph_names h hb) (by decide),
      if_neg (by decide), if_pos rfl]
    simp only [Option.bind_some]
    rw [readPart_eq _ (trimText_assignment (by decide) fun b hb => isGraph_signature h hb) (by decide),
      if_neg (by decide), if_neg (by decide), if_pos rfl]
    exact assemble_scope h
  · simp only [List.mem_cons, List.not_mem_nil, or_false]
    rintro part (rfl | rfl | rfl)
    · exact comma_not_mem_credential h
    · exact comma_not_mem_assignment (by decide) (comma_not_mem_names h)
    · exact comma_not_mem_assignment (by decide) (comma_not_mem_signature h)
  · simp
  · intro b hb
    cases hb
    decide

theorem isVisible_headerValue (h : a.Writable) : ∀ b ∈ a.headerValue, isVisible b := by
  have hfixed : isVisible slash ∧ (∀ b ∈ algorithm, isVisible b) ∧ (∀ b ∈ ascii " Credential=", isVisible b) ∧
      (∀ b ∈ ascii ", SignedHeaders=", isVisible b) ∧ ∀ b ∈ ascii ", Signature=", isVisible b := by decide
  obtain ⟨hslash, halg, hcred, hnames, hsig⟩ := hfixed
  simp only [headerValue, scope, List.forall_mem_append, List.forall_mem_cons]
  exact ⟨⟨⟨⟨⟨⟨⟨halg, hcred⟩, h.accessKey.visible⟩, hslash, h.date.visible, hslash, h.region.visible, hslash,
    CredentialPart.service.visible, hslash, CredentialPart.terminator.visible⟩, hnames⟩,
    fun b hb => isVisible_of_isGraph (isGraph_names h hb)⟩, hsig⟩,
    fun b hb => isVisible_of_isGraph (isGraph_signature h hb)⟩

end Authorization

/-! ## What is signed -/

theorem mem_signedNames {n : Bytes} (h : n ∈ signedNames headers) :
    ∃ name ∈ headers.keys, isSigned name ∧ name.name = n := by
  have hmem := List.mem_insertionSort _ |>.mp ((List.destutter_sublist _ _).subset h)
  obtain ⟨name, hname, rfl⟩ := List.mem_map.mp hmem
  obtain ⟨hk, hs⟩ := List.mem_filter.mp hname
  exact ⟨name, hk, hs, rfl⟩

theorem signedNames_ne_nil (h : HeaderName.xAmzDate ∈ headers.keys) :
    signedNames headers ≠ [] := by
  have hmem : HeaderName.xAmzDate ∈ headers.keys.filter isSigned := List.mem_filter.mpr ⟨h, by decide⟩
  have hmem := (List.mem_insertionSort (fun a b => lexLe a b = true)).mpr
    (List.mem_map_of_mem (f := (·.name)) hmem)
  intro hnil
  rw [signedNames, List.destutter_eq_nil] at hnil
  rw [hnil] at hmem
  cases hmem

/-- The `Authorization` header itself is never signed. -/
theorem isSigned_name (h : isSigned name) : name.name ≠ [] ∧ name.name ≠ ascii "authorization" := by
  simp only [isSigned, Bool.or_eq_true, decide_eq_true_eq] at h
  obtain (((h | rfl) | rfl) | rfl) | rfl := h
  · obtain ⟨rest, hr⟩ := Option.isSome_iff_exists.mp h
    rw [dropPrefix?_eq_some.mp hr]
    refine ⟨by simp [ascii], fun he => ?_⟩
    have hhead : some (120 : UInt8) = some 97 := congrArg List.head? he
    revert hhead
    decide
  all_goals decide

theorem canonicalHeaders_insert_authorization {value : HeaderValue} {signed : List Bytes}
    (h : ∀ n ∈ signed, n ≠ ascii "authorization") (host : Bytes) :
    canonicalHeaders (headers.insert .authorization value) signed host =
      canonicalHeaders headers signed host := by
  unfold canonicalHeaders
  rw [List.flatMap_def, List.flatMap_def]
  refine congrArg List.flatten (List.map_congr_left fun n hn => ?_)
  rw [canonicalHeader, canonicalHeader, HeaderMap.getAll_insert_ne (h n hn)]

theorem canonicalRequest_insert_authorization {c : Canonical} {value : HeaderValue}
    (h : ∀ n ∈ c.signedHeaders, n ≠ ascii "authorization") :
    canonicalRequest { c with headers := c.headers.insert .authorization value } = canonicalRequest c := by
  simp only [canonicalRequest, canonicalHeaders_insert_authorization h]

/-! ## The signer -/

theorem get_datedHeaders {date : HeaderValue} {token : Option Bytes} (ht : name ≠ .xAmzSecurityToken) :
    (datedHeaders headers date token).get name =
      ((headers.insert .xAmzDate date).insert .xAmzContentSha256 .unsignedPayload).get name := by
  unfold datedHeaders
  split
  · rw [HeaderMap.get_insert_ne ht]
  · rfl

theorem mem_datedHeaders {date v : HeaderValue} {token : Option Bytes}
    (h : (name, v) ∈ datedHeaders headers date token) :
    (name, v) ∈ headers ∨ name = .xAmzDate ∧ v = date ∨ name = .xAmzContentSha256 ∧ v = .unsignedPayload ∨
      name = .xAmzSecurityToken ∧ token.bind HeaderValue.fromStr = some v := by
  have hbase (h : (name, v) ∈ (headers.insert .xAmzDate date).insert .xAmzContentSha256 .unsignedPayload) :
      (name, v) ∈ headers ∨ name = .xAmzDate ∧ v = date ∨ name = .xAmzContentSha256 ∧
      v = .unsignedPayload := by
    obtain ⟨-, h⟩ | h := HeaderMap.mem_insert.mp h
    · obtain ⟨-, h⟩ | h := HeaderMap.mem_insert.mp h
      · exact .inl h
      · exact .inr (.inl h)
    · exact .inr (.inr h)
  unfold datedHeaders at h
  split at h
  · rename_i t ht
    obtain ⟨-, h⟩ | ⟨hn, rfl⟩ := HeaderMap.mem_insert.mp h
    · obtain h | h | h := hbase h
      · exact .inl h
      · exact .inr (.inl h)
      · exact .inr (.inr (.inl h))
    · exact .inr (.inr (.inr ⟨hn, ht⟩))
  · obtain h | h | h := hbase h
    · exact .inl h
    · exact .inr (.inl h)
    · exact .inr (.inr (.inl h))

theorem xAmzDate_mem_datedHeaders (headers : HeaderMap) (date : HeaderValue) (token : Option Bytes) :
    HeaderName.xAmzDate ∈ (datedHeaders headers date token).keys := by
  have hdate : HeaderName.xAmzDate ∈
      ((headers.insert .xAmzDate date).insert .xAmzContentSha256 .unsignedPayload).keys :=
    HeaderMap.mem_keys_insert_of_mem HeaderMap.mem_keys_insert_self
  unfold datedHeaders
  split
  · exact HeaderMap.mem_keys_insert_of_mem hdate
  · exact hdate

section

variable [Chrono]

/-- What `chrono` does for a time of the years 0 to 9999: the date is written in digits and the
letters `T` and `Z`, to the second, and read back. -/
structure Dated (t : Int) : Prop where
  part : CredentialPart (Chrono.amzDate t)
  day : 8 ≤ (Chrono.amzDate t).length
  reads : Chrono.parseAmzDate (Chrono.amzDate t) = some (t / second * second)

variable [Crypto]

/-- The `Authorization` a signer writes for headers it has dated. -/
def authorizationOf (method : Method) (uri : Uri) (headers : HeaderMap) (host : Bytes) (creds : Credentials)
    (region : Bytes) (now : Int) : Authorization :=
  let date := Chrono.amzDate now
  let signed := signedNames headers
  let canonical := canonicalRequest ⟨method, uri.path, uri.query.getD [], headers, host, signed,
    S3.unsignedPayload, none⟩
  ⟨creds.accessKey, date.take 8, region, signed, signature (signingKey creds.secretKey (date.take 8) region)
    (stringToSign date (scope (date.take 8) region) canonical)⟩

theorem authorizationOf_writable {method : Method} {uri : Uri} {host : Bytes} (hnow : Dated now)
    (hk : CredentialPart creds.accessKey) (hr : CredentialPart region)
    (hdate : HeaderName.xAmzDate ∈ headers.keys) :
    (authorizationOf method uri headers host creds region now).Writable where
  accessKey := hk
  date := hnow.part.take 8
  region := hr
  names n hn := by
    obtain ⟨name, -, hs, rfl⟩ := mem_signedNames hn
    exact ⟨(isSigned_name hs).1, name.valid⟩
  some_name := signedNames_ne_nil hdate
  signature _ hb := hexEncode_cases hb

/-- The signer does not panic, and adds the header of its `Authorization`. -/
theorem sign_eq_some (keys : SigningKeys) (method : Method) (uri : Uri) (headers : HeaderMap)
    (hnow : Dated now) (hk : CredentialPart creds.accessKey) (hr : CredentialPart region) :
    ∃ date value auth, date.toStr = some (Chrono.amzDate now) ∧
      auth = authorizationOf method uri (datedHeaders headers date creds.sessionToken)
        (((headers.get .host).bind HeaderValue.toStr).getD []) creds region now ∧
      value.toStr = some auth.headerValue ∧ auth.Writable ∧
      (keys.sign method uri headers creds region now).map (·.1) =
        some ((datedHeaders headers date creds.sessionToken).insert .authorization value) := by
  obtain ⟨date, hd, hds⟩ := HeaderValue.exists_fromStr hnow.part.visible
  have hw : (authorizationOf method uri (datedHeaders headers date creds.sessionToken)
      (((headers.get .host).bind HeaderValue.toStr).getD []) creds region now).Writable :=
    authorizationOf_writable hnow hk hr (xAmzDate_mem_datedHeaders headers date creds.sessionToken)
  obtain ⟨value, hv, hvs⟩ := HeaderValue.exists_fromStr (Authorization.isVisible_headerValue hw)
  refine ⟨date, value, _, hds, rfl, hvs, hw, ?_⟩
  unfold SigningKeys.sign
  rw [authorizationOf, ← keys.get_fst] at hv
  have hday : ¬ (Chrono.amzDate now).length < 8 := Nat.not_lt.mpr hnow.day
  simp only [if_neg hday, hd, Option.bind_eq_bind, Option.bind_some, hv, Option.map_some]

theorem sign_cases {keys keys' : SigningKeys} {method : Method} {uri : Uri} {headers' : HeaderMap}
    (h : keys.sign method uri headers creds region now = some (headers', keys')) :
    ∃ date value, HeaderValue.fromStr (Chrono.amzDate now) = some date ∧
      HeaderValue.fromStr (authorizationOf method uri (datedHeaders headers date creds.sessionToken)
        (((headers.get .host).bind HeaderValue.toStr).getD []) creds region now).headerValue = some value ∧
      headers' = (datedHeaders headers date creds.sessionToken).insert .authorization value := by
  unfold SigningKeys.sign at h
  simp only [Option.bind_eq_bind] at h
  split at h
  · cases h
  · obtain ⟨date, hdate, h⟩ := Option.bind_eq_some_iff.mp h
    obtain ⟨value, hvalue, h⟩ := Option.bind_eq_some_iff.mp h
    cases h
    refine ⟨date, value, hdate, ?_, rfl⟩
    rw [authorizationOf, ← keys.get_fst]
    exact hvalue

end

end Nestor.S3
