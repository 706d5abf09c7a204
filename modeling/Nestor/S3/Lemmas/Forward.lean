import Nestor.S3.Forward
import Nestor.S3.Lemmas.Addressing

/-!
# What a forwarded request keeps of the request it is for
-/

namespace Nestor.S3

open Lib

variable {rawQuery p : Bytes} {streaming : Bool} {headers : HeaderMap}
    {e : HeaderName × HeaderValue}

/-! ## The query -/

/-- The pairs of a query. -/
def queryPairs (rawQuery : Bytes) : List Bytes := (rawQuery.splitOn ampersand).filter (· ≠ [])

theorem mem_queryPairs (h : p ∈ queryPairs rawQuery) : p ≠ [] ∧ ampersand ∉ p := by
  obtain ⟨hp, hne⟩ := List.mem_filter.mp h
  exact ⟨by simpa using hne, not_mem_of_mem_splitOn hp⟩

theorem queryPairs_intercalate {ps : List Bytes} (h : ∀ p ∈ ps, p ≠ [] ∧ ampersand ∉ p) :
    queryPairs ([ampersand].intercalate ps) = ps := by
  cases ps with
  | nil => rfl
  | cons p ps =>
      rw [queryPairs, List.splitOn_intercalate _ (fun q hq => (h q hq).2) (by simp), List.filter_eq_self]
      intro q hq
      simpa using (h q hq).1

theorem queryPairs_upstreamQuery (rawQuery : Bytes) :
    queryPairs (upstreamQuery rawQuery) = (queryPairs rawQuery).filter fun p => !isPresignParam
      (nameValue p).1 :=
  queryPairs_intercalate fun _ hp => mem_queryPairs (List.mem_of_mem_filter hp)

theorem isPresignParam_of_upstreamQuery (h : upstreamQuery rawQuery = [])
    (hp : p ∈ queryPairs rawQuery) : isPresignParam (nameValue p).1 := by
  have hnone : (queryPairs rawQuery).filter (fun p => !isPresignParam (nameValue p).1) = [] := by
    rw [← queryPairs_upstreamQuery, h]
    rfl
  simpa using List.filter_eq_nil_iff.mp hnone p hp

/-! ## Presign parameters -/

theorem plain_of_lowerByte {b : UInt8} : isLower (lowerByte b) ∨ lowerByte b = 45 → b ≠ percent ∧
    b.toNat < 0x80 :=
  forall_byte (P := fun b => isLower (lowerByte b) ∨ lowerByte b = 45 → b ≠ percent ∧ b.toNat < 0x80)
    (by decide +kernel) b

/-- The name of a presign parameter is plain text, so it is its own decoding. -/
theorem percentDecode_presignParam {name : Bytes} (h : isPresignParam name) : percentDecode name = name := by
  have hplain : ∀ param ∈ presignParams, ∀ b ∈ lower param, isLower b ∨ b = 45 := by decide
  obtain ⟨param, hmem, he⟩ := List.any_eq_true.mp h
  have he : lower param = lower name := by simpa [eqIgnoreCase] using he
  have hb : ∀ b ∈ name, b ≠ percent ∧ b.toNat < 0x80 := by
    intro b hb
    refine plain_of_lowerByte (hplain param hmem (lowerByte b) ?_)
    rw [he]
    exact List.mem_map_of_mem hb
  exact percentDecode_of_plain (fun hp => (hb _ hp).1 rfl) fun b hmem => (hb b hmem).2

/-- What `Auth.verify` would read as a presign parameter. -/
def readsAsPresign (p : Bytes) : Bool := isPresignParam (percentDecode (nameValue p).1)

theorem readsAsPresign_of_isPresignParam (h : isPresignParam (nameValue p).1) : readsAsPresign p := by
  rwa [readsAsPresign, percentDecode_presignParam h]

theorem queryParam_of_upstreamQuery {name : Bytes} (h : upstreamQuery rawQuery = []) (hne : name ≠ [])
    (hname : isPresignParam name = false) : queryParam rawQuery name = none := by
  have hnone : ((rawQuery.splitOn ampersand).map nameValue).find?
      (fun p => percentDecode p.1 = name) = none := by
    rw [List.find?_eq_none]
    intro kv hkv he
    obtain ⟨p, hp, rfl⟩ := List.mem_map.mp hkv
    have he : percentDecode (nameValue p).1 = name := by simpa using he
    by_cases hempty : p = []
    · subst hempty
      exact hne he.symm
    · have hparam := isPresignParam_of_upstreamQuery h (List.mem_filter.mpr ⟨hp, by simpa using hempty⟩)
      rw [percentDecode_presignParam hparam] at he
      rw [he, hname] at hparam
      cases hparam
  rw [queryParam, hnone]
  rfl

/-! ## The headers -/

theorem mem_upstreamHeader {header : HeaderName × HeaderValue}
    (h : e ∈ upstreamHeader streaming headers header) : e ∈ headers ∨ isWithheld e.1 = false := by
  unfold upstreamHeader at h
  dsimp only at h
  split at h
  · exact .inl h
  · rename_i hw
    have hcoding : isWithheld .contentEncoding = false := by decide
    split at h
    · split at h
      · exact .inl h
      · split at h
        · obtain h | h := List.mem_append.mp h
          · exact .inl h
          · rw [List.mem_singleton] at h
            exact .inr (h ▸ hcoding)
        · exact .inl h
    · obtain h | h := List.mem_append.mp h
      · exact .inl h
      · rw [List.mem_singleton] at h
        exact .inr (h ▸ Bool.eq_false_iff.mpr hw)

theorem mem_foldl_upstreamHeader {incoming : HeaderMap}
    (h : e ∈ incoming.foldl (upstreamHeader streaming) headers) : e ∈ headers ∨ isWithheld e.1 = false := by
  induction incoming generalizing headers with
  | nil => exact .inl h
  | cons header incoming ih =>
      obtain h | h := ih h
      · exact mem_upstreamHeader h
      · exact .inr h

/-- Of what is withheld only the length of the body is set again. -/
theorem mem_upstreamHeaders {incoming : HeaderMap}
    (hh : upstreamHeaders incoming streaming = .ok headers) (h : e ∈ headers) :
    e.1 = .contentLength ∨ isWithheld e.1 = false := by
  obtain ⟨len, -, hh⟩ := bind_eq_ok.mp hh
  have hfold (h : e ∈ incoming.foldl (upstreamHeader streaming) []) : isWithheld e.1 = false :=
    (mem_foldl_upstreamHeader h).resolve_left (by simp)
  cases len with
  | none =>
      cases hh
      exact .inr (hfold h)
  | some len =>
      cases hh
      obtain h | h := List.mem_append.mp h
      · exact .inr (hfold (List.mem_of_mem_filter h))
      · rw [List.mem_singleton] at h
        exact .inl (by rw [h])

/-! ## The path -/

theorem endsWithSlash_bucket {bucket : Bytes} (h : wellFormedBucket bucket) :
    endsWithSlash (slash :: bucket) = false := by
  have hbytes := isBucketByte_of_wellFormed h
  cases bucket with
  | nil => cases h
  | cons x bucket =>
      rw [endsWithSlash, List.getLast?_cons_cons, decide_eq_false_iff_not]
      exact fun hl => slash_not_mem_bucket hbytes (List.mem_of_mem_getLast? hl)

/-- What precedes the key in the path of a forwarded request. -/
def keyStem (origin : OriginConfig) (target : Target) : Bytes :=
  match target.bucket with
  | some bucket => if origin.virtualHosted then [slash] else slash :: (bucket ++ [slash])
  | none => [slash]

theorem upstreamPath_eq {origin : OriginConfig} {target : Target}
    (hb : ∀ bucket, target.bucket = some bucket → wellFormedBucket bucket) :
    upstreamPath origin target = keyStem origin target ++ uriEncode (target.key.getD []) false := by
  have hslash : endsWithSlash [slash] = true := by decide
  have hnil : uriEncode [] false = [] := rfl
  obtain ⟨bucket, key⟩ := target
  cases bucket with
  | none => cases key <;> simp [upstreamPath, keyStem, hslash, hnil]
  | some bucket =>
      have hw := endsWithSlash_bucket (hb bucket rfl)
      cases hv : origin.virtualHosted with
      | true => cases key <;> simp [upstreamPath, keyStem, hv, hslash, hnil]
      | false => cases key <;> simp [upstreamPath, keyStem, hv, hw, hnil]

theorem upstreamUri_eq_ok [UriSyntax] {origin : OriginConfig} {target : Target} {host : Bytes} {uri : Uri}
    (h : upstreamUri origin target rawQuery = .ok (uri, host)) :
    upstreamHost origin target = .ok host ∧
      uri = ⟨some host, upstreamPath origin target, nonEmpty (upstreamQuery rawQuery)⟩ := by
  obtain ⟨host', hh, h⟩ := bind_eq_ok.mp h
  dsimp only at h
  split at h
  · cases h
    exact ⟨hh, rfl⟩
  · cases h

end Nestor.S3
