import Nestor.Lib.Fallible
import Nestor.S3.Auth

/-!
# What verification comes to

The signature is compared for equality, a kept signing key is the derived one, so a request is
accepted if what it presents is in order and carries the signature that its canonical request gives.
-/

namespace Nestor.S3

open Lib

theorem foldl_or_xor_eq_zero {ps : List (UInt8 × UInt8)} {acc : UInt8} :
    ps.foldl (fun acc p => acc ||| (p.1 ^^^ p.2)) acc = 0 ↔ acc = 0 ∧ ∀ p ∈ ps, p.1 = p.2 := by
  induction ps generalizing acc with
  | nil => simp
  | cons p ps ih =>
      have hor : acc ||| (p.1 ^^^ p.2) = 0 ↔ acc = 0 ∧ p.1 = p.2 := by
        rw [UInt8.or_eq_zero_iff, UInt8.xor_eq_zero_iff]
      rw [List.foldl_cons, ih, hor, and_assoc, List.forall_mem_cons]

theorem constantTimeEq_iff {a b : Bytes} : constantTimeEq a b = true ↔ a = b := by
  unfold constantTimeEq
  constructor
  · intro h
    split at h
    · cases h
    · rename_i hl
      have hl : a.length = b.length := by simpa using hl
      rw [decide_eq_true_eq, foldl_or_xor_eq_zero] at h
      refine List.ext_getElem hl fun i ha hb => ?_
      have hmem : (a[i], b[i]) ∈ a.zip b := by
        rw [List.mem_iff_getElem]
        exact ⟨i, by rw [List.length_zip]; omega, List.getElem_zip⟩
      exact h.2 _ hmem
  · rintro rfl
    rw [if_neg (by simp), decide_eq_true_eq, foldl_or_xor_eq_zero]
    refine ⟨rfl, fun p hp => ?_⟩
    obtain ⟨i, hi, rfl⟩ := List.mem_iff_getElem.mp hp
    rw [List.getElem_zip]

/-! ## What is presented -/

theorem orInvalid_eq_ok {α : Type} {a : Option α} {message : String} {x : α} :
    orInvalid a message = .ok x ↔ a = some x := by
  cases a <;> simp [orInvalid]

theorem presentedInHeader_ok_iff {headers : HeaderMap} {header : HeaderValue} {p : Presented} :
    presentedInHeader headers header = .ok p ↔ ∃ text auth amzDate payloadHash, header.toStr = some text ∧
      Authorization.parseHeader text = some auth ∧
      ((headers.get .xAmzDate).or (headers.get .date)).bind HeaderValue.toStr = some amzDate ∧
      headerText headers .xAmzContentSha256 = some payloadHash ∧ p = ⟨auth, amzDate, payloadHash, none⟩ := by
  simp only [presentedInHeader, bind_eq_ok, orInvalid_eq_ok, pure_eq_ok, ← exists_and_left, @eq_comm _ _ p]

section

variable [Chrono]

/-- What a query must hold to present a signature issued at some time for some seconds. -/
structure Presigned (rawQuery : Bytes) (p : Presented) (issued expires : Int) : Prop where
  date : queryParam rawQuery (ascii "X-Amz-Date") = some p.amzDate
  lifetime : (queryParam rawQuery (ascii "X-Amz-Expires")).bind parseI64 = some expires
  allowed : 1 ≤ expires ∧ expires ≤ maxPresignSecs
  fits : issued + expires * second ≤ Chrono.last
  issued : Chrono.parseAmzDate p.amzDate = some issued
  auth : ∃ credential signed sig, queryParam rawQuery (ascii "X-Amz-Credential") = some credential ∧
    queryParam rawQuery (ascii "X-Amz-SignedHeaders") = some signed ∧
    queryParam rawQuery (ascii "X-Amz-Signature") = some sig ∧
    Authorization.fromQuery credential signed sig = some p.auth
  payload : p.payloadHash = S3.unsignedPayload
  skip : p.skipQuery = some (ascii "X-Amz-Signature")

variable {p : Presented} {now : Int} {accessKey : Bytes}

theorem presentedInQuery_ok_iff {rawQuery : Bytes} :
    presentedInQuery rawQuery now = .ok p ↔
      ∃ issued expires, Presigned rawQuery p issued expires ∧ now ≤ issued + expires * second := by
  simp only [presentedInQuery, bind_eq_ok, orInvalid_eq_ok, check_eq_ok, pure_eq_ok, not_not, not_lt]
  constructor
  · rintro ⟨credential, hc, signed, hs, sig, hg, amzDate, hd, expires, he, ha, issued, hi, hl, hn,
      auth, hu, rfl⟩
    exact ⟨issued, expires, ⟨hd, he, ha, hl, hi, ⟨credential, signed, sig, hc, hs, hg, hu⟩, rfl, rfl⟩, hn⟩
  · rintro ⟨issued, expires, ⟨hd, he, ha, hl, hi, ⟨credential, signed, sig, hc, hs, hg, hu⟩, hp, hk⟩, hn⟩
    refine ⟨credential, hc, signed, hs, sig, hg, _, hd, expires, he, ha, issued, hi, hl, hn, _, hu, ?_⟩
    rw [← hp, ← hk]

/-! ## What is checked -/

theorem checkSkew_ok_iff (hp : p.skipQuery = none) :
    checkSkew p now = .ok () ↔ ∃ issued, Chrono.parseAmzDate p.amzDate = some issued ∧
      ((now - issued).tdiv second).natAbs ≤ maxSkewSecs := by
  unfold checkSkew
  rw [if_pos hp]
  cases Chrono.parseAmzDate p.amzDate with
  | none => simp
  | some issued => simp

theorem checkSkew_presigned (hp : p.skipQuery ≠ none) : checkSkew p now = .ok () :=
  if_neg hp

theorem checkPresented_ok_iff :
    checkPresented accessKey p now = .ok () ↔
      p.auth.accessKey = accessKey ∧ checkSkew p now = .ok () ∧ p.auth.date <+: p.amzDate := by
  simp only [checkPresented, check_eq_ok, bind_eq_ok, check_last_eq_ok, Bool.not_eq_true', Bool.not_eq_false,
    constantTimeEq_iff, List.isPrefixOf_iff_prefix]
  constructor
  · rintro ⟨ha, _, hs, hd⟩
    exact ⟨ha, hs, hd⟩
  · rintro ⟨ha, hs, hd⟩
    exact ⟨ha, (), hs, hd⟩

end

/-! ## Acceptance -/

variable [Crypto]

/-- A kept key is the one that would be derived. -/
theorem SigningKeys.get_fst (keys : SigningKeys) (secret day region : Bytes) :
    (keys.get secret day region).1 = signingKey secret day region := by
  unfold SigningKeys.get
  split
  · rename_i entry h
    have hp := List.find?_some h
    simp only [decide_eq_true_eq] at hp
    obtain ⟨rfl, rfl, rfl⟩ := hp
    exact entry.derived
  · rfl

theorem expectedSignature_fst (secretKey : Bytes) (req : Request) (p : Presented) (keys : SigningKeys) :
    (expectedSignature secretKey req p keys).1 = signature (signingKey secretKey p.auth.date p.auth.region)
      (stringToSign p.amzDate (scope p.auth.date p.auth.region) (canonicalOf req p)) := by
  rw [← keys.get_fst]
  rfl

variable [Chrono]

variable {accessKey secretKey : Bytes} {req : Request} {now : Int} {keys : SigningKeys}

/-- When a static key pair accepts a request. -/
theorem verify_static_iff :
    ((Auth.static accessKey secretKey).verify req now keys).1 = .ok () ↔
      ∃ p, presented req now = .ok p ∧ checkPresented accessKey p now = .ok () ∧
        p.auth.signature = (expectedSignature secretKey req p keys).1 := by
  unfold Auth.verify
  cases hp : presented req now with
  | error e => simp
  | ok p =>
      cases hc : checkPresented accessKey p now with
      | error e => simp [hc]
      | ok u =>
          simp only [Except.ok.injEq, exists_eq_left', hc, true_and]
          split
          · rename_i he
            rw [constantTimeEq_iff] at he
            simp [he]
          · rename_i he
            rw [constantTimeEq_iff] at he
            simp [Ne.symm he]

theorem verify_header
    (hv : ((Auth.static accessKey secretKey).verify req now keys).1 = .ok ()) {header : HeaderValue}
    (hh : req.headers.get .authorization = some header) :
    ∃ p issued, presentedInHeader req.headers header = .ok p ∧ Chrono.parseAmzDate p.amzDate = some issued ∧
      ((now - issued).tdiv second).natAbs ≤ maxSkewSecs := by
  obtain ⟨p, hp, hc, -⟩ := verify_static_iff.mp hv
  simp only [presented, hh] at hp
  obtain ⟨_, _, _, _, -, -, -, -, rfl⟩ := presentedInHeader_ok_iff.mp hp
  obtain ⟨-, hs, -⟩ := checkPresented_ok_iff.mp hc
  obtain ⟨issued, hi, hle⟩ := (checkSkew_ok_iff rfl).mp hs
  exact ⟨_, issued, hp, hi, hle⟩

/-- A presigned request that is accepted once is accepted at every time it has not expired at. -/
theorem verify_presigned (hv : ((Auth.static accessKey secretKey).verify req now keys).1 = .ok ())
    (hh : req.headers.get .authorization = none) :
    ∃ p issued expires, Presigned (req.uri.query.getD []) p issued expires ∧
      ∀ t keys', ((Auth.static accessKey secretKey).verify req t keys').1 = .ok () ↔
        t ≤ issued + expires * second := by
  obtain ⟨p, hp, hc, hg⟩ := verify_static_iff.mp hv
  simp only [presented, hh] at hp
  split at hp
  · rename_i halg
    obtain ⟨issued, expires, hpre, -⟩ := presentedInQuery_ok_iff.mp hp
    refine ⟨p, issued, expires, hpre, fun t keys' => ?_⟩
    simp only [verify_static_iff, presented, hh, if_pos halg]
    constructor
    · rintro ⟨p', hp', -⟩
      obtain ⟨issued', expires', hpre', ht⟩ := presentedInQuery_ok_iff.mp hp'
      have hdate := hpre.date.symm.trans hpre'.date
      have hissued := hpre'.issued
      rw [← Option.some.inj hdate, hpre.issued] at hissued
      have hlifetime := hpre.lifetime.symm.trans hpre'.lifetime
      rwa [Option.some.inj hissued, Option.some.inj hlifetime]
    · intro ht
      refine ⟨p, presentedInQuery_ok_iff.mpr ⟨issued, expires, hpre, ht⟩, ?_, ?_⟩
      · obtain ⟨ha, -, hd⟩ := checkPresented_ok_iff.mp hc
        have hskip : p.skipQuery ≠ none := by simp [hpre.skip]
        exact checkPresented_ok_iff.mpr ⟨ha, checkSkew_presigned hskip, hd⟩
      · rw [hg, expectedSignature_fst, expectedSignature_fst]
  · cases hp

end Nestor.S3
