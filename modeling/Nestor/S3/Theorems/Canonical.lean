import Mathlib.Data.Multiset.Defs
import Nestor.S3.Lemmas.Forward

/-!
# Canonical queries and forwarded targets

Two queries have the same canonical query just if they have the same decoded pairs, in whatever
order. The encoded names and values contain neither separator and decode to what they are made of,
so the pairs can be read off the canonical query; and sorting them forgets their order and nothing
else.

The host and path of a forwarded request name the target of the request it is for, and the path is
canonical.
-/

namespace Nestor.S3

open Lib

/-! ## The order of the pairs -/

theorem lexLe_total (a b : Bytes) : lexLe a b ∨ lexLe b a := by
  induction a generalizing b with
  | nil => exact .inl rfl
  | cons x a ih =>
      cases b with
      | nil => exact .inr rfl
      | cons y b =>
          simp only [lexLe, Bool.or_eq_true, Bool.and_eq_true, decide_eq_true_eq]
          rcases Nat.lt_trichotomy x.toNat y.toNat with hlt | heq | hgt
          · exact .inl (.inl (UInt8.lt_iff_toNat_lt.mpr hlt))
          · have hxy : x = y := UInt8.toNat.inj heq
            exact (ih b).imp (fun h => .inr ⟨hxy, h⟩) fun h => .inr ⟨hxy.symm, h⟩
          · exact .inr (.inl (UInt8.lt_iff_toNat_lt.mpr hgt))

theorem lexLe_trans {a b c : Bytes} (hab : lexLe a b) (hbc : lexLe b c) : lexLe a c := by
  induction a generalizing b c with
  | nil => rfl
  | cons x a ih =>
      cases b with
      | nil => cases hab
      | cons y b =>
          cases c with
          | nil => cases hbc
          | cons z c =>
              simp only [lexLe, Bool.or_eq_true, Bool.and_eq_true, decide_eq_true_eq] at hab hbc ⊢
              rcases hab with hxy | ⟨rfl, hab⟩ <;> rcases hbc with hyz | ⟨rfl, hbc⟩
              · exact .inl (UInt8.lt_trans hxy hyz)
              · exact .inl hxy
              · exact .inl hyz
              · exact .inr ⟨rfl, ih hab hbc⟩

theorem lexLe_antisymm {a b : Bytes} (hab : lexLe a b) (hba : lexLe b a) : a = b := by
  induction a generalizing b with
  | nil =>
      cases b with
      | nil => rfl
      | cons y b => cases hba
  | cons x a ih =>
      cases b with
      | nil => cases hab
      | cons y b =>
          simp only [lexLe, Bool.or_eq_true, Bool.and_eq_true, decide_eq_true_eq] at hab hba
          rcases hab with hxy | ⟨rfl, hab⟩
          · rcases hba with hyx | ⟨rfl, -⟩
            · exact absurd hyx (UInt8.lt_asymm hxy)
            · exact absurd hxy (UInt8.lt_irrefl _)
          · rcases hba with hyx | ⟨-, hba⟩
            · exact absurd hyx (UInt8.lt_irrefl _)
            · rw [ih hab hba]

theorem pairLe_iff {p q : Bytes × Bytes} :
    pairLe p q ↔ (p.1 = q.1 ∧ lexLe p.2 q.2) ∨ (p.1 ≠ q.1 ∧ lexLe p.1 q.1) := by
  unfold pairLe
  split
  · rename_i h
    simp [h]
  · rename_i h
    simp [h]

instance : Std.Total fun p q : Bytes × Bytes => pairLe p q where
  total p q := by
    rw [pairLe_iff, pairLe_iff]
    by_cases h : p.1 = q.1
    · exact (lexLe_total p.2 q.2).imp (fun hle => .inl ⟨h, hle⟩) fun hle => .inl ⟨h.symm, hle⟩
    · exact (lexLe_total p.1 q.1).imp (fun hle => .inr ⟨h, hle⟩) fun hle => .inr ⟨Ne.symm h, hle⟩

instance : IsTrans (Bytes × Bytes) fun p q => pairLe p q where
  trans p q r hpq hqr := by
    rw [pairLe_iff] at hpq hqr ⊢
    rcases hpq with ⟨h, hle⟩ | ⟨h, hle⟩ <;> rcases hqr with ⟨h', hle'⟩ | ⟨h', hle'⟩
    · exact .inl ⟨h.trans h', lexLe_trans hle hle'⟩
    · exact .inr ⟨h ▸ h', h ▸ hle'⟩
    · exact .inr ⟨h' ▸ h, h' ▸ hle⟩
    · refine .inr ⟨fun heq => h (lexLe_antisymm hle ?_), lexLe_trans hle hle'⟩
      rw [heq]
      exact hle'

theorem pairLe_antisymm {p q : Bytes × Bytes} (hpq : pairLe p q) (hqp : pairLe q p) : p = q := by
  rw [pairLe_iff] at hpq hqp
  rcases hpq with ⟨h, hle⟩ | ⟨h, hle⟩
  · rcases hqp with ⟨-, hle'⟩ | ⟨h', -⟩
    · exact Prod.ext h (lexLe_antisymm hle hle')
    · exact absurd h.symm h'
  · rcases hqp with ⟨h', -⟩ | ⟨-, hle'⟩
    · exact absurd h'.symm h
    · exact absurd (lexLe_antisymm hle hle') h

/-- The same pairs in another order are sorted to the same list. -/
theorem insertionSort_pairs {ps qs : List (Bytes × Bytes)} (h : ps.Perm qs) :
    ps.insertionSort (pairLe · ·) = qs.insertionSort (pairLe · ·) := by
  refine List.Perm.eq_of_pairwise (fun _ _ _ _ => pairLe_antisymm) (List.pairwise_insertionSort _ _)
    (List.pairwise_insertionSort _ _) ?_
  exact ((List.perm_insertionSort _ ps).trans h).trans (List.perm_insertionSort _ qs).symm

/-! ## Pairs -/

/-- The decoded name and value of a pair. -/
def decodePair (pair : Bytes) : Bytes × Bytes :=
  (percentDecode (nameValue pair).1, percentDecode (nameValue pair).2)

def encodePair (p : Bytes × Bytes) : Bytes × Bytes := (uriEncode p.1 true, uriEncode p.2 true)

/-- How a pair is written. -/
def writePair (p : Bytes × Bytes) : Bytes := p.1 ++ equals :: p.2

/-- The decoded names and values of a query. -/
def decodedPairs (rawQuery : Bytes) : List (Bytes × Bytes) := (queryPairs rawQuery).map decodePair

/-- Whether a pair is not the one to be skipped. -/
def notSkipped (skip : Option Bytes) (p : Bytes × Bytes) : Bool :=
  skip.all fun s => !eqIgnoreCase (uriEncode p.1 true) s

theorem canonicalQuery_eq (rawQuery : Bytes) (skip : Option Bytes) : canonicalQuery rawQuery skip =
    [ampersand].intercalate
      (((((decodedPairs rawQuery).filter (notSkipped skip)).map encodePair).insertionSort
        (pairLe · ·)).map writePair) := by
  unfold canonicalQuery
  simp only [decodedPairs, List.filter_map, List.map_map]
  rfl

theorem separators_not_mem_uriEncode (s : Bytes) : ampersand ∉ uriEncode s true ∧
    equals ∉ uriEncode s true := by
  constructor <;>
  · intro h
    have := mem_percentEncode h
    revert this
    decide

theorem decodePair_writePair (p : Bytes × Bytes) :
    decodePair (writePair (encodePair p)) = (utf8Lossy p.1, utf8Lossy p.2) := by
  unfold decodePair
  rw [nameValue, writePair, encodePair, splitOnce_append _ (separators_not_mem_uriEncode p.1).2,
    Option.getD_some, percentDecode_uriEncode, percentDecode_uriEncode]

theorem decodePair_writePair_decodePair (pair : Bytes) :
    decodePair (writePair (encodePair (decodePair pair))) = decodePair pair := by
  rw [decodePair_writePair]
  simp only [decodePair, percentDecode, utf8Lossy_utf8Lossy]

/-- The pairs can be read off the canonical query. -/
theorem decodedPairs_canonicalQuery (rawQuery : Bytes) (skip : Option Bytes) :
    (decodedPairs (canonicalQuery rawQuery skip)).Perm
      ((decodedPairs rawQuery).filter (notSkipped skip)) := by
  have hsort := List.perm_insertionSort (pairLe · ·) (((decodedPairs rawQuery).filter (notSkipped skip)).map
    encodePair)
  have hpairs : queryPairs (canonicalQuery rawQuery skip) =
      ((((decodedPairs rawQuery).filter (notSkipped skip)).map encodePair).insertionSort
      (pairLe · ·)).map writePair := by
    rw [canonicalQuery_eq, queryPairs_intercalate]
    intro written hmem
    obtain ⟨e, he, rfl⟩ := List.mem_map.mp hmem
    obtain ⟨p, -, rfl⟩ := List.mem_map.mp (hsort.subset he)
    refine ⟨by simp [writePair], ?_⟩
    rw [writePair, List.mem_append, List.mem_cons]
    rintro (h | h | h)
    · exact (separators_not_mem_uriEncode _).1 h
    · cases h
    · exact (separators_not_mem_uriEncode _).1 h
  have hback : (((decodedPairs rawQuery).filter (notSkipped skip)).map encodePair).map
      (decodePair ∘ writePair) = (decodedPairs rawQuery).filter (notSkipped skip) := by
    rw [List.map_map]
    refine (List.map_congr_left fun p hp => ?_).trans (List.map_id _)
    obtain ⟨pair, -, rfl⟩ := List.mem_map.mp (List.mem_of_mem_filter hp)
    exact decodePair_writePair_decodePair pair
  rw [decodedPairs, hpairs, List.map_map]
  exact (hsort.map _).trans (.of_eq hback)

/-- Two canonical queries are the same just if the pairs that are not skipped are, in whatever
order. -/
theorem canonicalQuery_eq_iff {rawQuery rawQuery' : Bytes} {skip : Option Bytes} :
    canonicalQuery rawQuery skip = canonicalQuery rawQuery' skip ↔
      ((decodedPairs rawQuery).filter (notSkipped skip)).Perm
        ((decodedPairs rawQuery').filter (notSkipped skip)) := by
  constructor
  · intro h
    refine (decodedPairs_canonicalQuery rawQuery skip).symm.trans ?_
    rw [h]
    exact decodedPairs_canonicalQuery rawQuery' skip
  · intro h
    rw [canonicalQuery_eq, canonicalQuery_eq, insertionSort_pairs (h.map encodePair)]

/-! ## Other ways to write a query -/

/-- The pair with its name, or its name and its value, in another encoding of the same text. -/
inductive Reencodes : Bytes → Bytes → Prop
  | name {k k' : Bytes} : equals ∉ k → equals ∉ k' → percentDecode k = percentDecode k' → Reencodes k k'
  | pair {k k' v v' : Bytes} : equals ∉ k → equals ∉ k' → percentDecode k = percentDecode k' →
      percentDecode v = percentDecode v' → Reencodes (k ++ equals :: v) (k' ++ equals :: v')

theorem Reencodes.decodePair_eq {p p' : Bytes} (h : Reencodes p p') : decodePair p = decodePair p' := by
  cases h with
  | name hk hk' hname =>
      simp only [decodePair, nameValue, splitOnce_eq_none hk, splitOnce_eq_none hk', Option.getD_none, hname]
  | pair hk hk' hname hvalue =>
      simp only [decodePair, nameValue, splitOnce_append _ hk, splitOnce_append _ hk', Option.getD_some,
        hname, hvalue]

theorem Reencodes.eq_nil_iff {p p' : Bytes} (h : Reencodes p p') : p = [] ↔ p' = [] := by
  cases h with
  | name _ _ hname => rw [← percentDecode_eq_nil, hname, percentDecode_eq_nil]
  | pair => simp

/-- Only the pieces of the query count. -/
theorem decodedPairs_of_splitOn {rawQuery : Bytes} {pieces : List Bytes}
    (h : rawQuery.splitOn ampersand = pieces) :
    decodedPairs rawQuery = (pieces.filter (· ≠ [])).map decodePair := by
  rw [decodedPairs, queryPairs, h]

/-- The canonical query does not depend on the order of the pairs, on empty pairs or on how names
and values are encoded. It is its own canonical query. Two queries have the same just if they have
the same decoded names and values, as often. -/
theorem canonicalQuery_normal_form :
    (∀ skip rawQuery rawQuery', (rawQuery.splitOn ampersand).Perm (rawQuery'.splitOn ampersand) →
      canonicalQuery rawQuery skip = canonicalQuery rawQuery' skip) ∧
    (∀ skip rawQuery rawQuery' before after, rawQuery.splitOn ampersand = before ++ after →
      rawQuery'.splitOn ampersand = before ++ [] :: after →
      canonicalQuery rawQuery skip = canonicalQuery rawQuery' skip) ∧
    (∀ skip rawQuery rawQuery' before p p' after, Reencodes p p' →
      rawQuery.splitOn ampersand = before ++ p :: after → rawQuery'.splitOn ampersand =
        before ++ p' :: after →
      canonicalQuery rawQuery skip = canonicalQuery rawQuery' skip) ∧
    (∀ skip rawQuery, canonicalQuery (canonicalQuery rawQuery skip) skip = canonicalQuery rawQuery skip) ∧
    ∀ rawQuery rawQuery', canonicalQuery rawQuery none = canonicalQuery rawQuery' none ↔
      (decodedPairs rawQuery : Multiset (Bytes × Bytes)) = decodedPairs rawQuery' := by
  refine ⟨fun skip raw raw' h => ?_, fun skip raw raw' before after h h' => ?_,
    fun skip raw raw' before p p' after hp h h' => ?_, fun skip raw => ?_, fun raw raw' => ?_⟩
  · exact canonicalQuery_eq_iff.mpr (((h.filter _).map _).filter _)
  · rw [canonicalQuery_eq_iff, decodedPairs_of_splitOn h, decodedPairs_of_splitOn h']
    simp
  · have hne : (decide (p ≠ [])) = decide (p' ≠ []) := by simp only [ne_eq, hp.eq_nil_iff]
    rw [canonicalQuery_eq_iff, decodedPairs_of_splitOn h, decodedPairs_of_splitOn h']
    simp only [List.filter_append, List.filter_cons, hne, List.map_append]
    split
    · rw [List.map_cons, List.map_cons, hp.decodePair_eq]
    · exact .refl _
  · have hkept := (decodedPairs_canonicalQuery raw skip).filter (notSkipped skip)
    rw [List.filter_filter] at hkept
    simpa [canonicalQuery_eq_iff] using hkept
  · have hall (ps : List (Bytes × Bytes)) : ps.filter (notSkipped none) = ps :=
      List.filter_eq_self.mpr fun _ _ => rfl
    rw [canonicalQuery_eq_iff, hall, hall, Multiset.coe_eq_coe]

/-! ## Forwarded targets -/

theorem hostname_append {name : Bytes} (h : colon ∉ name) (rest : Bytes) :
    hostname (name ++ rest) = name ++ hostname rest := by
  unfold hostname
  obtain ⟨hrest, -⟩ | ⟨a, b, rfl, ha, -⟩ := splitOnce_cases colon rest
  · have hwhole : colon ∉ name ++ rest := by simp [h, hrest]
    rw [List.splitOn_eq_singleton hwhole, List.splitOn_eq_singleton hrest]
    rfl
  · have hfront : colon ∉ name ++ a := by simp [h, ha]
    rw [← List.append_assoc, List.splitOn_append_cons_self, List.splitOn_append_cons_self,
      List.splitOn_eq_singleton hfront, List.splitOn_eq_singleton ha]
    rfl

theorem uriEncode_append (a b : Bytes) (encodeSlash : Bool) :
    uriEncode (a ++ b) encodeSlash = uriEncode a encodeSlash ++ uriEncode b encodeSlash := List.flatMap_append

theorem uriEncode_cons_slash (s : Bytes) : uriEncode (slash :: s) false = slash :: uriEncode s false := rfl

theorem isUnreserved_bucketByte {b : UInt8} (h : isBucketByte b) : isUnreserved b := by
  simp only [isBucketByte, Bool.or_eq_true, decide_eq_true_eq] at h
  obtain ((h | h) | rfl) | rfl := h
  · simp [isUnreserved, h]
  · simp [isUnreserved, h]
  · decide
  · decide

theorem uriEncode_bucket {name : Bytes} (h : ∀ b ∈ name, isBucketByte b) : uriEncode name false = name := by
  induction name with
  | nil => rfl
  | cons b name ih =>
      rw [List.forall_mem_cons] at h
      have hkeep : uriEncode [b] false = [b] := by
        simp [uriEncode, percentEncode, isUnreserved_bucketByte h.1]
      rw [← List.singleton_append, uriEncode_append, hkeep, ih h.2]

theorem colon_not_mem_bucket {name : Bytes} (h : ∀ b ∈ name, isBucketByte b) : colon ∉ name := by
  intro hc
  have := h colon hc
  revert this
  decide

theorem decode_key {key : Option Bytes} (h : ∀ k, key = some k → k ≠ [] ∧ utf8Lossy k = k) :
    (nonEmpty (uriEncode (key.getD []) false)).map percentDecode = key := by
  rw [nonEmpty_map_percentDecode, percentDecode_uriEncode]
  cases key with
  | none => rfl
  | some k =>
      obtain ⟨hne, htext⟩ := h k rfl
      rw [Option.getD_some, htext]
      exact nonEmpty_eq_some.mpr ⟨hne, rfl⟩

theorem resolvePath_bucket {bucket : Bytes} (h : wellFormedBucket bucket) (rest : Bytes) :
    resolvePath (bucket ++ slash :: rest) = .ok ⟨some bucket, (nonEmpty rest).map percentDecode⟩ := by
  have hne : bucket ≠ [] := by
    rintro rfl
    cases h
  unfold resolvePath
  simp only [splitOnce_append rest (slash_not_mem_bucket (isBucketByte_of_wellFormed h))]
  rw [nonEmpty, if_neg hne, Option.mapM_some, validatedBucket_eq_ok.mpr ⟨h, rfl⟩]
  rfl

/-- The addressing style of an origin at an authority. -/
def OriginConfig.addressing (origin : OriginConfig) (authority : Bytes) : Addressing :=
  if origin.virtualHosted then .virtualHosted (hostname authority) else .path

/-- The path of a forwarded request is signed as it is sent. -/
theorem canonicalUri_upstreamPath {origin : OriginConfig} {target : Target}
    (hb : ∀ bucket, target.bucket = some bucket → wellFormedBucket bucket)
    (hk : ∀ key, target.key = some key → key ≠ [] ∧ utf8Lossy key = key) :
    canonicalUri (upstreamPath origin target) = upstreamPath origin target := by
  have hkey : utf8Lossy (target.key.getD []) = target.key.getD [] := by
    cases h : target.key with
    | none => rfl
    | some key => exact (hk key h).2
  have hplain : uriEncode (percentDecode (slash :: uriEncode (target.key.getD []) false)) false =
      slash :: uriEncode (target.key.getD []) false := by
    rw [percentDecode_cons_slash, percentDecode_uriEncode, hkey, uriEncode_cons_slash]
  have hstem : ∃ rest, keyStem origin target = slash :: rest := by
    unfold keyStem
    cases target.bucket with
    | none => exact ⟨_, rfl⟩
    | some bucket => cases origin.virtualHosted <;> exact ⟨_, rfl⟩
  obtain ⟨rest, hrest⟩ := hstem
  rw [upstreamPath_eq hb, canonicalUri, if_neg (by simp [hrest])]
  unfold keyStem
  cases hbucket : target.bucket with
  | none => exact hplain
  | some bucket =>
      cases origin.virtualHosted with
      | true => exact hplain
      | false =>
          have hbytes := isBucketByte_of_wellFormed (hb bucket hbucket)
          simp only [Bool.false_eq_true, if_false, List.cons_append, List.append_assoc, List.nil_append]
          rw [percentDecode_cons_slash, percentDecode_append_slash, percentDecode_bucket hbytes,
            percentDecode_uriEncode, hkey, uriEncode_cons_slash, uriEncode_append, uriEncode_bucket hbytes,
            uriEncode_cons_slash]

/-- The origin, addressing as it does, resolves what it is sent to the target. -/
theorem resolve_upstream {origin : OriginConfig} {authority : Bytes} (ha : origin.authority = some authority)
    {target : Target} {bucket : Bytes} (hb : target.bucket = some bucket) (hw : wellFormedBucket bucket)
    (hk : ∀ key, target.key = some key → key ≠ [] ∧ utf8Lossy key = key) :
    ∃ host, upstreamHost origin target = .ok host ∧
      (origin.addressing authority).resolve host (upstreamPath origin target) = .ok target := by
  have hbytes := isBucketByte_of_wellFormed hw
  have hpath : upstreamPath origin target = keyStem origin target ++ uriEncode
      (target.key.getD []) false := by
    refine upstreamPath_eq fun b h => ?_
    obtain rfl : bucket = b := Option.some.inj (hb.symm.trans h)
    exact hw
  have htarget : (⟨some bucket, target.key⟩ : Target) = target := by rw [← hb]
  rw [hpath, keyStem, upstreamHost, hb]
  dsimp only
  rw [OriginConfig.bucketHost, ha]
  refine ⟨_, rfl, ?_⟩
  cases hv : origin.virtualHosted with
  | true =>
      have hnames : (origin.addressing authority).bucketOf (bucket ++ ascii "." ++ authority) =
          some bucket := by
        rw [OriginConfig.addressing, hv, if_pos rfl, Addressing.bucketOf_eq_some]
        refine ⟨?_, hostname_append ?_ authority⟩
        · rintro rfl
          cases hw
        · have hdot : colon ∉ ascii "." := by decide
          simp [colon_not_mem_bucket hbytes, hdot]
      rw [if_pos rfl, if_pos rfl, Addressing.resolve, hnames, List.singleton_append, strippedPath_cons,
        decode_key hk, ← htarget]
      dsimp only
      rw [validatedBucket_eq_ok.mpr ⟨hw, rfl⟩]
      rfl
  | false =>
      have hnone : (origin.addressing authority).bucketOf authority = none := by
        rw [OriginConfig.addressing, hv]
        rfl
      simp only [Bool.false_eq_true, if_false, Addressing.resolve, hnone, List.cons_append, strippedPath_cons,
        List.append_assoc, List.nil_append]
      rw [resolvePath_bucket hw, decode_key hk, htarget]

/-- What is forwarded for a target with a bucket goes to the origin, or fails because `http` does
not parse the URI. The origin resolves the host and the path to the same target, whichever style it
has, and the path is signed as it is sent. -/
theorem target_forwarded [UriSyntax] {addressing : Addressing} {host path bucket authority : Bytes}
    {target : Target} (hr : addressing.resolve host path = .ok target) (hb : target.bucket = some bucket)
    (origin : OriginConfig) (ha : origin.authority = some authority) (rawQuery : Bytes) :
    ∃ originHost uri, uri.path = upstreamPath origin target ∧
      upstreamUri origin target rawQuery = (if UriSyntax.parses origin.scheme uri then .ok (uri, originHost)
        else .error (.internal "failed to build upstream uri")) ∧
      (origin.addressing authority).resolve originHost uri.path = .ok target ∧
      canonicalUri uri.path = uri.path := by
  have hw := Addressing.wellFormed_of_resolve hr hb
  have hk : ∀ key, target.key = some key → key ≠ [] ∧ utf8Lossy key = key :=
    fun _ => Addressing.key_of_resolve hr
  obtain ⟨originHost, hhost, hres⟩ := resolve_upstream ha hb hw hk
  refine ⟨originHost, ⟨some originHost, upstreamPath origin target, nonEmpty (upstreamQuery rawQuery)⟩, rfl,
    ?_, hres, canonicalUri_upstreamPath (fun _ h => Addressing.wellFormed_of_resolve hr h) hk⟩
  rw [upstreamUri, hhost]
  rfl

/-- A key with a slash before it and a space in it, for an origin that is virtual hosted. -/
theorem target_forwarded_slash : ∃ originHost uri, uri.path = ascii "//a%20b" ∧
    @upstreamUri ⟨fun _ _ => true⟩ ⟨ascii "https", some (ascii "s3.test:9000"), [], true⟩
      ⟨some (ascii "bucket"), some (ascii "/a b")⟩ [] = .ok (uri, originHost) ∧
    (Addressing.virtualHosted (ascii "s3.test")).resolve originHost uri.path =
      .ok ⟨some (ascii "bucket"), some (ascii "/a b")⟩ := by
  have hr : Addressing.path.resolve [] (ascii "/bucket//a%20b") =
      .ok ⟨some (ascii "bucket"), some (ascii "/a b")⟩ := by
    decide
  obtain ⟨originHost, uri, hpath, huri, hres, -⟩ := @target_forwarded ⟨fun _ _ => true⟩ _ _ _ _ _ _ hr rfl
    ⟨ascii "https", some (ascii "s3.test:9000"), [], true⟩ rfl []
  refine ⟨originHost, uri, hpath.trans (by decide), huri, ?_⟩
  have hstyle : (⟨ascii "https", some (ascii "s3.test:9000"), [], true⟩ : OriginConfig).addressing
      (ascii "s3.test:9000") = .virtualHosted (ascii "s3.test") := by decide
  rwa [hstyle] at hres

end Nestor.S3
