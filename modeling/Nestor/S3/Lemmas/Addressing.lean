import Nestor.S3.Addressing
import Nestor.S3.Lemmas.Canonical

/-!
# What addressing makes of a path

A bucket is plain ASCII without slashes and escapes, so bucket and key can be read off the decoded
path as well.
-/

namespace Nestor.S3

open Lib

variable {name bucket host : Bytes} {target : Target} {addressing : Addressing}

/-! ## Buckets -/

theorem validatedBucket_eq_ok : validatedBucket name = .ok bucket ↔
    wellFormedBucket name ∧ bucket = name := by
  unfold validatedBucket
  split
  · rename_i h
    simp [h, eq_comm]
  · rename_i h
    simp [h]

theorem isBucketByte_of_wellFormed (h : wellFormedBucket name) : ∀ b ∈ name, isBucketByte b := by
  simp only [wellFormedBucket, Bool.and_eq_true, List.all_eq_true] at h
  exact h.1.1.1.2

theorem isBucketByte_facts {b : UInt8} : isBucketByte b → b ≠ percent ∧ b ≠ slash ∧ b.toNat < 0x80 :=
  forall_byte (P := fun b => isBucketByte b → b ≠ percent ∧ b ≠ slash ∧ b.toNat < 0x80) (by decide +kernel) b

theorem slash_not_mem_bucket (h : ∀ b ∈ name, isBucketByte b) : slash ∉ name :=
  fun hs => (isBucketByte_facts (h _ hs)).2.1 rfl

theorem percentDecode_bucket (h : ∀ b ∈ name, isBucketByte b) : percentDecode name = name :=
  percentDecode_of_plain (fun hs => (isBucketByte_facts (h _ hs)).1 rfl)
    fun b hb => (isBucketByte_facts (h b hb)).2.2

/-! ## Paths -/

theorem nonEmpty_eq_some {s t : Bytes} : nonEmpty s = some t ↔ s ≠ [] ∧ t = s := by
  unfold nonEmpty
  split <;> simp_all [eq_comm]

theorem nonEmpty_map_percentDecode (s : Bytes) :
    (nonEmpty s).map percentDecode = nonEmpty (percentDecode s) := by
  unfold nonEmpty
  by_cases h : s = []
  · subst h
    rfl
  · simp [h, percentDecode_eq_nil]

/-- What `resolvePath` reads off a decoded path. -/
def targetOf (path : Bytes) : Target :=
  match splitOnce slash path with
  | some (bucket, key) => ⟨nonEmpty bucket, nonEmpty key⟩
  | none => ⟨nonEmpty path, none⟩

theorem mapM_validatedBucket {b : Option Bytes} (h : (nonEmpty bucket).mapM validatedBucket = .ok b) :
    (bucket = [] ∨ wellFormedBucket bucket) ∧ b = nonEmpty bucket := by
  by_cases he : bucket = []
  · subst he
    cases h
    exact ⟨.inl rfl, rfl⟩
  · rw [nonEmpty, if_neg he] at h ⊢
    rw [Option.mapM_some] at h
    cases hv : validatedBucket bucket with
    | error e =>
        rw [hv] at h
        cases h
    | ok b' =>
        rw [hv] at h
        cases h
        obtain ⟨hw, rfl⟩ := validatedBucket_eq_ok.mp hv
        exact ⟨.inr hw, rfl⟩

theorem bucketBytes (h : bucket = [] ∨ wellFormedBucket bucket) : ∀ b ∈ bucket, isBucketByte b := by
  obtain rfl | h := h
  · simp
  · exact isBucketByte_of_wellFormed h

/-- A path is a bucket alone, or a bucket and what follows the first slash. -/
theorem resolvePath_cases {path : Bytes} (h : resolvePath path = .ok target) :
    ∃ bucket, (bucket = [] ∨ wellFormedBucket bucket) ∧
      (path = bucket ∧ target = ⟨nonEmpty bucket, none⟩ ∨
        ∃ key, path = bucket ++ slash :: key ∧ target =
          ⟨nonEmpty bucket, (nonEmpty key).map percentDecode⟩) := by
  unfold resolvePath at h
  obtain ⟨-, hs⟩ | ⟨bucket, key, rfl, -, hs⟩ := splitOnce_cases slash path
  · simp only [hs] at h
    obtain ⟨b, hb, h⟩ := bind_eq_ok.mp h
    cases h
    obtain ⟨hw, rfl⟩ := mapM_validatedBucket hb
    exact ⟨path, hw, .inl ⟨rfl, rfl⟩⟩
  · simp only [hs] at h
    obtain ⟨b, hb, h⟩ := bind_eq_ok.mp h
    cases h
    obtain ⟨hw, rfl⟩ := mapM_validatedBucket hb
    exact ⟨bucket, hw, .inr ⟨key, rfl, rfl⟩⟩

theorem resolvePath_eq_ok {path : Bytes} (h : resolvePath path = .ok target) :
    target = targetOf (percentDecode path) := by
  obtain ⟨bucket, hw, ⟨rfl, rfl⟩ | ⟨key, rfl, rfl⟩⟩ := resolvePath_cases h
  · have hbytes := bucketBytes hw
    rw [targetOf, percentDecode_bucket hbytes, splitOnce_eq_none (slash_not_mem_bucket hbytes)]
  · have hbytes := bucketBytes hw
    rw [targetOf, percentDecode_append_slash, percentDecode_bucket hbytes,
      splitOnce_append _ (slash_not_mem_bucket hbytes), nonEmpty_map_percentDecode]

theorem targetOf_ne (path bucket : Bytes) : targetOf path ≠ ⟨some bucket, nonEmpty path⟩ := by
  intro h
  unfold targetOf at h
  obtain ⟨hno, hs⟩ | ⟨b, key, rfl, hno, hs⟩ := splitOnce_cases slash path
  · rw [hs] at h
    obtain ⟨hb, hk⟩ := Target.mk.inj h
    rw [← hk] at hb
    cases hb
  · rw [hs] at h
    have hk : nonEmpty key = nonEmpty (b ++ slash :: key) := (Target.mk.inj h).2
    have hwhole : nonEmpty (b ++ slash :: key) = some (b ++ slash :: key) :=
      nonEmpty_eq_some.mpr ⟨by simp, rfl⟩
    rw [hwhole, nonEmpty_eq_some] at hk
    have := congrArg List.length hk.2
    simp only [List.length_append, List.length_cons] at this
    omega

theorem strippedPath_cons (rest : Bytes) : strippedPath (slash :: rest) = rest := by
  have hd : (slash :: rest).dropPrefix? [slash] = some rest := dropPrefix?_eq_some.mpr rfl
  rw [strippedPath, hd]
  rfl

/-- The paths `http` parses out of a request: none, `*`, or one that starts with a slash. -/
def Uri.Rooted (uri : Uri) : Prop := uri.path = [] ∨ uri.path = ascii "*" ∨ ∃ rest, uri.path = slash :: rest

theorem Uri.Rooted.cases {uri : Uri} (h : uri.Rooted) :
    strippedPath uri.path = ascii "*" ∧ uri.path = ascii "*" ∨
      (if uri.path = [] then [slash] else uri.path) = slash :: strippedPath uri.path := by
  obtain h | h | ⟨rest, h⟩ := h
  · right
    rw [h]
    rfl
  · left
    rw [h]
    exact ⟨by decide, rfl⟩
  · right
    rw [h, strippedPath_cons]
    rfl

theorem percentDecode_strippedPath {uri uri' : Uri} (h : uri.Rooted) (h' : uri'.Rooted)
    (he : canonicalUri uri.path = canonicalUri uri'.path) :
    percentDecode (strippedPath uri.path) = percentDecode (strippedPath uri'.path) := by
  have hd := canonicalUri_inj he
  have hstar (s : Bytes) : percentDecode (if ascii "*" = [] then [slash] else ascii "*") ≠ slash :: s := by
    intro hs
    have hhead : some (42 : UInt8) = some 47 := congrArg List.head? hs
    revert hhead
    decide
  obtain ⟨hs, hp⟩ | hp := h.cases
  · obtain ⟨hs', -⟩ | hp' := h'.cases
    · rw [hs, hs']
    · rw [hp, hp', percentDecode_cons_slash] at hd
      exact (hstar _ hd).elim
  · obtain ⟨-, hp'⟩ | hp' := h'.cases
    · rw [hp, hp', percentDecode_cons_slash] at hd
      exact (hstar _ hd.symm).elim
    · rw [hp, hp', percentDecode_cons_slash, percentDecode_cons_slash] at hd
      exact List.tail_eq_of_cons_eq hd

/-! ## Hosts -/

namespace Addressing

/-- A host names a bucket if that is what stands before the domain. -/
def Names (addressing : Addressing) (host bucket : Bytes) : Prop :=
  match addressing with
  | path => False
  | virtualHosted domain => bucket ≠ [] ∧ hostname host = bucket ++ ascii "." ++ domain

theorem bucketOf_eq_some :
    addressing.bucketOf host = some bucket ↔ addressing.Names host bucket := by
  cases addressing with
  | path => simp [bucketOf, Names]
  | virtualHosted domain =>
      simp only [bucketOf, hostBucket, Names, Option.bind_eq_bind, Option.bind_eq_some_iff,
        dropSuffix?_eq_some, nonEmpty_eq_some]
      constructor
      · rintro ⟨a, ha, b, rfl, hb, rfl⟩
        exact ⟨hb, ha⟩
      · rintro ⟨hb, ha⟩
        exact ⟨_, ha, bucket, rfl, hb, rfl⟩

theorem bucketOf_eq_iff {host' : Bytes} :
    addressing.bucketOf host = addressing.bucketOf host' ↔
      ∀ bucket, addressing.Names host bucket ↔ addressing.Names host' bucket := by
  simp only [← bucketOf_eq_some]
  exact ⟨fun h bucket => by rw [h], Option.ext⟩

/-- The bucket is what the host names, or else the path has it. -/
theorem resolve_cases {path : Bytes} (h : addressing.resolve host path = .ok target) :
    (∃ bucket, addressing.bucketOf host = some bucket ∧ wellFormedBucket bucket ∧
      target = ⟨some bucket, (nonEmpty (strippedPath path)).map percentDecode⟩) ∨
    addressing.bucketOf host = none ∧ resolvePath (strippedPath path) = .ok target := by
  unfold resolve at h
  cases hb : addressing.bucketOf host with
  | none =>
      rw [hb] at h
      exact .inr ⟨rfl, h⟩
  | some bucket =>
      rw [hb] at h
      obtain ⟨b, hv, hres⟩ := bind_eq_ok.mp h
      obtain ⟨hw, rfl⟩ := validatedBucket_eq_ok.mp hv
      cases hres
      exact .inl ⟨b, rfl, hw, rfl⟩

theorem resolve_eq_ok {path : Bytes} (h : addressing.resolve host path = .ok target) :
    target = match addressing.bucketOf host with
      | some bucket => ⟨some bucket, nonEmpty (percentDecode (strippedPath path))⟩
      | none => targetOf (percentDecode (strippedPath path)) := by
  obtain ⟨bucket, hb, -, rfl⟩ | ⟨hb, h⟩ := resolve_cases h
  · rw [hb, nonEmpty_map_percentDecode]
  · rw [hb]
    exact resolvePath_eq_ok h

/-- Only buckets that were found well formed are addressed. -/
theorem wellFormed_of_resolve {path : Bytes}
    (h : addressing.resolve host path = .ok target) (hb : target.bucket = some bucket) :
    wellFormedBucket bucket := by
  obtain ⟨b, -, hw, rfl⟩ | ⟨-, h⟩ := resolve_cases h
  · cases hb
    exact hw
  · obtain ⟨b, hw, ⟨-, rfl⟩ | ⟨key, -, rfl⟩⟩ := resolvePath_cases h
    · obtain ⟨hne, rfl⟩ := nonEmpty_eq_some.mp hb
      exact hw.resolve_left hne
    · obtain ⟨hne, rfl⟩ := nonEmpty_eq_some.mp hb
      exact hw.resolve_left hne

/-- A key is text, and not empty. -/
theorem key_of_resolve {path key : Bytes}
    (h : addressing.resolve host path = .ok target) (hk : target.key = some key) :
    key ≠ [] ∧ utf8Lossy key = key := by
  have hdecoded {raw : Bytes} (hraw : (nonEmpty raw).map percentDecode = some key) :
      key ≠ [] ∧ utf8Lossy key = key := by
    rw [nonEmpty_map_percentDecode, nonEmpty_eq_some] at hraw
    obtain ⟨hne, rfl⟩ := hraw
    exact ⟨hne, utf8Lossy_utf8Lossy _⟩
  obtain ⟨b, -, -, rfl⟩ | ⟨-, h⟩ := resolve_cases h
  · exact hdecoded hk
  · obtain ⟨b, -, ⟨-, rfl⟩ | ⟨raw, -, rfl⟩⟩ := resolvePath_cases h
    · cases hk
    · exact hdecoded hk

/-- The path names a key behind an empty bucket, and the host names none. -/
def NoBucket (addressing : Addressing) (host path : Bytes) : Prop :=
  (∀ bucket, ¬ addressing.Names host bucket) ∧ ∃ rest, rest ≠ [] ∧ strippedPath path = slash :: rest

theorem noBucket_iff {path : Bytes} (h : addressing.resolve host path = .ok target) :
    addressing.NoBucket host path ↔ target.bucket = none ∧ target.key.isSome := by
  have hnames : (∀ bucket, ¬ addressing.Names host bucket) ↔ addressing.bucketOf host = none := by
    simp only [← bucketOf_eq_some]
    exact Option.eq_none_iff_forall_ne_some.symm
  rw [NoBucket, hnames]
  obtain ⟨b, hb, -, rfl⟩ | ⟨hb, h⟩ := resolve_cases h
  · simp [hb]
  · obtain ⟨b, hw, ⟨hp, rfl⟩ | ⟨key, hp, rfl⟩⟩ := resolvePath_cases h
    · have hslash := slash_not_mem_bucket (bucketBytes hw)
      simp only [hb, hp, true_and, Option.isSome_none, Bool.false_eq_true, and_false, iff_false,
        not_exists, not_and]
      rintro rest - rfl
      exact hslash List.mem_cons_self
    · simp only [hb, hp, true_and, Option.isSome_map]
      have hslash := slash_not_mem_bucket (bucketBytes hw)
      cases b with
      | nil => simp [nonEmpty]
      | cons x b =>
          have hx : x ≠ slash := fun hx => hslash (hx ▸ List.mem_cons_self)
          simp [nonEmpty, hx]

/-- Requests for the same decoded path have the same target if their hosts name the same bucket, or
none. -/
theorem resolve_eq_iff {host' path path' : Bytes} {target' : Target}
    (h : addressing.resolve host path = .ok target) (h' : addressing.resolve host' path' = .ok target')
    (hp : percentDecode (strippedPath path) = percentDecode (strippedPath path')) :
    target = target' ↔ ∀ bucket, addressing.Names host bucket ↔ addressing.Names host' bucket := by
  rw [resolve_eq_ok h, resolve_eq_ok h', hp, ← bucketOf_eq_iff]
  cases addressing.bucketOf host with
  | none =>
      cases addressing.bucketOf host' with
      | none => simp
      | some b => simpa using targetOf_ne _ b
  | some a =>
      cases addressing.bucketOf host' with
      | none => simpa using (targetOf_ne _ a).symm
      | some b => simp

end Addressing

end Nestor.S3
