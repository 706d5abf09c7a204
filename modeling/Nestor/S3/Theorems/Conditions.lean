import Nestor.S3.Lemmas.Etags

/-!
# Conditional requests

Matching a list of entity tags is membership as long as commas only stand between the tags. The
outcome of the preconditions of a GET or HEAD request is that of the procedure of HTTP but for six
kinds of requests.
-/

namespace Nestor.S3

open Lib

/-! ## Lists of tags -/

/-- Of an object with an entity tag and a list of entity tags, the code says that the tag is in the
list exactly when it is, if and only if a tag in the list has no comma, or there is a star between
two commas, and there is none between two commas if the tag is not in the list. -/
theorem etagMatches_member_iff {m : ObjectMeta} {tag : EntityTag} {candidates : Bytes} {tags : List EntityTag}
    (htag : m.etag = some tag.text) (hlist : TagList candidates tags)
    (hutf8 : utf8Lossy candidates = candidates) :
    (m.etagMatches candidates = true ↔ Lists tags tag.label) ↔
      (Lists tags tag.label → comma ∉ tag.label ∨ Starred candidates) ∧
        (Starred candidates → Lists tags tag.label) := by
  rw [etagMatches_list htag hlist hutf8]
  by_cases hmem : Lists tags tag.label
  · simp only [hmem, and_true, iff_true, true_imp_iff, implies_true]
    exact or_comm
  · simp only [hmem, and_false, or_false, iff_false, false_imp_iff, true_and]

/-- The tag `"abc"`. -/
def abcTag : EntityTag := ⟨false, ascii "abc", by decide⟩

def zTag : EntityTag := ⟨true, ascii "z", by decide⟩

theorem etagMatches_second : TagList (ascii "W/\"z\" , \"abc\"") [zTag, abcTag] ∧
    ObjectMeta.etagMatches ⟨10, some (ascii "\"abc\""), none⟩ (ascii "W/\"z\" , \"abc\"") = true := by
  have hblank : Blanks (ascii " ") := by
    intro b hb
    cases List.mem_singleton.mp hb
    decide
  have hlist : TagList (ascii "W/\"z\" , \"abc\"") [zTag, abcTag] :=
    @TagList.more [] (ascii " ") (ascii " \"abc\"") zTag [abcTag] .nil hblank
      (@TagList.one (ascii " ") [] abcTag hblank .nil)
  have htag : (ObjectMeta.mk 10 (some (ascii "\"abc\"")) none).etag = some abcTag.text := rfl
  refine ⟨hlist, ((etagMatches_member_iff htag hlist (by decide)).mpr ?_).mpr (by decide)⟩
  exact ⟨fun _ => .inl (by decide), fun h => absurd h (by decide)⟩

/-- The tag `"a,b"`. -/
def commaTag : EntityTag := ⟨false, ascii "a,b", by decide⟩

/-- An object's own tag is not found if it has a comma. -/
theorem commaTag_not_echoed : TagList commaTag.text [commaTag] ∧
    ObjectMeta.etagMatches ⟨10, some commaTag.text, none⟩ commaTag.text = false :=
  ⟨@TagList.one [] [] commaTag .nil .nil, by decide⟩

/-! ## The procedure of HTTP -/

/-- What `If-Match` and `If-None-Match` may ask for. -/
inductive FieldValue where
  | any
  | tags (tags : List EntityTag)

inductive FieldText : Bytes → FieldValue → Prop
  | any {p q : Bytes} (hp : Blanks p) (hq : Blanks q) : FieldText (p ++ ascii "*" ++ q) .any
  | tags {w : Bytes} {tags : List EntityTag} (h : TagList w tags) : FieldText w (.tags tags)

structure Field where
  text : Bytes
  value : FieldValue
  reads : FieldText text value
  utf8 : utf8Lossy text = text

namespace FieldValue

/-- Neither tag is weak, and their labels are the same. -/
def strong : FieldValue → Option EntityTag → Bool
  | .any, _ => true
  | .tags ts, etag => etag.any fun e => ts.any fun t => !t.weak && !e.weak && decide (t.label = e.label)

/-- The labels are the same. -/
def weak : FieldValue → Option EntityTag → Bool
  | .any, _ => true
  | .tags ts, etag => etag.any fun e => ts.any fun t => decide (t.label = e.label)

end FieldValue

/-- The headers of a conditional request. Instants are nanoseconds since the epoch, or before it. -/
structure Conditions where
  ifMatch : Option Field
  ifNoneMatch : Option Field
  ifModifiedSince : Option Int
  ifUnmodifiedSince : Option Int

/-- What is known of the object. -/
structure Selected where
  size : Nat
  etag : Option EntityTag
  modified : Option Int

def seconds (t : Int) : Int := t / 1000000000

/-- The object has been modified after the instant, in whole seconds. An object without a date has
not. -/
def Selected.modifiedSince (o : Selected) (since : Option Int) : Bool :=
  since.any fun s => o.modified.any fun t => decide (seconds s < seconds t)

def Selected.unmodifiedSince (o : Selected) (since : Option Int) : Bool :=
  since.any fun s => o.modified.any fun t => decide (seconds t ≤ seconds s)

/-- The steps of the procedure: `If-Match`, `If-Unmodified-Since` if there is no `If-Match`,
`If-None-Match`, `If-Modified-Since` if there is no `If-None-Match`. -/
def Conditions.outcome (c : Conditions) (o : Selected) : Precondition :=
  let passed := match c.ifMatch with
    | some f => f.value.strong o.etag
    | none => !o.modifiedSince c.ifUnmodifiedSince
  let unchanged := match c.ifNoneMatch with
    | some f => f.value.weak o.etag
    | none => o.unmodifiedSince c.ifModifiedSince
  if passed then if unchanged then .notModified else .satisfied else .failed

/-! ## As the code sees it -/

def Selected.meta (o : Selected) : ObjectMeta := ⟨o.size, o.etag.map EntityTag.text, o.modified.map Int.toNat⟩

def Conditions.preconditions (c : Conditions) : Preconditions :=
  ⟨c.ifMatch.map Field.text, c.ifNoneMatch.map Field.text, c.ifModifiedSince.map Int.toNat,
    c.ifUnmodifiedSince.map Int.toNat⟩

/-- The list is cut at the commas of the object's tag, or at those around a star within a tag. -/
def Field.Misread (f : Field) (etag : Option EntityTag) : Prop :=
  (f.value.weak etag = true ∧ (∃ e, etag = some e ∧ comma ∈ e.label) ∧ ¬ Starred f.text) ∨
    (f.value.weak etag = false ∧ Starred f.text)

/-- The object has been modified after the instant, and after the first second of the epoch. -/
def Selected.ModifiedLate (o : Selected) (since : Option Int) : Prop :=
  ∃ s t, since = some s ∧ o.modified = some t ∧ seconds s < seconds t ∧ 0 < seconds t

/-- The object has been modified after the instant, but not after the first second of the epoch. -/
def Selected.ModifiedEarly (o : Selected) (since : Option Int) : Prop :=
  ∃ s t, since = some s ∧ o.modified = some t ∧ seconds s < seconds t ∧ seconds t ≤ 0

/-- The first two steps let the request pass. -/
def Conditions.Passes (c : Conditions) (o : Selected) : Prop :=
  match c.ifMatch with
  | some f => f.value.strong o.etag = true
  | none => o.modifiedSince c.ifUnmodifiedSince = false

/-- The requests that have another outcome. -/
inductive Deviates (c : Conditions) (o : Selected) : Prop
  /-- `If-Unmodified-Since` is consulted though `If-Match` holds. -/
  | date {f : Field} (hf : c.ifMatch = some f) (hstrong : f.value.strong o.etag = true)
      (hlate : o.ModifiedLate c.ifUnmodifiedSince)
  /-- `If-Match` compares weakly. -/
  | weakMatch {f : Field} (hf : c.ifMatch = some f) (hstrong : f.value.strong o.etag = false)
      (hweak : f.value.weak o.etag = true ↔ ¬ f.Misread o.etag) (hlate : ¬ o.ModifiedLate c.ifUnmodifiedSince)
  | misreadMatch {f : Field} (hf : c.ifMatch = some f) (hstrong : f.value.strong o.etag = true)
      (hmisread : f.Misread o.etag)
  | misreadNoneMatch {f : Field} (hpasses : c.Passes o) (hf : c.ifNoneMatch = some f)
      (hmisread : f.Misread o.etag)
  /-- Instants before the epoch are all the same. -/
  | earlyUnmodified (hf : c.ifMatch = none) (hearly : o.ModifiedEarly c.ifUnmodifiedSince)
  | earlyModified (hpasses : c.Passes o) (hf : c.ifNoneMatch = none)
      (hearly : o.ModifiedEarly c.ifModifiedSince)

theorem weak_of_strong {v : FieldValue} {etag : Option EntityTag} (h : v.strong etag = true) :
    v.weak etag = true := by
  cases v with
  | any => rfl
  | tags ts =>
      obtain ⟨e, he, hany⟩ := Option.any_eq_true _ _ |>.mp h
      obtain ⟨t, ht, hsame⟩ := List.any_eq_true.mp hany
      rw [Bool.and_eq_true] at hsame
      exact Option.any_eq_true _ _ |>.mpr ⟨e, he, List.any_eq_true.mpr ⟨t, ht, hsame.2⟩⟩

theorem weak_tags {ts : List EntityTag} {e : EntityTag} :
    (FieldValue.tags ts).weak (some e) = true ↔ Lists ts e.label := by
  simp [FieldValue.weak, Lists]

theorem starred_any {p q : Bytes} (hp : Blanks p) (hq : Blanks q) : Starred (p ++ ascii "*" ++ q) := by
  have hgraph : ∀ b ∈ ascii "*", isGraph b := by decide
  have hcomma : comma ∉ p ++ ascii "*" ++ q := by
    have hstar : comma ∉ ascii "*" := by decide
    simp only [List.mem_append, not_or]
    exact ⟨⟨hp.not_mem rfl, hstar⟩, hq.not_mem rfl⟩
  have htrim : trimText (p ++ ascii "*" ++ q) = ascii "*" :=
    trimText_pad hp hq (fun b hb => hgraph b (List.mem_of_mem_head? hb))
      fun b hb => hgraph b (List.mem_of_mem_getLast? hb)
  rw [Starred, pieces, List.splitOn_eq_singleton hcomma, List.map_singleton, htrim]
  exact List.mem_singleton_self _

/-- The code finds the tag where it is, if it does not misread the list, and otherwise where it is
not. -/
theorem etagMatches_field (f : Field) (o : Selected) :
    o.meta.etagMatches f.text = true ↔ (f.value.weak o.etag = true ↔ ¬ f.Misread o.etag) := by
  obtain ⟨text, value, reads, utf8⟩ := f
  cases reads with
  | any hp hq =>
      have hstar := starred_any hp hq
      refine iff_of_true (etagMatches_iff.mpr (.inl hstar)) (iff_of_true rfl ?_)
      rintro (⟨-, -, hno⟩ | ⟨hweak, -⟩)
      · exact hno hstar
      · cases hweak
  | @tags _ ts hlist =>
      unfold Field.Misread
      dsimp only
      cases he : o.etag with
      | none =>
          have hnone : o.meta.etag = none := by rw [Selected.meta, he, Option.map_none]
          have hmatches : o.meta.etagMatches text = true ↔ Starred text := by
            rw [etagMatches_iff]
            refine or_iff_left ?_
            rintro ⟨e, hsome, -⟩
            rw [hnone] at hsome
            cases hsome
          have hweak : (FieldValue.tags ts).weak none = false := rfl
          rw [hmatches, hweak]
          simp
      | some e =>
          have htag : o.meta.etag = some e.text := by rw [Selected.meta, he, Option.map_some]
          rw [etagMatches_list htag hlist utf8, ← weak_tags]
          by_cases hstar : Starred text <;> by_cases hcomma : comma ∈ e.label <;>
            cases (FieldValue.tags ts).weak (some e) <;> simp [hstar, hcomma]

section

variable (o : Selected)

theorem modifiedAfter_true (s : Int) : o.meta.modifiedAfter s.toNat = some true ↔
    o.ModifiedLate (some s) := by
  unfold ObjectMeta.modifiedAfter Selected.meta Selected.ModifiedLate ObjectMeta.wholeSeconds seconds
  cases o.modified with
  | none => simp
  | some t =>
      simp only [Option.map_some, Option.some.injEq, decide_eq_true_eq, exists_and_left, exists_eq_left']
      omega

theorem modifiedAfter_false (s : Int) :
    o.meta.modifiedAfter s.toNat = some false ↔ o.unmodifiedSince (some s) = true ∨
    o.ModifiedEarly (some s) := by
  unfold ObjectMeta.modifiedAfter Selected.meta Selected.ModifiedEarly Selected.unmodifiedSince
    ObjectMeta.wholeSeconds seconds
  cases o.modified with
  | none => simp
  | some t =>
      simp only [Option.map_some, Option.some.injEq, decide_eq_false_iff_not, Option.any_some,
        decide_eq_true_eq, exists_and_left, exists_eq_left']
      omega

theorem modifiedSince_iff (since : Option Int) :
    o.modifiedSince since = true ↔ o.ModifiedLate since ∨ o.ModifiedEarly since := by
  unfold Selected.modifiedSince Selected.ModifiedLate Selected.ModifiedEarly
  cases since with
  | none => simp
  | some s =>
      cases o.modified with
      | none => simp
      | some t =>
          simp only [Option.any_some, decide_eq_true_eq, Option.some.injEq, exists_and_left, exists_eq_left']
          omega

end

/-! ## The steps, one by one -/

def Conditions.lastOutcome (c : Conditions) (o : Selected) : Precondition :=
  if (match c.ifNoneMatch with
    | some f => f.value.weak o.etag
    | none => o.unmodifiedSince c.ifModifiedSince) then .notModified else .satisfied

/-- The last two steps deviate. -/
def Conditions.LastDeviates (c : Conditions) (o : Selected) : Prop :=
  (∃ f, c.ifNoneMatch = some f ∧ f.Misread o.etag) ∨ c.ifNoneMatch = none ∧ o.ModifiedEarly c.ifModifiedSince

section

variable {c : Conditions} {o : Selected} {f : Field}

theorem lastSteps_ne_failed : c.preconditions.lastSteps o.meta ≠ .failed := by
  unfold Preconditions.lastSteps
  split
  · split <;> exact nofun
  · split <;> exact nofun

theorem lastOutcome_ne_failed : c.lastOutcome o ≠ .failed := by
  unfold Conditions.lastOutcome
  cases (match c.ifNoneMatch with
    | some f => f.value.weak o.etag
    | none => o.unmodifiedSince c.ifModifiedSince) <;> exact nofun

theorem early_not_unmodified {since : Option Int} (h : o.ModifiedEarly since) :
    o.unmodifiedSince since = false := by
  obtain ⟨s, t, rfl, ht, hlt, -⟩ := h
  simp [Selected.unmodifiedSince, ht, hlt]

theorem lastSteps_eq_iff : c.preconditions.lastSteps o.meta = c.lastOutcome o ↔ ¬ c.LastDeviates o := by
  unfold Preconditions.lastSteps Conditions.preconditions Conditions.lastOutcome Conditions.LastDeviates
  cases hf : c.ifNoneMatch with
  | some f =>
      have hmatches := etagMatches_field f o
      by_cases hmis : f.Misread o.etag <;> cases hw : f.value.weak o.etag <;>
        cases hm : o.meta.etagMatches f.text <;> simp_all
  | none =>
      cases hs : c.ifModifiedSince with
      | none =>
          have hno : ¬ o.ModifiedEarly none := fun ⟨_, _, h, _⟩ => nomatch h
          simp [hno, Selected.unmodifiedSince]
      | some s =>
          have hfalse := modifiedAfter_false o s
          by_cases hearly : o.ModifiedEarly (some s)
          · have hun := early_not_unmodified hearly
            have hcode := hfalse.mpr (.inr hearly)
            simp [hearly, hun, hcode]
          · rw [or_iff_left hearly] at hfalse
            by_cases hun : o.unmodifiedSince (some s) = true
            · simp [hearly, hun, hfalse.mpr hun]
            · have hcode : ¬ o.meta.modifiedAfter s.toNat = some false := fun h => hun (hfalse.mp h)
              simp [hearly, hun, hcode]

/-- The date is checked whatever `If-Match` has said. -/
theorem ifUnmodifiedSince_iff : (c.preconditions.ifUnmodifiedSince.any fun since =>
    decide (o.meta.modifiedAfter since = some true)) = true ↔ o.ModifiedLate c.ifUnmodifiedSince := by
  unfold Conditions.preconditions
  dsimp only
  cases c.ifUnmodifiedSince with
  | none => exact iff_of_false nofun fun ⟨_, _, h, _⟩ => nomatch h
  | some s => rw [Option.map_some, Option.any_some, decide_eq_true_eq, modifiedAfter_true]

theorem evaluate_unmatched (hf : c.ifMatch = some f) (h : o.meta.etagMatches f.text = false) :
    c.preconditions.evaluate o.meta = .failed := by
  unfold Preconditions.evaluate
  rw [if_pos]
  rw [Conditions.preconditions, hf, Option.map_some, Option.any_some, h]
  rfl

theorem evaluate_of_matched (h : ∀ f, c.ifMatch = some f → o.meta.etagMatches f.text = true) :
    (o.ModifiedLate c.ifUnmodifiedSince → c.preconditions.evaluate o.meta = .failed) ∧
      (¬ o.ModifiedLate c.ifUnmodifiedSince → c.preconditions.evaluate o.meta =
        c.preconditions.lastSteps o.meta) := by
  have hmatch : ¬ (c.preconditions.ifMatch.any fun candidates => !o.meta.etagMatches candidates) = true := by
    unfold Conditions.preconditions
    dsimp only
    cases hf : c.ifMatch with
    | none => exact nofun
    | some f =>
        rw [Option.map_some, Option.any_some, h f hf]
        exact nofun
  unfold Preconditions.evaluate
  rw [if_neg hmatch]
  refine ⟨fun hlate => if_pos (ifUnmodifiedSince_iff.mpr hlate), fun hlate => ?_⟩
  rw [if_neg (mt ifUnmodifiedSince_iff.mp hlate)]

theorem outcome_of_passes (h : c.Passes o) : c.outcome o = c.lastOutcome o := by
  unfold Conditions.Passes at h
  unfold Conditions.outcome Conditions.lastOutcome
  cases hf : c.ifMatch with
  | some f =>
      rw [hf] at h
      simp only [h, if_true]
  | none =>
      rw [hf] at h
      simp only [h, Bool.not_false, if_true]

theorem outcome_of_not_passes (h : ¬ c.Passes o) : c.outcome o = .failed := by
  unfold Conditions.Passes at h
  unfold Conditions.outcome
  cases hf : c.ifMatch with
  | some f =>
      rw [hf] at h
      exact if_neg h
  | none =>
      rw [hf] at h
      exact if_neg (by simpa using h)

theorem late_not_early {since : Option Int} (h : o.ModifiedLate since) : ¬ o.ModifiedEarly since := by
  obtain ⟨s, t, hs, ht, -, hpos⟩ := h
  rintro ⟨s', t', -, ht', -, hle⟩
  rw [ht] at ht'
  cases ht'
  omega

/-- Where the first two steps are as they should be, the last two decide. -/
theorem lastDeviates_iff (hpasses : c.Passes o)
    (hmatch : ∀ f, c.ifMatch = some f → ¬ f.Misread o.etag ∧ ¬ o.ModifiedLate c.ifUnmodifiedSince)
    (hdate : c.ifMatch = none → ¬ o.ModifiedEarly c.ifUnmodifiedSince) : c.LastDeviates o ↔ Deviates c o := by
  have hstrong {f : Field} (hf : c.ifMatch = some f) : f.value.strong o.etag = true := by
    unfold Conditions.Passes at hpasses
    rw [hf] at hpasses
    exact hpasses
  constructor
  · rintro (⟨f, hf, hmis⟩ | ⟨hf, hearly⟩)
    · exact .misreadNoneMatch hpasses hf hmis
    · exact .earlyModified hpasses hf hearly
  · intro h
    cases h with
    | date hf _ hlate => exact absurd hlate (hmatch _ hf).2
    | weakMatch hf hno _ _ => exact absurd (hstrong hf) (by rw [hno]; exact nofun)
    | misreadMatch hf _ hmis => exact absurd hmis (hmatch _ hf).1
    | misreadNoneMatch _ hf hmis => exact .inl ⟨_, hf, hmis⟩
    | earlyUnmodified hf hearly => exact absurd hearly (hdate hf)
    | earlyModified _ hf hearly => exact .inr ⟨hf, hearly⟩

theorem evaluate_eq_outcome_of_strong (hf : c.ifMatch = some f) (hs : f.value.strong o.etag = true) :
    c.preconditions.evaluate o.meta = c.outcome o ↔ ¬ Deviates c o := by
  have hpasses : c.Passes o := by
    unfold Conditions.Passes
    rw [hf]
    exact hs
  have hmatches := etagMatches_field f o
  rw [weak_of_strong hs] at hmatches
  rw [outcome_of_passes hpasses]
  by_cases hmis : f.Misread o.etag
  · have hno : o.meta.etagMatches f.text = false := by
      rw [← Bool.not_eq_true, hmatches]
      exact fun h => h.mp rfl hmis
    rw [evaluate_unmatched hf hno]
    exact iff_of_false lastOutcome_ne_failed.symm fun h => h (.misreadMatch hf hs hmis)
  have hyes : o.meta.etagMatches f.text = true := hmatches.mpr (iff_of_true rfl hmis)
  have heval : ∀ f', c.ifMatch = some f' → o.meta.etagMatches f'.text = true := by
    intro f' hf'
    rw [hf] at hf'
    cases hf'
    exact hyes
  by_cases hlate : o.ModifiedLate c.ifUnmodifiedSince
  · rw [(evaluate_of_matched heval).1 hlate]
    exact iff_of_false lastOutcome_ne_failed.symm fun h => h (.date hf hs hlate)
  · rw [(evaluate_of_matched heval).2 hlate, lastSteps_eq_iff, lastDeviates_iff hpasses]
    · intro f' hf'
      rw [hf] at hf'
      cases hf'
      exact ⟨hmis, hlate⟩
    · intro hnone
      rw [hf] at hnone
      cases hnone

/-- `If-Match` does not hold: the request fails, unless it is taken to hold. -/
theorem evaluate_eq_outcome_of_not_strong (hf : c.ifMatch = some f) (hs : f.value.strong o.etag = false) :
    c.preconditions.evaluate o.meta = c.outcome o ↔ ¬ Deviates c o := by
  have hpasses : ¬ c.Passes o := by
    unfold Conditions.Passes
    rw [hf]
    dsimp only
    rw [hs]
    exact nofun
  have hmatches := etagMatches_field f o
  have heval (hyes : o.meta.etagMatches f.text = true) :
      ∀ f', c.ifMatch = some f' → o.meta.etagMatches f'.text = true := by
    intro f' hf'
    rw [hf] at hf'
    cases hf'
    exact hyes
  rw [outcome_of_not_passes hpasses]
  by_cases hweak : o.meta.etagMatches f.text = true ∧ ¬ o.ModifiedLate c.ifUnmodifiedSince
  · rw [(evaluate_of_matched (heval hweak.1)).2 hweak.2]
    exact iff_of_false lastSteps_ne_failed fun h => h (.weakMatch hf hs (hmatches.mp hweak.1) hweak.2)
  · refine iff_of_true ?_ fun h => ?_
    · cases hyes : o.meta.etagMatches f.text with
      | false => exact evaluate_unmatched hf hyes
      | true => exact (evaluate_of_matched (heval hyes)).1 (Classical.not_not.mp fun hno => hweak ⟨hyes, hno⟩)
    · cases h with
      | date hf' hstrong _ | misreadMatch hf' hstrong _ =>
          rw [hf] at hf'
          cases hf'
          rw [hs] at hstrong
          cases hstrong
      | weakMatch hf' _ hsame hlate =>
          rw [hf] at hf'
          cases hf'
          exact hweak ⟨hmatches.mpr hsame, hlate⟩
      | misreadNoneMatch hp _ _ | earlyModified hp _ _ => exact hpasses hp
      | earlyUnmodified hnone _ =>
          rw [hf] at hnone
          cases hnone

/-- There is no `If-Match`, and the date counts. -/
theorem evaluate_eq_outcome_of_date (hf : c.ifMatch = none) :
    c.preconditions.evaluate o.meta = c.outcome o ↔ ¬ Deviates c o := by
  have hnomatch {f : Field} (hf' : c.ifMatch = some f) : False := by
    rw [hf] at hf'
    cases hf'
  have heval := @evaluate_of_matched c o fun f hf' => (hnomatch hf').elim
  have hpasses : c.Passes o ↔ ¬ (o.ModifiedLate c.ifUnmodifiedSince ∨
      o.ModifiedEarly c.ifUnmodifiedSince) := by
    unfold Conditions.Passes
    rw [hf, ← modifiedSince_iff, Bool.not_eq_true]
  by_cases hearly : o.ModifiedEarly c.ifUnmodifiedSince
  · rw [heval.2 fun hlate => late_not_early hlate hearly,
      outcome_of_not_passes fun h => hpasses.mp h (.inr hearly)]
    exact iff_of_false lastSteps_ne_failed fun h => h (.earlyUnmodified hf hearly)
  by_cases hlate : o.ModifiedLate c.ifUnmodifiedSince
  · have hno : ¬ c.Passes o := fun h => hpasses.mp h (.inl hlate)
    rw [heval.1 hlate, outcome_of_not_passes hno]
    refine iff_of_true rfl fun h => ?_
    cases h with
    | date hf' _ _ | weakMatch hf' _ _ _ | misreadMatch hf' _ _ => exact hnomatch hf'
    | misreadNoneMatch hp _ _ | earlyModified hp _ _ => exact hno hp
    | earlyUnmodified _ h => exact hearly h
  · have hp : c.Passes o := hpasses.mpr fun h => h.elim hlate hearly
    rw [heval.2 hlate, outcome_of_passes hp, lastSteps_eq_iff,
      lastDeviates_iff hp (fun f hf' => (hnomatch hf').elim) fun _ => hearly]

end

/-- The code decides as the procedure of HTTP does, if and only if the request is of none of the
kinds above. -/
theorem evaluate_eq_outcome_iff (c : Conditions) (o : Selected) :
    c.preconditions.evaluate o.meta = c.outcome o ↔ ¬ Deviates c o := by
  cases hf : c.ifMatch with
  | some f =>
      cases hs : f.value.strong o.etag with
      | true => exact evaluate_eq_outcome_of_strong hf hs
      | false => exact evaluate_eq_outcome_of_not_strong hf hs
  | none => exact evaluate_eq_outcome_of_date hf

/-- `If-Match` with the object's own tag. -/
def abcField : Field := ⟨abcTag.text, .tags [abcTag], .tags (@TagList.one [] [] abcTag .nil .nil), by decide⟩

/-- The object is the one the client knows, and has been modified after the date. -/
theorem matched_and_dated : Preconditions.evaluate ⟨some (ascii "\"abc\""), none, none, some 1000000000⟩
      ⟨10, some (ascii "\"abc\""), some 2000000000⟩ = .failed ∧
    Conditions.outcome ⟨some abcField, none, none, some 1000000000⟩ ⟨10, some abcTag, some 2000000000⟩ =
      .satisfied ∧
    Conditions.preconditions ⟨some abcField, none, none, some 1000000000⟩ =
      ⟨some (ascii "\"abc\""), none, none, some 1000000000⟩ ∧
    Selected.meta ⟨10, some abcTag, some 2000000000⟩ = ⟨10, some (ascii "\"abc\""), some 2000000000⟩ := by
  refine ⟨by decide, by decide, rfl, rfl⟩

end Nestor.S3
