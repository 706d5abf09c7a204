import Nestor.S3.Headers
import Nestor.S3.Lemmas.Http

/-!
# Range headers

A `Range` header that is accepted denotes a set of byte positions. The range it is resolved to is
that set, clipped to the object, and the headers of the response describe it; an object that has
none of the bytes answers with an error. The exception is a suffix of an empty object, which
resolves to an empty range whose last position does not exist.
-/

namespace Nestor.S3

open Lib

/-! ## What a header denotes -/

/-- From a first to a last position, from a first position on, or the last so many bytes. -/
inductive RangeSpec where
  | between (first last : Nat)
  | onwards (first : Nat)
  | tail (count : Nat)
deriving DecidableEq

/-- The position is one of an object of this size, and the header asks for it. -/
def RangeSpec.Selects (spec : RangeSpec) (size position : Nat) : Prop :=
  position < size ∧ match spec with
    | .between first last => first ≤ position ∧ position ≤ last
    | .onwards first => first ≤ position
    | .tail count => size ≤ position + count

/-- A number in decimal digits, with or without a sign. -/
def Numeral (t : Bytes) (n : Nat) : Prop := digits t = some n ∨ ∃ ds, t = 43 :: ds ∧ digits ds = some n

/-- Two bounds and the dash between them. -/
def boundsText (a p q b : Bytes) : Bytes := a ++ p ++ dash :: (q ++ b)

/-- The text of a header, with blanks wherever they are allowed. -/
inductive RangeText : Bytes → RangeSpec → Prop
  | between {p₁ p₂ p₃ p₄ p₅ a b : Bytes} {first last : Nat} (h₁ : Blanks p₁) (h₂ : Blanks p₂) (h₃ : Blanks p₃)
      (h₄ : Blanks p₄) (h₅ : Blanks p₅) (ha : Numeral a first) (hb : Numeral b last) :
      RangeText (p₁ ++ (ascii "bytes=" ++ (p₂ ++ boundsText a p₃ p₄ b)) ++ p₅) (.between first last)
  | onwards {p₁ p₂ p₃ p₅ a : Bytes} {first : Nat} (h₁ : Blanks p₁) (h₂ : Blanks p₂) (h₃ : Blanks p₃)
      (h₅ : Blanks p₅) (ha : Numeral a first) :
      RangeText (p₁ ++ (ascii "bytes=" ++ (p₂ ++ boundsText a p₃ [] [])) ++ p₅) (.onwards first)
  | tail {p₁ p₂ p₄ p₅ b : Bytes} {count : Nat} (h₁ : Blanks p₁) (h₂ : Blanks p₂) (h₄ : Blanks p₄)
      (h₅ : Blanks p₅) (hb : Numeral b count) :
      RangeText (p₁ ++ (ascii "bytes=" ++ (p₂ ++ boundsText [] [] p₄ b)) ++ p₅) (.tail count)

/-- What is read for it, if its numbers fit. -/
def RangeSpec.request : RangeSpec → Option ReadRange
  | .between first last =>
      if first < 2 ^ 64 ∧ last < 2 ^ 64 ∧ first ≤ last then
        some (.bounded ⟨first, min (last + 1) (2 ^ 64 - 1)⟩)
      else none
  | .onwards first => if first < 2 ^ 64 then some (.from first) else none
  | .tail count => if count < 2 ^ 64 then some (.suffix count) else none

/-! ## Numbers -/

theorem digits_cons {s : Bytes} {n : Nat} (h : digits s = some n) : s ≠ [] ∧ ∀ b ∈ s, isDigit b := by
  cases s with
  | nil => cases h
  | cons b s =>
      rw [digits] at h
      · split at h
        · rename_i hall
          exact ⟨nofun, List.all_eq_true.mp hall⟩
        · cases h
      · exact nofun

theorem isGraph_of_isDigit {b : UInt8} (h : isDigit b) : isGraph b := by
  simp only [isDigit, isGraph, Bool.and_eq_true, decide_eq_true_eq] at h ⊢
  omega

/-- The sign does not change the number. -/
theorem numeral_iff {t : Bytes} {n : Nat} :
    Numeral t n ↔ digits ((t.dropPrefix? (ascii "+")).getD t) = some n := by
  cases hd : t.dropPrefix? (ascii "+") with
  | none =>
      refine ⟨?_, .inl⟩
      rintro (h | ⟨ds, rfl, -⟩)
      · exact h
      · rw [dropPrefix?_eq_some.mpr (show 43 :: ds = ascii "+" ++ ds from rfl)] at hd
        cases hd
  | some ds =>
      obtain rfl : t = 43 :: ds := dropPrefix?_eq_some.mp hd
      refine ⟨?_, fun h => .inr ⟨ds, rfl, h⟩⟩
      rintro (h | ⟨ds', heq, h⟩)
      · exact absurd ((digits_cons h).2 43 List.mem_cons_self) (by decide)
      · cases heq
        exact h

theorem parseU64_numeral {t : Bytes} {n : Nat} (h : Numeral t n) :
    parseU64 t = if n < 2 ^ 64 then some n else none := by
  rw [parseU64, numeral_iff.mp h, Option.filter_some]
  by_cases hn : n < 2 ^ 64
  · rw [if_pos hn, if_pos (decide_eq_true hn)]
  · rw [if_neg hn, if_neg (by simpa using hn)]

theorem numeral_of_parseU64 {t : Bytes} {n : Nat} (h : parseU64 t = some n) : Numeral t n :=
  numeral_iff.mpr (Option.filter_eq_some_iff.mp h).1

/-- The bytes of a bound, which may be left out. -/
def BoundBytes (a : Bytes) : Prop := ∀ c ∈ a, isDigit c ∨ c = 43

namespace Numeral

variable {t : Bytes} {n : Nat}

theorem ne_nil (h : Numeral t n) : t ≠ [] := by
  rcases h with h | ⟨ds, rfl, -⟩
  · exact (digits_cons h).1
  · exact nofun

theorem boundBytes (h : Numeral t n) : BoundBytes t := by
  rcases h with h | ⟨ds, rfl, h⟩
  · exact fun b hb => .inl ((digits_cons h).2 b hb)
  · exact List.forall_mem_cons.mpr ⟨.inr rfl, fun b hb => .inl ((digits_cons h).2 b hb)⟩

end Numeral

/-! ## Parsing -/

section

variable {headers : HeaderMap} {text p₁ p₂ p₃ p₄ p₅ a b : Bytes} {spec : RangeSpec} {request : ReadRange}

namespace BoundBytes

theorem nil : BoundBytes [] := fun _ h => absurd h List.not_mem_nil

theorem graph (ha : BoundBytes a) : ∀ c ∈ a, isGraph c := by
  intro c hc
  rcases ha c hc with hd | rfl
  · exact isGraph_of_isDigit hd
  · decide

theorem not_mem (ha : BoundBytes a) {c : UInt8} (hc : ¬ (isDigit c ∨ c = 43)) : c ∉ a := fun h => hc (ha c h)

theorem trimText_pad (ha : BoundBytes a) (h₁ : Blanks p₁) (h₂ : Blanks p₂) : trimText (p₁ ++ a ++ p₂) = a :=
  S3.trimText_pad h₁ h₂ (fun c hc => ha.graph c (List.mem_of_mem_head? hc))
    fun c hc => ha.graph c (List.mem_of_mem_getLast? hc)

end BoundBytes

theorem head_boundsText (ha : BoundBytes a) (hp : a = [] → p₃ = []) :
    ∀ c ∈ (boundsText a p₃ p₄ b).head?, isGraph c := by
  cases a with
  | nil =>
      rw [hp rfl]
      intro c hc
      cases hc
      decide
  | cons x a =>
      intro c hc
      cases hc
      exact ha.graph x List.mem_cons_self

theorem getLast_boundsText (hb : BoundBytes b) (hp : b = [] → p₄ = []) :
    ∀ c ∈ (boundsText a p₃ p₄ b).getLast?, isGraph c := by
  intro c hc
  rw [boundsText, List.getLast?_append] at hc
  by_cases hnil : b = []
  · rw [hp hnil, hnil] at hc
    cases hc
    decide
  · rw [← List.cons_append, List.getLast?_append, List.getLast?_eq_some_getLast hnil] at hc
    cases hc
    exact hb.graph _ (List.getLast_mem hnil)

theorem parseRange_eq (h₁ : Blanks p₁) (h₂ : Blanks p₂) (h₃ : Blanks p₃) (h₄ : Blanks p₄) (h₅ : Blanks p₅)
    (ha : BoundBytes a) (hb : BoundBytes b) (hpa : a = [] → p₃ = []) (hpb : b = [] → p₄ = [])
    (htext : headerText headers .range = some (p₁ ++ (ascii "bytes=" ++ (p₂ ++ boundsText a p₃ p₄ b)) ++
      p₅)) :
    parseRange headers = readBounds a b := by
  have hvalue : trimText (p₁ ++ (ascii "bytes=" ++ (p₂ ++ boundsText a p₃ p₄ b)) ++ p₅) =
      ascii "bytes=" ++ (p₂ ++ boundsText a p₃ p₄ b) := by
    refine S3.trimText_pad h₁ h₅ (fun c hc => ?_) fun c hc => ?_
    · cases hc
      decide
    · rw [← List.append_assoc, List.getLast?_append] at hc
      cases hlast : (boundsText a p₃ p₄ b).getLast? with
      | none => exact absurd (List.getLast?_eq_none_iff.mp hlast) (by simp [boundsText])
      | some x =>
          rw [hlast] at hc
          cases hc
          exact getLast_boundsText hb hpb c hlast
  have hspec : trimText (p₂ ++ boundsText a p₃ p₄ b) = boundsText a p₃ p₄ b := by
    have := S3.trimText_pad h₂ Blanks.nil (@head_boundsText p₃ p₄ a b ha hpa) (getLast_boundsText hb hpb)
    rwa [List.append_nil] at this
  have hcomma : comma ∉ boundsText a p₃ p₄ b := by
    have := h₃.not_mem (show isBlank comma = false from rfl)
    have := h₄.not_mem (show isBlank comma = false from rfl)
    have := ha.not_mem (show ¬ (isDigit comma ∨ comma = 43) by decide)
    have := hb.not_mem (show ¬ (isDigit comma ∨ comma = 43) by decide)
    have : comma ≠ dash := by decide
    simp_all [boundsText]
  have hsplit : splitOnce dash (boundsText a p₃ p₄ b) = some (a ++ p₃, p₄ ++ b) := by
    refine splitOnce_append _ fun h => ?_
    rcases List.mem_append.mp h with h | h
    · exact ha.not_mem (by decide) h
    · exact h₃.not_mem rfl h
  have hstart : trimText (a ++ p₃) = a := ha.trimText_pad .nil h₃
  have hstop : trimText (p₄ ++ b) = b := by
    have := hb.trimText_pad h₄ .nil
    rwa [List.append_nil] at this
  unfold parseRange
  rw [htext]
  simp only [Option.bind_eq_bind, Option.bind_some, hvalue, dropPrefix?_eq_some.mpr rfl, hspec,
    if_neg hcomma, hsplit, hstart, hstop]

/-- A header that has the text of a range is read as that range. -/
theorem parseRange_of_text (ht : RangeText text spec) (htext : headerText headers .range = some text) :
    parseRange headers = spec.request := by
  cases ht with
  | @between _ _ _ _ _ _ _ first last h₁ h₂ h₃ h₄ h₅ ha hb =>
      rw [parseRange_eq h₁ h₂ h₃ h₄ h₅ ha.boundBytes hb.boundBytes (absurd · ha.ne_nil)
        (absurd · hb.ne_nil) htext, readBounds, parseU64_numeral ha, parseU64_numeral hb, RangeSpec.request]
      · by_cases hf : first < 2 ^ 64 <;> by_cases hl : last < 2 ^ 64 <;> simp [hf, hl, -Nat.reducePow]
      · exact ha.ne_nil
      · exact hb.ne_nil
  | @onwards _ _ _ _ _ first h₁ h₂ h₃ h₅ ha =>
      rw [parseRange_eq h₁ h₂ h₃ .nil h₅ ha.boundBytes .nil (absurd · ha.ne_nil) (fun _ => rfl) htext,
        readBounds, parseU64_numeral ha, RangeSpec.request]
      · split <;> rfl
      · exact ha.ne_nil
  | @tail _ _ _ _ _ count h₁ h₂ h₄ h₅ hb =>
      rw [parseRange_eq h₁ h₂ .nil h₄ h₅ .nil hb.boundBytes (fun _ => rfl) (absurd · hb.ne_nil) htext,
        readBounds, parseU64_numeral hb, RangeSpec.request]
      split <;> rfl

theorem visible_of_headerText {name : HeaderName} (h : headerText headers name = some text) :
    ∀ b ∈ text, isVisible b := by
  obtain ⟨value, -, hvalue⟩ := Option.bind_eq_some_iff.mp h
  unfold HeaderValue.toStr at hvalue
  split at hvalue
  · rename_i hall
    cases hvalue
    exact hall
  · cases hvalue

theorem exists_rangeText (htext : headerText headers .range = some text)
    (h : parseRange headers = some request) :
    ∃ spec, RangeText text spec := by
  unfold parseRange at h
  rw [htext] at h
  simp only [Option.bind_eq_bind, Option.bind_some, Option.bind_eq_some_iff] at h
  obtain ⟨rest, hrest, h⟩ := h
  split at h
  · cases h
  simp only [Option.bind_eq_some_iff] at h
  obtain ⟨⟨start, stop⟩, hsplit, h⟩ := h
  -- Each trimmed text is found again between the blanks taken off it.
  have hall := visible_of_headerText htext
  obtain ⟨p, q, hp, hq, hpq⟩ := exists_trimText hall
  rw [dropPrefix?_eq_some.mp hrest] at hpq
  have hrestAll : ∀ b ∈ rest, isVisible b := fun b hb => hall b (by rw [hpq]; simp [hb])
  obtain ⟨p₂, q₂, hp₂, hq₂, hpq₂⟩ := exists_trimText hrestAll
  obtain ⟨hspec, -⟩ := splitOnce_eq_some hsplit
  rw [hspec] at hpq₂
  obtain ⟨s₁, s₂, hs₁, hs₂, hs⟩ := exists_trimText (s := start) fun b hb => hrestAll b
    (by rw [hpq₂]; simp [hb])
  obtain ⟨t₁, t₂, ht₁, ht₂, ht⟩ := exists_trimText (s := stop) fun b hb => hrestAll b
    (by rw [hpq₂]; simp [hb])
  have htextEq : text = p ++ (ascii "bytes=" ++ (p₂ ++ s₁ ++ boundsText (trimText start) s₂ t₁
      (trimText stop))) ++ (t₂ ++ q₂ ++ q) := by
    rw [hpq, hpq₂]
    nth_rewrite 1 [hs, ht]
    simp [boundsText]
  have hbp : Blanks (p₂ ++ s₁) := Blanks.append hp₂ hs₁
  have hbq : Blanks (t₂ ++ q₂ ++ q) := Blanks.append (Blanks.append ht₂ hq₂) hq
  rw [htextEq]
  unfold readBounds at h
  split at h
  · rename_i hstart
    obtain ⟨count, hcount, -⟩ := Option.map_eq_some_iff.mp h
    rw [hstart]
    have := RangeText.tail hp (hbp.append hs₂) ht₁ hbq (numeral_of_parseU64 hcount)
    exact ⟨_, by simpa [boundsText] using this⟩
  · rename_i hstop _
    obtain ⟨first, hfirst, -⟩ := Option.map_eq_some_iff.mp h
    rw [hstop]
    have := RangeText.onwards hp hbp hs₂ (Blanks.append ht₁ hbq) (numeral_of_parseU64 hfirst)
    exact ⟨_, by simpa [boundsText] using this⟩
  · obtain ⟨first, hfirst, h⟩ := Option.bind_eq_some_iff.mp h
    obtain ⟨last, hlast, -⟩ := Option.bind_eq_some_iff.mp h
    exact ⟨_, .between hp hbp hs₂ ht₁ hbq (numeral_of_parseU64 hfirst) (numeral_of_parseU64 hlast)⟩

end

/-! ## Responses -/

/-- The response to a range of an object of this size is well formed: it is an error, and no
position is asked for; or the range is not empty, is what is asked for, and the headers give its
length, its first and its last position. -/
def WellFormed (spec : RangeSpec) (request : ReadRange) (size : Nat) : Prop :=
  match request.resolve size with
  | .error e =>
      (∀ text key, (S3Error.fromNestor text e key).status = 416) ∧ ∀ position, ¬ spec.Selects size position
  | .ok r =>
      r.start < r.stop ∧ r.stop ≤ size ∧
        (∀ position, spec.Selects size position ↔ r.start ≤ position ∧ position < r.stop) ∧
        ∀ out : HeaderMap,
          (contentHeaders out r size true).get .contentLength = some (.ofNat (r.stop - r.start)) ∧
          (contentHeaders out r size true).get .contentRange = some (.contentRange r.start (r.stop - 1) size)

/-- The last position of a range that is not empty is computed without going below zero. -/
theorem contentHeaders_range {r : Range} {size : Nat} (hne : r.start < r.stop) (hlt : r.stop < 2 ^ 64)
    (out : HeaderMap) :
    (contentHeaders out r size true).get .contentLength = some (.ofNat (r.stop - r.start)) ∧
    (contentHeaders out r size true).get .contentRange = some (.contentRange r.start (r.stop - 1) size) := by
  have hlast : (r.stop + (2 ^ 64 - 1)) % 2 ^ 64 = r.stop - 1 := by omega
  have hname : HeaderName.contentLength ≠ .contentRange := by decide
  unfold contentHeaders
  rw [if_pos rfl, hlast]
  exact ⟨by rw [HeaderMap.get_insert_ne hname, HeaderMap.get_insert_self], HeaderMap.get_insert_self⟩

section

variable {spec : RangeSpec} {request : ReadRange} {size : Nat} {r : Range}

theorem wellFormed_of_error (h : request.resolve size = .error (.range r size))
    (hnone : ∀ position, ¬ spec.Selects size position) : WellFormed spec request size := by
  rw [WellFormed, h]
  exact ⟨fun _ _ => rfl, hnone⟩

theorem wellFormed_of_ok (h : request.resolve size = .ok r) (hsize : size < 2 ^ 64) (hne : r.start < r.stop)
    (hle : r.stop ≤ size) (hselects : ∀ position, spec.Selects size position ↔ r.start ≤ position ∧
      position < r.stop) :
    WellFormed spec request size := by
  rw [WellFormed, h]
  exact ⟨hne, hle, hselects, contentHeaders_range hne (Nat.lt_of_le_of_lt hle hsize)⟩

/-- A suffix of an empty object resolves to an empty range. -/
theorem not_wellFormed_empty {n : Nat} (hn : n ≠ 0) : ¬ WellFormed spec (.suffix n) 0 := by
  intro h
  rw [WellFormed, ReadRange.resolve, if_neg hn] at h
  exact absurd h.1 (Nat.not_lt_zero _)

theorem wellFormed_between {first last : Nat} (hsize : size < 2 ^ 64) (hle : first ≤ last) :
    WellFormed (.between first last) (.bounded ⟨first, min (last + 1) (2 ^ 64 - 1)⟩) size := by
  by_cases hout : min (last + 1) (2 ^ 64 - 1) ≤ first ∨ size ≤ first
  · refine wellFormed_of_error (r := ⟨first, min (last + 1) (2 ^ 64 - 1)⟩) (if_pos hout) fun position h => ?_
    simp only [RangeSpec.Selects] at h
    omega
  · refine wellFormed_of_ok (r := ⟨first, min (min (last + 1) (2 ^ 64 - 1)) size⟩) (if_neg hout) hsize ?_ ?_
      fun position => ?_
    · dsimp only
      omega
    · dsimp only
      omega
    · simp only [RangeSpec.Selects]
      omega

theorem wellFormed_onwards {first : Nat} (hsize : size < 2 ^ 64) :
    WellFormed (.onwards first) (.from first) size := by
  by_cases hout : size ≤ first
  · refine wellFormed_of_error (r := ⟨first, 2 ^ 64 - 1⟩) (if_pos hout) fun position h => ?_
    simp only [RangeSpec.Selects] at h
    omega
  · refine wellFormed_of_ok (r := ⟨first, size⟩) (if_neg hout) hsize (Nat.lt_of_not_le hout) (Nat.le_refl _)
      fun position => ?_
    simp only [RangeSpec.Selects]
    omega

theorem wellFormed_tail {count : Nat} (hsize : size < 2 ^ 64) (h : size = 0 → count = 0) :
    WellFormed (.tail count) (.suffix count) size := by
  by_cases hzero : count = 0
  · refine wellFormed_of_error (r := ⟨size, size⟩) (if_pos hzero) fun position h => ?_
    simp only [RangeSpec.Selects] at h
    omega
  · refine wellFormed_of_ok (r := ⟨size - count, size⟩) (if_neg hzero) hsize ?_ (Nat.le_refl _)
      fun position => ?_
    · dsimp only
      omega
    · simp only [RangeSpec.Selects]
      omega

theorem wellFormed_iff (hsize : size < 2 ^ 64) (h : spec.request = some request) :
    WellFormed spec request size ↔ ¬ (size = 0 ∧ ∃ n ≠ 0, spec = .tail n) := by
  cases spec with
  | between first last =>
      obtain ⟨⟨-, -, hle⟩, heq⟩ := Option.ite_none_right_eq_some.mp h
      cases heq
      exact iff_of_true (wellFormed_between hsize hle) fun ⟨_, _, _, hspec⟩ => nomatch hspec
  | onwards first =>
      obtain ⟨-, heq⟩ := Option.ite_none_right_eq_some.mp h
      cases heq
      exact iff_of_true (wellFormed_onwards hsize) fun ⟨_, _, _, hspec⟩ => nomatch hspec
  | tail count =>
      obtain ⟨-, heq⟩ := Option.ite_none_right_eq_some.mp h
      cases heq
      constructor
      · rintro hw ⟨rfl, n, hn, hspec⟩
        cases hspec
        exact not_wellFormed_empty hn hw
      · intro hcond
        refine wellFormed_tail hsize fun hzero => ?_
        by_contra hcount
        exact hcond ⟨hzero, count, hcount, rfl⟩

end

/-- A header that is accepted has the text of a range, and whatever range it is the text of, the
response is well formed unless a suffix is asked of an empty object. -/
theorem parseRange_wellFormed_iff {headers : HeaderMap} {text : Bytes} {request : ReadRange} {size : Nat}
    (htext : headerText headers .range = some text) (h : parseRange headers = some request)
    (hsize : size < 2 ^ 64) :
    (∃ spec, RangeText text spec) ∧
      ∀ spec, RangeText text spec →
      (WellFormed spec request size ↔ ¬ (size = 0 ∧ ∃ n ≠ 0, spec = .tail n)) := by
  refine ⟨exists_rangeText htext h, fun spec hspec => ?_⟩
  rw [parseRange_of_text hspec htext] at h
  exact wellFormed_iff hsize h

/-- The headers of a request for one range. -/
def rangeHeaders (s : String) (hs : ∀ b ∈ ascii s, isValueByte b) : HeaderMap := [(.range, ⟨ascii s, hs⟩)]

theorem parseRange_wellFormed_firstTen :
    parseRange (rangeHeaders "bytes=0-9" (by decide)) = some (.bounded ⟨0, 10⟩) ∧
      RangeText (ascii "bytes=0-9") (.between 0 9) ∧ WellFormed (.between 0 9) (.bounded ⟨0, 10⟩) 26 := by
  have htext : headerText (rangeHeaders "bytes=0-9" (by decide)) .range = some (ascii "bytes=0-9") := by
    decide
  have hparse : parseRange (rangeHeaders "bytes=0-9" (by decide)) = some (.bounded ⟨0, 10⟩) := by decide
  have hspec : RangeText (ascii "bytes=0-9") (.between 0 9) :=
    @RangeText.between [] [] [] [] [] (ascii "0") (ascii "9") 0 9 .nil .nil .nil .nil .nil
      (.inl rfl) (.inl rfl)
  have hsize : 26 < 2 ^ 64 := by decide
  have hiff := (parseRange_wellFormed_iff htext hparse hsize).2 _ hspec
  exact ⟨hparse, hspec, hiff.mpr fun h => absurd h.1 (by decide)⟩

/-- The last five bytes of an empty object: the last position goes below zero and wraps. -/
theorem suffix_of_empty_object :
    parseRange (rangeHeaders "bytes=-5" (by decide)) = some (.suffix 5) ∧
      ReadRange.resolve (.suffix 5) 0 = .ok ⟨0, 0⟩ ∧
      (contentHeaders [] ⟨0, 0⟩ 0 true).get .contentRange = some (.contentRange 0 18446744073709551615 0) ∧
      RangeText (ascii "bytes=-5") (.tail 5) ∧ ¬ WellFormed (.tail 5) (.suffix 5) 0 := by
  refine ⟨by decide, by decide, rfl, ?_, not_wellFormed_empty (by decide)⟩
  exact @RangeText.tail [] [] [] [] (ascii "5") 5 .nil .nil .nil .nil (.inl rfl)

end Nestor.S3
