import Mathlib.Data.List.Dedup
import Nestor.S3.Http

/-!
# Header maps and header text
-/

namespace Nestor.S3

open Lib

variable {b : UInt8} {s : Bytes}

theorem Method.eq_of_name {m m' : Method} (h : m.name = m'.name) : m = m' := by
  cases m
  cases m'
  cases h
  rfl

/-! ## Header maps -/

namespace HeaderMap

variable {headers : HeaderMap} {name other : HeaderName} {value : HeaderValue}

@[simp] theorem get_insert_self : (headers.insert name value).get name = some value := by
  have hnone : (headers.filter (·.1 ≠ name)).find? (·.1 = name) = none := by simp [List.find?_eq_none]
  rw [get, insert, List.find?_append, hnone]
  simp

@[simp] theorem get_insert_ne (h : other ≠ name) :
    (headers.insert name value).get other = headers.get other := by
  have hkeep : (headers.filter (·.1 ≠ name)).find? (·.1 = other) = headers.find? (·.1 = other) := by
    rw [List.find?_filter]
    refine congrArg (headers.find? ·) (funext fun e => ?_)
    by_cases he : e.1 = other <;> simp [he, h]
  rw [get, get, insert, List.find?_append, hkeep]
  simp [Ne.symm h]

theorem getAll_insert_ne {name' : Bytes} (h : name' ≠ name.name) :
    (headers.insert name value).getAll name' = headers.getAll name' := by
  rw [getAll, getAll, insert, List.filter_append, List.filter_filter]
  have hnil : [(name, value)].filter (fun e => decide (e.1.name = name')) = [] := by simp [Ne.symm h]
  have hkeep (e : HeaderName × HeaderValue) :
      (decide (e.1.name = name') && decide (e.1 ≠ name)) = decide (e.1.name = name') := by
    by_cases he : e.1.name = name'
    · have : e.1 ≠ name := fun hn => h (by rw [← he, hn])
      simp [he, this]
    · simp [he]
  rw [hnil, List.append_nil]
  simp only [hkeep]

theorem mem_insert {v : HeaderValue} :
    (other, v) ∈ headers.insert name value ↔ other ≠ name ∧ (other, v) ∈ headers ∨ other = name ∧
    v = value := by
  simp [insert, List.mem_filter, and_comm]

theorem mem_keys_iff : name ∈ headers.keys ↔ ∃ value, (name, value) ∈ headers := by
  simp [keys]

theorem mem_keys_insert_self : name ∈ (headers.insert name value).keys :=
  mem_keys_iff.mpr ⟨value, by simp [insert]⟩

theorem mem_keys_insert_of_mem (h : other ∈ headers.keys) : other ∈ (headers.insert name value).keys := by
  by_cases he : other = name
  · rw [he]
    exact mem_keys_insert_self
  · obtain ⟨v, hv⟩ := mem_keys_iff.mp h
    exact mem_keys_iff.mpr ⟨v, by simp [insert, hv, he]⟩

end HeaderMap

/-! ## Text of header values -/

theorem isValueByte_of_isVisible (h : isVisible b) : isValueByte b := by
  simp only [isVisible, isValueByte, Bool.or_eq_true, Bool.and_eq_true, decide_eq_true_eq] at h ⊢
  omega

theorem HeaderValue.fromStr_eq_some {v : HeaderValue} (h : HeaderValue.fromStr s = some v) : v.bytes = s := by
  unfold HeaderValue.fromStr at h
  split at h
  · cases h
    rfl
  · cases h

theorem HeaderValue.exists_fromStr (h : ∀ b ∈ s, isVisible b) :
    ∃ v, HeaderValue.fromStr s = some v ∧ v.toStr = some s := by
  have hv : ∀ b ∈ s, isValueByte b := fun b hb => isValueByte_of_isVisible (h b hb)
  exact ⟨⟨s, hv⟩, dif_pos hv, if_pos h⟩

/-- The visible characters but the space. -/
def isGraph (b : UInt8) : Bool := 33 ≤ b.toNat && b.toNat < 127

theorem isVisible_of_isGraph (h : isGraph b) : isVisible b := by
  simp only [isVisible, isGraph, Bool.or_eq_true, Bool.and_eq_true, decide_eq_true_eq] at h ⊢
  omega

theorem isGraph_of_isToken : isToken b → isGraph b :=
  forall_byte (P := fun b => isToken b → isGraph b) (by decide +kernel) b

theorem whiteSpace_not_graph :
    ∀ w ∈ whiteSpace, (∃ x ∈ w.head?, ¬ isGraph x) ∧ ∃ x ∈ w.getLast?, ¬ isGraph x := by decide

theorem trimStart_of_head (h : ∀ b ∈ s.head?, isGraph b) : trimStart whiteSpace s = s := by
  refine trimStart_eq_self ?_
  rintro w hw ⟨rest, rfl⟩
  obtain ⟨⟨x, hx, hg⟩, -⟩ := whiteSpace_not_graph w hw
  rw [List.head?_append, hx] at h
  exact hg (h x rfl)

theorem trimText_eq_self (hstart : ∀ b ∈ s.head?, isGraph b) (hend : ∀ b ∈ s.getLast?, isGraph b) :
    trimText s = s := by
  rw [trimText, trim, trimStart_of_head hstart, trimEnd_eq_self]
  rintro w hw ⟨rest, rfl⟩
  obtain ⟨-, x, hx, hg⟩ := whiteSpace_not_graph w hw
  rw [List.getLast?_append, hx] at hend
  exact hg (hend x rfl)

theorem trimText_of_graph (h : ∀ b ∈ s, isGraph b) : trimText s = s :=
  trimText_eq_self (fun b hb => h b (List.mem_of_mem_head? hb)) fun b hb => h b (List.mem_of_mem_getLast? hb)

theorem trimStart_space (s : Bytes) : trimStart whiteSpace (32 :: s) = trimStart whiteSpace s := by
  have hdrop : (32 :: s).dropPrefix? [32] = some s := dropPrefix?_eq_some.mpr rfl
  have hfirst : whiteSpace.findSome? (fun w => (32 :: s).dropPrefix? w) = some s := by
    rw [whiteSpace, List.findSome?_cons, hdrop]
  rw [trimStart, List.length_cons, trimFront, hfirst]
  rfl

theorem trimText_space (s : Bytes) : trimText (32 :: s) = trimText s := by
  rw [trimText, trimText, trim, trim, trimStart_space]

/-- The blanks of visible text. -/
def isBlank (b : UInt8) : Bool := b = 32 || b = 9

theorem whiteSpace_blank (h : isBlank b) : [b] ∈ whiteSpace ∧
    (∀ w ∈ whiteSpace, w.head? = some b → w = [b]) ∧ ∀ w ∈ whiteSpace, w.getLast? = some b → w = [b] := by
  have hb : b = 32 ∨ b = 9 := by simpa [isBlank] using h
  rcases hb with rfl | rfl <;> decide

theorem trimText_pad {p t q : Bytes} (hp : ∀ b ∈ p, isBlank b) (hq : ∀ b ∈ q, isBlank b)
    (hstart : ∀ b ∈ t.head?, isGraph b) (hend : ∀ b ∈ t.getLast?, isGraph b) :
    trimText (p ++ t ++ q) = t := by
  have hne : [] ∉ whiteSpace := by decide
  have hfront : trimStart whiteSpace (p ++ (t ++ q)) = trimStart whiteSpace (t ++ q) :=
    trimStart_append (fun b hb => (whiteSpace_blank (hp b hb)).1) hne
      (fun b hb => (whiteSpace_blank (hp b hb)).2.1) _
  have hback (xs : Bytes) : trimEnd whiteSpace (xs ++ q) = trimEnd whiteSpace xs :=
    trimEnd_append (fun b hb => (whiteSpace_blank (hq b hb)).1) hne
      (fun b hb => (whiteSpace_blank (hq b hb)).2.2) xs
  rw [trimText, trim, List.append_assoc, hfront]
  cases t with
  | nil =>
      have hnil := trimStart_append (fun b hb => (whiteSpace_blank (hq b hb)).1) hne
        (fun b hb => (whiteSpace_blank (hq b hb)).2.1) []
      rw [List.append_nil] at hnil
      rw [List.nil_append, hnil]
      rfl
  | cons x t =>
      rw [trimStart_of_head (s := x :: t ++ q) hstart, hback]
      have hself := trimText_eq_self hstart hend
      rwa [trimText, trim, trimStart_of_head hstart] at hself

/-- Visible text is its trimmed self between blanks. -/
theorem exists_trimText (hs : ∀ b ∈ s, isVisible b) :
    ∃ p q : Bytes, (∀ b ∈ p, isBlank b) ∧ (∀ b ∈ q, isBlank b) ∧ s = p ++ trimText s ++ q := by
  obtain ⟨ws, ws', hws, heq⟩ := exists_trim whiteSpace s
  have hone : ∀ w ∈ whiteSpace, (∀ b ∈ w, isVisible b) → ∀ b ∈ w, isBlank b := by decide
  have hblank (vs : List Bytes) (hvs : ∀ w ∈ vs, w ∈ whiteSpace) (hin : ∀ b ∈ vs.flatten, b ∈ s) :
      ∀ b ∈ vs.flatten, isBlank b := by
    intro b hb
    obtain ⟨w, hw, hbw⟩ := List.mem_flatten.mp hb
    exact hone w (hvs w hw) (fun b' hb' => hs b' (hin b' (List.mem_flatten.mpr ⟨w, hw, hb'⟩))) b hbw
  refine ⟨ws.flatten, ws'.flatten, hblank ws (fun w hw => hws w (List.mem_append_left _ hw)) fun b hb => ?_,
    hblank ws' (fun w hw => hws w (List.mem_append_right _ hw)) fun b hb => ?_, heq⟩
  · rw [heq]
    exact List.mem_append_left _ (List.mem_append_left _ hb)
  · rw [heq]
    exact List.mem_append_right _ hb

def Blanks (p : Bytes) : Prop := ∀ b ∈ p, isBlank b

namespace Blanks

variable {p q : Bytes}

theorem nil : Blanks [] := fun _ h => absurd h List.not_mem_nil

theorem append (hp : Blanks p) (hq : Blanks q) : Blanks (p ++ q) := List.forall_mem_append.mpr ⟨hp, hq⟩

theorem not_mem (hp : Blanks p) {c : UInt8} (hc : isBlank c = false) : c ∉ p := by
  intro h
  rw [hp c h] at hc
  cases hc

end Blanks

end Nestor.S3
