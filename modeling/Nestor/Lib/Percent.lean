import Mathlib.Data.List.Basic

/-!
# UTF-8 and percent-encoding

`utf8Lossy` reads bytes as UTF-8 and writes the replacement character for every part that is none,
as far as that part could have been the start of a character. It leaves well-formed text alone, and
an ASCII byte always stands for itself, so text can be cut at ASCII separators before or after. The
same holds of percent-decoding and separators that are no hex digits.
-/

namespace Nestor.Lib

/-! ## UTF-8 -/

/-- `U+FFFD`. -/
def replacementCharacter : List UInt8 := [0xEF, 0xBF, 0xBD]

/-- The ranges of the bytes that must follow a first byte; `none` if no character starts with it. -/
def utf8Tail (b : UInt8) : Option (List (Nat × Nat)) :=
  let n := b.toNat
  if n < 0x80 then some []
  else if n < 0xC2 then none
  else if n < 0xE0 then some [(0x80, 0xBF)]
  else if n = 0xE0 then some [(0xA0, 0xBF), (0x80, 0xBF)]
  else if n = 0xED then some [(0x80, 0x9F), (0x80, 0xBF)]
  else if n < 0xF0 then some [(0x80, 0xBF), (0x80, 0xBF)]
  else if n = 0xF0 then some [(0x90, 0xBF), (0x80, 0xBF), (0x80, 0xBF)]
  else if n < 0xF4 then some [(0x80, 0xBF), (0x80, 0xBF), (0x80, 0xBF)]
  else if n = 0xF4 then some [(0x80, 0x8F), (0x80, 0xBF), (0x80, 0xBF)]
  else none

/-- Reads on after the bytes `got` of a character that `need` is missing of. -/
def lossyFrom (got : List UInt8) (need : List (Nat × Nat)) : List UInt8 → List UInt8
  | [] => if need = [] then [] else replacementCharacter
  | b :: rest =>
      let fresh := match utf8Tail b with
        | none => replacementCharacter ++ lossyFrom [] [] rest
        | some [] => b :: lossyFrom [] [] rest
        | some (range :: need) => lossyFrom [b] (range :: need) rest
      match need with
      | [] => fresh
      | (lo, hi) :: need =>
          if lo ≤ b.toNat ∧ b.toNat ≤ hi then
            if need = [] then got ++ b :: lossyFrom [] [] rest else lossyFrom (got ++ [b]) need rest
          else replacementCharacter ++ fresh

def utf8Lossy (bytes : List UInt8) : List UInt8 := lossyFrom [] [] bytes

theorem lossyFrom_fresh (got : List UInt8) (b : UInt8) (rest : List UInt8) :
    lossyFrom got [] (b :: rest) = match utf8Tail b with
      | none => replacementCharacter ++ lossyFrom [] [] rest
      | some [] => b :: lossyFrom [] [] rest
      | some (range :: need) => lossyFrom [b] (range :: need) rest := rfl

/-- A byte that does not belong to the character that was begun starts anew. -/
theorem lossyFrom_pending (got : List UInt8) (range : Nat × Nat) (need : List (Nat × Nat)) (b : UInt8)
    (rest : List UInt8) :
    lossyFrom got (range :: need) (b :: rest) =
      if range.1 ≤ b.toNat ∧ b.toNat ≤ range.2 then
        if need = [] then got ++ b :: lossyFrom [] [] rest else lossyFrom (got ++ [b]) need rest
      else replacementCharacter ++ lossyFrom [] [] (b :: rest) := rfl

variable {got xs : List UInt8} {need : List (Nat × Nat)} {b c : UInt8}

theorem utf8Tail_ascii (h : b.toNat < 0x80) : utf8Tail b = some [] := by
  rw [utf8Tail]
  exact if_pos h

/-- No range of following bytes reaches down to ASCII. -/
def Follows (need : List (Nat × Nat)) : Prop := ∀ r ∈ need, 0x80 ≤ r.1

theorem follows_nil : Follows [] := fun _ h => by cases h

theorem follows_utf8Tail (h : utf8Tail b = some need) : Follows need := by
  unfold utf8Tail at h
  dsimp only at h
  repeat' split at h
  all_goals cases h
  all_goals simp [Follows]

theorem lossyFrom_append_ascii (hc : c.toNat < 0x80) (b : List UInt8)
    (hn : Follows need) (got a : List UInt8) :
    lossyFrom got need (a ++ c :: b) = lossyFrom got need a ++ c :: lossyFrom [] [] b := by
  induction a generalizing got need with
  | nil =>
      have hfresh (got : List UInt8) : lossyFrom got [] (c :: b) = c :: lossyFrom [] [] b := by
        rw [lossyFrom_fresh, utf8Tail_ascii hc]
      cases need with
      | nil => exact hfresh got
      | cons r need =>
          have hr := hn r List.mem_cons_self
          rw [List.nil_append, lossyFrom_pending, if_neg (by omega), hfresh]
          rfl
  | cons x a ih =>
      have hfresh (got : List UInt8) : lossyFrom got [] (x :: (a ++ c :: b)) =
          lossyFrom got [] (x :: a) ++ c :: lossyFrom [] [] b := by
        rw [lossyFrom_fresh, lossyFrom_fresh]
        split
        · rw [ih follows_nil, List.append_assoc]
        · rw [ih follows_nil, List.cons_append]
        · rename_i h
          exact ih (follows_utf8Tail h) _
      cases need with
      | nil => exact hfresh got
      | cons r need =>
          rw [List.cons_append, lossyFrom_pending, lossyFrom_pending]
          split
          · split
            · rw [ih follows_nil, List.append_assoc, List.cons_append]
            · exact ih (fun r h => hn r (List.mem_cons_of_mem _ h)) _
          · rw [hfresh, List.append_assoc]

theorem utf8Lossy_append_ascii (hc : c.toNat < 0x80) (a b : List UInt8) :
    utf8Lossy (a ++ c :: b) = utf8Lossy a ++ c :: utf8Lossy b :=
  lossyFrom_append_ascii hc b follows_nil [] a

theorem utf8Lossy_cons_ascii (hc : c.toNat < 0x80) (b : List UInt8) :
    utf8Lossy (c :: b) = c :: utf8Lossy b :=
  utf8Lossy_append_ascii hc [] b

theorem utf8Lossy_of_ascii (h : ∀ b ∈ xs, b.toNat < 0x80) : utf8Lossy xs = xs := by
  induction xs with
  | nil => rfl
  | cons b xs ih =>
      rw [utf8Lossy_cons_ascii (h b List.mem_cons_self), ih fun x hx => h x (List.mem_cons_of_mem _ hx)]

theorem lossyFrom_ne_nil (h : need ≠ [] ∨ xs ≠ []) :
    lossyFrom got need xs ≠ [] := by
  induction xs generalizing got need with
  | nil =>
      have hn : need ≠ [] := h.resolve_right (by simp)
      rw [lossyFrom, if_neg hn]
      simp [replacementCharacter]
  | cons b xs ih =>
      cases need with
      | nil =>
          rw [lossyFrom_fresh]
          split
          · simp [replacementCharacter]
          · simp
          · exact ih (.inl (by simp))
      | cons r need =>
          rw [lossyFrom_pending]
          split
          · split
            · simp
            · rename_i hn
              exact ih (.inl hn)
          · simp [replacementCharacter]

theorem utf8Lossy_eq_nil : utf8Lossy xs = [] ↔ xs = [] := by
  constructor
  · intro h
    by_contra hne
    exact lossyFrom_ne_nil (.inr hne) h
  · rintro rfl
    rfl

theorem length_utf8Tail (h : utf8Tail b = some need) : need.length ≤ 3 := by
  unfold utf8Tail at h
  dsimp only at h
  repeat' split at h
  all_goals cases h
  all_goals decide

/-- Nothing gets shorter: no more than three bytes are replaced at a time. -/
theorem length_le_lossyFrom (hgot : need = [] → got = [])
    (hlen : got.length + need.length ≤ 4) : got.length + xs.length ≤ (lossyFrom got need xs).length := by
  induction xs generalizing got need with
  | nil =>
      rw [lossyFrom]
      split
      · rename_i hn
        rw [hgot hn]
        exact Nat.le_refl 0
      · rename_i hn
        have := List.length_pos_iff.mpr hn
        simp only [replacementCharacter, List.length_cons, List.length_nil]
        omega
  | cons b xs ih =>
      have hrest : xs.length ≤ (lossyFrom [] [] xs).length := by
        have := @ih [] [] (fun _ => rfl) (Nat.zero_le 4)
        rwa [List.length_nil, Nat.zero_add] at this
      have hfresh (got : List UInt8) : xs.length + 1 ≤ (lossyFrom got [] (b :: xs)).length := by
        rw [lossyFrom_fresh]
        split
        · rw [List.length_append, replacementCharacter, List.length_cons]
          omega
        · rw [List.length_cons]
          omega
        · rename_i range need ht
          have hneed := length_utf8Tail ht
          have := @ih [b] (range :: need) nofun (by rw [List.length_singleton]; omega)
          rw [List.length_singleton] at this
          omega
      cases need with
      | nil =>
          rw [hgot rfl, List.length_nil, List.length_cons, Nat.zero_add]
          exact hfresh []
      | cons r need =>
          rw [List.length_cons] at hlen ⊢
          rw [lossyFrom_pending]
          split
          · split
            · rw [List.length_append, List.length_cons]
              omega
            · rename_i hmore
              have hsnoc : (got ++ [b]).length = got.length + 1 := by
                rw [List.length_append, List.length_singleton]
              have := @ih (got ++ [b]) need (absurd · hmore) (by omega)
              omega
          · have := hfresh []
            rw [List.length_append, show replacementCharacter.length = 3 from rfl]
            omega

theorem length_le_utf8Lossy (xs : List UInt8) : xs.length ≤ (utf8Lossy xs).length := by
  have := @length_le_lossyFrom [] xs [] (fun _ => rfl) (Nat.zero_le 4)
  rwa [List.length_nil, Nat.zero_add] at this

/-- Text that is cut at an ASCII character is well formed if its two parts are. -/
theorem utf8Lossy_append_ascii_eq_self (hc : c.toNat < 0x80) {a b : List UInt8} :
    utf8Lossy (a ++ c :: b) = a ++ c :: b ↔ utf8Lossy a = a ∧ utf8Lossy b = b := by
  rw [utf8Lossy_append_ascii hc]
  constructor
  · intro h
    have hlen := congrArg List.length h
    have ha := length_le_utf8Lossy a
    have hb := length_le_utf8Lossy b
    simp only [List.length_append, List.length_cons] at hlen
    obtain ⟨hfront, hback⟩ := List.append_inj h (by omega)
    exact ⟨hfront, (List.cons.inj hback).2⟩
  · rintro ⟨ha, hb⟩
    rw [ha, hb]

/-- The bytes `got` are the start of a character that `need` is missing of. -/
def Begun (got : List UInt8) (need : List (Nat × Nat)) : Prop :=
  ∀ rest, lossyFrom [] [] (got ++ rest) = lossyFrom got need rest

theorem lossyFrom_replacementCharacter (rest : List UInt8) :
    lossyFrom [] [] (replacementCharacter ++ rest) = replacementCharacter ++ lossyFrom [] [] rest := rfl

/-- What has been read is well formed. -/
theorem lossyFrom_lossyFrom (h : Begun got need) :
    lossyFrom [] [] (lossyFrom got need xs) = lossyFrom got need xs := by
  have hnil : Begun [] [] := fun _ => rfl
  induction xs generalizing got need with
  | nil =>
      rw [lossyFrom]
      split
      · rfl
      · rfl
  | cons b xs ih =>
      have hfresh (got : List UInt8) : lossyFrom [] [] (lossyFrom got [] (b :: xs)) =
          lossyFrom got [] (b :: xs) := by
        rw [lossyFrom_fresh]
        split
        · rw [lossyFrom_replacementCharacter, ih hnil]
        · rename_i ht
          rw [lossyFrom_fresh, ht, ih hnil]
        · rename_i ht
          refine ih fun rest => ?_
          rw [List.singleton_append, lossyFrom_fresh, ht]
      cases need with
      | nil => exact hfresh got
      | cons r need =>
          rw [lossyFrom_pending]
          split
          · rename_i hr
            have hstep (rest : List UInt8) : lossyFrom [] [] (got ++ b :: rest) =
                if need = [] then got ++ b :: lossyFrom [] [] rest else lossyFrom (got ++ [b]) need rest := by
              rw [h, lossyFrom_pending, if_pos hr]
            split
            · rename_i hend
              rw [hstep, if_pos hend, ih hnil]
            · rename_i hmore
              refine ih fun rest => ?_
              rw [List.append_assoc, List.singleton_append, hstep, if_neg hmore]
          · rw [lossyFrom_replacementCharacter, hfresh]

theorem utf8Lossy_utf8Lossy (xs : List UInt8) : utf8Lossy (utf8Lossy xs) = utf8Lossy xs :=
  lossyFrom_lossyFrom fun _ => rfl

/-! ## Percent-encoding -/

def percent : UInt8 := 37

def hexValue (b : UInt8) : Option Nat :=
  let n := b.toNat
  if 48 ≤ n ∧ n ≤ 57 then some (n - 48)
  else if 65 ≤ n ∧ n ≤ 70 then some (n - 55)
  else if 97 ≤ n ∧ n ≤ 102 then some (n - 87)
  else none

/-- The upper-case hex digit of a number below sixteen. -/
def hexDigit (n : Nat) : UInt8 := UInt8.ofNat (if n < 10 then 48 + n else 55 + n)

theorem hexValue_hexDigit {n : Nat} (h : n < 16) : hexValue (hexDigit n) = some n := by
  have hall : ∀ n ∈ List.range 16, hexValue (hexDigit n) = some n := by decide
  exact hall n (List.mem_range.mpr h)

/-- Replaces every escape by its byte. What looks like an escape and is none stays. -/
def percentDecodeBytes : List UInt8 → List UInt8
  | b :: h :: l :: rest =>
      if b = percent then
        match hexValue h, hexValue l with
        | some x, some y => UInt8.ofNat (16 * x + y) :: percentDecodeBytes rest
        | _, _ => b :: percentDecodeBytes (h :: l :: rest)
      else b :: percentDecodeBytes (h :: l :: rest)
  | rest => rest

def percentEncodeByte (b : UInt8) : List UInt8 := [percent, hexDigit (b.toNat / 16), hexDigit (b.toNat % 16)]

/-- Escapes the bytes that are not to be kept. -/
def percentEncode (keep : UInt8 → Bool) (bytes : List UInt8) : List UInt8 :=
  bytes.flatMap fun b => if keep b then [b] else percentEncodeByte b

theorem percentDecodeBytes_cons_ne {b : UInt8} (h : b ≠ percent) (rest : List UInt8) :
    percentDecodeBytes (b :: rest) = b :: percentDecodeBytes rest := by
  match rest with
  | [] => rfl
  | [_] => rfl
  | _ :: _ :: _ => rw [percentDecodeBytes, if_neg h]

/-- A `%` that is followed by something else than two hex digits stands for itself. -/
theorem percentDecodeBytes_cons_plain {b h : UInt8} {rest : List UInt8} (hh : hexValue h = none) :
    percentDecodeBytes (b :: h :: rest) = b :: percentDecodeBytes (h :: rest) := by
  match rest with
  | [] => rfl
  | l :: rest =>
      rw [percentDecodeBytes, hh]
      split <;> rfl

theorem percentDecodeBytes_encodeByte (b : UInt8) (rest : List UInt8) :
    percentDecodeBytes (percentEncodeByte b ++ rest) = b :: percentDecodeBytes rest := by
  have hb : b.toNat < 256 := b.toNat_lt
  have hhigh := hexValue_hexDigit (n := b.toNat / 16) (by omega)
  have hlow := hexValue_hexDigit (n := b.toNat % 16) (by omega)
  change percentDecodeBytes (percent :: hexDigit (b.toNat / 16) :: hexDigit (b.toNat % 16) :: rest) = _
  rw [percentDecodeBytes, if_pos rfl, hhigh, hlow]
  simp only [show 16 * (b.toNat / 16) + b.toNat % 16 = b.toNat by omega, UInt8.ofNat_toNat]

/-- Decoding undoes encoding, as long as `%` itself is escaped. -/
theorem percentDecodeBytes_encode {keep : UInt8 → Bool} (hk : keep percent = false) (bytes : List UInt8) :
    percentDecodeBytes (percentEncode keep bytes) = bytes := by
  induction bytes with
  | nil => rfl
  | cons b bytes ih =>
      rw [percentEncode, List.flatMap_cons]
      split
      · rename_i hb
        have hne : b ≠ percent := by
          rintro rfl
          rw [hk] at hb
          cases hb
        rw [List.singleton_append, percentDecodeBytes_cons_ne hne]
        exact congrArg (b :: ·) ih
      · rw [percentDecodeBytes_encodeByte]
        exact congrArg (b :: ·) ih

theorem percentEncode_injective {keep : UInt8 → Bool} (hk : keep percent = false) {a b : List UInt8}
    (h : percentEncode keep a = percentEncode keep b) : a = b := by
  rw [← percentDecodeBytes_encode hk a, h, percentDecodeBytes_encode hk]

theorem mem_percentEncode {keep : UInt8 → Bool} {bytes : List UInt8} {c : UInt8}
    (h : c ∈ percentEncode keep bytes) :
    keep c ∨ c = percent ∨ (hexValue c).isSome := by
  obtain ⟨b, -, hb⟩ := List.mem_flatMap.mp h
  have hlt : b.toNat < 256 := b.toNat_lt
  split at hb
  · rename_i hkeep
    rw [List.mem_singleton] at hb
    exact .inl (hb ▸ hkeep)
  · simp only [percentEncodeByte, List.mem_cons, List.not_mem_nil, or_false] at hb
    obtain rfl | rfl | rfl := hb
    · exact .inr (.inl rfl)
    · exact .inr (.inr (by rw [hexValue_hexDigit (by omega)]; rfl))
    · exact .inr (.inr (by rw [hexValue_hexDigit (by omega)]; rfl))

/-- Text may be cut at a byte that belongs to no escape. -/
theorem percentDecodeBytes_append {c : UInt8} (hc : c ≠ percent) (hx : hexValue c = none) (a b : List UInt8) :
    percentDecodeBytes (a ++ c :: b) = percentDecodeBytes a ++ c :: percentDecodeBytes b := by
  induction a using percentDecodeBytes.induct with
  | case1 h l rest x y hh hl ih =>
      rw [List.cons_append, List.cons_append, List.cons_append, percentDecodeBytes, percentDecodeBytes,
        if_pos rfl, if_pos rfl, hh, hl]
      simp only [ih, List.cons_append]
  | case2 h l rest hno ih =>
      rw [List.cons_append, List.cons_append, List.cons_append, percentDecodeBytes, percentDecodeBytes,
        if_pos rfl, if_pos rfl]
      split
      · rename_i x y hh hl
        exact (hno x y hh hl).elim
      · exact congrArg (percent :: ·) ih
  | case3 b h l rest hb ih =>
      rw [List.cons_append, percentDecodeBytes_cons_ne hb, percentDecodeBytes_cons_ne hb, List.cons_append]
      exact congrArg (b :: ·) ih
  | case4 a ha =>
      match a, ha with
      | [], _ => exact percentDecodeBytes_cons_ne hc b
      | [x], _ =>
          rw [List.singleton_append, percentDecodeBytes_cons_plain hx, percentDecodeBytes_cons_ne hc]
          rfl
      | [x, y], _ =>
          have hfirst : percentDecodeBytes (x :: y :: c :: b) = x :: percentDecodeBytes (y :: c :: b) := by
            rw [percentDecodeBytes]
            split
            · split
              · rename_i hl
                rw [hx] at hl
                cases hl
              · rfl
            · rfl
          change percentDecodeBytes (x :: y :: c :: b) = [x, y] ++ c :: percentDecodeBytes b
          rw [hfirst, percentDecodeBytes_cons_plain hx, percentDecodeBytes_cons_ne hc]
          rfl
      | x :: y :: z :: rest, h => exact absurd rfl (h x y z rest)

theorem percentDecodeBytes_of_plain {xs : List UInt8} (h : percent ∉ xs) : percentDecodeBytes xs = xs := by
  induction xs with
  | nil => rfl
  | cons b xs ih =>
      rw [List.mem_cons, not_or] at h
      rw [percentDecodeBytes_cons_ne (Ne.symm h.1), ih h.2]

theorem percentDecodeBytes_eq_nil {xs : List UInt8} : percentDecodeBytes xs = [] ↔ xs = [] := by
  constructor
  · intro h
    match xs with
    | [] => rfl
    | [_] => cases h
    | [_, _] => cases h
    | _ :: _ :: _ :: _ =>
        rw [percentDecodeBytes] at h
        repeat' split at h
        all_goals cases h
  · rintro rfl
    rfl

end Nestor.Lib
