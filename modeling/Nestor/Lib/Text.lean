import Mathlib.Data.List.Basic

/-!
# Text as a list of code units

What programs do with text: cutting it at separators, taking affixes off, trimming. `List.splitOn`,
`List.intercalate`, `List.dropPrefix?` and `List.dropSuffix?` are the library's; here is what it
does not have.
-/

namespace Nestor.Lib

/-- The bytes of a text of ASCII characters. -/
def ascii (s : String) : List UInt8 := s.toList.map fun c => UInt8.ofNat c.toNat

-- Before the instance that goes through every value of the type.
instance (priority := high) decidableForallMem (p : UInt8 → Prop) [DecidablePred p] (l : List UInt8) :
    Decidable (∀ b ∈ l, p b) :=
  List.decidableBAll p l

/-- A property of all bytes, checked value by value. -/
theorem forall_byte {P : UInt8 → Prop} (h : ∀ n < 256, P (UInt8.ofNat n)) (b : UInt8) : P b := by
  have := h b.toNat b.toNat_lt
  rwa [UInt8.ofNat_toNat] at this

variable {α : Type*}

theorem mem_intercalate {c b : α} {ls : List (List α)} (h : b ∈ [c].intercalate ls) :
    b = c ∨ ∃ l ∈ ls, b ∈ l := by
  induction ls with
  | nil => cases h
  | cons l ls ih =>
      cases ls with
      | nil => exact .inr ⟨l, List.mem_cons_self, by simpa [List.intercalate] using h⟩
      | cons l' ls =>
          have hstep : [c].intercalate (l :: l' :: ls) = l ++ c :: [c].intercalate (l' :: ls) := by
            simp [List.intercalate, List.intersperse]
          rw [hstep, List.mem_append, List.mem_cons] at h
          obtain h | h | h := h
          · exact .inr ⟨l, List.mem_cons_self, h⟩
          · exact .inl h
          · obtain rfl | ⟨l₁, hl, hb⟩ := ih h
            · exact .inl rfl
            · exact .inr ⟨l₁, List.mem_cons_of_mem _ hl, hb⟩

variable [DecidableEq α]

variable {c : α} {xs l : List α}

theorem not_mem_of_mem_splitOn (h : l ∈ xs.splitOn c) : c ∉ l := by
  unfold List.splitOn at h
  induction xs generalizing l with
  | nil =>
      rw [List.splitOnP_nil, List.mem_singleton] at h
      simp [h]
  | cons x xs ih =>
      rw [List.splitOnP_cons_eq_if_modifyHead] at h
      split at h
      · obtain rfl | h := List.mem_cons.mp h
        · exact List.not_mem_nil
        · exact ih h
      · rename_i hx
        cases hs : xs.splitOnP (· == c) with
        | nil => exact absurd hs (List.splitOnP_ne_nil _ _)
        | cons l' ls =>
            rw [hs] at h ih
            obtain rfl | h := List.mem_cons.mp h
            · have hne : c ≠ x := fun he => hx (by rw [he]; exact beq_self_eq_true x)
              exact fun hc => (List.mem_cons.mp hc).elim hne (ih List.mem_cons_self)
            · exact ih (List.mem_cons_of_mem _ h)

theorem sublist_of_mem_splitOn (h : l ∈ xs.splitOn c) : l.Sublist xs := by
  induction xs generalizing l with
  | nil =>
      rw [List.splitOn_nil, List.mem_singleton] at h
      rw [h]
  | cons x xs ih =>
      rw [List.splitOn_cons_eq_if_modifyHead] at h
      split at h
      · obtain rfl | h := List.mem_cons.mp h
        · exact List.nil_sublist _
        · exact (ih h).cons x
      · cases hs : xs.splitOn c with
        | nil => exact absurd hs (List.splitOn_ne_nil c xs)
        | cons l' ls =>
            rw [hs] at h ih
            obtain rfl | h := List.mem_cons.mp h
            · exact (ih List.mem_cons_self).cons_cons x
            · exact (ih (List.mem_cons_of_mem _ h)).cons x

/-! ## Cutting once -/

/-- What comes before and after the first `c`. -/
def splitOnce (c : α) : List α → Option (List α × List α)
  | [] => none
  | x :: xs => if x = c then some ([], xs) else (splitOnce c xs).map fun p => (x :: p.1, p.2)

theorem splitOnce_append {a : List α} (b : List α) (h : c ∉ a) : splitOnce c (a ++ c :: b) = some (a, b) := by
  induction a with
  | nil => simp [splitOnce]
  | cons x a ih =>
      rw [List.mem_cons, not_or] at h
      rw [List.cons_append, splitOnce, if_neg (Ne.symm h.1), ih h.2]
      rfl

theorem splitOnce_eq_none (h : c ∉ xs) : splitOnce c xs = none := by
  induction xs with
  | nil => rfl
  | cons x xs ih =>
      rw [List.mem_cons, not_or] at h
      rw [splitOnce, if_neg (Ne.symm h.1), ih h.2]
      rfl

theorem splitOnce_eq_some {a b : List α} (h : splitOnce c xs = some (a, b)) :
    xs = a ++ c :: b ∧ c ∉ a := by
  induction xs generalizing a with
  | nil => cases h
  | cons x xs ih =>
      rw [splitOnce] at h
      split at h
      · rename_i hx
        cases h
        exact ⟨by rw [hx, List.nil_append], List.not_mem_nil⟩
      · rename_i hx
        obtain ⟨p, hp, he⟩ := Option.map_eq_some_iff.mp h
        obtain ⟨rfl, rfl⟩ := Prod.mk.inj he
        obtain ⟨rfl, hc⟩ := ih hp
        exact ⟨rfl, by simp [hc, Ne.symm hx]⟩

/-- A text is cut at its first separator in one way. -/
theorem append_cons_inj {a a' b b' : List α} (ha : c ∉ a) (ha' : c ∉ a') (h : a ++ c :: b = a' ++ c :: b') :
    a = a' ∧ b = b' := by
  have hsplit := splitOnce_append b ha
  rw [h, splitOnce_append b' ha'] at hsplit
  cases hsplit
  exact ⟨rfl, rfl⟩

/-- A text either has no separator, or is cut at the first. -/
theorem splitOnce_cases (c : α) (xs : List α) :
    c ∉ xs ∧ splitOnce c xs = none ∨ ∃ a b, xs = a ++ c :: b ∧ c ∉ a ∧ splitOnce c xs = some (a, b) := by
  cases h : splitOnce c xs with
  | none =>
      refine .inl ⟨fun hc => ?_, rfl⟩
      obtain ⟨a, b, rfl, ha⟩ := List.eq_append_cons_of_mem hc
      rw [splitOnce_append b ha] at h
      cases h
  | some p =>
      obtain ⟨he, hc⟩ := splitOnce_eq_some h
      exact .inr ⟨p.1, p.2, he, hc, rfl⟩

/-! ## Affixes -/

theorem dropPrefix?_eq_some {p s : List α} : l.dropPrefix? p = some s ↔ l = p ++ s := by
  rw [List.dropPrefix?_eq_some_iff]
  constructor
  · rintro ⟨p', rfl, hp⟩
    rw [eq_of_beq hp]
  · rintro rfl
    exact ⟨p, rfl, beq_self_eq_true p⟩

theorem dropSuffix?_eq_some {p s : List α} : l.dropSuffix? s = some p ↔ l = p ++ s := by
  rw [List.dropSuffix?_eq_some_iff]
  constructor
  · rintro ⟨s', rfl, hs⟩
    rw [eq_of_beq hs]
  · rintro rfl
    exact ⟨s, rfl, beq_self_eq_true s⟩

/-! ## Trimming

`blanks` are the texts that count as blank, one for each blank character. -/

/-- Takes blanks off the front, as often as the fuel allows. -/
def trimFront (blanks : List (List α)) : Nat → List α → List α
  | 0, xs => xs
  | fuel + 1, xs =>
      match blanks.findSome? fun b => xs.dropPrefix? b with
      | some rest => trimFront blanks fuel rest
      | none => xs

def trimStart (blanks : List (List α)) (xs : List α) : List α := trimFront blanks xs.length xs

def trimEnd (blanks : List (List α)) (xs : List α) : List α :=
  (trimStart (blanks.map List.reverse) xs.reverse).reverse

def trim (blanks : List (List α)) (xs : List α) : List α := trimEnd blanks (trimStart blanks xs)

variable {blanks : List (List α)} {xs : List α}

theorem trimFront_eq_self (h : ∀ b ∈ blanks, ¬ b <+: xs) (fuel : Nat) :
    trimFront blanks fuel xs = xs := by
  cases fuel with
  | zero => rfl
  | succ n =>
      have hnone : blanks.findSome? (fun b => xs.dropPrefix? b) = none := by
        rw [List.findSome?_eq_none_iff]
        intro b hb
        cases hd : xs.dropPrefix? b with
        | none => rfl
        | some s => exact absurd ⟨s, (dropPrefix?_eq_some.mp hd).symm⟩ (h b hb)
      rw [trimFront, hnone]

theorem trimStart_eq_self (h : ∀ b ∈ blanks, ¬ b <+: xs) :
    trimStart blanks xs = xs := trimFront_eq_self h xs.length

theorem trimEnd_eq_self (h : ∀ b ∈ blanks, ¬ b <:+ xs) :
    trimEnd blanks xs = xs := by
  unfold trimEnd
  rw [trimStart_eq_self, List.reverse_reverse]
  intro b hb
  obtain ⟨b', hb', rfl⟩ := List.mem_map.mp hb
  rw [List.reverse_prefix]
  exact h b' hb'

theorem exists_trimFront (blanks : List (List α)) (fuel : Nat) (xs : List α) :
    ∃ ws : List (List α), (∀ w ∈ ws, w ∈ blanks) ∧ xs = ws.flatten ++ trimFront blanks fuel xs := by
  induction fuel generalizing xs with
  | zero => exact ⟨[], fun w hw => absurd hw List.not_mem_nil, rfl⟩
  | succ fuel ih =>
      rw [trimFront]
      cases hfind : blanks.findSome? fun b => xs.dropPrefix? b with
      | none => exact ⟨[], fun w hw => absurd hw List.not_mem_nil, rfl⟩
      | some rest =>
          obtain ⟨b, hb, hdrop⟩ := List.exists_of_findSome?_eq_some hfind
          obtain ⟨ws, hws, hrest⟩ := ih rest
          refine ⟨b :: ws, List.forall_mem_cons.mpr ⟨hb, hws⟩, ?_⟩
          rw [List.flatten_cons, List.append_assoc, ← hrest]
          exact dropPrefix?_eq_some.mp hdrop

theorem exists_trimStart (blanks : List (List α)) (xs : List α) :
    ∃ ws : List (List α), (∀ w ∈ ws, w ∈ blanks) ∧ xs = ws.flatten ++ trimStart blanks xs :=
  exists_trimFront blanks xs.length xs

theorem exists_trimEnd (blanks : List (List α)) (xs : List α) :
    ∃ ws : List (List α), (∀ w ∈ ws, w ∈ blanks) ∧ xs = trimEnd blanks xs ++ ws.flatten := by
  obtain ⟨ws, hws, hxs⟩ := exists_trimStart (blanks.map List.reverse) xs.reverse
  refine ⟨(ws.map List.reverse).reverse, fun w hw => ?_, ?_⟩
  · obtain ⟨w', hw', rfl⟩ := List.mem_map.mp (List.mem_reverse.mp hw)
    obtain ⟨b, hb, rfl⟩ := List.mem_map.mp (hws w' hw')
    rwa [List.reverse_reverse]
  · have hrev := congrArg List.reverse hxs
    rwa [List.reverse_reverse, List.reverse_append, List.reverse_flatten] at hrev

theorem exists_trim (blanks : List (List α)) (xs : List α) :
    ∃ ws ws' : List (List α), (∀ w ∈ ws ++ ws', w ∈ blanks) ∧
    xs = ws.flatten ++ trim blanks xs ++ ws'.flatten := by
  obtain ⟨ws, hws, hxs⟩ := exists_trimStart blanks xs
  obtain ⟨ws', hws', hxs'⟩ := exists_trimEnd blanks (trimStart blanks xs)
  refine ⟨ws, ws', List.forall_mem_append.mpr ⟨hws, hws'⟩, ?_⟩
  rw [List.append_assoc, trim, ← hxs', ← hxs]

theorem trimStart_sublist (blanks : List (List α)) (xs : List α) : (trimStart blanks xs).Sublist xs := by
  obtain ⟨ws, -, hxs⟩ := exists_trimStart blanks xs
  have hsuffix : trimStart blanks xs <:+ xs := ⟨ws.flatten, hxs.symm⟩
  exact hsuffix.sublist

theorem trim_sublist (blanks : List (List α)) (xs : List α) : (trim blanks xs).Sublist xs := by
  obtain ⟨ws, -, hxs⟩ := exists_trimEnd blanks (trimStart blanks xs)
  have hprefix : trim blanks xs <+: trimStart blanks xs := ⟨ws.flatten, hxs.symm⟩
  exact hprefix.sublist.trans (trimStart_sublist blanks xs)

/-- A blank of one unit, the only one that starts with it, is taken off. -/
theorem trimStart_cons {b : α} (hb : [b] ∈ blanks) (hne : [] ∉ blanks)
    (hone : ∀ w ∈ blanks, w.head? = some b → w = [b]) (xs : List α) :
    trimStart blanks (b :: xs) = trimStart blanks xs := by
  have hfind : blanks.findSome? (fun w => (b :: xs).dropPrefix? w) = some xs := by
    cases hf : blanks.findSome? fun w => (b :: xs).dropPrefix? w with
    | none =>
        have := List.findSome?_eq_none_iff.mp hf [b] hb
        rw [dropPrefix?_eq_some.mpr (show b :: xs = [b] ++ xs from rfl)] at this
        cases this
    | some rest =>
        obtain ⟨w, hw, hdrop⟩ := List.exists_of_findSome?_eq_some hf
        have heq := dropPrefix?_eq_some.mp hdrop
        cases w with
        | nil => exact absurd hw hne
        | cons x w =>
            cases heq
            cases hone _ hw rfl
            rfl
  rw [trimStart, List.length_cons, trimFront, hfind]
  rfl

theorem trimStart_append {p : List α} (hp : ∀ b ∈ p, [b] ∈ blanks) (hne : [] ∉ blanks)
    (hone : ∀ b ∈ p, ∀ w ∈ blanks, w.head? = some b → w = [b]) (xs : List α) :
    trimStart blanks (p ++ xs) = trimStart blanks xs := by
  induction p with
  | nil => rfl
  | cons b p ih =>
      rw [List.cons_append, trimStart_cons (hp b List.mem_cons_self) hne (hone b List.mem_cons_self)]
      exact ih (fun b hb => hp b (List.mem_cons_of_mem _ hb)) fun b hb => hone b (List.mem_cons_of_mem _ hb)

theorem trimEnd_append {q : List α} (hq : ∀ b ∈ q, [b] ∈ blanks) (hne : [] ∉ blanks)
    (hone : ∀ b ∈ q, ∀ w ∈ blanks, w.getLast? = some b → w = [b]) (xs : List α) :
    trimEnd blanks (xs ++ q) = trimEnd blanks xs := by
  have hq' : ∀ b ∈ q.reverse, [b] ∈ blanks.map List.reverse := fun b hb =>
    List.mem_map.mpr ⟨[b], hq b (List.mem_reverse.mp hb), rfl⟩
  have hne' : [] ∉ blanks.map List.reverse := by
    intro h
    obtain ⟨w, hw, hnil⟩ := List.mem_map.mp h
    rw [List.reverse_eq_nil_iff.mp hnil] at hw
    exact hne hw
  have hone' : ∀ b ∈ q.reverse, ∀ w ∈ blanks.map List.reverse, w.head? = some b → w = [b] := by
    intro b hb w hw hhead
    obtain ⟨w', hw', rfl⟩ := List.mem_map.mp hw
    rw [List.head?_reverse] at hhead
    rw [hone b (List.mem_reverse.mp hb) w' hw' hhead]
    rfl
  rw [trimEnd, trimEnd, List.reverse_append, trimStart_append hq' hne' hone']

/-- The characters `str::trim` takes off, in UTF-8. -/
def whiteSpace : List (List UInt8) :=
  [[0x20], [0x09], [0x0A], [0x0B], [0x0C], [0x0D], [0xC2, 0x85], [0xC2, 0xA0], [0xE1, 0x9A, 0x80],
    [0xE2, 0x80, 0x80], [0xE2, 0x80, 0x81], [0xE2, 0x80, 0x82], [0xE2, 0x80, 0x83], [0xE2, 0x80, 0x84],
    [0xE2, 0x80, 0x85], [0xE2, 0x80, 0x86], [0xE2, 0x80, 0x87], [0xE2, 0x80, 0x88], [0xE2, 0x80, 0x89],
    [0xE2, 0x80, 0x8A], [0xE2, 0x80, 0xA8], [0xE2, 0x80, 0xA9], [0xE2, 0x80, 0xAF], [0xE2, 0x81, 0x9F],
    [0xE3, 0x80, 0x80]]

def trimText (s : List UInt8) : List UInt8 := trim whiteSpace s

/-- The words between blanks, after the part of a word that has been read. -/
def splitBlanks (blanks : List (List α)) : Nat → List α → List α → List (List α)
  | 0, word, _ | _, word, [] => if word = [] then [] else [word]
  | fuel + 1, word, x :: xs =>
      match blanks.findSome? fun b => (x :: xs).dropPrefix? b with
      | some rest => (if word = [] then [] else [word]) ++ splitBlanks blanks fuel [] rest
      | none => splitBlanks blanks fuel (word ++ [x]) xs

/-- `str::split_whitespace`. -/
def splitWhitespace (s : List UInt8) : List (List UInt8) := splitBlanks whiteSpace s.length [] s

end Nestor.Lib
