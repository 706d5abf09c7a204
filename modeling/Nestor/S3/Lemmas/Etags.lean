import Nestor.Core.Precondition
import Nestor.S3.Lemmas.Http
import Nestor.S3.Sigv4

/-!
# Entity tags

Entity tags and lists of them as HTTP writes them, and what `etagMatches` makes of such a list. It
cuts the list at every comma, also at those within a tag.
-/

namespace Nestor.S3

open Lib

/-- The characters of an entity tag between its quotes. -/
def isEtagChar (b : UInt8) : Bool := b.toNat = 0x21 || 0x23 ≤ b.toNat && b.toNat ≤ 0x7E || 0x80 ≤ b.toNat

def dquote : UInt8 := 34

structure EntityTag where
  weak : Bool
  label : Bytes
  valid : ∀ b ∈ label, isEtagChar b
deriving DecidableEq

namespace EntityTag

def quoted (t : EntityTag) : Bytes := dquote :: (t.label ++ [dquote])

def text (t : EntityTag) : Bytes := (if t.weak then ObjectMeta.weakMark else []) ++ t.quoted

theorem quoted_inj {t t' : EntityTag} : t.quoted = t'.quoted ↔ t.label = t'.label := by
  unfold quoted
  rw [List.cons.injEq, List.append_left_inj]
  exact and_iff_right rfl

theorem dquote_not_mem (t : EntityTag) : dquote ∉ t.label := by
  intro h
  exact absurd (t.valid dquote h) (by decide)

theorem strongPart_text (t : EntityTag) : ObjectMeta.strongPart t.text = t.quoted := by
  have hquoted (fuel : Nat) : trimFront [ObjectMeta.weakMark] fuel t.quoted = t.quoted := by
    refine trimFront_eq_self ?_ fuel
    rintro b hb ⟨rest, hrest⟩
    rw [List.mem_singleton.mp hb] at hrest
    cases hrest
  unfold ObjectMeta.strongPart text
  cases t.weak with
  | false => exact hquoted _
  | true => exact hquoted _

end EntityTag

/-- A list of tags, with blanks around them. -/
inductive TagList : Bytes → List EntityTag → Prop
  | one {p q : Bytes} {t : EntityTag} (hp : Blanks p) (hq : Blanks q) : TagList (p ++ t.text ++ q) [t]
  | more {p q w : Bytes} {t : EntityTag} {ts : List EntityTag} (hp : Blanks p) (hq : Blanks q)
      (h : TagList w ts) : TagList (p ++ t.text ++ q ++ comma :: w) (t :: ts)

/-- The parts between commas. -/
def pieces (candidates : Bytes) : List Bytes := (candidates.splitOn comma).map trimText

/-- One of them is a star. -/
def Starred (candidates : Bytes) : Prop := ascii "*" ∈ pieces candidates

instance (candidates : Bytes) : Decidable (Starred candidates) := inferInstanceAs (Decidable (_ ∈ _))

/-- Some tag of the list has this label. -/
def Lists (tags : List EntityTag) (label : Bytes) : Prop := ∃ t ∈ tags, t.label = label

instance (tags : List EntityTag) (label : Bytes) : Decidable (Lists tags label) :=
  inferInstanceAs (Decidable (∃ t ∈ tags, _))

section

variable {p q w : Bytes} {t e : EntityTag} {tags : List EntityTag}

theorem count_strongPart_trimText (x : Bytes) :
    (ObjectMeta.strongPart (trimText x)).count dquote ≤ x.count dquote :=
  ((trimStart_sublist _ _).trans (trim_sublist _ _)).count_le dquote

/-- A tag has two quotes, so a part of the list that has at most one is none. -/
theorem strongPart_ne_quoted {x : Bytes} (h : x.count dquote ≤ 1) :
    ObjectMeta.strongPart (trimText x) ≠ e.quoted := by
  intro heq
  have hcount := count_strongPart_trimText x
  have htwo : 2 ≤ e.quoted.count dquote := by
    rw [EntityTag.quoted, List.count_cons_self, List.count_append, List.count_singleton_self]
    omega
  rw [heq] at hcount
  omega

theorem trimText_tag (hp : Blanks p) (hq : Blanks q) (t : EntityTag) :
    trimText (p ++ t.text ++ q) = t.text := by
  refine trimText_pad hp hq (fun b hb => ?_) fun b hb => ?_
  · unfold EntityTag.text EntityTag.quoted at hb
    cases hw : t.weak with
    | false =>
        rw [hw] at hb
        cases hb
        decide
    | true =>
        rw [hw] at hb
        cases hb
        decide
  · have hlast : t.text.getLast? = some dquote := by
      rw [EntityTag.text, EntityTag.quoted, ← List.cons_append, ← List.append_assoc, List.getLast?_concat]
    rw [hlast] at hb
    cases hb
    decide

theorem count_blanks (hp : Blanks p) : p.count dquote = 0 := List.count_eq_zero.mpr (hp.not_mem rfl)

/-- Between the commas of one element of the list there is the tag if it has no comma itself, and no
tag otherwise. -/
theorem piece_of_tag (hp : Blanks p) (hq : Blanks q) :
    (∃ x ∈ (p ++ t.text ++ q).splitOn comma, ObjectMeta.strongPart (trimText x) = e.quoted) ↔
      comma ∉ e.label ∧ t.label = e.label := by
  have hmark : (if t.weak then ObjectMeta.weakMark else []).count dquote = 0 ∧
      comma ∉ if t.weak then ObjectMeta.weakMark else [] := by
    cases t.weak <;> decide
  by_cases hcomma : comma ∈ t.label
  · refine iff_of_false ?_ fun h => h.1 (h.2 ▸ hcomma)
    rintro ⟨x, hx, heq⟩
    obtain ⟨a, b, hab⟩ := List.append_of_mem hcomma
    have hlabel := List.count_eq_zero.mpr t.dquote_not_mem
    rw [hab, List.count_append, List.count_cons] at hlabel
    have hcut : p ++ t.text ++ q = p ++ (if t.weak then ObjectMeta.weakMark else []) ++ dquote :: a ++
        comma :: (b ++ dquote :: q) := by
      simp [EntityTag.text, EntityTag.quoted, hab]
    rw [hcut, List.splitOn_append_cons_self] at hx
    refine strongPart_ne_quoted ?_ heq
    -- Each side of the comma has one of the two quotes.
    rcases List.mem_append.mp hx with hx | hx
    · refine ((sublist_of_mem_splitOn hx).count_le dquote).trans ?_
      rw [List.count_append, List.count_append, List.count_cons_self, count_blanks hp, hmark.1]
      omega
    · refine ((sublist_of_mem_splitOn hx).count_le dquote).trans ?_
      rw [List.count_append, List.count_cons_self, count_blanks hq]
      omega
  · have hout : comma ∉ p ++ t.text ++ q := by
      have hpad (r : Bytes) (hr : Blanks r) : comma ∉ r := hr.not_mem rfl
      have hquote : comma ≠ dquote := by decide
      simp [EntityTag.text, EntityTag.quoted, hpad p hp, hpad q hq, hmark.2, hquote, hcomma]
    rw [List.splitOn_eq_singleton hout]
    simp only [List.mem_singleton, exists_eq_left]
    rw [trimText_tag hp hq, t.strongPart_text, EntityTag.quoted_inj]
    exact ⟨fun h => ⟨h ▸ hcomma, h⟩, fun h => h.2⟩

/-- Cut at the commas, a list has a tag where it has the tag and the tag has no comma. -/
theorem piece_of_list (h : TagList w tags) :
    (∃ x ∈ w.splitOn comma, ObjectMeta.strongPart (trimText x) = e.quoted) ↔ comma ∉ e.label ∧
    Lists tags e.label := by
  induction h with
  | one hp hq =>
      rw [piece_of_tag hp hq]
      simp [Lists]
  | more hp hq _ ih =>
      rw [List.splitOn_append_cons_self]
      simp only [List.mem_append, or_and_right, exists_or]
      rw [ih, piece_of_tag hp hq, ← and_or_left]
      simp [Lists]

theorem utf8_text (h : utf8Lossy t.label = t.label) : utf8Lossy t.text = t.text := by
  have hquote : dquote.toNat < 0x80 := by decide
  unfold EntityTag.text EntityTag.quoted
  rw [utf8Lossy_append_ascii_eq_self hquote, utf8Lossy_append_ascii_eq_self hquote]
  refine ⟨?_, h, rfl⟩
  cases t.weak <;> rfl

/-- The labels of a list of tags are text if the list is. -/
theorem utf8_label (h : TagList w tags) (hw : utf8Lossy w = w) (ht : t ∈ tags) :
    utf8Lossy t.label = t.label := by
  have hquote : dquote.toNat < 0x80 := by decide
  have hinner {p q : Bytes} {t : EntityTag} (h : utf8Lossy (p ++ t.text ++ q) = p ++ t.text ++ q) :
      utf8Lossy t.label = t.label := by
    have hcut : p ++ t.text ++ q = p ++ (if t.weak then ObjectMeta.weakMark else []) ++
        dquote :: (t.label ++ dquote :: q) := by
      simp [EntityTag.text, EntityTag.quoted]
    rw [hcut, utf8Lossy_append_ascii_eq_self hquote, utf8Lossy_append_ascii_eq_self hquote] at h
    exact h.2.1
  induction h with
  | one hp hq =>
      rw [List.mem_singleton.mp ht]
      exact hinner hw
  | more hp hq _ ih =>
      rw [utf8Lossy_append_ascii_eq_self (by decide)] at hw
      rcases List.mem_cons.mp ht with rfl | ht
      · exact hinner hw.1
      · exact ih hw.2 ht

end

theorem etagMatches_iff {m : ObjectMeta} {candidates : Bytes} : m.etagMatches candidates = true ↔
    Starred candidates ∨ ∃ e, m.etag = some e ∧ utf8Lossy e = e ∧
      ∃ x ∈ candidates.splitOn comma, ObjectMeta.strongPart (trimText x) = ObjectMeta.strongPart e := by
  have hcomma : comma = 44 := rfl
  unfold ObjectMeta.etagMatches Starred pieces
  simp only [List.any_eq_true, List.mem_map, Bool.or_eq_true, decide_eq_true_eq, Option.any_eq_true, ← hcomma]
  constructor
  · rintro ⟨_, ⟨x, hx, rfl⟩, hstar | ⟨e, he, heq⟩⟩
    · exact .inl ⟨x, hx, hstar⟩
    · obtain ⟨e', he', rfl⟩ := Option.map_eq_some_iff.mp he
      obtain ⟨hetag, hutf8⟩ := Option.filter_eq_some_iff.mp he'
      exact .inr ⟨e', hetag, of_decide_eq_true hutf8, x, hx, heq⟩
  · rintro (⟨x, hx, hstar⟩ | ⟨e, hetag, hutf8, x, hx, heq⟩)
    · exact ⟨_, ⟨x, hx, rfl⟩, .inl hstar⟩
    · refine ⟨_, ⟨x, hx, rfl⟩, .inr ⟨_, ?_, heq⟩⟩
      exact Option.map_eq_some_iff.mpr ⟨e, Option.filter_eq_some_iff.mpr ⟨hetag, decide_eq_true hutf8⟩, rfl⟩

section

variable {m : ObjectMeta} {candidates : Bytes} {tags : List EntityTag}

theorem etagMatches_list {tag : EntityTag} (htag : m.etag = some tag.text) (hlist : TagList candidates tags)
    (hutf8 : utf8Lossy candidates = candidates) :
    m.etagMatches candidates = true ↔ Starred candidates ∨ comma ∉ tag.label ∧ Lists tags tag.label := by
  rw [etagMatches_iff, ← piece_of_list hlist]
  refine or_congr_right ⟨?_, ?_⟩
  · rintro ⟨e, he, -, x, hx, heq⟩
    rw [htag] at he
    cases he
    exact ⟨x, hx, heq.trans tag.strongPart_text⟩
  · rintro ⟨x, hx, heq⟩
    obtain ⟨-, t, ht, hlabel⟩ := (piece_of_list hlist).mp ⟨x, hx, heq⟩
    have hl := utf8_label hlist hutf8 ht
    rw [hlabel] at hl
    exact ⟨tag.text, htag, utf8_text hl, x, hx, heq.trans tag.strongPart_text.symm⟩

end

end Nestor.S3
