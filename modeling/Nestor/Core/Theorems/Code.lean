import Nestor.Core.Block
import Nestor.Core.Code

/-!
# Blocks on disk

What decoding makes of an encoded block. The length of the ETag is written as a 16-bit word and the
modification time as a 64-bit word of milliseconds; everything that fits comes back, and whatever
decodes at all is the encoding of what it decodes to.
-/

namespace Nestor

open Lib

variable {reader rest : Bytes} {b : Block} {k : BlockKey}

namespace Block

/-- What the disk tier keeps of a block: an ETag that is not empty, and the modification time in
milliseconds unless that is the epoch. -/
def kept (b : Block) : Block :=
  ⟨⟨b.meta.size, b.meta.etag.filter (· ≠ []),
    (b.meta.lastModified.map fun t => milliseconds (t / 1000000)).filter (· ≠ 0)⟩, b.data⟩

theorem length_encode (b : Block) : b.encode.length = b.estimatedSize := by
  have hetag : (b.meta.etag.getD []).length = b.meta.etag.elim 0 List.length := by
    cases b.meta.etag <;> rfl
  simp only [encode, estimatedSize, metaHeader, List.length_append, length_leBytes, hetag]

theorem unixMillis_milliseconds {n : Nat} (h : n < 2 ^ 64) : unixMillis (milliseconds n) = n := by
  rw [unixMillis, milliseconds, Nat.mul_div_cancel n (by decide), Nat.mod_eq_of_lt h]

/-! ## The layout -/

/-- A block of what its encoding holds. -/
def ofFields (size modified : Nat) (etag data : Bytes) : Block :=
  ⟨⟨size, if 0 < etag.length then some etag else none,
    if 0 < modified then some (milliseconds modified) else none⟩, data⟩

def layout (size modified : Nat) (etag data : Bytes) : Bytes :=
  (leBytes 8 size ++ (leBytes 8 modified ++ leBytes 2 etag.length)) ++
    (etag ++ (leBytes 4 data.length ++ data))

/-- The fields fit the words they are written as. -/
structure Fits (size modified : Nat) (etag data : Bytes) : Prop where
  size : size < 2 ^ 64
  modified : modified < 2 ^ 64
  etag : etag.length < 2 ^ 16
  data : data.length < 2 ^ 32

variable {size modified : Nat} {etag data : Bytes}

theorem readEtag_append (etag rest : Bytes) :
    readEtag etag.length (etag ++ rest) = some (if 0 < etag.length then some etag else none, rest) := by
  unfold readEtag
  split
  · rw [readExact_append rest rfl]
    rfl
  · rename_i he
    rw [List.length_eq_zero_iff.mp (Nat.eq_zero_of_not_pos he), List.nil_append]

theorem readEtag_eq_some {etagLen : Nat} {tag : Option Bytes}
    (h : readEtag etagLen reader = some (tag, rest)) :
    ∃ etag, etag.length = etagLen ∧ reader = etag ++ rest := by
  unfold readEtag at h
  split at h
  · obtain ⟨⟨etag, rest'⟩, hread, he⟩ := Option.map_eq_some_iff.mp h
    cases he
    obtain ⟨rfl, hlen⟩ := readExact_eq_some hread
    exact ⟨etag, hlen, rfl⟩
  · rename_i he
    cases h
    exact ⟨[], (Nat.eq_zero_of_not_pos he).symm, rfl⟩

theorem decode_layout (h : Fits size modified etag data) (rest : Bytes) :
    decode (layout size modified etag data ++ rest) = some (ofFields size modified etag data, rest) := by
  have hheader : (leBytes 8 size ++ (leBytes 8 modified ++ leBytes 2 etag.length)).length = metaHeader := by
    simp [metaHeader]
  have hlen : getLe 2 (leBytes 2 etag.length) = (etag.length, []) := by
    simpa using getLe_leBytes 2 [] h.etag
  have htail : readExact 4 (leBytes 4 data.length ++ (data ++ rest)) =
      some (leBytes 4 data.length, data ++ rest) :=
    readExact_append _ (length_leBytes ..)
  have hdata : readExact (leNat (leBytes 4 data.length)) (data ++ rest) = some (data, rest) :=
    readExact_append rest (leNat_leBytes_of_lt 4 h.data).symm
  rw [layout, List.append_assoc _ _ rest, List.append_assoc etag, List.append_assoc _ data, decode,
    readExact_append _ hheader]
  simp only [Option.bind_eq_bind, Option.bind_some, getLe_leBytes 8 _ h.size, getLe_leBytes 8 _ h.modified,
    hlen, readEtag_append, htail, hdata, ofFields]

/-- Whatever decodes has the layout. -/
theorem layout_of_decode (h : decode reader = some (b, rest)) :
    ∃ size modified etag data, Fits size modified etag data ∧
      reader = layout size modified etag data ++ rest ∧ b = ofFields size modified etag data := by
  obtain ⟨⟨header, body⟩, hread, hbody⟩ := Option.bind_eq_some_iff.mp h
  obtain ⟨rfl, hlen⟩ := readExact_eq_some hread
  obtain ⟨size, hsize, header₁, rfl, hlen₁⟩ := exists_leBytes_append 8 10 hlen
  obtain ⟨modified, hmodified, header₂, rfl, hlen₂⟩ := exists_leBytes_append 8 2 hlen₁
  obtain ⟨etagLen, hetag, header₃, rfl, hlen₃⟩ := exists_leBytes_append 2 0 hlen₂
  obtain rfl := List.length_eq_zero_iff.mp hlen₃
  simp only [getLe_leBytes 8 _ hsize, getLe_leBytes 8 _ hmodified, getLe_leBytes 2 _ hetag] at hbody
  obtain ⟨⟨tag, body₁⟩, hread₁, hbody₁⟩ := Option.bind_eq_some_iff.mp hbody
  obtain ⟨etag, rfl, rfl⟩ := readEtag_eq_some hread₁
  obtain ⟨⟨len, body₂⟩, hread₂, hbody₂⟩ := Option.bind_eq_some_iff.mp hbody₁
  obtain ⟨rfl, hword⟩ := readExact_eq_some hread₂
  obtain ⟨dataLen, hdata, header₄, rfl, hlen₄⟩ := exists_leBytes_append 4 0 hword
  obtain rfl := List.length_eq_zero_iff.mp hlen₄
  obtain ⟨⟨data, body⟩, hread₃, hbody₃⟩ := Option.bind_eq_some_iff.mp hbody₂
  obtain ⟨rfl, hlen₅⟩ := readExact_eq_some hread₃
  rw [List.append_nil, leNat_leBytes_of_lt 4 hdata] at hlen₅
  subst hlen₅
  have hfits : Fits size modified etag data := ⟨hsize, hmodified, hetag, hdata⟩
  have hlayout : leBytes 8 size ++ (leBytes 8 modified ++ (leBytes 2 etag.length ++ [])) ++
      (etag ++ (leBytes 4 data.length ++ [] ++ (data ++ body))) = layout size modified etag data ++ body := by
    simp only [layout, List.append_nil, List.append_assoc]
  rw [hlayout, decode_layout hfits] at h
  cases h
  exact ⟨size, modified, etag, data, hfits, hlayout, rfl⟩

theorem encode_ofFields (h : Fits size modified etag data) :
    (ofFields size modified etag data).encode = layout size modified etag data := by
  have hetag : (if 0 < etag.length then some etag else none).getD [] = etag := by
    split
    · rfl
    · rename_i he
      exact (List.length_eq_zero_iff.mp (Nat.eq_zero_of_not_pos he)).symm
  have hmodified : (if 0 < modified then some (milliseconds modified) else none).elim 0
      unixMillis = modified := by
    split
    · rw [Option.elim_some, unixMillis_milliseconds h.modified]
    · rename_i hm
      exact (Nat.eq_zero_of_not_pos hm).symm
  simp only [encode, ofFields, hetag, hmodified, Nat.mod_eq_of_lt h.etag, Nat.mod_eq_of_lt h.data, layout,
    List.append_assoc]

/-! ## Encoding and decoding -/

/-- The fields of a block that its encoding is to hold. -/
def modifiedMillis (b : Block) : Nat := b.meta.lastModified.elim 0 (· / 1000000)

theorem kept_eq (b : Block) : b.kept = ofFields b.meta.size b.modifiedMillis
    (b.meta.etag.getD []) b.data := by
  obtain ⟨⟨size, etag, modified⟩, data⟩ := b
  have hetag : etag.filter (· ≠ []) = if 0 < (etag.getD []).length then some (etag.getD []) else none := by
    rcases etag with _ | _ | ⟨c, etag⟩ <;> simp
  have hmodified : (modified.map fun t => milliseconds (t / 1000000)).filter (· ≠ 0) =
      if 0 < modified.elim 0 (· / 1000000) then some (milliseconds (modified.elim 0 (· / 1000000)))
        else none := by
    cases modified with
    | none => rfl
    | some t =>
        by_cases ht : t / 1000000 = 0
        · simp [milliseconds, ht]
        · have hne : milliseconds (t / 1000000) ≠ 0 := Nat.mul_ne_zero ht (by decide)
          simp [Option.filter, hne, Nat.pos_iff_ne_zero, ht]
  rw [kept, hetag, hmodified]
  rfl

theorem encode_eq_layout (h : Fits b.meta.size b.modifiedMillis (b.meta.etag.getD []) b.data) :
    b.encode = layout b.meta.size b.modifiedMillis (b.meta.etag.getD []) b.data := by
  have hmodified : b.meta.lastModified.elim 0 unixMillis = b.modifiedMillis := by
    have hlt := h.modified
    unfold modifiedMillis at hlt ⊢
    cases hm : b.meta.lastModified with
    | none => rfl
    | some t =>
        rw [hm, Option.elim_some] at hlt
        rw [Option.elim_some, Option.elim_some, unixMillis, Nat.mod_eq_of_lt hlt]
  simp only [encode, hmodified, Nat.mod_eq_of_lt h.etag, Nat.mod_eq_of_lt h.data, layout, List.append_assoc]

theorem fits_of_kept (h : b.kept = ofFields size modified etag data) (hf : Fits size modified etag data) :
    (∀ tag, b.meta.etag = some tag → tag.length < 2 ^ 16) ∧
      ∀ t, b.meta.lastModified = some t → t / 1000000 < 2 ^ 64 := by
  rw [kept_eq, ofFields, ofFields, modifiedMillis, Block.mk.injEq, ObjectMeta.mk.injEq] at h
  obtain ⟨⟨-, hetag, hmodified⟩, -⟩ := h
  refine ⟨fun tag htag => ?_, fun t ht => ?_⟩
  · rw [htag, Option.getD_some] at hetag
    by_cases hpos : 0 < tag.length
    · rw [if_pos hpos] at hetag
      split at hetag
      · cases hetag
        exact hf.etag
      · cases hetag
    · omega
  · rw [ht, Option.elim_some] at hmodified
    by_cases hpos : 0 < t / 1000000
    · rw [if_pos hpos] at hmodified
      split at hmodified
      · rw [Nat.mul_right_cancel (by decide) (Option.some.inj hmodified)]
        exact hf.modified
      · cases hmodified
    · omega

/-- Encoded and decoded again, with anything behind it, a block is what the disk tier is meant to
keep of it if and only if its ETag is shorter than 64 KiB and its modification time is less than `2
^ 64` milliseconds after the epoch. Bytes that decode are the encoding of the block they decode
to. -/
theorem decode_encode_iff (b : Block) (hsize : b.meta.size < 2 ^ 64) (hdata : b.data.length ≤ maxBlockSize) :
    ((b.encode.length = b.estimatedSize ∧ ∀ rest, decode (b.encode ++ rest) = some (b.kept, rest)) ↔
      (∀ etag, b.meta.etag = some etag → etag.length < 2 ^ 16) ∧
        ∀ t, b.meta.lastModified = some t → t / 1000000 < 2 ^ 64) ∧
    ∀ reader rest b', decode reader = some (b', rest) → reader = b'.encode ++ rest := by
  refine ⟨⟨?_, ?_⟩, ?_⟩
  · rintro ⟨-, h⟩
    obtain ⟨_, _, _, _, hf, -, hb⟩ := layout_of_decode (h [])
    exact fits_of_kept hb hf
  · rintro ⟨hetag, hmodified⟩
    have hf : Fits b.meta.size b.modifiedMillis (b.meta.etag.getD []) b.data := by
      refine ⟨hsize, ?_, ?_, Nat.lt_of_le_of_lt hdata (by decide)⟩
      · unfold modifiedMillis
        cases hm : b.meta.lastModified with
        | none => exact Nat.two_pow_pos 64
        | some t => exact hmodified t hm
      · cases he : b.meta.etag with
        | none => exact Nat.two_pow_pos 16
        | some etag => exact hetag etag he
    refine ⟨b.length_encode, fun rest => ?_⟩
    rw [encode_eq_layout hf, decode_layout hf, ← kept_eq]
  · intro reader rest b' h
    obtain ⟨_, _, _, _, hf, rfl, rfl⟩ := layout_of_decode h
    rw [encode_ofFields hf]

/-- A block of an object of three bytes whose ETag is long. -/
def longTagged : Block := ⟨⟨3, some (List.replicate (2 ^ 16) 97), none⟩, [1, 2, 3]⟩

/-- The length of the long ETag is written as zero, so its first bytes are read as the length of the
data. -/
theorem decode_longTagged : longTagged.meta.size < 2 ^ 64 ∧ longTagged.data.length ≤ maxBlockSize ∧
    ¬ ∀ rest, decode (longTagged.encode ++ rest) = some (longTagged.kept, rest) := by
  refine ⟨by decide, by decide, fun h => ?_⟩
  obtain ⟨_, _, _, _, hf, -, hb⟩ := layout_of_decode (h [])
  have hlen := (fits_of_kept hb hf).1 _ rfl
  rw [List.length_replicate] at hlen
  exact absurd hlen (Nat.lt_irrefl _)

/-- A block with an ETag and a modification time between two milliseconds. -/
def tagged : Block := ⟨⟨3, some [34, 97, 34], some 1700000000123456789⟩, [1, 2, 3]⟩

theorem decode_encode_tagged : tagged.encode.length = tagged.estimatedSize ∧
    decode (tagged.encode ++ [7]) = some
      (⟨⟨3, some [34, 97, 34], some 1700000000123000000⟩, [1, 2, 3]⟩, [7]) := by
  have hfits : (∀ etag, tagged.meta.etag = some etag → etag.length < 2 ^ 16) ∧
      ∀ t, tagged.meta.lastModified = some t → t / 1000000 < 2 ^ 64 := by
    refine ⟨?_, ?_⟩
    · rintro _ ⟨⟩
      decide
    · rintro _ ⟨⟩
      decide
  have h := (decode_encode_iff tagged (by decide) (by decide)).1.mpr hfits
  exact ⟨h.1, h.2 [7]⟩

end Block

/-! ## Keys -/

namespace BlockKey

/-- The fields are words of their widths, and the length of the name is one. -/
structure Fits (k : BlockKey) : Prop where
  «namespace» : k.namespace < 2 ^ 32
  tag : k.tag < 2 ^ 64
  index : k.index < 2 ^ 32
  object : k.object.length < 2 ^ 32

theorem encode_eq (h : k.Fits) : k.encode =
    (leBytes 4 k.namespace ++ (leBytes 8 k.tag ++ (leBytes 4 k.index ++ leBytes 4 k.object.length)))
      ++ k.object := by
  simp only [encode, Nat.mod_eq_of_lt h.object, List.append_assoc]

theorem length_encode (k : BlockKey) : k.encode.length = k.estimatedSize := by
  simp only [encode, estimatedSize, header, List.length_append, length_leBytes]

theorem decode_encode (h : k.Fits) (rest : Bytes) : decode (k.encode ++ rest) = some (k, rest) := by
  have hheader : (leBytes 4 k.namespace ++ (leBytes 8 k.tag ++ (leBytes 4 k.index ++
      leBytes 4 k.object.length))).length = header := by
    simp [header]
  have hlen : getLe 4 (leBytes 4 k.object.length) = (k.object.length, []) := by
    simpa using getLe_leBytes 4 [] h.object
  rw [encode_eq h, List.append_assoc]
  simp only [decode, readExact_append _ hheader, getLe_leBytes 4 _ h.namespace, getLe_leBytes 8 _ h.tag,
    getLe_leBytes 4 _ h.index, hlen, readExact_append rest rfl, Option.bind_eq_bind, Option.bind_some]

theorem encode_of_decode (h : decode reader = some (k, rest)) :
    k.Fits ∧ reader = k.encode ++ rest := by
  obtain ⟨⟨buf, body⟩, hread, hbody⟩ := Option.bind_eq_some_iff.mp h
  obtain ⟨rfl, hlen⟩ := readExact_eq_some hread
  obtain ⟨ns, hns, buf₁, rfl, hlen₁⟩ := exists_leBytes_append 4 16 hlen
  obtain ⟨tag, htag, buf₂, rfl, hlen₂⟩ := exists_leBytes_append 8 8 hlen₁
  obtain ⟨index, hindex, buf₃, rfl, hlen₃⟩ := exists_leBytes_append 4 4 hlen₂
  obtain ⟨len, hobject, buf₄, rfl, hlen₄⟩ := exists_leBytes_append 4 0 hlen₃
  obtain rfl := List.length_eq_zero_iff.mp hlen₄
  simp only [getLe_leBytes 4 _ hns, getLe_leBytes 8 _ htag, getLe_leBytes 4 _ hindex,
    getLe_leBytes 4 _ hobject] at hbody
  obtain ⟨⟨object, rest'⟩, hname, hk⟩ := Option.bind_eq_some_iff.mp hbody
  obtain ⟨rfl, rfl⟩ := readExact_eq_some hname
  cases hk
  have hfits : Fits ⟨ns, tag, index, object⟩ := ⟨hns, htag, hindex, hobject⟩
  refine ⟨hfits, ?_⟩
  simp only [encode_eq hfits, List.append_nil, List.append_assoc]

/-- A key decodes from its encoding with anything behind it, which takes as many bytes as estimated.
Bytes that decode are the encoding of the key they decode to. No encoding is the start of
another. -/
theorem stored_unambiguously :
    (∀ k : BlockKey, k.Fits → k.encode.length = k.estimatedSize ∧
      ∀ rest, decode (k.encode ++ rest) = some (k, rest)) ∧
    (∀ reader rest k, decode reader = some (k, rest) → k.Fits ∧ reader = k.encode ++ rest) ∧
    ∀ k k' : BlockKey, k.Fits → k'.Fits → k.encode <+: k'.encode → k = k' := by
  refine ⟨fun k h => ⟨k.length_encode, decode_encode h⟩, fun _ _ _ h => encode_of_decode h,
    fun k k' h h' hp => ?_⟩
  obtain ⟨rest, hrest⟩ := hp
  have hsame := decode_encode h rest
  rw [hrest, ← List.append_nil k'.encode, decode_encode h', Option.some.injEq, Prod.mk.injEq] at hsame
  exact hsame.1.symm

end BlockKey

end Nestor
