import Nestor.S3.Lemmas.Sign

/-!
# What a canonical request determines

Its first two lines are the method and the encoded path, and neither contains a line break.
-/

namespace Nestor.S3

open Lib

/-! ## Encodings -/

theorem lowerHexDigit_injective {m n : Nat} (hm : m < 16) (hn : n < 16)
    (h : lowerHexDigit m = lowerHexDigit n) :
    m = n := by
  have hall : ∀ m ∈ List.range 16, ∀ n ∈ List.range 16, lowerHexDigit m = lowerHexDigit n → m = n := by decide
  exact hall m (List.mem_range.mpr hm) n (List.mem_range.mpr hn) h

theorem hexEncode_injective {a b : Bytes} (h : hexEncode a = hexEncode b) : a = b := by
  induction a generalizing b with
  | nil =>
      cases b with
      | nil => rfl
      | cons y b => cases h
  | cons x a ih =>
      cases b with
      | nil => cases h
      | cons y b =>
          have hx : x.toNat < 256 := x.toNat_lt
          have hy : y.toNat < 256 := y.toNat_lt
          simp only [hexEncode, List.flatMap_cons, List.cons_append, List.nil_append, List.cons.injEq] at h
          obtain ⟨hhigh, hlow, hrest⟩ := h
          have hhigh := lowerHexDigit_injective (by omega) (by omega) hhigh
          have hlow := lowerHexDigit_injective (by omega) (by omega) hlow
          have hxy : x = y := UInt8.toNat.inj (by omega)
          rw [hxy, ih hrest]

theorem uriEncode_injective {a b : Bytes} {encodeSlash : Bool}
    (h : uriEncode a encodeSlash = uriEncode b encodeSlash) :
    a = b :=
  percentEncode_injective (by cases encodeSlash <;> decide) h

theorem newline_not_mem_uriEncode (s : Bytes) (encodeSlash : Bool) : newline ∉ uriEncode s encodeSlash := by
  intro h
  have := mem_percentEncode h
  revert this
  cases encodeSlash <;> decide

theorem newline_not_mem_method (m : Method) : newline ∉ m.name := by
  intro h
  have := m.token _ h
  revert this
  decide

/-- The canonical request determines the method and the path. -/
theorem canonicalRequest_inj {c c' : Canonical} (h : canonicalRequest c = canonicalRequest c') :
    c.method = c'.method ∧ canonicalUri c.rawPath = canonicalUri c'.rawPath := by
  obtain ⟨hm, hrest⟩ := append_cons_inj (newline_not_mem_method _) (newline_not_mem_method _) h
  obtain ⟨hp, -⟩ := append_cons_inj (newline_not_mem_uriEncode _ _) (newline_not_mem_uriEncode _ _) hrest
  exact ⟨Method.eq_of_name hm, hp⟩

theorem stringToSign_inj [Crypto] {amzDate scope canonical canonical' : Bytes}
    (hsha : Function.Injective Crypto.sha256)
    (h : stringToSign amzDate scope canonical = stringToSign amzDate scope canonical') :
    canonical = canonical' := by
  simp only [stringToSign, List.append_cancel_left_eq, List.cons.injEq, true_and] at h
  exact hsha (hexEncode_injective h)

/-! ## Decoding -/

theorem percentDecode_append_slash (a b : Bytes) :
    percentDecode (a ++ slash :: b) = percentDecode a ++ slash :: percentDecode b := by
  rw [percentDecode, percentDecodeBytes_append (by decide) (by decide), utf8Lossy_append_ascii (by decide)]
  rfl

theorem percentDecode_cons_slash (b : Bytes) : percentDecode (slash :: b) = slash :: percentDecode b :=
  percentDecode_append_slash [] b

theorem percentDecode_eq_nil {s : Bytes} : percentDecode s = [] ↔ s = [] := by
  rw [percentDecode, utf8Lossy_eq_nil, percentDecodeBytes_eq_nil]

theorem percentDecode_of_plain {s : Bytes} (hp : percent ∉ s) (ha : ∀ b ∈ s, b.toNat < 0x80) :
    percentDecode s = s := by
  rw [percentDecode, percentDecodeBytes_of_plain hp, utf8Lossy_of_ascii ha]

theorem percentDecode_uriEncode (s : Bytes) (encodeSlash : Bool) :
    percentDecode (uriEncode s encodeSlash) = utf8Lossy s := by
  rw [percentDecode, uriEncode, percentDecodeBytes_encode (by cases encodeSlash <;> decide)]

/-- The path signed decodes to the same text as the path sent. -/
theorem canonicalUri_inj {path path' : Bytes} (h : canonicalUri path = canonicalUri path') :
    percentDecode (if path = [] then [slash] else path) =
      percentDecode (if path' = [] then [slash] else path') :=
  uriEncode_injective h

end Nestor.S3
