import Nestor.S3.Lemmas.Chunked
import Nestor.S3.Lemmas.Http

/-!
# The decoder of chunked bodies

However a body is cut on its way, the decoder reads the same, unless a header line is so long that
the decoder gives it up before it has ended. A body that is written as the framing asks for is read
back, and one that breaks off is not taken for complete.
-/

namespace Nestor.S3

open Lib

/-! ## Cuts -/

section

variable {line data w x y out : Bytes} {size : Nat} {pieces : List Bytes} {eof : Bool} {o : Ending}

/-- A chunk that has arrived as a whole is read, whatever comes behind it. -/
theorem reads_frame (hline : ¬ crlf <:+: line) (hsize : parseHeader line = .ok size) (hne : size ≠ 0)
    (hdata : data.length = size) (hr : (decoding pieces x .header eof).Reads out o) :
    (decoding pieces (line ++ (crlf ++ (data ++ (crlf ++ x)))) .header eof).Reads (data ++ out) o := by
  have hturn := turn_line hline (data ++ (crlf ++ x)) eof
  rw [hsize] at hturn
  cases size with
  | zero => exact absurd rfl hne
  | succ n => exact reads_again hturn (reads_item (turn_chunk hne hdata) (reads_again (turn_crlf x eof) hr))

theorem reads_arrives (hr : (decoding pieces x .header false).Reads out o) :
    (RequestBody.new true ((x :: pieces).map .ok)).Reads out o := .quiet rfl hr

/-- A header line that can be read is not taken for malformed. -/
theorem decodeAll_size (hline : ¬ crlf <:+: line) (hsize : parseHeader line = .ok size) (w : Bytes) :
    (decodeAll .header (line ++ (crlf ++ w))).1 ≠ [] ∨
      (decodeAll .header (line ++ (crlf ++ w))).2.kind ≠ some .invalidData := by
  rw [decodeAll_line hline, hsize]
  cases size with
  | zero => exact .inr nofun
  | succ n =>
      cases w with
      | nil =>
          right
          change (decodeAll (.data (n + 1)) []).2.kind ≠ _
          rw [decodeAll_cut (Nat.succ_pos n)]
          exact fun h => nomatch h
      | cons b w =>
          left
          change (decodeAll (.data (n + 1)) (b :: w)).1 ≠ []
          by_cases hcut : (b :: w).length < n + 1
          · rw [decodeAll_cut hcut]
            exact nofun
          · rw [decodeAll_data (Nat.not_lt.mp hcut)]
            exact nofun

/-- The line feed that would end a long line is late. -/
theorem reads_long (hline : ¬ crlf <:+: line) (hlong : maxHeaderLine ≤ line.length) :
    (decoding pieces (line ++ [13]) .header eof).Reads [] (.failed .headerTooLong) := by
  have hfind : findCrlf (line ++ [13]) = none := by
    cases hf : findCrlf (line ++ [13]) with
    | none => rfl
    | some pos =>
        have hall := findCrlf_append_of_some hf [10]
        rw [List.append_assoc, show [13] ++ [10] = crlf ++ [] from rfl, findCrlf_append hline] at hall
        cases hall
        have := (findCrlf_eq_some hf).2.2
        rw [List.length_append, List.length_singleton] at this
        omega
  have hlen : maxHeaderLine < (line ++ [13]).length := by
    rw [List.length_append, List.length_singleton]
    omega
  refine reads_error (d := ⟨line ++ [13], .header, eof⟩) ?_
  simp only [AwsChunkedDecoder.turn, hfind, if_pos hlen]

/-- A body with a long header line is read differently as a whole and cut before the end of the
line. -/
theorem exists_cut (h : HasLongHeader w) : ∃ x y, x ++ y = w ∧ ∃ out o out' o',
    (decoding [] w .header false).Reads out o ∧ (decoding [y] x .header false).Reads out' o' ∧
      ¬ (out = out' ∧ o.kind = o'.kind) := by
  induction h with
  | @here line w size hline hlong hsize =>
      have hwhole : Sound [] (line ++ (crlf ++ w)) .header false := ⟨nofun, fun h => absurd rfl h, nofun⟩
      obtain ⟨o, hr, hk⟩ := readsAll hwhole
      rw [List.flatten_nil, List.append_nil] at hr hk
      refine ⟨line ++ [13], 10 :: w, by rw [List.append_assoc]; rfl, _, o, [], _, hr, reads_long hline hlong,
        ?_⟩
      rintro ⟨hout, hkind⟩
      rw [hk] at hkind
      exact (decodeAll_size hline hsize w).elim (· hout) (· hkind)
  | @behind line data w size hline hsize hne hdata _ ih =>
      obtain ⟨x, y, rfl, out, o, out', o', hr, hr', hdiff⟩ := ih
      refine ⟨line ++ (crlf ++ (data ++ (crlf ++ x))), y, by simp only [List.append_assoc], data ++ out, o,
        data ++ out', o', reads_frame hline hsize hne hdata hr, reads_frame hline hsize hne hdata hr',
        fun hsame => hdiff ?_⟩
      exact ⟨List.append_cancel_left hsame.1, hsame.2⟩

end

/-- Whatever the pieces a body arrives in, the decoder yields the same bytes and ends in the same
way, if and only if no header line that can be read is as long as the limit. -/
theorem decoder_cuts_iff (w : Bytes) :
    (∀ pieces pieces' : List Bytes, pieces.flatten = w → pieces'.flatten = w → ∃ out o o',
      (RequestBody.new true (pieces.map .ok)).Reads out o ∧
        (RequestBody.new true (pieces'.map .ok)).Reads out o' ∧ o.kind = o'.kind) ↔ ¬ HasLongHeader w := by
  constructor
  · intro h hlong
    obtain ⟨x, y, rfl, out, o, out', o', hr, hr', hdiff⟩ := exists_cut hlong
    obtain ⟨out₁, o₁, o₂, h₁, h₂, hkind⟩ := h [x ++ y] [x, y] (by simp) (by simp)
    obtain ⟨rfl, rfl⟩ := h₁.unique (reads_arrives hr)
    obtain ⟨rfl, rfl⟩ := h₂.unique (reads_arrives hr')
    exact hdiff ⟨rfl, hkind⟩
  · rintro hs pieces pieces' rfl hsame
    have hsound (ps : List Bytes) (hps : ps.flatten = pieces.flatten) : Sound ps [] .header false :=
      ⟨nofun, fun _ => by rw [List.nil_append, hps]; exact hs, nofun⟩
    obtain ⟨o, hr, hk⟩ := readsAll (hsound pieces rfl)
    obtain ⟨o', hr', hk'⟩ := readsAll (hsound pieces' hsame)
    rw [hsame] at hr' hk'
    exact ⟨_, o, o', hr, hr', hk.trans hk'.symm⟩

/-- The line of a last chunk, of 1024 bytes. -/
def longLine : Bytes := ascii "0;" ++ List.replicate 1022 97

/-- It is read if all of it is there, and given up if its line feed is late. -/
theorem longLine_cut :
    (RequestBody.new true [.ok (longLine ++ (crlf ++ crlf))]).Reads [] .clean ∧
      (RequestBody.new true [.ok (longLine ++ [13]), .ok (10 :: crlf)]).Reads []
      (.failed .headerTooLong) := by
  have hline : ¬ crlf <:+: longLine := by
    have hcr : 13 ∉ longLine := by
      intro h
      rcases List.mem_append.mp h with h | h
      · exact absurd h (by decide)
      · exact absurd (List.eq_of_mem_replicate h) (by decide)
    have := not_crlf_append hcr fun h => absurd (List.infix_nil.mp h) (show crlf ≠ [] by decide)
    rwa [List.append_nil] at this
  have hlen : longLine.length = 1024 := by
    rw [longLine, List.length_append, List.length_replicate]
    rfl
  have hsize : parseHeader longLine = .ok 0 := rfl
  have hturn := turn_line hline crlf false
  rw [hsize] at hturn
  have hend : (decoding [] crlf .trailers false).Reads [] .clean := .quiet rfl (.quiet rfl (.ended rfl))
  have hlate : (decoding [10 :: crlf] (longLine ++ [13]) .header false).Reads [] (.failed .headerTooLong) :=
    reads_long hline (Nat.le_of_eq hlen.symm)
  exact ⟨reads_arrives (reads_again hturn hend), reads_arrives hlate⟩

/-! ## Writing a body -/

/-- A number in hexadecimal digits of either case. -/
inductive HexText : Bytes → Nat → Prop
  | digit {b : UInt8} {d : Nat} (hb : hexValue b = some d) : HexText [b] d
  | more {t : Bytes} {n : Nat} {b : UInt8} {d : Nat} (h : HexText t n) (hb : hexValue b = some d) :
      HexText (t ++ [b]) (16 * n + d)

/-- A header line for a chunk of this size: the size, and extensions, with blanks between them. -/
structure ChunkHeader (size : Nat) where
  digits : Bytes
  blanks : Bytes
  ext : Bytes
  fits : size < 2 ^ 64
  hex : HexText digits size
  blank : Blanks blanks
  ext_start : ext = [] ∨ ext.head? = some 59
  ext_line : ¬ crlf <:+: ext
  short : (digits ++ blanks ++ ext).length < maxHeaderLine

def ChunkHeader.line {size : Nat} (h : ChunkHeader size) : Bytes := h.digits ++ h.blanks ++ h.ext

structure Frame where
  data : Bytes
  nonempty : data ≠ []
  header : ChunkHeader data.length

def Frame.encode (f : Frame) : Bytes := f.header.line ++ (crlf ++ (f.data ++ crlf))

/-- The chunks and the line of the last one, which is empty. -/
def encodeChunks (frames : List Frame) (last : ChunkHeader 0) : Bytes :=
  frames.flatMap Frame.encode ++ (last.line ++ crlf)

def encode (frames : List Frame) (last : ChunkHeader 0) (trailers : Bytes) : Bytes :=
  encodeChunks frames last ++ trailers

namespace HexText

variable {t : Bytes} {n : Nat}

theorem mapM (h : HexText t n) : ∃ ds, t.mapM hexValue = some ds ∧
    ds.foldl (fun n d => 16 * n + d) 0 = n := by
  induction h with
  | @digit b d hb => exact ⟨[d], by simp [hb], by simp⟩
  | @more t n b d _ hb ih =>
      obtain ⟨ds, hds, hn⟩ := ih
      exact ⟨ds ++ [d], by simp [List.mapM_append, hds, hb], by simp [hn]⟩

theorem bytes (h : HexText t n) : t ≠ [] ∧ ∀ b ∈ t, (hexValue b).isSome := by
  induction h with
  | digit hb => exact ⟨nofun, by simp [hb]⟩
  | more _ hb ih =>
      refine ⟨by simp, fun b hin => ?_⟩
      rcases List.mem_append.mp hin with hin | hin
      · exact ih.2 b hin
      · rw [List.mem_singleton.mp hin, hb]
        rfl

end HexText

/-- Hexadecimal digits are graphic, not blank, and neither a sign nor a separator. -/
theorem hexValue_byte {b : UInt8} (h : (hexValue b).isSome) :
    isGraph b ∧ b.toNat < 0x80 ∧ b ≠ 43 ∧ b ≠ 59 ∧ b ≠ 13 :=
  forall_byte (P := fun b => (hexValue b).isSome → isGraph b ∧ b.toNat < 0x80 ∧ b ≠ 43 ∧ b ≠ 59 ∧ b ≠ 13)
    (by decide +kernel) b h

theorem isBlank_byte {b : UInt8} (h : isBlank b) : b.toNat < 0x80 ∧ b ≠ 59 ∧ b ≠ 13 :=
  forall_byte (P := fun b => isBlank b → b.toNat < 0x80 ∧ b ≠ 59 ∧ b ≠ 13) (by decide +kernel) b h

theorem parseHex_of_text {t : Bytes} {n : Nat} (h : HexText t n) (hn : n < 2 ^ 64) : parseHex t = some n := by
  obtain ⟨ds, hds, hfold⟩ := h.mapM
  have hplus : t.dropPrefix? (ascii "+") = none := by
    cases hd : t.dropPrefix? (ascii "+") with
    | none => rfl
    | some rest =>
        have ht := dropPrefix?_eq_some.mp hd
        exact absurd rfl (hexValue_byte (h.bytes.2 43 (by rw [ht]; exact List.mem_cons_self))).2.2.1
  unfold parseHex
  simp only [hplus, Option.getD_none, if_neg h.bytes.1, hds, Option.map_some, hfold, Option.filter_some,
    decide_eq_true hn, if_true]

namespace ChunkHeader

variable {size : Nat} (h : ChunkHeader size)

theorem plain : ∀ b ∈ h.digits ++ h.blanks, b.toNat < 0x80 ∧ b ≠ 59 ∧ b ≠ 13 := by
  intro b hb
  rcases List.mem_append.mp hb with hb | hb
  · obtain ⟨-, hascii, -, hsep, hcr⟩ := hexValue_byte (h.hex.bytes.2 b hb)
    exact ⟨hascii, hsep, hcr⟩
  · exact isBlank_byte (h.blank b hb)

theorem not_crlf : ¬ crlf <:+: h.line :=
  not_crlf_append (fun hin => (h.plain 13 hin).2.2 rfl) h.ext_line

theorem parseHeader_line : parseHeader h.line = .ok size := by
  have hext : h.ext.takeWhile (· ≠ 59) = [] := by
    rcases h.ext_start with hnil | hsep
    · rw [hnil]
      rfl
    · cases he : h.ext with
      | nil => rfl
      | cons b ext =>
          rw [he] at hsep
          cases hsep
          rfl
  have hsize : h.line.takeWhile (· ≠ 59) = h.digits ++ h.blanks := by
    rw [line, List.takeWhile_append_of_pos fun b hb => by simpa using (h.plain b hb).2.1, hext,
      List.append_nil]
  have hutf8 : utf8Lossy (h.digits ++ h.blanks) = h.digits ++ h.blanks :=
    utf8Lossy_of_ascii fun b hb => (h.plain b hb).1
  have htrim : trimText (h.digits ++ h.blanks) = h.digits :=
    trimText_pad Blanks.nil h.blank
      (fun b hb => (hexValue_byte (h.hex.bytes.2 b (List.mem_of_mem_head? hb))).1)
      fun b hb => (hexValue_byte (h.hex.bytes.2 b (List.mem_of_mem_getLast? hb))).1
  unfold parseHeader
  simp only [hsize, hutf8, htrim, parseHex_of_text h.hex h.fits, ne_eq, not_true_eq_false, if_false]

end ChunkHeader

/-! ## Reading it back -/

section

variable {frames : List Frame} {last : ChunkHeader 0} {w x y line line' : Bytes}

theorem encode_nil (trailers : Bytes) : encode [] last trailers = last.line ++ (crlf ++ trailers) := by
  simp only [encode, encodeChunks, List.flatMap_nil, List.nil_append, List.append_assoc]

theorem encode_cons (f : Frame) (trailers : Bytes) : encode (f :: frames) last trailers =
    f.header.line ++ (crlf ++ (f.data ++ (crlf ++ encode frames last trailers))) := by
  simp only [encode, encodeChunks, List.flatMap_cons, Frame.encode, List.append_assoc]

theorem decodeAll_frame (f : Frame) (w : Bytes) :
    decodeAll .header (f.header.line ++ (crlf ++ (f.data ++ w))) =
      (f.data ++ (decodeAll .dataCrlf w).1, (decodeAll .dataCrlf w).2) := by
  have hne : f.data.length ≠ 0 := fun h => f.nonempty (List.length_eq_zero_iff.mp h)
  have hchunk : decodeAll (.data f.data.length) (f.data ++ w) =
      (f.data ++ (decodeAll .dataCrlf w).1, (decodeAll .dataCrlf w).2) := decodeAll_chunk rfl
  rw [decodeAll_line f.header.not_crlf, f.header.parseHeader_line, ← hchunk]
  cases hn : f.data.length with
  | zero => exact absurd hn hne
  | succ n => rfl

theorem decodeAll_last (last : ChunkHeader 0) (w : Bytes) :
    decodeAll .header (last.line ++ (crlf ++ w)) = ([], .clean) := by
  rw [decodeAll_line last.not_crlf, last.parseHeader_line]
  rfl

theorem decodeAll_encode (frames : List Frame) (last : ChunkHeader 0) (trailers : Bytes) :
    decodeAll .header (encode frames last trailers) = (frames.flatMap Frame.data, .clean) := by
  induction frames with
  | nil => rw [encode_nil, decodeAll_last, List.flatMap_nil]
  | cons f frames ih => rw [encode_cons, decodeAll_frame, decodeAll_crlf, ih, List.flatMap_cons]

theorem line_inj (hline : ¬ crlf <:+: line) (hline' : ¬ crlf <:+: line')
    (h : line ++ (crlf ++ x) = line' ++ (crlf ++ y)) : line = line' ∧ x = y := by
  have hlen := findCrlf_append hline x
  rw [h, findCrlf_append hline' y, Option.some.injEq] at hlen
  obtain ⟨hl, hr⟩ := List.append_inj h hlen.symm
  exact ⟨hl, List.append_cancel_left hr⟩

/-- What has a long header line keeps it when more is put behind it. -/
theorem HasLongHeader.append (h : HasLongHeader x) (y : Bytes) : HasLongHeader (x ++ y) := by
  induction h with
  | here hline hlong hsize =>
      rw [List.append_assoc, List.append_assoc]
      exact .here hline hlong hsize
  | behind hline hsize hne hdata _ ih =>
      simp only [List.append_assoc]
      exact .behind hline hsize hne hdata ih

/-- The first header line is short, so a long one is behind its chunk. -/
theorem HasLongHeader.tail {size : Nat} {header : ChunkHeader size}
    (h : HasLongHeader (header.line ++ (crlf ++ w))) :
    ∃ data w', data.length = size ∧ size ≠ 0 ∧ w = data ++ (crlf ++ w') ∧ HasLongHeader w' := by
  generalize hw : header.line ++ (crlf ++ w) = all at h
  cases h with
  | here hline hlong hsize =>
      obtain ⟨rfl, -⟩ := line_inj header.not_crlf hline hw
      exact absurd header.short (Nat.not_lt.mpr hlong)
  | behind hline hsize hne hdata htail =>
      obtain ⟨rfl, rfl⟩ := line_inj header.not_crlf hline hw
      rw [header.parseHeader_line] at hsize
      cases hsize
      exact ⟨_, _, hdata, hne, rfl, htail⟩

theorem not_long_encode (frames : List Frame) (last : ChunkHeader 0) (trailers : Bytes) :
    ¬ HasLongHeader (encode frames last trailers) := by
  induction frames with
  | nil =>
      intro h
      rw [encode_nil] at h
      obtain ⟨_, _, -, hne, -⟩ := h.tail
      exact hne rfl
  | cons f frames ih =>
      intro h
      rw [encode_cons] at h
      obtain ⟨data, w', hdata, -, heq, hlong⟩ := h.tail
      obtain ⟨-, hrest⟩ := List.append_inj heq hdata.symm
      rw [List.append_cancel_left hrest] at ih
      exact ih hlong

/-- What starts a body and is not all of its first line yields nothing and fails. -/
theorem decodeAll_within_line (hline : ¬ crlf <:+: line) (hw : x ++ y = line ++ (crlf ++ w))
    (hlen : x.length < line.length + 2) : ∃ e, (decodeAll .header x).2 = .failed e := by
  cases hfind : findCrlf x with
  | none => exact ⟨_, by rw [decodeAll_of_none hfind]⟩
  | some pos =>
      have hall := findCrlf_append_of_some hfind y
      rw [hw, findCrlf_append hline] at hall
      cases hall
      have := (findCrlf_eq_some hfind).2.2
      omega

theorem append_of_le {a b : Bytes} (h : x ++ y = a ++ b) (hle : a.length ≤ x.length) :
    ∃ x', x = a ++ x' ∧ x' ++ y = b := by
  obtain ⟨x', rfl⟩ := List.prefix_of_prefix_length_le (h ▸ List.prefix_append a b)
    (List.prefix_append x y) hle
  rw [List.append_assoc] at h
  exact ⟨x', rfl, List.append_cancel_left h⟩

theorem decodeAll_within_chunk {data : Bytes} {size : Nat} (hdata : data.length = size)
    (hw : x ++ y = data ++ (crlf ++ w))
    (hrest : ∀ x', x' ++ y = w → ∃ e, (decodeAll .header x').2 = .failed e) :
    ∃ e, (decodeAll (.data size) x).2 = .failed e := by
  by_cases hcut : x.length < size
  · exact ⟨_, by rw [decodeAll_cut hcut]⟩
  obtain ⟨x₁, rfl, hw₁⟩ := append_of_le hw (by omega)
  rw [decodeAll_chunk hdata]
  by_cases hend : x₁.length < 2
  · exact ⟨_, by rw [decodeAll_dataCrlf, if_pos hend]⟩
  obtain ⟨x₂, rfl, hw₂⟩ := append_of_le hw₁ (Nat.not_lt.mp hend)
  rw [decodeAll_crlf]
  exact hrest x₂ hw₂

/-- A body that breaks off within its chunks, or within its last header line, fails. -/
theorem decodeAll_truncated (hw : x ++ y = encodeChunks frames last) (hy : y ≠ []) :
    ∃ e, (decodeAll .header x).2 = .failed e := by
  induction frames generalizing x with
  | nil =>
      have hlen := congrArg List.length hw
      have := List.length_pos_iff.mpr hy
      simp only [encodeChunks, List.flatMap_nil, List.nil_append, List.length_append,
        show crlf.length = 2 from rfl] at hlen
      exact decodeAll_within_line last.not_crlf (w := []) hw (by omega)
  | cons f frames ih =>
      have hcons : encodeChunks (f :: frames) last =
          f.header.line ++ (crlf ++ (f.data ++ (crlf ++ encodeChunks frames last))) := by
        simp only [encodeChunks, List.flatMap_cons, Frame.encode, List.append_assoc]
      rw [hcons] at hw
      by_cases hline : x.length < f.header.line.length + 2
      · exact decodeAll_within_line f.header.not_crlf hw hline
      rw [← List.append_assoc] at hw
      obtain ⟨x₁, rfl, hw₁⟩ := append_of_le hw (by rw [List.length_append]; exact Nat.not_lt.mp hline)
      have hne : f.data.length ≠ 0 := fun h => f.nonempty (List.length_eq_zero_iff.mp h)
      have hchunk := decodeAll_within_chunk rfl hw₁ fun x' hx' => ih hx'
      rw [List.append_assoc, decodeAll_line f.header.not_crlf, f.header.parseHeader_line]
      cases hn : f.data.length with
      | zero => exact absurd hn hne
      | succ n =>
          rw [hn] at hchunk
          exact hchunk

end

/-- However it is cut, a body that is written as the framing asks for is read back as the data of
its chunks and ends cleanly, and what is left of it when it breaks off before the end of its last
header line fails. -/
theorem decoder_reads_encoding (frames : List Frame) (last : ChunkHeader 0) (trailers : Bytes)
    (pieces : List Bytes) :
    (pieces.flatten = encode frames last trailers →
      (RequestBody.new true (pieces.map .ok)).Reads (frames.flatMap Frame.data) .clean) ∧
    (∀ k < (encodeChunks frames last).length, pieces.flatten = (encode frames last trailers).take k →
      ∃ out e, (RequestBody.new true (pieces.map .ok)).Reads out (.failed e)) := by
  have hreads (hs : ¬ HasLongHeader pieces.flatten) : ReadsAll pieces [] .header false :=
    readsAll ⟨nofun, fun _ => hs, nofun⟩
  constructor
  · intro hall
    obtain ⟨o, hr, hk⟩ := hreads (by rw [hall]; exact not_long_encode frames last trailers)
    rw [List.nil_append, hall, decodeAll_encode] at hr hk
    cases o with
    | clean => exact hr
    | failed e => cases hk
  · intro k hk hcut
    have hshort : ¬ HasLongHeader pieces.flatten := by
      intro hlong
      have := hlong.append ((encode frames last trailers).drop k)
      rw [hcut, List.take_append_drop] at this
      exact not_long_encode frames last trailers this
    have htake : pieces.flatten = (encodeChunks frames last).take k := by
      rw [hcut, encode, List.take_append_of_le_length (Nat.le_of_lt hk)]
    obtain ⟨o, hr, hkind⟩ := hreads hshort
    have hne : (encodeChunks frames last).drop k ≠ [] := fun hnil => by
      have := List.drop_eq_nil_iff.mp hnil
      omega
    obtain ⟨e, he⟩ := decodeAll_truncated (List.take_append_drop k _) hne
    rw [List.nil_append, htake] at hr hkind
    rw [he] at hkind
    cases o with
    | clean => cases hkind
    | failed e => exact ⟨_, e, hr⟩

/-- A header without blanks and extensions. -/
def plainHeader (size : Nat) (digits : Bytes) (hex : HexText digits size) (fits : size < 2 ^ 64)
    (short : (digits ++ [] ++ []).length < maxHeaderLine) : ChunkHeader size :=
  ⟨digits, [], [], fits, hex, .nil, .inl rfl, fun h => absurd (List.infix_nil.mp h) (by decide), short⟩

def helloFrame : Frame :=
  ⟨ascii "hello", by decide, plainHeader 5 (ascii "5") (.digit rfl) (by decide) (by decide)⟩

def zeroHeader : ChunkHeader 0 := plainHeader 0 (ascii "0") (.digit rfl) (by decide) (by decide)

theorem decoder_reads_hello :
    (RequestBody.new true [.ok (ascii "5\r"), .ok (ascii "\nhel"), .ok (ascii "lo\r\n0\r\n\r\n")]).Reads
      (ascii "hello") .clean ∧
    ∃ out e, (RequestBody.new true [.ok (ascii "5\r\nhel")]).Reads out (.failed e) :=
  ⟨(decoder_reads_encoding [helloFrame] zeroHeader crlf
      [ascii "5\r", ascii "\nhel", ascii "lo\r\n0\r\n\r\n"]).1 (by decide),
    (decoder_reads_encoding [helloFrame] zeroHeader crlf [ascii "5\r\nhel"]).2 6 (by decide) (by decide)⟩

end Nestor.S3
