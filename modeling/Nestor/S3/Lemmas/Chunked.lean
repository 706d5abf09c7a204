import Nestor.S3.Body

/-!
# Decoding a body as a whole

What a framed body means when all of it is there: what it yields and how it ends. The decoder, which
sees the body in pieces, yields the same, as long as no header line is too long.
-/

namespace Nestor.S3

open Lib

/-! ## How a body ends -/

/-- The kinds of `io::Error` the decoder gives. -/
inductive ErrorKind where
  | invalidData
  | unexpectedEof
  | other
deriving DecidableEq

def BodyError.kind : BodyError → ErrorKind
  | .notUtf8 | .notHex | .headerTooLong | .missingTerminator => .invalidData
  | .endedEarly => .unexpectedEof
  | .inner => .other

inductive Ending where
  | clean
  | failed (e : BodyError)
deriving DecidableEq

def Ending.kind : Ending → Option ErrorKind
  | .clean => none
  | .failed e => some e.kind

/-- The stream yields the bytes up to its end or its first error. -/
inductive RequestBody.Reads : RequestBody → Bytes → Ending → Prop
  | ended {b : RequestBody} : b.turn = none → Reads b [] .clean
  | quiet {b b' : RequestBody} {out : Bytes} {o : Ending} : b.turn = some (none, b') → Reads b' out o →
      Reads b out o
  | chunk {b b' : RequestBody} {chunk out : Bytes} {o : Ending} : b.turn = some (some (.ok chunk), b') →
      Reads b' out o → Reads b (chunk ++ out) o
  | failed {b b' : RequestBody} {e : BodyError} : b.turn = some (some (.error e), b') → Reads b [] (.failed e)

/-- A stream is read in one way. -/
theorem RequestBody.Reads.unique {b : RequestBody} {out out' : Bytes} {o o' : Ending} (h : b.Reads out o)
    (h' : b.Reads out' o') : out = out' ∧ o = o' := by
  induction h generalizing out' o' with
  | ended hturn =>
      cases h' with
      | ended _ => exact ⟨rfl, rfl⟩
      | quiet h _ | chunk h _ | failed h => rw [hturn] at h; cases h
  | quiet hturn _ ih =>
      cases h' with
      | quiet h hr =>
          rw [hturn] at h
          cases h
          exact ih hr
      | ended h | chunk h _ | failed h => rw [hturn] at h; cases h
  | chunk hturn _ ih =>
      cases h' with
      | chunk h hr =>
          rw [hturn] at h
          cases h
          obtain ⟨rfl, rfl⟩ := ih hr
          exact ⟨rfl, rfl⟩
      | ended h | quiet h _ | failed h => rw [hturn] at h; cases h
  | failed hturn =>
      cases h' with
      | failed h =>
          rw [hturn] at h
          cases h
          exact ⟨rfl, rfl⟩
      | ended h | quiet h _ | chunk h _ => rw [hturn] at h; cases h

/-! ## Lines -/

section

variable {w x y line : Bytes} {pos : Nat}

theorem findCrlf_eq_some (h : findCrlf w = some pos) :
    w = w.take pos ++ (crlf ++ w.drop (pos + 2)) ∧ ¬ crlf <:+: w.take pos ∧ pos + 2 ≤ w.length := by
  induction w generalizing pos with
  | nil => cases h
  | cons b w ih =>
      rw [findCrlf] at h
      split at h
      · rename_i hb
        cases h
        obtain ⟨t, ht⟩ := hb
        rw [← ht]
        exact ⟨rfl, fun hnil => absurd (List.infix_nil.mp hnil) (by decide), Nat.le_add_left 2 t.length⟩
      · rename_i hb
        obtain ⟨pos', hpos, rfl⟩ := Option.map_eq_some_iff.mp h
        obtain ⟨heq, hinfix, hle⟩ := ih hpos
        refine ⟨congrArg (b :: ·) heq, ?_, Nat.succ_le_succ hle⟩
        rw [List.take_succ_cons, List.infix_cons_iff]
        rintro (hp | hi)
        · exact hb (hp.trans (List.prefix_cons_inj b |>.mpr (List.take_prefix pos' w)))
        · exact hinfix hi

theorem findCrlf_append (h : ¬ crlf <:+: line) (w : Bytes) :
    findCrlf (line ++ (crlf ++ w)) = some line.length := by
  induction line with
  | nil => rfl
  | cons b line ih =>
      rw [List.infix_cons_iff, not_or] at h
      rw [List.cons_append, findCrlf, if_neg, ih h.2]
      · rfl
      · rintro ⟨t, ht⟩
        -- A line feed behind a carriage return of the line is in the line.
        cases line with
        | nil => cases ht
        | cons c line =>
            cases ht
            exact h.1 ⟨line, rfl⟩

theorem findCrlf_eq_none (h : findCrlf w = none) : ¬ crlf <:+: w := by
  induction w with
  | nil => exact fun hnil => absurd (List.infix_nil.mp hnil) (by decide)
  | cons b w ih =>
      rw [findCrlf] at h
      split at h
      · cases h
      · rename_i hb
        rw [List.infix_cons_iff, not_or]
        exact ⟨hb, ih (Option.map_eq_none_iff.mp h)⟩

/-- A line that has ended is not changed by what arrives later. -/
theorem findCrlf_append_of_some (h : findCrlf x = some pos) (y : Bytes) : findCrlf (x ++ y) = some pos := by
  obtain ⟨heq, hline, hle⟩ := findCrlf_eq_some h
  have := findCrlf_append hline (x.drop (pos + 2) ++ y)
  rw [← List.append_assoc crlf, ← List.append_assoc, ← heq, List.length_take, min_eq_left (by omega)] at this
  exact this

/-- A line that has not ended is, but for a carriage return, all of the line. -/
theorem length_le_of_findCrlf_append (hx : findCrlf x = none) (h : findCrlf (x ++ y) = some pos) :
    x.length ≤ pos + 1 := by
  obtain ⟨heq, -, -⟩ := findCrlf_eq_some h
  by_contra hlt
  have hfirst : (x ++ y).take pos ++ crlf <+: x ++ y := by
    refine ⟨(x ++ y).drop (pos + 2), ?_⟩
    rw [List.append_assoc, ← heq]
  have hlen : ((x ++ y).take pos ++ crlf).length ≤ x.length := by
    rw [List.length_append, List.length_take, show crlf.length = 2 from rfl]
    omega
  have hin := List.prefix_of_prefix_length_le hfirst (List.prefix_append x y) hlen
  exact findCrlf_eq_none hx ((List.suffix_append _ crlf).isInfix.trans hin.isInfix)

/-- A line feed does not come behind a carriage return if there is none. -/
theorem not_crlf_append {a b : Bytes} (ha : 13 ∉ a) (hb : ¬ crlf <:+: b) : ¬ crlf <:+: a ++ b := by
  induction a with
  | nil => exact hb
  | cons x a ih =>
      rw [List.mem_cons, not_or] at ha
      rw [List.cons_append, List.infix_cons_iff, not_or]
      refine ⟨?_, ih ha.2⟩
      rintro ⟨t, ht⟩
      exact ha.1 (List.cons.inj ht).1

end

/-! ## The meaning of a body -/

def Phase.rank : Phase → Nat
  | .done | .trailers | .header => 0
  | .dataCrlf => 1
  | .data _ => 2

/-- What the bytes that are left yield in a phase, and how they end. -/
def decodeAll (phase : Phase) (w : Bytes) : Bytes × Ending :=
  match phase with
  | .done | .trailers => ([], .clean)
  | .header =>
      match _hpos : findCrlf w with
      | none => ([], .failed (if maxHeaderLine < w.length then .headerTooLong else .endedEarly))
      | some pos =>
          match parseHeader (w.take pos) with
          | .error e => ([], .failed e)
          | .ok 0 => ([], .clean)
          | .ok size => decodeAll (.data size) (w.drop (pos + 2))
  | .data remaining =>
      if w.length < remaining then (w, .failed .endedEarly)
      else
        let rest := decodeAll .dataCrlf (w.drop remaining)
        (w.take remaining ++ rest.1, rest.2)
  | .dataCrlf =>
      if w.length < 2 then ([], .failed .endedEarly)
      else if w.take 2 ≠ crlf then ([], .failed .missingTerminator)
      else decodeAll .header (w.drop 2)
termination_by (w.length, phase.rank)
decreasing_by
  · have := (findCrlf_eq_some _hpos).2.2
    simp only [List.length_drop]
    exact .left _ _ (by omega)
  · simp only [List.length_drop]
    have := Nat.sub_le w.length remaining
    rcases Nat.lt_or_eq_of_le this with hlt | heq
    · exact .left _ _ hlt
    · rw [heq]
      exact .right _ (Nat.lt_succ_self 1)
  · simp only [List.length_drop]
    exact .left _ _ (by omega)

section

variable {line w : Bytes} {size : Nat}

theorem decodeAll_of_none (h : findCrlf w = none) :
    decodeAll .header w =
      ([], .failed (if maxHeaderLine < w.length then .headerTooLong else .endedEarly)) := by
  rw [decodeAll]
  split
  · rfl
  · rename_i hpos
    rw [h] at hpos
    cases hpos

theorem drop_line (line w : Bytes) : (line ++ (crlf ++ w)).drop (line.length + 2) = w := by
  rw [← List.append_assoc]
  exact List.drop_left' (by rw [List.length_append]; rfl)

theorem decodeAll_line (hline : ¬ crlf <:+: line) (w : Bytes) : decodeAll .header (line ++ (crlf ++ w)) =
    match parseHeader line with
    | .error e => ([], .failed e)
    | .ok 0 => ([], .clean)
    | .ok size => decodeAll (.data size) w := by
  have hfind := findCrlf_append hline w
  rw [decodeAll]
  split
  · rename_i hpos
    rw [hfind] at hpos
    cases hpos
  · rename_i pos hpos
    rw [hfind] at hpos
    cases hpos
    rw [List.take_left' rfl, drop_line]

theorem decodeAll_data (h : size ≤ w.length) : decodeAll (.data size) w =
    (w.take size ++ (decodeAll .dataCrlf (w.drop size)).1, (decodeAll .dataCrlf (w.drop size)).2) := by
  rw [decodeAll, if_neg (Nat.not_lt.mpr h)]

theorem decodeAll_cut (h : w.length < size) : decodeAll (.data size) w = (w, .failed .endedEarly) := by
  rw [decodeAll, if_pos h]

/-- The bytes of a chunk may be taken one part after the other. -/
theorem decodeAll_data_append {part : Bytes} (h : part.length < size) : decodeAll (.data size) (part ++ w) =
    (part ++ (decodeAll (.data (size - part.length)) w).1, (decodeAll (.data (size - part.length)) w).2) := by
  by_cases hcut : w.length < size - part.length
  · rw [decodeAll_cut hcut, decodeAll_cut (by rw [List.length_append]; omega)]
  · rw [decodeAll_data (Nat.not_lt.mp hcut), decodeAll_data (by rw [List.length_append]; omega)]
    rw [List.take_append, List.drop_append, List.take_of_length_le (by omega),
      List.drop_eq_nil_of_le (by omega)]
    simp

theorem decodeAll_chunk {data : Bytes} (h : data.length = size) : decodeAll (.data size) (data ++ w) =
    (data ++ (decodeAll .dataCrlf w).1, (decodeAll .dataCrlf w).2) := by
  rw [decodeAll_data (by rw [List.length_append]; omega), List.take_left' h, List.drop_left' h]

theorem decodeAll_dataCrlf (w : Bytes) : decodeAll .dataCrlf w =
    if w.length < 2 then ([], .failed .endedEarly)
    else if w.take 2 ≠ crlf then ([], .failed .missingTerminator)
    else decodeAll .header (w.drop 2) := by
  conv_lhs => rw [decodeAll]

theorem decodeAll_crlf (w : Bytes) : decodeAll .dataCrlf (crlf ++ w) = decodeAll .header w := by
  rw [decodeAll_dataCrlf, if_neg (by simp [crlf]), if_neg (by simp [crlf])]
  rfl

end

/-! ## The decoder -/

/-- A framed body that is being decoded: the pieces still to come, and what has been read of the
others. -/
def decoding (pieces : List Bytes) (buf : Bytes) (state : Phase) (eof : Bool) : RequestBody :=
  ⟨pieces.map .ok, some ⟨buf, state, eof⟩, false⟩

/-- A header line that is complete, can be read, and is too long for the decoder to wait for. -/
inductive HasLongHeader : Bytes → Prop
  | here {line w : Bytes} {size : Nat} (hline : ¬ crlf <:+: line) (hlong : maxHeaderLine ≤ line.length)
      (hsize : parseHeader line = .ok size) : HasLongHeader (line ++ (crlf ++ w))
  | behind {line data w : Bytes} {size : Nat} (hline : ¬ crlf <:+: line) (hsize : parseHeader line = .ok size)
      (hne : size ≠ 0) (hdata : data.length = size) (h : HasLongHeader w) :
      HasLongHeader (line ++ (crlf ++ (data ++ (crlf ++ w))))

/-- None of the header lines still to come is. -/
def Phase.Short : Phase → Bytes → Prop
  | .header, w => ¬ HasLongHeader w
  | .data remaining, w => ∀ data w', w = data ++ (crlf ++ w') → data.length = remaining → ¬ HasLongHeader w'
  | .dataCrlf, w => ∀ w', w = crlf ++ w' → ¬ HasLongHeader w'
  | _, _ => True

/-- The decoder, from here on, reads what the bytes mean, up to the error that stands for a long
line. -/
def ReadsAll (pieces : List Bytes) (buf : Bytes) (state : Phase) (eof : Bool) : Prop :=
  ∃ o, (decoding pieces buf state eof).Reads (decodeAll state (buf ++ pieces.flatten)).1 o ∧
    o.kind = (decodeAll state (buf ++ pieces.flatten)).2.kind

/-- The bytes to go, twice, and the inputs to go: every turn makes it smaller. -/
def toGo (pieces : List Bytes) (buf : Bytes) (eof : Bool) : Nat :=
  2 * (buf.length + pieces.flatten.length) + (pieces.length + if eof then 0 else 1)

/-- No chunk of no bytes is being read, lines that are still to come are not long, and the end is
the end. -/
structure Sound (pieces : List Bytes) (buf : Bytes) (state : Phase) (eof : Bool) : Prop where
  nonzero : state ≠ .data 0
  short : pieces ≠ [] → state.Short (buf ++ pieces.flatten)
  ended : eof = true → pieces = []

/-- The decoder does so from every state that is nearer to the end. -/
def ReadsNearer (n : Nat) : Prop := ∀ pieces buf state eof, toGo pieces buf eof < n →
  Sound pieces buf state eof → ReadsAll pieces buf state eof

section

variable {pieces : List Bytes} {buf line : Bytes} {state : Phase} {eof : Bool}

theorem turn_decoding : (decoding pieces buf state eof).turn =
    match AwsChunkedDecoder.turn ⟨buf, state, eof⟩ with
    | .again d => some (none, ⟨pieces.map .ok, some d, false⟩)
    | .item chunk d => some (some chunk, ⟨pieces.map .ok, some d, false⟩)
    | .done => some (none, ⟨pieces.map .ok, some ⟨buf, state, eof⟩, true⟩)
    | .input d => some ((decoding pieces buf state eof).input d) := rfl

section

variable {buf' out : Bytes} {state' : Phase} {o : Ending}

theorem reads_again (h : AwsChunkedDecoder.turn ⟨buf, state, eof⟩ = .again ⟨buf', state', eof⟩)
    (hr : (decoding pieces buf' state' eof).Reads out o) : (decoding pieces buf state eof).Reads out o := by
  refine .quiet ?_ hr
  rw [turn_decoding, h]
  rfl

theorem reads_item {chunk : Bytes}
    (h : AwsChunkedDecoder.turn ⟨buf, state, eof⟩ = .item (.ok chunk) ⟨buf', state', eof⟩)
    (hr : (decoding pieces buf' state' eof).Reads out o) :
    (decoding pieces buf state eof).Reads (chunk ++ out) o := by
  refine .chunk ?_ hr
  rw [turn_decoding, h]
  rfl

theorem reads_error {e : BodyError} {d : AwsChunkedDecoder}
    (h : AwsChunkedDecoder.turn ⟨buf, state, eof⟩ = .item (.error e) d) :
    (decoding pieces buf state eof).Reads [] (.failed e) := by
  have hturn : (decoding pieces buf state eof).turn =
      some (some (.error e), ⟨pieces.map .ok, some d, false⟩) := by rw [turn_decoding, h]
  exact .failed hturn

end

theorem readsAll_input (ih : ReadsNearer (toGo pieces buf eof)) (hs : Sound pieces buf state eof)
    (hturn : AwsChunkedDecoder.turn ⟨buf, state, eof⟩ = AwsChunkedDecoder.needInput ⟨buf, state, eof⟩)
    (hend : pieces = [] → (decodeAll state buf).1 = [] ∧ (decodeAll state buf).2.kind = some .unexpectedEof) :
    ReadsAll pieces buf state eof := by
  cases eof with
  | true =>
      obtain rfl := hs.ended rfl
      obtain ⟨hout, hkind⟩ := hend rfl
      refine ⟨.failed .endedEarly, ?_, ?_⟩
      · rw [List.flatten_nil, List.append_nil, hout]
        exact reads_error hturn
      · rw [List.flatten_nil, List.append_nil, hkind]
        rfl
  | false =>
      cases pieces with
      | nil =>
          obtain ⟨o, hr, hk⟩ := ih [] buf state true (by simp [toGo]) ⟨hs.nonzero, hs.short, fun _ => rfl⟩
          exact ⟨o, .quiet (by rw [turn_decoding, hturn]; rfl) hr, hk⟩
      | cons piece rest =>
          have hshort := hs.short nofun
          rw [List.flatten_cons, ← List.append_assoc] at hshort
          obtain ⟨o, hr, hk⟩ := ih rest (buf ++ piece) state false (by simp [toGo]; omega)
            ⟨hs.nonzero, fun _ => hshort, nofun⟩
          rw [List.append_assoc, ← List.flatten_cons] at hr hk
          exact ⟨o, .quiet (by rw [turn_decoding, hturn]; rfl) hr, hk⟩

theorem turn_line (hline : ¬ crlf <:+: line) (buf : Bytes) (eof : Bool) :
    AwsChunkedDecoder.turn ⟨line ++ (crlf ++ buf), .header, eof⟩ =
      match parseHeader line with
      | .error e => .item (.error e) ⟨buf, .header, eof⟩
      | .ok 0 => .again ⟨buf, .trailers, eof⟩
      | .ok size => .again ⟨buf, .data size, eof⟩ := by
  have hfind := findCrlf_append hline buf
  rcases hparse : parseHeader line with e | _ | n <;>
    simp only [AwsChunkedDecoder.turn, hfind, drop_line, List.take_left' rfl, hparse]

theorem kind_of_parseHeader {e : BodyError} (h : parseHeader line = .error e) : e.kind = .invalidData := by
  unfold parseHeader at h
  dsimp only at h
  split at h
  · cases h
    rfl
  · split at h
    · cases h
    · cases h
      rfl

theorem short_of_line {size : Nat} {w : Bytes} (hs : ¬ HasLongHeader (line ++ (crlf ++ w)))
    (hline : ¬ crlf <:+: line) (hsize : parseHeader line = .ok size) (hne : size ≠ 0) :
    (Phase.data size).Short w := by
  intro data w' hw hdata hlong
  rw [hw] at hs
  exact hs (.behind hline hsize hne hdata hlong)

theorem readsAll_line (ih : ReadsNearer (toGo pieces (line ++ (crlf ++ buf)) eof))
    (hs : Sound pieces (line ++ (crlf ++ buf)) .header eof) (hline : ¬ crlf <:+: line) :
    ReadsAll pieces (line ++ (crlf ++ buf)) .header eof := by
  have hnearer : toGo pieces buf eof < toGo pieces (line ++ (crlf ++ buf)) eof := by
    simp [toGo, crlf]
    omega
  have hturn := turn_line hline buf eof
  unfold ReadsAll
  rw [List.append_assoc, List.append_assoc, decodeAll_line hline]
  cases hsize : parseHeader line with
  | error e =>
      rw [hsize] at hturn
      exact ⟨.failed e, reads_error hturn, rfl⟩
  | ok size =>
      rw [hsize] at hturn
      cases size with
      | zero =>
          obtain ⟨o, hr, hk⟩ := ih pieces buf .trailers eof hnearer ⟨nofun, fun _ => trivial, hs.ended⟩
          rw [decodeAll] at hr hk
          exact ⟨o, reads_again hturn hr, hk⟩
      | succ n =>
          have hshort : pieces ≠ [] → (Phase.data (n + 1)).Short (buf ++ pieces.flatten) := by
            intro hne
            have hlong := hs.short hne
            rw [List.append_assoc, List.append_assoc] at hlong
            exact short_of_line hlong hline hsize (Nat.succ_ne_zero n)
          obtain ⟨o, hr, hk⟩ := ih pieces buf (.data (n + 1)) eof hnearer ⟨nofun, hshort, hs.ended⟩
          exact ⟨o, reads_again hturn hr, hk⟩

/-- A header line that is given up before it has ended is not one, or cannot be read. -/
theorem decodeAll_tooLong {y : Bytes} (hfind : findCrlf buf = none) (hlong : maxHeaderLine < buf.length)
    (hs : y ≠ [] → ¬ HasLongHeader (buf ++ y)) :
    (decodeAll .header (buf ++ y)).1 = [] ∧ (decodeAll .header (buf ++ y)).2.kind = some .invalidData := by
  cases hall : findCrlf (buf ++ y) with
  | none =>
      have hlen : maxHeaderLine < (buf ++ y).length := by
        rw [List.length_append]
        omega
      rw [decodeAll_of_none hall, if_pos hlen]
      exact ⟨rfl, rfl⟩
  | some pos =>
      have hne : y ≠ [] := by
        rintro rfl
        rw [List.append_nil, hfind] at hall
        cases hall
      have hpos := length_le_of_findCrlf_append hfind hall
      obtain ⟨heq, hline, hle⟩ := findCrlf_eq_some hall
      have hlen : maxHeaderLine ≤ ((buf ++ y).take pos).length := by
        rw [List.length_take]
        omega
      generalize (buf ++ y).take pos = line, (buf ++ y).drop (pos + 2) = w at heq hline hlen
      rw [heq] at hs ⊢
      rw [decodeAll_line hline]
      cases hsize : parseHeader line with
      | error e => exact ⟨rfl, congrArg some (kind_of_parseHeader hsize)⟩
      | ok size => exact absurd (.here hline hlen hsize) (hs hne)

theorem readsAll_header (ih : ReadsNearer (toGo pieces buf eof)) (hs : Sound pieces buf .header eof) :
    ReadsAll pieces buf .header eof := by
  cases hfind : findCrlf buf with
  | some pos =>
      obtain ⟨heq, hline, -⟩ := findCrlf_eq_some hfind
      rw [heq] at ih hs ⊢
      exact readsAll_line ih hs hline
  | none =>
      by_cases hlong : maxHeaderLine < buf.length
      · have hshort : pieces.flatten ≠ [] → ¬ HasLongHeader (buf ++ pieces.flatten) := by
          intro hne
          refine hs.short ?_
          rintro rfl
          exact hne rfl
        obtain ⟨hout, hkind⟩ := decodeAll_tooLong hfind hlong hshort
        refine ⟨.failed .headerTooLong, ?_, hkind.symm⟩
        rw [hout]
        have hturn : AwsChunkedDecoder.turn ⟨buf, .header, eof⟩ =
            .item (.error .headerTooLong) ⟨buf, .header, eof⟩ := by
          simp only [AwsChunkedDecoder.turn, hfind, if_pos hlong]
        exact reads_error hturn
      · refine readsAll_input ih hs ?_ fun _ => ?_
        · simp only [AwsChunkedDecoder.turn, hfind, if_neg hlong]
        · rw [decodeAll_of_none hfind, if_neg hlong]
          exact ⟨rfl, rfl⟩

theorem turn_part {part : Bytes} {remaining : Nat} (hne : part ≠ []) (h : part.length < remaining) :
    AwsChunkedDecoder.turn ⟨part, .data remaining, eof⟩ =
      .item (.ok part) ⟨[], .data (remaining - part.length), eof⟩ := by
  simp only [AwsChunkedDecoder.turn, if_neg hne, min_eq_right (Nat.le_of_lt h), if_neg (Nat.ne_of_lt h),
    List.take_length, List.drop_length]

theorem turn_chunk {data : Bytes} {remaining : Nat} (hne : remaining ≠ 0) (h : data.length = remaining) :
    AwsChunkedDecoder.turn ⟨data ++ buf, .data remaining, eof⟩ = .item (.ok data) ⟨buf, .dataCrlf, eof⟩ := by
  have hnil : data ++ buf ≠ [] := by
    rintro hnil
    rw [(List.append_eq_nil_iff.mp hnil).1] at h
    exact hne h.symm
  have hmin : min remaining (data ++ buf).length = remaining := by
    rw [List.length_append]
    omega
  simp only [AwsChunkedDecoder.turn, if_neg hnil, hmin, List.take_left' h, List.drop_left' h, if_pos]

theorem turn_crlf (buf : Bytes) (eof : Bool) :
    AwsChunkedDecoder.turn ⟨crlf ++ buf, .dataCrlf, eof⟩ = .again ⟨buf, .header, eof⟩ := rfl

theorem readsAll_data {remaining : Nat} (ih : ReadsNearer (toGo pieces buf eof))
    (hs : Sound pieces buf (.data remaining) eof) : ReadsAll pieces buf (.data remaining) eof := by
  have hne : remaining ≠ 0 := fun h => hs.nonzero (by rw [h])
  by_cases hnil : buf = []
  · subst hnil
    refine readsAll_input ih hs rfl fun _ => ?_
    rw [decodeAll_cut (Nat.pos_of_ne_zero hne)]
    exact ⟨rfl, rfl⟩
  have hlen := List.length_pos_iff.mpr hnil
  by_cases hpart : buf.length < remaining
  · have hs' : Sound pieces [] (.data (remaining - buf.length)) eof := by
      refine ⟨fun h => ?_, fun hp data w' hw hdata => hs.short hp (buf ++ data) w' ?_ ?_, hs.ended⟩
      · rw [Phase.data.injEq] at h
        omega
      · rw [List.append_assoc, ← hw, List.nil_append]
      · rw [List.length_append]
        omega
    have hnearer : toGo pieces [] eof < toGo pieces buf eof := by
      unfold toGo
      rw [List.length_nil]
      omega
    obtain ⟨o, hr, hk⟩ := ih pieces [] _ eof hnearer hs'
    unfold ReadsAll
    rw [decodeAll_data_append hpart]
    exact ⟨o, reads_item (turn_part hnil hpart) hr, hk⟩
  · have hdata : (buf.take remaining).length = remaining := by
      rw [List.length_take]
      omega
    have heq := List.take_append_drop remaining buf
    generalize buf.take remaining = data, buf.drop remaining = rest at hdata heq
    subst heq
    have hs' : Sound pieces rest .dataCrlf eof :=
      ⟨nofun, fun hp w' hw => hs.short hp data w' (by rw [List.append_assoc, hw]) hdata, hs.ended⟩
    have hnearer : toGo pieces rest eof < toGo pieces (data ++ rest) eof := by
      unfold toGo
      rw [List.length_append]
      omega
    obtain ⟨o, hr, hk⟩ := ih pieces rest _ eof hnearer hs'
    unfold ReadsAll
    rw [List.append_assoc, decodeAll_chunk hdata]
    exact ⟨o, reads_item (turn_chunk hne hdata) hr, hk⟩

theorem readsAll_dataCrlf (ih : ReadsNearer (toGo pieces buf eof)) (hs : Sound pieces buf .dataCrlf eof) :
    ReadsAll pieces buf .dataCrlf eof := by
  by_cases hlen : 2 ≤ buf.length
  · by_cases hcrlf : buf.take 2 = crlf
    · have heq := List.take_append_drop 2 buf
      rw [hcrlf] at heq
      generalize buf.drop 2 = rest at heq
      subst heq
      have hnearer : toGo pieces rest eof < toGo pieces (crlf ++ rest) eof := by
        unfold toGo
        rw [List.length_append, show crlf.length = 2 from rfl]
        omega
      obtain ⟨o, hr, hk⟩ := ih pieces rest .header eof hnearer
        ⟨nofun, fun hp => hs.short hp _ (List.append_assoc ..), hs.ended⟩
      unfold ReadsAll
      rw [List.append_assoc, decodeAll_crlf]
      exact ⟨o, reads_again (turn_crlf rest eof) hr, hk⟩
    · have hturn : AwsChunkedDecoder.turn ⟨buf, .dataCrlf, eof⟩ =
          .item (.error .missingTerminator) ⟨buf, .dataCrlf, eof⟩ := by
        simp only [AwsChunkedDecoder.turn, if_pos hlen, if_pos hcrlf]
      have hall : (buf ++ pieces.flatten).take 2 ≠ crlf := by rwa [List.take_append_of_le_length hlen]
      unfold ReadsAll
      rw [decodeAll_dataCrlf, if_neg (by rw [List.length_append]; omega), if_pos hall]
      exact ⟨_, reads_error hturn, rfl⟩
  · refine readsAll_input ih hs (by simp only [AwsChunkedDecoder.turn, if_neg hlen]) fun _ => ?_
    rw [decodeAll_dataCrlf, if_pos (Nat.lt_of_not_le hlen)]
    exact ⟨rfl, rfl⟩

theorem decodeAll_trailers (w : Bytes) : decodeAll .trailers w = ([], .clean) := by
  rw [decodeAll]

theorem readsAll_trailers (ih : ReadsNearer (toGo pieces buf eof)) :
    ReadsAll pieces buf .trailers eof := by
  unfold ReadsAll
  rw [decodeAll_trailers]
  cases eof with
  | true => exact ⟨.clean, .quiet rfl (.ended rfl), rfl⟩
  | false =>
      cases pieces with
      | nil =>
          obtain ⟨o, hr, hk⟩ := ih [] [] .trailers true (by simp [toGo])
            ⟨nofun, fun _ => trivial, fun _ => rfl⟩
          rw [decodeAll_trailers] at hr hk
          exact ⟨o, .quiet rfl hr, hk⟩
      | cons piece rest =>
          obtain ⟨o, hr, hk⟩ := ih rest piece .trailers false (by simp [toGo]; omega)
            ⟨nofun, fun _ => trivial, nofun⟩
          rw [decodeAll_trailers] at hr hk
          exact ⟨o, .quiet rfl hr, hk⟩

theorem readsAll (hs : Sound pieces buf state eof) : ReadsAll pieces buf state eof := by
  induction hn : toGo pieces buf eof using Nat.strong_induction_on generalizing pieces buf state eof with
  | _ n ihn =>
      have ih : ReadsNearer (toGo pieces buf eof) := fun _ _ _ _ hlt hs => ihn _ (hn ▸ hlt) hs rfl
      cases state with
      | header => exact readsAll_header ih hs
      | data remaining => exact readsAll_data ih hs
      | dataCrlf => exact readsAll_dataCrlf ih hs
      | trailers => exact readsAll_trailers ih
      | done =>
          unfold ReadsAll
          rw [decodeAll]
          exact ⟨.clean, .quiet rfl (.ended rfl), rfl⟩

end

end Nestor.S3
