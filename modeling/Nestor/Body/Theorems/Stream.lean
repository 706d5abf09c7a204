import Mathlib.Algebra.Ring.Nat
import Nestor.Body.Lemmas.Stream
import Nestor.Lib.Runs

/-!
# Blocks do not depend on how a body comes in

A `Caller` asks a block stream for one block after the other until it gets an error. It may drop a
call of `next_block` while the call waits for a chunk, and make it again. Across an `await` the call
keeps nothing but the size it was asked for, so what it has taken in is in the buffer of the stream.
-/

namespace Nestor

open Lib

variable {pos n : Nat} {s : BlockStream}

/-- The blocks of the given sizes that are cut from `data` one after the other from `pos` on, up to
the first for which too few bytes are left. -/
def cuts (data : Bytes) : Nat → List Nat → List (Nat × Except OriginError Bytes)
  | _, [] => []
  | pos, n :: sizes =>
      if pos + n ≤ data.length then (n, .ok (slice data pos (pos + n))) :: cuts data (pos + n) sizes
      else [(n, .error (.shortRead n (data.length - pos)))]

theorem cuts_of_le {data : Bytes} (h : pos + n ≤ data.length) (sizes : List Nat) :
    cuts data pos (n :: sizes) = (n, .ok (slice data pos (pos + n))) :: cuts data (pos + n) sizes := if_pos h

theorem cuts_of_lt {data : Bytes} (h : data.length < pos + n) (sizes : List Nat) :
    cuts data pos (n :: sizes) = [(n, .error (.shortRead n (data.length - pos)))] := if_neg (Nat.not_le.mpr h)

/-- With enough bytes for all blocks before it, the next one is cut where they end. -/
theorem cuts_append {data : Bytes} {sizes : List Nat} (n : Nat) (h : (cuts data pos sizes).all (·.2.isOk)) :
    cuts data pos (sizes ++ [n]) = cuts data pos sizes ++ cuts data (pos + sizes.sum) [n] := by
  induction sizes generalizing pos with
  | nil => rfl
  | cons m sizes ih =>
      rw [List.cons_append]
      rcases Nat.lt_or_ge data.length (pos + m) with hlt | hle
      · rw [cuts_of_lt hlt] at h
        cases h
      · rw [cuts_of_le hle, List.all_cons, Bool.and_eq_true] at h
        rw [cuts_of_le hle, cuts_of_le hle, ih h.2, List.sum_cons, Nat.add_assoc, List.cons_append]

/-- A user of a block stream, with the size a call in progress waits for and the results it has got
so far. -/
structure Caller where
  stream : BlockStream
  waiting : Option Nat
  results : List (Nat × Except OriginError Bytes)

namespace Caller

inductive Event where
  | call (expected : Nat)
  | arrive
  | abandon
deriving DecidableEq

def start (chunks : List Bytes) (skip : Nat) : Caller :=
  ⟨(BlockStream.new (chunks.map .ok)).skipping skip, none, []⟩

/-- No call has failed. -/
def going (c : Caller) : Bool := c.results.all (·.2.isOk)

def resume (c : Caller) (expected : Nat) : Caller :=
  match c.stream.turn expected with
  | (s, none) => ⟨s, some expected, c.results⟩
  | (s, some r) => ⟨s, none, c.results ++ [(expected, r)]⟩

/-- A call that finds enough in the buffer returns at once; others wait for the next chunk or the
end of the body. -/
def step (c : Caller) : Event → Option Caller
  | .call expected =>
      if c.waiting = none ∧ c.going ∧ 0 < expected then
        if expected ≤ c.stream.buf.length then some (c.resume expected)
        else some { c with waiting := some expected }
      else none
  | .arrive => c.waiting.map c.resume
  | .abandon => if c.waiting.isSome then some { c with waiting := none } else none

end Caller

/-! ## Turns over a body of chunks -/

namespace BlockStream

/-- A waiting call takes in the next chunk, or finds the body at its end. -/
theorem turn_chunks {chunks : List Bytes} (hbody : s.body = chunks.map .ok) (hn : s.buf.length < n) :
    (chunks = [] ∧ s.turn n = (s, some (.error (.shortRead n s.buf.length)))) ∨
      ∃ chunk rest s' r, chunks = chunk :: rest ∧ s.turn n = (s', r) ∧ s'.body = rest.map .ok ∧
        ((r = none ∧ s'.buf.length < n) ∨ ∃ block, r = some (.ok block)) := by
  cases chunks with
  | nil =>
      refine .inl ⟨rfl, ?_⟩
      unfold turn
      rw [if_neg (Nat.not_le.mpr hn), hbody, List.map_nil]
  | cons chunk rest =>
      refine .inr ⟨chunk, rest, ?_⟩
      unfold turn
      rw [if_neg (Nat.not_le.mpr hn), hbody, List.map_cons]
      dsimp only
      split
      · exact ⟨_, _, rfl, rfl, rfl, .inr ⟨_, rfl⟩⟩
      · split
        · exact ⟨_, _, rfl, rfl, rfl, .inr ⟨_, rfl⟩⟩
        · rename_i hlen
          exact ⟨_, _, rfl, rfl, rfl, .inl ⟨rfl, Nat.not_le.mp hlen⟩⟩

theorem pending_of_nil (hbody : s.body = []) : s.pending = s.buf := by
  rw [pending, hbody, bodyBytes, List.drop_nil, List.append_nil]

theorem turn_buffered (h : n ≤ s.buf.length) :
    s.turn n = ({ s with buf := s.buf.drop n }, some (.ok (s.buf.take n))) := if_pos h

end BlockStream

namespace Caller

/-- The results are the cuts so far, and the stream stands where they end. -/
structure Inv (data : Bytes) (skip : Nat) (c : Caller) : Prop where
  chunks : ∃ chunks : List Bytes, c.stream.body = chunks.map .ok
  results : c.results = cuts data skip (c.results.map Prod.fst)
  pending : c.going → c.stream.pending = data.drop (skip + (c.results.map Prod.fst).sum)
  waiting : ∀ n, c.waiting = some n → c.going ∧ 0 < n ∧ c.stream.buf.length < n

variable {data : Bytes} {skip : Nat} {c c' : Caller}

theorem bodyBytes_chunks (chunks : List Bytes) : bodyBytes (chunks.map .ok) = chunks.flatten := by
  induction chunks with
  | nil => rfl
  | cons chunk chunks ih => rw [List.map_cons, bodyBytes, ih, List.flatten_cons]

theorem inv_start (chunks : List Bytes) (skip : Nat) : (start chunks skip).Inv chunks.flatten skip where
  chunks := ⟨chunks, rfl⟩
  results := rfl
  pending := fun _ => congrArg (List.drop skip) (bodyBytes_chunks chunks)
  waiting := nofun

theorem Inv.result (h : c.Inv data skip) (hgo : c.going) {r : Except OriginError Bytes}
    (hbody : ∃ chunks : List Bytes, s.body = chunks.map .ok) (hn : 0 < n)
    (hok : ∀ block, r = .ok block → n ≤ c.stream.pending.length ∧ block = c.stream.pending.take n ∧
      s.pending = c.stream.pending.drop n)
    (herr : ∀ e, r = .error e → c.stream.pending.length < n ∧ e = .shortRead n c.stream.pending.length) :
    (Caller.mk s none (c.results ++ [(n, r)])).Inv data skip := by
  have hpending := h.pending hgo
  generalize hpos : skip + (c.results.map Prod.fst).sum = pos at hpending
  have hlen : c.stream.pending.length = data.length - pos := by rw [hpending, List.length_drop]
  have hcuts : cuts data skip ((c.results ++ [(n, r)]).map Prod.fst) = c.results ++ cuts data pos [n] := by
    rw [List.map_append, List.map_singleton, cuts_append n (by rw [← h.results]; exact hgo), ← h.results,
      hpos]
  cases r with
  | ok block =>
      obtain ⟨hle, hblock, hs⟩ := hok block rfl
      refine ⟨hbody, ?_, fun _ => ?_, nofun⟩
      · rw [hcuts, cuts_of_le (by omega), cuts, hblock, hpending, slice_eq_take_drop, Nat.add_sub_cancel_left]
      · rw [hs, hpending, List.drop_drop, List.map_append, List.sum_append, ← Nat.add_assoc, hpos]
        rfl
  | error e =>
      obtain ⟨hlt, rfl⟩ := herr e rfl
      refine ⟨hbody, ?_, fun hgo' => ?_, nofun⟩
      · rw [hcuts, cuts_of_lt (by omega), hlen]
      · unfold going at hgo'
        rw [List.all_append, Bool.and_eq_true] at hgo'
        cases hgo'.2

theorem Inv.resume (h : c.Inv data skip) (hgo : c.going) (hn : 0 < n) : (c.resume n).Inv data skip := by
  obtain ⟨chunks, hbody⟩ := h.chunks
  have hok {s : BlockStream} {block : Bytes} (ht : c.stream.turn n = (s, some (.ok block)))
      (hrest : ∃ chunks : List Bytes, s.body = chunks.map .ok) :
      (Caller.mk s none (c.results ++ [(n, .ok block)])).Inv data skip :=
    h.result hgo hrest hn (fun _ heq => (BlockStream.turn_spec ht).2 _ (congrArg some heq)) nofun
  unfold Caller.resume
  by_cases hbuf : n ≤ c.stream.buf.length
  · have ht := BlockStream.turn_buffered hbuf
    rw [ht]
    exact hok ht ⟨chunks, hbody⟩
  · have hlt := Nat.not_le.mp hbuf
    obtain ⟨rfl, ht⟩ | ⟨chunk, rest, s, r, rfl, ht, hrest, hr⟩ := BlockStream.turn_chunks hbody hlt
    · -- the body is at its end
      rw [ht]
      refine h.result hgo ⟨[], hbody⟩ hn nofun fun e heq => ?_
      cases heq
      rw [BlockStream.pending_of_nil hbody]
      exact ⟨hlt, rfl⟩
    · rw [ht]
      obtain ⟨rfl, hshort⟩ | ⟨block, rfl⟩ := hr
      · refine ⟨⟨rest, hrest⟩, h.results, fun hgo => ?_, fun m hm => by cases hm; exact ⟨hgo, hn, hshort⟩⟩
        exact ((BlockStream.turn_spec ht).1 rfl).trans (h.pending hgo)
      · exact hok ht ⟨rest, hrest⟩

theorem Inv.step (h : c.Inv data skip) {ev : Event} (hs : c.step ev = some c') : c'.Inv data skip := by
  cases ev with
  | call n =>
      obtain ⟨⟨-, hgo, hn⟩, hs⟩ := Option.ite_none_right_eq_some.mp hs
      split at hs
      · cases hs
        exact h.resume hgo hn
      · rename_i hbuf
        cases hs
        exact ⟨h.chunks, h.results, h.pending, fun m hm => by cases hm; exact ⟨hgo, hn, Nat.not_le.mp hbuf⟩⟩
  | arrive =>
      obtain ⟨n, hwaiting, rfl⟩ := Option.map_eq_some_iff.mp hs
      obtain ⟨hgo, hn, -⟩ := h.waiting n hwaiting
      exact h.resume hgo hn
  | abandon =>
      obtain ⟨-, hs⟩ := Option.ite_none_right_eq_some.mp hs
      cases hs
      exact ⟨h.chunks, h.results, h.pending, nofun⟩

/-- After the events, and as many chunks as it takes, the call for `n` bytes has its result. -/
def Returns (c : Caller) (n : Nat) (events : List Event) : Prop :=
  ∃ k c' r, runEvents Caller.step c (events ++ List.replicate k .arrive) = some c' ∧ c'.waiting = none ∧
    c'.results = c.results ++ [(n, r)]

theorem Returns.of_result {r : Except OriginError Bytes} (hwaiting : c.waiting = some n)
    (ht : c.stream.turn n = (s, some r)) : c.Returns n [] := by
  refine ⟨1, ⟨s, none, c.results ++ [(n, r)]⟩, r, ?_, rfl, rfl⟩
  change ((c.waiting.map c.resume).bind some) = _
  rw [hwaiting, Option.map_some, Caller.resume, ht]
  rfl

theorem Returns.of_chunk (hwaiting : c.waiting = some n) (ht : c.stream.turn n = (s, none))
    (h : (Caller.mk s (some n) c.results).Returns n []) : c.Returns n [] := by
  obtain ⟨k, c', r, hrun, hresult⟩ := h
  refine ⟨k + 1, c', r, ?_, hresult⟩
  change ((c.waiting.map c.resume).bind fun c' => runEvents Caller.step c' (List.replicate k .arrive)) = _
  rw [hwaiting, Option.map_some, Caller.resume, ht]
  exact hrun

/-- A waiting call has its result when all chunks and the end of the body have arrived, if not
before. -/
theorem Inv.returns {chunks : List Bytes} (h : c.Inv data skip) (hbody : c.stream.body = chunks.map .ok)
    (hwaiting : c.waiting = some n) : c.Returns n [] := by
  obtain ⟨hgo, hn, hlt⟩ := h.waiting n hwaiting
  induction chunks generalizing c with
  | nil =>
      obtain ⟨-, ht⟩ | ⟨_, _, _, _, heq, -⟩ := BlockStream.turn_chunks hbody hlt
      · exact .of_result hwaiting ht
      · cases heq
  | cons chunk chunks ih =>
      obtain ⟨heq, -⟩ | ⟨_, _, s, r, heq, ht, hrest, hr⟩ := BlockStream.turn_chunks hbody hlt
      · cases heq
      · cases heq
        obtain ⟨rfl, hshort⟩ | ⟨block, rfl⟩ := hr
        · have hinv := h.resume hgo hn
          rw [Caller.resume, ht] at hinv
          exact .of_chunk hwaiting ht (ih hinv hrest rfl hgo hshort)
        · exact .of_result hwaiting ht

/-- Whatever the chunks of a body are and however many calls are abandoned on the way, the results
of the calls that came to their end are the blocks of the sizes asked for, cut one after the other
from the bytes behind the skipped ones; the first for which too few bytes are left is a short read,
and the last result. A call in progress, or made while none is, comes to its end if it is not
abandoned. -/
theorem blocks_cut (chunks : List Bytes) (skip : Nat) (events : List Event) (c : Caller)
    (h : runEvents Caller.step (start chunks skip) events = some c) :
    c.results = cuts chunks.flatten skip (c.results.map Prod.fst) ∧
    (∀ n, c.waiting = some n → c.Returns n []) ∧
    (∀ n, c.waiting = none → c.going → 0 < n → c.Returns n [.call n]) := by
  have hinv : c.Inv chunks.flatten skip := by
    have hrun : Run Caller.step (fun _ _ => True) (start chunks skip) events c :=
      .of_events h fun _ _ _ => trivial
    exact hrun.invariant (fun c ev c' hi _ hs => hi.step hs) (inv_start chunks skip)
  obtain ⟨rest, hbody⟩ := hinv.chunks
  refine ⟨hinv.results, fun n => hinv.returns hbody, fun n hnone hgo hn => ?_⟩
  have hcall : c.step (.call n) = if n ≤ c.stream.buf.length then some (c.resume n)
      else some { c with waiting := some n } :=
    if_pos ⟨hnone, hgo, hn⟩
  split at hcall
  · -- the buffer has enough
    rename_i hbuf
    rw [Caller.resume, BlockStream.turn_buffered hbuf] at hcall
    exact ⟨0, _, _, congrArg (Option.bind · some) hcall, rfl, rfl⟩
  · obtain ⟨k, c', r, hrun, hresult⟩ := (hinv.step hcall).returns hbody rfl
    refine ⟨k, c', r, ?_, hresult⟩
    rw [List.singleton_append, runEvents, hcall]
    exact hrun

/-- Nine bytes in chunks, one of them empty, and calls of which two are abandoned after a chunk. -/
def abandonedCalls : List Event :=
  [.call 3, .arrive, .abandon, .call 3, .arrive, .call 3, .arrive, .abandon, .call 3, .arrive, .call 3,
    .arrive, .arrive]

theorem abandoned_calls_cut : ∃ c,
    runEvents Caller.step (start [[97, 98], [99, 100, 101, 102], [], [103, 104], [105]] 1)
      abandonedCalls = some c ∧
    c.results = cuts [97, 98, 99, 100, 101, 102, 103, 104, 105] 1 [3, 3, 3] ∧
    c.results = [(3, .ok [98, 99, 100]), (3, .ok [101, 102, 103]), (3, .error (.shortRead 3 2))] := by
  have hrun : runEvents Caller.step (start [[97, 98], [99, 100, 101, 102], [], [103, 104], [105]] 1)
      abandonedCalls = some ⟨⟨[], [104, 105], 0⟩, none,
        [(3, .ok [98, 99, 100]), (3, .ok [101, 102, 103]), (3, .error (.shortRead 3 2))]⟩ := rfl
  exact ⟨_, hrun, (blocks_cut _ 1 abandonedCalls _ hrun).1, rfl⟩

end Caller

end Nestor
