import Nestor.Body.Hedged
import Nestor.Core.Lemmas.Block

/-!
# Positions of a block stream

`StreamAt data pos s`: what the stream still has to deliver, its buffer first, is a prefix of `data`
from `pos` on. A turn keeps the position, or delivers the bytes there and moves it past them.
-/

namespace Nestor

open Lib

variable {s s' : BlockStream} {data : Bytes}

/-- The bytes a stream delivers from now on, if nobody cuts it off. -/
def BlockStream.pending (s : BlockStream) : Bytes := s.buf ++ (bodyBytes s.body).drop s.skip

def StreamAt (data : Bytes) (pos : Nat) (s : BlockStream) : Prop := s.pending <+: data.drop pos

/-- Skipping a part of a chunk and what is left of the skip later is one skip. -/
theorem BlockStream.pending_chunk {chunk : Bytes} {rest : List BodyItem} (hb : s.body = .ok chunk :: rest) :
    s.pending = s.buf ++ chunk.drop (min chunk.length s.skip) ++
      (bodyBytes rest).drop (s.skip - min chunk.length s.skip) := by
  simp only [BlockStream.pending, hb, bodyBytes, List.append_assoc, List.drop_append]
  rcases Nat.le_total chunk.length s.skip with h | h
  · simp [Nat.min_eq_left h, List.drop_eq_nil_of_le h]
  · simp [Nat.min_eq_right h, Nat.sub_eq_zero_of_le h]

/-- What one turn does to the bytes still to come: nothing, or it takes the first `n` of them. -/
theorem BlockStream.turn_spec {n : Nat} {r : Option (Except OriginError Bytes)} (h : s.turn n = (s', r)) :
    (r = none → s'.pending = s.pending) ∧
      ∀ block, r = some (.ok block) →
        n ≤ s.pending.length ∧ block = s.pending.take n ∧ s'.pending = s.pending.drop n := by
  -- taking the first bytes of `front`, which is what the buffer holds when the turn ends
  have take {front tail : Bytes} (hp : s.pending = front ++ tail) (hn : n ≤ front.length) :
      n ≤ s.pending.length ∧ front.take n = s.pending.take n ∧
        front.drop n ++ tail = s.pending.drop n := by
    rw [hp, List.length_append]
    exact ⟨by omega, (List.take_append_of_le_length hn).symm, (List.drop_append_of_le_length hn).symm⟩
  unfold BlockStream.turn at h
  by_cases hbuf : n ≤ s.buf.length
  · simp only [hbuf, ↓reduceIte, Prod.mk.injEq] at h
    obtain ⟨rfl, rfl⟩ := h
    refine ⟨by simp, fun block hr => ?_⟩
    cases hr
    exact take rfl hbuf
  · simp only [hbuf, ↓reduceIte] at h
    cases hb : s.body with
    | nil =>
        simp only [hb, Prod.mk.injEq] at h
        obtain ⟨rfl, rfl⟩ := h
        simp
    | cons item rest =>
        cases item with
        | error e =>
            simp only [hb, Prod.mk.injEq] at h
            obtain ⟨rfl, rfl⟩ := h
            simp
        | ok chunk =>
            have hp := BlockStream.pending_chunk hb
            simp only [hb] at h
            by_cases hc : s.buf = [] ∧ n ≤ (chunk.drop (min chunk.length s.skip)).length
            · simp only [hc, and_self, ↓reduceIte, Prod.mk.injEq] at h
              obtain ⟨rfl, rfl⟩ := h
              refine ⟨by simp, fun block hr => ?_⟩
              cases hr
              rw [hc.1, List.nil_append] at hp
              exact take hp hc.2
            · simp only [hc, ↓reduceIte] at h
              by_cases hl : n ≤ (s.buf ++ chunk.drop (min chunk.length s.skip)).length
              · simp only [hl, ↓reduceIte, Prod.mk.injEq] at h
                obtain ⟨rfl, rfl⟩ := h
                refine ⟨by simp, fun block hr => ?_⟩
                cases hr
                exact take hp hl
              · simp only [hl, ↓reduceIte, Prod.mk.injEq] at h
                obtain ⟨rfl, rfl⟩ := h
                exact ⟨fun _ => hp.symm, by simp⟩

theorem StreamAt.turn_none {data pos n} (h : StreamAt data pos s)
    (ht : s.turn n = (s', none)) : StreamAt data pos s' := by
  rw [StreamAt, (BlockStream.turn_spec ht).1 rfl]
  exact h

theorem StreamAt.turn_ok {data pos n} {block : Bytes} (h : StreamAt data pos s)
    (ht : s.turn n = (s', some (.ok block))) :
    block = slice data pos (pos + n) ∧ block.length = n ∧ StreamAt data (pos + n) s' := by
  obtain ⟨hlen, hblock, hrest⟩ := (BlockStream.turn_spec ht).2 block rfl
  refine ⟨?_, ?_, ?_⟩
  · rw [hblock]; exact take_of_prefix_drop h hlen
  · rw [hblock, List.length_take]; omega
  · rw [StreamAt, hrest]; exact drop_prefix_drop h

/-- Past the last byte of a block starts the next one, or nothing is left. -/
theorem StreamAt.next_block {bs : BlockSize} {i : Nat}
    (h : StreamAt data (i * bs.bytes + (blockOf bs data i).length) s) :
    StreamAt data ((i + 1) * bs.bytes) s := by
  have hB := bs.bytes_pos
  rw [blockOf, length_slice, Nat.add_mul] at h
  rw [Nat.add_mul]
  rcases Nat.le_total ((i + 1) * bs.bytes) data.length with hp | hp
  · rw [Nat.add_mul] at hp
    rwa [show i * bs.bytes + (min (i * bs.bytes + 1 * bs.bytes) data.length - i * bs.bytes) =
      i * bs.bytes + 1 * bs.bytes by omega] at h
  · rw [Nat.add_mul] at hp
    rw [StreamAt, List.drop_eq_nil_of_le (by omega)] at h ⊢
    exact h

/-- The stream of a fresh response stands at the start of the response's range. -/
theorem StreamAt.new {r : GetResponse} (h : r.Carries data) :
    StreamAt data r.range.start (BlockStream.new r.body) := by
  simpa [StreamAt, BlockStream.pending, BlockStream.new, GetResponse.Carries] using h

theorem StreamAt.skipping {r : GetResponse} {start : Nat} (h : r.Carries data) (hs : r.range.start ≤ start) :
    StreamAt data start ((BlockStream.new r.body).skipping (start - r.range.start)) := by
  have hd := drop_prefix_drop (n := start - r.range.start) h
  rw [show r.range.start + (start - r.range.start) = start by omega] at hd
  simpa [StreamAt, BlockStream.pending, BlockStream.skipping, BlockStream.new] using hd

end Nestor
