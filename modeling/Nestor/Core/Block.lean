import Mathlib.Data.Nat.Log
import Nestor.Lib.Word
import Nestor.Core.Error

/-!
# Block size math and byte-range resolution

`block.rs`: every offset maps to a block index, `ReadRange` turns the caller's request into concrete
bounds once the object size is known. Offsets and sizes are 64-bit and stay below `2 ^ 56` where
they come from a block index; the operations on 32-bit indexes that may overflow wrap.
-/

namespace Nestor

open Lib

def minBlockSize : Nat := 64 * 1024

def maxBlockSize : Nat := 16 * 1024 * 1024

/-- A power of two between `minBlockSize` and `maxBlockSize`, as its exponent. -/
structure BlockSize where
  shift : Nat
  shift_ge : 16 ≤ shift
  shift_le : shift ≤ 24
deriving DecidableEq

inductive ReadRange where
  | full
  | bounded (range : Range)
  | «from» (start : Nat)
  | suffix (len : Nat)
deriving DecidableEq, Repr

/-- The blocks of `next .. stop` up to the next multiple of `window`. -/
def alignedTake (next stop window : Nat) : Nat :=
  let window := max window 1
  let boundary := satMulU32 (addU32 (next / window) 1) window
  subU32 (min boundary stop) next

namespace BlockSize

theorem log_bounds {bytes : Nat} (h : minBlockSize ≤ bytes ∧ bytes ≤ maxBlockSize ∧ 2 ^ bytes.log2 = bytes) :
    16 ≤ bytes.log2 ∧ bytes.log2 ≤ 24 := by
  obtain ⟨hlo, hhi, he⟩ := h
  rw [← he] at hlo hhi
  exact ⟨(Nat.pow_le_pow_iff_right (by decide : 1 < 2)).mp hlo,
    (Nat.pow_le_pow_iff_right (by decide : 1 < 2)).mp hhi⟩

def new (bytes : Nat) : Option BlockSize :=
  if h : minBlockSize ≤ bytes ∧ bytes ≤ maxBlockSize ∧ 2 ^ bytes.log2 = bytes then
    some ⟨bytes.log2, (log_bounds h).1, (log_bounds h).2⟩
  else none

def default : BlockSize := ⟨20, by decide, by decide⟩

def bytes (bs : BlockSize) : Nat := 1 <<< bs.shift

/-- The block an offset lies in. -/
def index (bs : BlockSize) (offset : Nat) : Nat := toU32 (offset >>> bs.shift)

/-- The offset a block starts at. -/
def offset (bs : BlockSize) (index : Nat) : Nat := index <<< bs.shift

/-- The number of blocks of an object, at most `u32::MAX`. -/
def count (bs : BlockSize) (size : Nat) : Nat :=
  let blocks := (size + bs.bytes - 1) / bs.bytes
  if maxU32 < blocks then maxU32 else blocks

/-- The blocks covering a range. -/
def blocks (bs : BlockSize) (range : Range) : Range :=
  if range.stop ≤ range.start then ⟨0, 0⟩ else ⟨bs.index range.start, bs.count range.stop⟩

/-- The bytes of `count` blocks from `first` on, cut off at the object's size once that is known. -/
def span (bs : BlockSize) (first count : Nat) (size : Option Nat) : Range :=
  let start := bs.offset first
  let stop := bs.offset (addU32 first count)
  match size with
  | some size => ⟨start, min stop size⟩
  | none => ⟨start, stop⟩

def blockRange (bs : BlockSize) (index : Nat) (size : Option Nat) : Range := bs.span index 1 size

/-- The blocks a read of unknown size asks for first. -/
def firstGroup (bs : BlockSize) (request : ReadRange) (window : Nat) : Option Range :=
  let group := fun (start stop : Nat) =>
    let take := alignedTake start (max stop (satAddU32 start 1)) window
    some (Range.mk start (addU32 start take))
  match request with
  | .full => group 0 maxU32
  | .from start => group (bs.index start) maxU32
  | .bounded r => group (bs.index r.start) (bs.count r.stop)
  | .suffix _ => none

/-- The part of block `index` that lies in the range, relative to the block's start. -/
def sliceWithin (bs : BlockSize) (index : Nat) (range : Range) : Range :=
  let blockStart := bs.offset index
  let blockEnd := blockStart + bs.bytes
  ⟨min (max range.start blockStart) blockEnd - blockStart,
    min (max range.stop blockStart) blockEnd - blockStart⟩

end BlockSize

namespace ReadRange

def needsSize : ReadRange → Bool
  | .bounded _ => false
  | _ => true

def resolve (request : ReadRange) (size : Nat) : Except NestorError Range :=
  match request with
  | .full => .ok ⟨0, size⟩
  | .bounded r =>
      if r.stop ≤ r.start ∨ size ≤ r.start then .error (.range r size)
      else .ok ⟨r.start, min r.stop size⟩
  | .from start =>
      if size ≤ start then .error (.range ⟨start, 2 ^ 64 - 1⟩ size) else .ok ⟨start, size⟩
  | .suffix len =>
      if len = 0 then .error (.range ⟨size, size⟩ size) else .ok ⟨size - len, size⟩

end ReadRange

structure FetchGroup where
  first : Nat
  count : Nat
deriving DecidableEq, Repr

/-- One miss joins the last group or opens a new one. The groups are kept last first. -/
def pushMiss (window : Nat) : List FetchGroup → Nat → List FetchGroup
  | [], idx => [⟨idx, 1⟩]
  | g :: groups, idx =>
      if addU32 g.first g.count = idx ∧ idx % window ≠ 0 then { g with count := g.count + 1 } :: groups
      else ⟨idx, 1⟩ :: g :: groups

/-- Cuts the misses into runs of consecutive blocks that do not cross a multiple of `window`. -/
def groupMisses (misses : List Nat) (window : Nat) : List FetchGroup :=
  (misses.foldl (pushMiss (max window 1)) []).reverse

end Nestor
