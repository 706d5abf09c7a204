import Mathlib.Algebra.Ring.Nat
import Mathlib.Logic.Function.Iterate
import Nestor.Core.Key

/-!
# Time to first byte over a sliding window

`latency.rs`, for calls one after the other: what the atomic cells hold is the state. Instants are
nanoseconds since the `Latency` was made. The arithmetic on `f64` in `rank` is a parameter. What a
generation keeps of the samples is left open in the rotation, so that it can also be asked which
samples they are.
-/

namespace Nestor

def subBuckets : Nat := 8

def octaves : Nat := 24

def buckets : Nat := subBuckets * octaves

def rotateEvery : Nat := milliseconds 60000

def maxU64 : Nat := 2 ^ 64 - 1

/-! ## Buckets -/

def bucket (nanos : Nat) : Nat :=
  let value := max nanos (2 ^ 16)
  let log := value.log2
  let octave := log - 16
  let sub := (value >>> (log - 3)) % subBuckets
  min (octave * subBuckets + sub) (buckets - 1)

def upperEdge (index : Nat) : Nat :=
  let octave := index / subBuckets
  let sub := index % subBuckets
  (subBuckets + sub + 1) <<< (octave + 16 - 3)

/-! ## Generations -/

structure Generation where
  counts : List Nat
  count : Nat
  sumNanos : Nat
deriving DecidableEq

namespace Generation

def new : Generation := ⟨List.replicate buckets 0, 0, 0⟩

def record (g : Generation) (nanos : Nat) : Generation where
  counts := g.counts.modify (bucket nanos) fun c => (c + 1) % 2 ^ 32
  count := (g.count + 1) % 2 ^ 64
  sumNanos := (g.sumNanos + nanos) % 2 ^ 64

end Generation

/-- A sample, and when it was observed. -/
structure Observation where
  now : Nat
  nanos : Nat
deriving DecidableEq

/-- What generations are made of: the empty one, and how a sample is added. -/
class Recorder (γ : Type) where
  fresh : γ
  record : γ → Observation → γ

instance : Recorder Generation := ⟨.new, fun g x => g.record x.nanos⟩

/-- The samples themselves. -/
instance : Recorder (List Observation) := ⟨[], fun xs x => xs ++ [x]⟩

/-! ## Rotation -/

structure Latency (γ : Type) where
  generations : Fin 3 → γ
  current : Fin 3
  rotatedAtNanos : Nat

namespace Latency

variable {γ : Type} [Recorder γ]

def default : Latency γ := ⟨fun _ => Recorder.fresh, 0, 0⟩

/-- The next generation is cleared and becomes the current one. -/
def next (l : Latency γ) : Latency γ :=
  { l with
    generations := Function.update l.generations (l.current + 1) Recorder.fresh, current := l.current + 1 }

def rotate (l : Latency γ) (now : Nat) : Latency γ :=
  let elapsed := min now maxU64
  let periods := (elapsed - l.rotatedAtNanos) / rotateEvery
  if periods = 0 then l
  else next^[min periods 3] { l with rotatedAtNanos := elapsed }

def window (l : Latency γ) : γ × γ := (l.generations l.current, l.generations (l.current + 2))

def observeAt (l : Latency γ) (sample now : Nat) : Latency γ :=
  let l := l.rotate now
  let recorded := Recorder.record (l.generations l.current) ⟨now, min sample maxU64⟩
  { l with generations := Function.update l.generations l.current recorded }

/-- The mean of the samples of two generations. -/
def mean (current previous : Generation) : Option Nat :=
  let count := (current.count + previous.count) % 2 ^ 64
  if count = 0 then none else some ((current.sumNanos + previous.sumNanos) % 2 ^ 64 / count)

/-- The first bucket at which so many samples have been seen. -/
def seek (target : Nat) : Nat → Nat → List Nat → Option Nat
  | _, _, [] => none
  | index, seen, count :: counts =>
      if target ≤ seen + count then some index else seek target (index + 1) (seen + count) counts

/-- The quantile of two generations, with `rank` of the quantile. -/
def quantile (rank : Nat → Nat) (current previous : Generation) : Option Nat :=
  let counts := List.zipWith (· + ·) current.counts previous.counts
  let total := counts.sum
  if total = 0 then none
  else some (upperEdge ((seek (rank total) 0 0 counts).getD (buckets - 1)))

def meanAt (l : Latency Generation) (now : Nat) : Option Nat × Latency Generation :=
  let l := l.rotate now
  (mean l.window.1 l.window.2, l)

def quantileAt (l : Latency Generation) (rank : Nat → Nat) (now : Nat) : Option Nat × Latency Generation :=
  let l := l.rotate now
  (quantile rank l.window.1 l.window.2, l)

end Latency

/-! ## Runs -/

inductive LatencyCall where
  | observe (sample : Nat)
  | mean
  | quantile (rank : Nat → Nat)

namespace Latency

variable {γ : Type} [Recorder γ]

/-- What a call leaves behind; of the reads it is the rotation. -/
def after (l : Latency γ) (call : Nat × LatencyCall) : Latency γ :=
  match call.2 with
  | .observe sample => l.observeAt sample call.1
  | .mean | .quantile _ => l.rotate call.1

def run (calls : List (Nat × LatencyCall)) : Latency γ := calls.foldl after default

end Latency

end Nestor
