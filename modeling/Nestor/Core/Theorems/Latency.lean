import Mathlib.Data.List.Induction
import Nestor.Core.Latency

/-!
# Which samples a latency estimate is made of

A read takes into account the samples observed since the last rotation but one. These are all of the
last period. They may be of the last three: a rotation takes place when a call finds that a period
has passed, which may be almost two periods after the one before.
-/

namespace Nestor

/-! ## Rotations -/

/-- When the last two rotations took place. -/
structure Rotations where
  before : Nat
  last : Nat
deriving DecidableEq

/-- A call at an instant. After more than one period there is nothing left of what was before. -/
def Rotations.next (r : Rotations) (now : Nat) : Rotations :=
  let elapsed := min now maxU64
  if elapsed < r.last + rotateEvery then r
  else if elapsed < r.last + 2 * rotateEvery then ⟨r.last, elapsed⟩
  else ⟨elapsed, elapsed⟩

theorem Rotations.next_cases (r : Rotations) (now : Nat) :
    (min now maxU64 < r.last + rotateEvery ∧ r.next now = r) ∨
    (r.last + rotateEvery ≤ min now maxU64 ∧ min now maxU64 < r.last + 2 * rotateEvery ∧
      r.next now = ⟨r.last, min now maxU64⟩) ∨
    (r.last + 2 * rotateEvery ≤ min now maxU64 ∧ r.next now = ⟨min now maxU64, min now maxU64⟩) := by
  by_cases hsame : min now maxU64 < r.last + rotateEvery
  · exact .inl ⟨hsame, if_pos hsame⟩
  · have hone := Nat.le_of_not_lt hsame
    by_cases hmore : min now maxU64 < r.last + 2 * rotateEvery
    · exact .inr (.inl ⟨hone, hmore, (if_neg hsame).trans (if_pos hmore)⟩)
    · exact .inr (.inr ⟨Nat.le_of_not_lt hmore, (if_neg hsame).trans (if_neg hmore)⟩)

def rotations (times : List Nat) : Rotations := times.foldl Rotations.next ⟨0, 0⟩

/-- The samples that the calls observe, in order. -/
def observed (calls : List (Nat × LatencyCall)) : List Observation :=
  calls.filterMap fun
    | (now, .observe sample) => some ⟨now, min sample maxU64⟩
    | _ => none

/-- The samples that a read takes into account. -/
def kept (calls : List (Nat × LatencyCall)) (now : Nat) : List Observation :=
  let window := ((Latency.run calls).rotate now).window
  window.2 ++ window.1

namespace Latency

section

variable {γ : Type} [Recorder γ] (l : Latency γ)

theorem window_next : l.next.window = (Recorder.fresh, l.window.1) := by
  have hfin : ∀ c : Fin 3, c + 1 + 2 = c ∧ c ≠ c + 1 := by decide
  unfold window next
  dsimp only
  rw [Function.update_self, (hfin l.current).1, Function.update_of_ne (hfin l.current).2]

theorem rotatedAtNanos_next (n : Nat) : (next^[n] l).rotatedAtNanos = l.rotatedAtNanos := by
  induction n generalizing l with
  | zero => rfl
  | succ n ih =>
      rw [Function.iterate_succ_apply, ih]
      rfl

theorem rotate_eq (now : Nat) : l.rotate now =
    if (min now maxU64 - l.rotatedAtNanos) / rotateEvery = 0 then l
    else next^[min ((min now maxU64 - l.rotatedAtNanos) / rotateEvery) 3]
      { l with rotatedAtNanos := min now maxU64 } := rfl

theorem window_observeAt (sample now : Nat) : (l.observeAt sample now).window =
    (Recorder.record (l.rotate now).window.1 ⟨now, min sample maxU64⟩, (l.rotate now).window.2) := by
  have hfin : ∀ c : Fin 3, c + 2 ≠ c := by decide
  unfold window observeAt
  dsimp only
  rw [Function.update_self, Function.update_of_ne (hfin _)]

variable {l} {now : Nat}

theorem rotate_same (h : min now maxU64 < l.rotatedAtNanos + rotateEvery) : l.rotate now = l := by
  have hpos : 0 < rotateEvery := by decide
  generalize he : min now maxU64 = elapsed at h
  have hzero : (elapsed - l.rotatedAtNanos) / rotateEvery = 0 := Nat.div_eq_of_lt (by omega)
  rw [rotate_eq, he, if_pos hzero]

theorem rotate_one (h : l.rotatedAtNanos + rotateEvery ≤ min now maxU64)
    (h' : min now maxU64 < l.rotatedAtNanos + 2 * rotateEvery) :
    (l.rotate now).rotatedAtNanos = min now maxU64 ∧
    (l.rotate now).window = (Recorder.fresh, l.window.1) := by
  generalize he : min now maxU64 = elapsed at h h'
  have hone : (elapsed - l.rotatedAtNanos) / rotateEvery = 1 := Nat.div_eq_of_lt_le (by omega) (by omega)
  rw [rotate_eq, he, hone, if_neg Nat.one_ne_zero]
  exact ⟨rotatedAtNanos_next _ 1, window_next _⟩

theorem rotate_more (h : l.rotatedAtNanos + 2 * rotateEvery ≤ min now maxU64) :
    (l.rotate now).rotatedAtNanos = min now maxU64 ∧
    (l.rotate now).window = (Recorder.fresh, Recorder.fresh) := by
  generalize he : min now maxU64 = elapsed at h
  have htwo : 2 ≤ (elapsed - l.rotatedAtNanos) / rotateEvery := by
    rw [Nat.le_div_iff_mul_le (by decide)]
    omega
  rw [rotate_eq, he, if_neg (by omega)]
  refine ⟨rotatedAtNanos_next _ _, ?_⟩
  have hcase : min ((elapsed - l.rotatedAtNanos) / rotateEvery) 3 = 2 ∨
      min ((elapsed - l.rotatedAtNanos) / rotateEvery) 3 = 3 := by omega
  rcases hcase with hn | hn
  · rw [hn, Function.iterate_succ_apply', window_next, Function.iterate_one, window_next]
  · rw [hn, Function.iterate_succ_apply', window_next, Function.iterate_succ_apply', window_next]

end

/-! ## The samples behind a generation -/

section

variable {γ δ : Type} [Recorder γ] [Recorder δ]

def map (f : γ → δ) (l : Latency γ) : Latency δ := ⟨f ∘ l.generations, l.current, l.rotatedAtNanos⟩

/-- What is kept of the samples can be computed from what more is kept of them. -/
structure Forgets (f : γ → δ) : Prop where
  fresh : f Recorder.fresh = Recorder.fresh
  record : ∀ g x, f (Recorder.record g x) = Recorder.record (f g) x

variable {f : γ → δ}

theorem map_next (hf : Forgets f) (l : Latency γ) : (l.map f).next = (l.next).map f := by
  unfold next map
  rw [Function.comp_update, hf.fresh]

theorem map_rotate (hf : Forgets f) (l : Latency γ) (now : Nat) :
    (l.map f).rotate now = (l.rotate now).map f := by
  have hiter : Function.Semiconj (map f) (next : Latency γ → Latency γ) next := fun l => (map_next hf l).symm
  rw [rotate_eq, rotate_eq, apply_ite (map f)]
  exact congrArg _ ((hiter.iterate_right _).eq { l with rotatedAtNanos := min now maxU64 }).symm

theorem map_observeAt (hf : Forgets f) (l : Latency γ) (sample now : Nat) :
    (l.map f).observeAt sample now = (l.observeAt sample now).map f := by
  unfold observeAt
  rw [map_rotate hf]
  dsimp only [map]
  rw [Function.comp_update, hf.record]
  rfl

theorem map_after (hf : Forgets f) (l : Latency γ) (call : Nat × LatencyCall) :
    (l.map f).after call = (l.after call).map f := by
  obtain ⟨now, call⟩ := call
  cases call with
  | observe sample => exact map_observeAt hf l sample now
  | mean => exact map_rotate hf l now
  | quantile rank => exact map_rotate hf l now

theorem run_concat (calls : List (Nat × LatencyCall)) (call : Nat × LatencyCall) :
    (run (calls ++ [call]) : Latency γ) = (run calls).after call := List.foldl_append ..

theorem map_run (hf : Forgets f) (calls : List (Nat × LatencyCall)) : (run calls).map f = run calls := by
  induction calls using List.reverseRecOn with
  | nil =>
      have hfresh : (f ∘ fun _ : Fin 3 => Recorder.fresh) = fun _ => Recorder.fresh :=
        funext fun _ => hf.fresh
      exact congrArg (fun g => (⟨g, 0, 0⟩ : Latency δ)) hfresh
  | append_singleton calls call ih => rw [run_concat, run_concat, ← map_after hf, ih]

end

end Latency

/-- The generation in which the samples are recorded. -/
def Generation.of (samples : List Observation) : Generation :=
  samples.foldl (fun g x => g.record x.nanos) .new

theorem Generation.forgets_of : Latency.Forgets Generation.of := ⟨rfl, fun _ _ => List.foldl_append ..⟩

/-! ## The window -/

/-- What is known of the generations, of the samples observed and the last two rotations. -/
structure Latency.Holds (l : Latency (List Observation)) (r : Rotations) (samples : List Observation) :
    Prop where
  last : l.rotatedAtNanos = r.last
  order : r.before ≤ r.last
  /-- The samples that are gone are older than a period. -/
  dropped : ∃ dropped, samples = dropped ++ (l.window.2 ++ l.window.1) ∧
    ∀ x ∈ dropped, x.now < r.before ∧ x.now + rotateEvery < r.last
  previous : ∀ x ∈ l.window.2, r.before ≤ x.now ∧ x.now < r.last
  current : ∀ x ∈ l.window.1, r.last ≤ x.now ∧ min x.now maxU64 < r.last + rotateEvery

namespace Latency.Holds

variable {l : Latency (List Observation)} {r : Rotations} {samples : List Observation} {now : Nat}

theorem default : (default : Latency (List Observation)).Holds ⟨0, 0⟩ [] where
  last := rfl
  order := Nat.le_refl 0
  dropped := ⟨[], rfl, nofun⟩
  previous := nofun
  current := nofun

theorem rotate_one (h : l.Holds r samples) (hone : r.last + rotateEvery ≤ min now maxU64)
    (hmore : min now maxU64 < r.last + 2 * rotateEvery) :
    (l.rotate now).Holds ⟨r.last, min now maxU64⟩ samples := by
  obtain ⟨hlast, hwindow⟩ := Latency.rotate_one (h.last ▸ hone) (h.last ▸ hmore)
  obtain ⟨dropped, hsamples, hdropped⟩ := h.dropped
  have horder := h.order
  refine ⟨hlast, Nat.le_trans (Nat.le_add_right _ _) hone, ⟨dropped ++ l.window.2, ?_, ?_⟩, ?_, ?_⟩
  · rw [hwindow, hsamples, List.append_assoc]
    exact congrArg _ (congrArg _ (List.append_nil _).symm)
  · intro x hx
    dsimp only
    rcases List.mem_append.mp hx with hx | hx
    · have hgone := hdropped x hx
      omega
    · have hprevious := h.previous x hx
      omega
  · rw [hwindow]
    intro x hx
    have hcurrent := h.current x hx
    dsimp only
    omega
  · rw [hwindow]
    nofun

theorem rotate_more (h : l.Holds r samples) (hmore : r.last + 2 * rotateEvery ≤ min now maxU64) :
    (l.rotate now).Holds ⟨min now maxU64, min now maxU64⟩ samples := by
  obtain ⟨hlast, hwindow⟩ := Latency.rotate_more (h.last ▸ hmore)
  obtain ⟨dropped, hsamples, hdropped⟩ := h.dropped
  have horder := h.order
  have hpos : 0 < rotateEvery := by decide
  refine ⟨hlast, Nat.le_refl _, ⟨samples, ?_, ?_⟩, ?_, ?_⟩
  · rw [hwindow]
    exact (List.append_nil _).symm
  · intro x hx
    dsimp only
    rw [hsamples, List.mem_append, List.mem_append] at hx
    rcases hx with hx | hx | hx
    · have hgone := hdropped x hx
      omega
    · have hprevious := h.previous x hx
      omega
    · have hcurrent := h.current x hx
      omega
  · rw [hwindow]
    nofun
  · rw [hwindow]
    nofun

theorem rotate (h : l.Holds r samples) (now : Nat) : (l.rotate now).Holds (r.next now) samples := by
  rcases r.next_cases now with ⟨hsame, hnext⟩ | ⟨hone, hmore, hnext⟩ | ⟨hmore, hnext⟩
  · rwa [hnext, rotate_same (h.last ▸ hsame)]
  · exact hnext ▸ h.rotate_one hone hmore
  · exact hnext ▸ h.rotate_more hmore

theorem observe (h : (l.rotate now).Holds r samples) (sample : Nat) (hnow : r.last ≤ now)
    (hcurrent : min now maxU64 < r.last + rotateEvery) :
    (l.observeAt sample now).Holds r (samples ++ [⟨now, min sample maxU64⟩]) := by
  obtain ⟨dropped, hsamples, hdropped⟩ := h.dropped
  have hwindow := window_observeAt l sample now
  refine ⟨h.last, h.order, ⟨dropped, ?_, hdropped⟩, ?_, ?_⟩
  · rw [hwindow, hsamples, List.append_assoc, List.append_assoc]
    rfl
  · rw [hwindow]
    exact h.previous
  · rw [hwindow]
    intro x hx
    rcases List.mem_append.mp hx with hx | hx
    · exact h.current x hx
    · rw [List.eq_of_mem_singleton hx]
      exact ⟨hnow, hcurrent⟩

end Latency.Holds

/-! ## Runs -/

theorem rotations_concat (times : List Nat) (now : Nat) :
    rotations (times ++ [now]) = (rotations times).next now := by
  rw [rotations, List.foldl_append, List.foldl_cons, List.foldl_nil, rotations]

namespace Rotations

variable {r : Rotations} {now : Nat}

theorem next_last_le (h : r.last ≤ min now maxU64) : (r.next now).last ≤ min now maxU64 := by
  rcases r.next_cases now with ⟨-, hnext⟩ | ⟨-, -, hnext⟩ | ⟨-, hnext⟩
  · rwa [hnext]
  · rw [hnext]
  · rw [hnext]

theorem lt_next_last : min now maxU64 < (r.next now).last + rotateEvery := by
  have hpos : 0 < rotateEvery := by decide
  rcases r.next_cases now with ⟨hsame, hnext⟩ | ⟨-, -, hnext⟩ | ⟨-, hnext⟩
  · rwa [hnext]
  · rw [hnext]
    dsimp only
    omega
  · rw [hnext]
    dsimp only
    omega

theorem last_le {times : List Nat} {now : Nat} (hsorted : (times ++ [now]).Pairwise (· ≤ ·)) :
    (rotations times).last ≤ min now maxU64 := by
  induction times using List.reverseRecOn generalizing now with
  | nil => exact Nat.zero_le _
  | append_singleton times t ih =>
      have hbefore := (List.pairwise_append.mp hsorted).1
      have hle : t ≤ now :=
        (List.pairwise_append.mp hsorted).2.2 t List.mem_concat_self now (List.mem_singleton_self now)
      rw [rotations_concat]
      calc ((rotations times).next t).last
        _ ≤ min t maxU64 := next_last_le (ih hbefore)
        _ ≤ min now maxU64 := by omega

end Rotations

theorem observed_concat (calls : List (Nat × LatencyCall)) (call : Nat × LatencyCall) :
    observed (calls ++ [call]) = observed calls ++ observed [call] := List.filterMap_append ..

theorem holds_run {calls : List (Nat × LatencyCall)} (hsorted : (calls.map Prod.fst).Pairwise (· ≤ ·)) :
    (Latency.run calls).Holds (rotations (calls.map Prod.fst)) (observed calls) := by
  induction calls using List.reverseRecOn with
  | nil => exact .default
  | append_singleton calls call ih =>
      rw [List.map_append] at hsorted
      have hrotate := (ih (List.pairwise_append.mp hsorted).1).rotate call.1
      rw [Latency.run_concat, List.map_append, List.map_singleton, rotations_concat, observed_concat]
      obtain ⟨now, call⟩ := call
      cases call with
      | observe sample =>
          have hlast := Rotations.next_last_le (Rotations.last_le hsorted)
          exact hrotate.observe sample (Nat.le_trans hlast (Nat.min_le_left ..)) Rotations.lt_next_last
      | mean => exact (List.append_nil (observed calls)).symm ▸ hrotate
      | quantile rank => exact (List.append_nil (observed calls)).symm ▸ hrotate

/-! ## What a read covers -/

/-- The estimates that a read at an instant gives are those of these samples, recorded in two
generations. -/
def EstimatesOf (calls : List (Nat × LatencyCall)) (now : Nat) (current previous : List Observation) : Prop :=
  ((Latency.run calls).meanAt now).1 = Latency.mean (.of current) (.of previous) ∧
    ∀ rank, ((Latency.run calls).quantileAt rank now).1 = Latency.quantile rank (.of current) (.of previous)

/-- A read takes into account the samples of the last period, and none that is older than two. -/
def CoversOneToTwo (calls : List (Nat × LatencyCall)) (now : Nat) : Prop :=
  (∃ dropped, observed calls = dropped ++ kept calls now ∧ ∀ x ∈ dropped, rotateEvery < now - x.now) ∧
    ∀ x ∈ kept calls now, now - x.now ≤ 2 * rotateEvery

theorem estimatesOf_window (calls : List (Nat × LatencyCall)) (now : Nat) :
    EstimatesOf calls now ((Latency.run calls).rotate now).window.1
      ((Latency.run calls).rotate now).window.2 := by
  have hrotate : (Latency.run calls).rotate now = ((Latency.run calls).rotate now).map Generation.of := by
    rw [← Latency.map_rotate Generation.forgets_of, Latency.map_run Generation.forgets_of]
  refine ⟨?_, fun rank => ?_⟩
  · rw [Latency.meanAt, hrotate]
    rfl
  · rw [Latency.quantileAt, hrotate]
    rfl

/-- A read covers one to two periods just if of the samples observed since the last rotation but
one, which are those it is made of, none is older than two. -/
theorem read_covers_iff (calls : List (Nat × LatencyCall)) (now : Nat)
    (hsorted : (calls.map Prod.fst ++ [now]).Pairwise (· ≤ ·)) :
    EstimatesOf calls now ((Latency.run calls).rotate now).window.1
      ((Latency.run calls).rotate now).window.2 ∧ (CoversOneToTwo calls now ↔ ∀ x ∈ observed calls,
        (rotations (calls.map Prod.fst ++ [now])).before ≤ x.now → now ≤ x.now + 2 * rotateEvery) := by
  refine ⟨estimatesOf_window calls now, ?_⟩
  have hlast := Rotations.next_last_le (Rotations.last_le hsorted)
  have holds := (holds_run (List.pairwise_append.mp hsorted).1).rotate now
  rw [← rotations_concat] at hlast holds
  obtain ⟨dropped, hsamples, hdropped⟩ := holds.dropped
  have hkept : ∀ x ∈ kept calls now, (rotations (calls.map Prod.fst ++ [now])).before ≤ x.now := by
    intro x hx
    rcases List.mem_append.mp hx with hx | hx
    · exact (holds.previous x hx).1
    · exact Nat.le_trans holds.order (holds.current x hx).1
  constructor
  · rintro ⟨-, hcovers⟩ x hx hbefore
    rw [hsamples] at hx
    rcases List.mem_append.mp hx with hx | hx
    · have hgone := (hdropped x hx).1
      omega
    · have hage := hcovers x hx
      omega
  · intro hyoung
    refine ⟨⟨dropped, hsamples, fun x hx => ?_⟩, fun x hx => ?_⟩
    · have hgone := (hdropped x hx).2
      omega
    · have hmem : x ∈ observed calls := hsamples ▸ List.mem_append_right dropped hx
      have hage := hyoung x hmem (hkept x hx)
      omega

/-- Two samples a period apart, and a read another period on. -/
def apart : List (Nat × LatencyCall) :=
  [(0, .observe (milliseconds 10)), (milliseconds 61000, .observe (milliseconds 30))]

theorem apart_covered : CoversOneToTwo apart (milliseconds 122000) ∧
    ((Latency.run apart).meanAt (milliseconds 122000)).1 = some (milliseconds 30) := by
  have hread := read_covers_iff apart (milliseconds 122000) (by decide)
  exact ⟨hread.2.mpr (by decide), hread.1.1.trans (by decide)⟩

/-- A read at 119 seconds rotates; a sample of the first instant is then in the previous generation
until 179 seconds. -/
def late : List (Nat × LatencyCall) := [(0, .observe (milliseconds 10)), (milliseconds 119000, .mean)]

theorem late_counts_old : (late.map Prod.fst ++ [milliseconds 178000]).Pairwise (· ≤ ·) ∧
    ((Latency.run late).meanAt (milliseconds 178000)).1 = some (milliseconds 10) ∧
    ¬ CoversOneToTwo late (milliseconds 178000) := by
  have hkept : ⟨0, milliseconds 10⟩ ∈ kept late (milliseconds 178000) := by decide
  refine ⟨by decide, (estimatesOf_window late _).1.trans (by decide), fun hcovers => ?_⟩
  exact absurd (hcovers.2 _ hkept) (by decide)

end Nestor
