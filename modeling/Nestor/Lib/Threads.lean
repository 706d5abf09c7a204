import Nestor.Lib.Prog

/-!
# Threads on a shared state

Threads run programs on a shared state of type `σ`, one operation at a time and in any interleaving.
What an operation does to the shared state and how it is answered is up to `respond`, which gets a
choice of type `χ` from the environment and may refuse it; an operation may start new threads, named
by their task.

An `Outline` is a rely-guarantee argument about such a system: an invariant of the shared state, a
spec of all programs, a `view`, which ties the ghost state of a thread to the shared state and stays
true when other threads move on, and `apart`, which ties the ghost states of two threads. `Sound` is
what it keeps of every configuration reached.
-/

namespace Nestor.Lib

universe u

structure System (σ τ χ : Type u) (O : Type u) (R : O → Type u) where
  start : τ → Prog O R PUnit.{u + 1}
  respond : σ → (o : O) → χ → Option (R o × σ × List τ)

/-- A running program, with the task it was started for and the operations it has done. -/
structure Thread (τ : Type u) (O : Type u) (R : O → Type u) where
  task : τ
  prog : Prog O R PUnit.{u + 1}
  trace : List (Done O R)

/-- The program has come to its end. -/
def Thread.ended {τ : Type u} {O : Type u} {R : O → Type u} (th : Thread τ O R) : Bool :=
  match th.prog with
  | .pure _ => true
  | .op _ _ => false

/-- The operation the thread does next. -/
def Thread.next {τ : Type u} {O : Type u} {R : O → Type u} (th : Thread τ O R) : Option O :=
  match th.prog with
  | .op o _ => some o
  | .pure _ => none

theorem Thread.prog_of_ended {τ : Type u} {O : Type u} {R : O → Type u} {th : Thread τ O R}
    (h : th.ended = true) :
    ∃ a, th.prog = .pure a := by
  unfold ended at h
  split at h
  · exact ⟨_, ‹_›⟩
  · cases h

structure Conf (σ τ : Type u) (O : Type u) (R : O → Type u) where
  shared : σ
  threads : List (Thread τ O R)

variable {σ τ χ : Type u} {O : Type u} {R : O → Type u}

namespace System

variable (sys : System σ τ χ O R)

def begin (t : τ) : Thread τ O R := ⟨t, sys.start t, []⟩

/-- Thread `i` does its next operation. -/
def resume (c : Conf σ τ O R) (i : Nat) (x : χ) : Option (Conf σ τ O R) :=
  match c.threads[i]? with
  | some ⟨t, .op o k, tr⟩ =>
      match sys.respond c.shared o x with
      | some (r, s, ts) => some ⟨s, c.threads.set i ⟨t, k r, tr ++ [⟨o, r⟩]⟩ ++ ts.map sys.begin⟩
      | none => none
  | _ => none

theorem resume_eq {sys : System σ τ χ O R} {c : Conf σ τ O R} {i : Nat} {x : χ} {t : τ} {o : O}
    {k : R o → Prog O R PUnit.{u + 1}} {tr : List (Done O R)} {r : R o} {s : σ} {ts : List τ}
    (hi : c.threads[i]? = some ⟨t, .op o k, tr⟩) (hr : sys.respond c.shared o x = some (r, s, ts)) :
    sys.resume c i x = some ⟨s, c.threads.set i ⟨t, k r, tr ++ [⟨o, r⟩]⟩ ++ ts.map sys.begin⟩ := by
  simp only [resume, hi, hr]

theorem resume_cases {sys : System σ τ χ O R} {c c' : Conf σ τ O R} {i : Nat} {x : χ}
    (h : sys.resume c i x = some c') :
    ∃ t o k tr r s ts, c.threads[i]? = some ⟨t, .op o k, tr⟩ ∧ sys.respond c.shared o x = some (r, s, ts) ∧
      c' = ⟨s, c.threads.set i ⟨t, k r, tr ++ [⟨o, r⟩]⟩ ++ ts.map sys.begin⟩ := by
  unfold resume at h
  split at h
  · rename_i t o k tr ht
    split at h
    · rename_i r s ts hr
      cases h
      exact ⟨t, o, k, tr, r, s, ts, ht, hr, rfl⟩
    · cases h
  · cases h

theorem mem_resume {c : Conf σ τ O R} {i : Nat} {th : Thread τ O R} (ht : c.threads[i]? = some th)
    (th' : Thread τ O R) (new : List (Thread τ O R)) :
    (∀ th₀ ∈ c.threads, th₀ = th ∨ th₀ ∈ c.threads.set i th' ++ new) ∧ th' ∈ c.threads.set i th' ++ new ∧
      ∀ th₀ ∈ c.threads.set i th' ++ new, th₀ ∈ c.threads ∨ th₀ = th' ∨ th₀ ∈ new := by
  obtain ⟨hlt, hget⟩ := List.getElem?_eq_some_iff.mp ht
  refine ⟨fun th₀ hin => ?_, List.mem_append_left _ (List.mem_set hlt th'), fun th₀ hin => ?_⟩
  · obtain ⟨j, hj⟩ := List.mem_iff_getElem?.mp hin
    by_cases hij : i = j
    · subst hij
      exact .inl (Option.some.inj (hj.symm.trans ht))
    · refine .inr (List.mem_append_left _ (List.mem_of_getElem? (i := j) ?_))
      rw [List.getElem?_set_ne hij, hj]
  · rcases List.mem_append.mp hin with hin | hin
    · rcases List.mem_or_eq_of_mem_set hin with hin | rfl
      · exact .inl hin
      · exact .inr (.inl rfl)
    · exact .inr (.inr hin)

end System

structure Outline (sys : System σ τ χ O R) (γ : Type*) where
  spec : Spec O R γ
  init : τ → γ
  post : τ → γ → Prop
  inv : σ → Prop
  view : σ → γ → Prop
  apart : γ → γ → Prop

namespace Outline

variable {sys : System σ τ χ O R} {γ : Type*} (A : Outline sys γ)

/-- The program of the task can be started. -/
def Starts (s : σ) (t : τ) : Prop :=
  wp A.spec (sys.start t) (fun g _ => A.post t g) (A.init t) ∧ A.view s (A.init t)

/-- The ghost state a thread has come to. -/
def at_ (th : Thread τ O R) : γ := A.spec.ghost (A.init th.task) th.trace

/-- Two threads are apart, in either order. -/
def Apart (g g' : γ) : Prop := A.apart g g' ∧ A.apart g' g

structure ThreadSound (s : σ) (th : Thread τ O R) : Prop where
  starts : wp A.spec (sys.start th.task) (fun g _ => A.post th.task g) (A.init th.task)
  runs : Runs (sys.start th.task) th.trace th.prog
  relied : A.spec.Relied (A.init th.task) th.trace
  view : A.view s (A.at_ th)

structure Sound (c : Conf σ τ O R) : Prop where
  inv : A.inv c.shared
  threads : ∀ th ∈ c.threads, A.ThreadSound c.shared th
  apart : c.threads.Pairwise fun th th' => A.Apart (A.at_ th) (A.at_ th')

variable {A}

theorem Apart.symm {g g' : γ} (h : A.Apart g g') : A.Apart g' g := ⟨h.2, h.1⟩

theorem ThreadSound.wp {s : σ} {th : Thread τ O R} (h : A.ThreadSound s th) :
    Lib.wp A.spec th.prog (fun g _ => A.post th.task g) (A.at_ th) :=
  (wp_runs h.starts h.runs h.relied).2

theorem ThreadSound.kept {s : σ} {th : Thread τ O R} (h : A.ThreadSound s th) :
    A.spec.Kept (A.init th.task) th.trace :=
  (wp_runs h.starts h.runs h.relied).1

theorem Starts.sound {s : σ} {t : τ} (h : A.Starts s t) : A.ThreadSound s (sys.begin t) :=
  ⟨h.1, .nil, trivial, h.2⟩

/-- What one operation has to keep, done in ghost state `g` on the shared state `s`. A thread in
ghost state `g'` is one of the others. -/
structure Keeps (A : Outline sys γ) (s : σ) (g : γ) (o : O) (r : R o) (s' : σ) (ts : List τ) : Prop where
  inv : A.inv s'
  rely : A.spec.rely g o r
  view : A.view s' (A.spec.next g o r)
  stable : ∀ g', A.view s g' → A.Apart g g' → A.view s' g'
  apart : ∀ g', A.view s g' → A.Apart g g' → A.Apart (A.spec.next g o r) g'
  starts : ∀ t ∈ ts, A.Starts s' t ∧ A.Apart (A.spec.next g o r) (A.init t)
  fresh : ∀ t ∈ ts, ∀ g', A.view s g' → A.Apart g g' → A.Apart g' (A.init t)
  alone : ts.Pairwise fun t t' => A.Apart (A.init t) (A.init t')

/-- One operation of one thread keeps a configuration sound. -/
theorem Sound.resume {c c' : Conf σ τ O R} {i : Nat} {x : χ} (h : A.Sound c)
    (hr : sys.resume c i x = some c')
    (hkeep : ∀ th o k r s ts, th ∈ c.threads → c.threads[i]? = some th → th.prog = .op o k →
      sys.respond c.shared o x = some (r, s, ts) → A.ThreadSound c.shared th → A.spec.guar (A.at_ th) o →
      A.Keeps c.shared (A.at_ th) o r s ts) : A.Sound c' := by
  obtain ⟨t, o, k, tr, r, s, ts, ht, hresp, rfl⟩ := System.resume_cases hr
  have hmem : (⟨t, .op o k, tr⟩ : Thread τ O R) ∈ c.threads := List.mem_of_getElem? ht
  have hth := h.threads _ hmem
  have hkeep := hkeep _ o k r s ts hmem ht rfl hresp hth hth.wp.1
  have hnext : A.at_ ⟨t, k r, tr ++ [⟨o, r⟩]⟩ = A.spec.next (A.at_ ⟨t, .op o k, tr⟩) o r := Spec.ghost_snoc ..
  -- the threads before and after the one that moves
  obtain ⟨hlt, hget⟩ := List.getElem?_eq_some_iff.mp ht
  have hsplit : c.threads = c.threads.take i ++ ⟨t, .op o k, tr⟩ :: c.threads.drop (i + 1) := by
    rw [← hget, List.getElem_cons_drop, List.take_append_drop]
  have hset : c.threads.set i ⟨t, k r, tr ++ [⟨o, r⟩]⟩ =
      c.threads.take i ++ ⟨t, k r, tr ++ [⟨o, r⟩]⟩ :: c.threads.drop (i + 1) := by
    rw [List.set_eq_take_append_cons_drop, if_pos hlt]
  have hapart := h.apart
  rw [hsplit, List.pairwise_append, List.pairwise_cons] at hapart
  obtain ⟨hbefore, ⟨hmoves, hafter⟩, hacross⟩ := hapart
  have hother : ∀ th' ∈ c.threads.take i ++ c.threads.drop (i + 1),
      A.ThreadSound c.shared th' ∧ A.Apart (A.at_ ⟨t, .op o k, tr⟩) (A.at_ th') := by
    intro th' hin
    rcases List.mem_append.mp hin with hin | hin
    · exact ⟨h.threads th' (List.mem_of_mem_take hin), (hacross th' hin _ List.mem_cons_self).symm⟩
    · exact ⟨h.threads th' (List.mem_of_mem_drop hin), hmoves th' hin⟩
  have hstays : ∀ th' ∈ c.threads.take i ++ c.threads.drop (i + 1), A.ThreadSound s th' ∧
      A.Apart (A.at_ ⟨t, k r, tr ++ [⟨o, r⟩]⟩) (A.at_ th') := by
    intro th' hin
    obtain ⟨hsound, ha⟩ := hother th' hin
    rw [hnext]
    exact ⟨{ hsound with view := hkeep.stable _ hsound.view ha }, hkeep.apart _ hsound.view ha⟩
  refine ⟨hkeep.inv, fun th hin => ?_, ?_⟩
  · rw [hset, List.append_assoc, List.cons_append, List.mem_append, List.mem_cons, List.mem_append] at hin
    rcases hin with hin | rfl | hin | hin
    · exact (hstays th (List.mem_append_left _ hin)).1
    · refine ⟨hth.starts, hth.runs.snoc r, ?_, ?_⟩
      · exact (Spec.relied_append _).mpr ⟨hth.relied, hkeep.rely, trivial⟩
      · rw [hnext]
        exact hkeep.view
    · exact (hstays th (List.mem_append_right _ hin)).1
    · obtain ⟨t', ht', rfl⟩ := List.mem_map.mp hin
      exact (hkeep.starts t' ht').1.sound
  · rw [hset]
    refine List.pairwise_append.mpr ⟨?_, ?_, ?_⟩
    · refine List.pairwise_append.mpr ⟨hbefore, List.pairwise_cons.mpr ⟨fun th hin => ?_, hafter⟩, ?_⟩
      · exact (hstays th (List.mem_append_right _ hin)).2
      · intro th hin th' hin'
        rcases List.mem_cons.mp hin' with rfl | hin'
        · exact (hstays th (List.mem_append_left _ hin)).2.symm
        · exact hacross th hin th' (List.mem_cons_of_mem _ hin')
    · exact List.pairwise_map.mpr hkeep.alone
    · intro th hin th' hin'
      obtain ⟨t', ht', rfl⟩ := List.mem_map.mp hin'
      rw [List.mem_append, List.mem_cons] at hin
      rcases hin with hin | rfl | hin
      · obtain ⟨hsound, ha⟩ := hother th (List.mem_append_left _ hin)
        exact hkeep.fresh t' ht' _ hsound.view ha
      · rw [hnext]
        exact (hkeep.starts t' ht').2
      · obtain ⟨hsound, ha⟩ := hother th (List.mem_append_right _ hin)
        exact hkeep.fresh t' ht' _ hsound.view ha

/-- The environment may change the shared state as long as the invariant and all views are kept. -/
theorem Sound.env {c : Conf σ τ O R} {s' : σ} (h : A.Sound c) (hi : A.inv s')
    (hs : ∀ g, A.view c.shared g → A.view s' g) : A.Sound ⟨s', c.threads⟩ :=
  ⟨hi, fun th hin => { h.threads th hin with view := hs _ (h.threads th hin).view }, h.apart⟩

theorem Sound.spawn {c : Conf σ τ O R} {t : τ} (h : A.Sound c) (ht : A.Starts c.shared t)
    (ha : ∀ g, A.view c.shared g → A.Apart g (A.init t)) :
    A.Sound ⟨c.shared, c.threads ++ [sys.begin t]⟩ := by
  refine ⟨h.inv, fun th hin => ?_, ?_⟩
  · rcases List.mem_append.mp hin with hin | hin
    · exact h.threads th hin
    · rw [List.mem_singleton.mp hin]
      exact ht.sound
  · refine List.pairwise_append.mpr ⟨h.apart, List.pairwise_singleton _ _, fun th hin th' hin' => ?_⟩
    rw [List.mem_singleton.mp hin']
    exact ha _ (h.threads th hin).view

end Outline

end Nestor.Lib
