import Mathlib.Data.List.Basic

/-!
# Programs over operations

A program of a concurrent system does one operation after the other on a state it shares with
others, and goes on with the answer it gets. `R o` is the type of the answers to the operation `o`.

A `Spec` says what a program may do and what it may count on: `guar` is what it guarantees of an
operation before doing it, `rely` what it relies on of the answer. Both may look at a ghost state,
which `next` advances with every operation. `wp` is the weakest precondition of a program: run from
ghost state `g` with answers that meet `rely`, it does operations that meet `guar` only, and if it
ends, it ends in a ghost state and with a result that meet the postcondition.
-/

namespace Nestor.Lib

universe u v w x

inductive Prog (O : Type u) (R : O → Type v) (α : Type w) where
  | pure (a : α)
  | op (o : O) (k : R o → Prog O R α)

variable {O : Type u} {R : O → Type v} {α β : Type w}

namespace Prog

def bind : Prog O R α → (α → Prog O R β) → Prog O R β
  | .pure a, f => f a
  | .op o k, f => .op o fun r => (k r).bind f

instance : Monad (Prog O R) where
  pure := Prog.pure
  bind := Prog.bind

theorem bind_assoc {γ : Type w} (p : Prog O R α) (f : α → Prog O R β) (g : β → Prog O R γ) :
    p >>= f >>= g = p >>= fun a => f a >>= g := by
  change (p.bind f).bind g = p.bind fun a => (f a).bind g
  induction p with
  | pure a => rfl
  | op o k ih => simp only [bind, ih]

/-- One operation. -/
def call {R : O → Type w} (o : O) : Prog O R (R o) := .op o .pure

end Prog

/-- An operation together with its answer. -/
abbrev Done (O : Type u) (R : O → Type v) := Σ o : O, R o

/-- `Runs p tr p'`: doing the operations of `tr` with the answers there, `p` comes to `p'`. -/
inductive Runs : Prog O R α → List (Done O R) → Prog O R α → Prop
  | nil {p} : Runs p [] p
  | cons {o k r tr p'} : Runs (k r) tr p' → Runs (.op o k) (⟨o, r⟩ :: tr) p'

variable {p p' : Prog O R α} {f : α → Prog O R β} {tr tr' : List (Done O R)}

theorem Runs.snoc {tr o k} (h : Runs p tr (.op o k)) (r : R o) : Runs p (tr ++ [⟨o, r⟩]) (k r) := by
  generalize hq : Prog.op o k = q at h
  induction h with
  | nil =>
      subst hq
      exact .cons .nil
  | cons _ ih => exact .cons (ih hq)

theorem Runs.eq_of_nil (h : Runs p [] p') : p' = p := by
  cases h
  rfl

theorem Runs.bind {q : Prog O R β} {a : α} (h : Runs p tr (pure a)) (hf : Runs (f a) tr' q) :
    Runs (p >>= f) (tr ++ tr') q := by
  generalize hp : (pure a : Prog O R α) = p' at h
  induction h with
  | nil =>
      subst hp
      exact hf
  | cons _ ih => exact .cons (ih hp)

/-- A run of a program and what follows is a run of each. -/
theorem Runs.of_bind {b : β} (h : Runs (p >>= f) tr (pure b)) :
    ∃ tr₁ tr₂ a, tr = tr₁ ++ tr₂ ∧ Runs p tr₁ (pure a) ∧ Runs (f a) tr₂ (pure b) := by
  change Runs (p.bind f) tr (pure b) at h
  induction p generalizing tr with
  | pure a => exact ⟨[], tr, a, rfl, .nil, h⟩
  | op o k ih =>
      cases h with
      | cons h =>
          obtain ⟨tr₁, tr₂, a, rfl, h₁, h₂⟩ := ih _ h
          exact ⟨_, tr₂, a, rfl, .cons h₁, h₂⟩

theorem Runs.of_call {R : O → Type w} {o : O} {f : R o → Prog O R β}
    {tr : List (Done O R)} {b : β} (h : Runs (Prog.call o >>= f) tr (pure b)) :
    ∃ r tr', tr = ⟨o, r⟩ :: tr' ∧ Runs (f r) tr' (pure b) := by
  cases h with
  | cons h => exact ⟨_, _, rfl, h⟩

theorem Runs.of_pure {a b : α} (h : Runs (pure a : Prog O R α) tr (pure b)) : tr = [] ∧ a = b := by
  cases h
  exact ⟨rfl, rfl⟩

/-- A strategy answers an operation in view of what was done before, or leaves it unanswered. -/
abbrev Strategy (O : Type u) (R : O → Type v) := List (Done O R) → (o : O) → Option (R o)

/-- Runs a program with the answers of a strategy until it ends or gets no answer. -/
def Prog.follow (e : Strategy O R) :
    List (Done O R) → Prog O R α → List (Done O R) × Prog O R α
  | tr, .pure a => (tr, .pure a)
  | tr, .op o k =>
      match e tr o with
      | none => (tr, .op o k)
      | some r => (k r).follow e (tr ++ [⟨o, r⟩])

theorem Prog.follow_runs (e : Strategy O R) (tr : List (Done O R)) (p : Prog O R α) :
    ∃ tr', (p.follow e tr).1 = tr ++ tr' ∧ Runs p tr' (p.follow e tr).2 ∧
      (∀ d ∈ tr', ∃ before, e before d.1 = some d.2) ∧
      ∀ o k, (p.follow e tr).2 = .op o k → e (p.follow e tr).1 o = none := by
  induction p generalizing tr with
  | pure a => exact ⟨[], by simp [follow], .nil, nofun, nofun⟩
  | op o k ih =>
      unfold follow
      cases he : e tr o with
      | none =>
          refine ⟨[], by simp, .nil, nofun, ?_⟩
          rintro _ _ ⟨⟩
          exact he
      | some r =>
          obtain ⟨tr', htr, hruns, hans, hstop⟩ := ih r (tr ++ [⟨o, r⟩])
          refine ⟨⟨o, r⟩ :: tr', by simpa using htr, .cons hruns, fun d hd => ?_, hstop⟩
          rcases List.mem_cons.mp hd with rfl | hd
          · exact ⟨tr, he⟩
          · exact hans d hd

/-- With answers that meet `P`, and there is always one, the program ends with a result that meets
`Q`. -/
def Prog.Ends (P : (o : O) → R o → Prop) : Prog O R α → (α → Prop) → Prop
  | .pure a, Q => Q a
  | .op o k, Q => (∃ r, P o r) ∧ ∀ r, P o r → (k r).Ends P Q

variable {P : (o : O) → R o → Prop} {Q Q' : α → Prop}

theorem Prog.Ends.bind {Q' : β → Prop} (h : p.Ends P Q) (hf : ∀ a, Q a → (f a).Ends P Q') :
    Ends P (p >>= f) Q' := by
  change Ends P (p.bind f) Q'
  induction p with
  | pure a => exact hf a h
  | op o k ih => exact ⟨h.1, fun r hr => ih r (h.2 r hr)⟩

theorem Prog.Ends.step {R : O → Type w} {P : (o : O) → R o → Prop} {o : O}
    {f : R o → Prog O R β} {Q : β → Prop} (ho : ∃ r, P o r) (hf : ∀ r, P o r → (f r).Ends P Q) :
    Ends P (call o >>= f) Q := ⟨ho, hf⟩

theorem Prog.Ends.mono (h : p.Ends P Q) (hQ : ∀ a, Q a → Q' a) : p.Ends P Q' := by
  induction p with
  | pure a => exact hQ a h
  | op o k ih => exact ⟨h.1, fun r hr => ih r (h.2 r hr)⟩

/-- The result of a program that ends is one of a run of it. -/
theorem Prog.Ends.runs (h : p.Ends P Q) :
    p.Ends P fun a => ∃ tr, Runs p tr (pure a) ∧ ∀ d ∈ tr, P d.1 d.2 := by
  induction p with
  | pure a => exact ⟨[], .nil, List.forall_mem_nil _⟩
  | op o k ih =>
      refine ⟨h.1, fun r hr => (ih r (h.2 r hr)).mono fun a hrun => ?_⟩
      obtain ⟨tr, hrun, hP⟩ := hrun
      exact ⟨⟨o, r⟩ :: tr, .cons hrun, List.forall_mem_cons.mpr ⟨hr, hP⟩⟩

/-- With answers that meet `P`, and there is always one, the program ends; what it has done by then
and its result meet `Q`. -/
def Prog.Leads (P : (o : O) → R o → Prop) :
    Prog O R α → (List (Done O R) → α → Prop) → Prop
  | .pure a, Q => Q [] a
  | .op o k, Q => (∃ r, P o r) ∧ ∀ r, P o r → (k r).Leads P fun tr a => Q (⟨o, r⟩ :: tr) a

theorem Prog.Leads.mono
    {Q Q' : List (Done O R) → α → Prop} (h : p.Leads P Q) (hQ : ∀ tr a, Q tr a → Q' tr a) : p.Leads P Q' := by
  induction p generalizing Q Q' with
  | pure a => exact hQ [] a h
  | op o k ih => exact ⟨h.1, fun r hr => ih r (h.2 r hr) fun tr a => hQ (⟨o, r⟩ :: tr) a⟩

theorem Prog.Leads.bind
    {Q : List (Done O R) → α → Prop} {Q' : List (Done O R) → β → Prop} (h : p.Leads P Q)
    (hf : ∀ tr a, Q tr a → (f a).Leads P fun tr' b => Q' (tr ++ tr') b) : Leads P (p >>= f) Q' := by
  change Leads P (p.bind f) Q'
  induction p generalizing Q Q' with
  | pure a => exact hf [] a h
  | op o k ih => exact ⟨h.1, fun r hr => ih r (h.2 r hr) fun tr a => hf (⟨o, r⟩ :: tr) a⟩

theorem Prog.Leads.step {R : O → Type w} {P : (o : O) → R o → Prop} {o : O}
    {f : R o → Prog O R β} {Q : List (Done O R) → β → Prop} (ho : ∃ r, P o r)
    (hf : ∀ r, P o r → (f r).Leads P fun tr b => Q (⟨o, r⟩ :: tr) b) : Leads P (call o >>= f) Q := ⟨ho, hf⟩

/-- All operations the program may ever do are in `P`. -/
def Prog.Only (P : O → Prop) : Prog O R α → Prop
  | .pure _ => True
  | .op o k => P o ∧ ∀ r, (k r).Only P

theorem Prog.Only.bind {P : O → Prop} (h : p.Only P) (hf : ∀ a, (f a).Only P) : Only P (p >>= f) := by
  change Only P (p.bind f)
  induction p with
  | pure a => exact hf a
  | op o k ih => exact ⟨h.1, fun r => ih r (h.2 r)⟩

theorem Prog.Only.step {R : O → Type w} {P : O → Prop} {o : O} {f : R o → Prog O R β}
    (ho : P o) (hf : ∀ r, (f r).Only P) : Only P (call o >>= f) := ⟨ho, hf⟩

theorem Prog.Only.mono {P P' : O → Prop} (h : p.Only P) (hP : ∀ o, P o → P' o) : p.Only P' := by
  induction p with
  | pure a => exact True.intro
  | op o k ih => exact ⟨hP o h.1, fun r => ih r (h.2 r)⟩

theorem Prog.Only.of_runs {P : O → Prop} (h : p.Only P) (hr : Runs p tr p') : ∀ d ∈ tr, P d.1 := by
  induction hr with
  | nil => exact fun d hd => absurd hd List.not_mem_nil
  | cons _ ih => exact List.forall_mem_cons.mpr ⟨h.1, ih (h.2 _)⟩

theorem Prog.Only.rest {P : O → Prop} (h : p.Only P) (hr : Runs p tr p') : p'.Only P := by
  induction hr with
  | nil => exact h
  | cons _ ih => exact ih (h.2 _)

/-- Whatever the answers, a result of the program meets `Q`. -/
def Prog.Yields (Q : α → Prop) : Prog O R α → Prop
  | .pure a => Q a
  | .op _ k => ∀ r, (k r).Yields Q

theorem Prog.Yields.bind {P : α → Prop} {Q : β → Prop}
    (h : p.Yields P) (hf : ∀ a, P a → (f a).Yields Q) : Yields Q (p >>= f) := by
  change Yields Q (p.bind f)
  induction p with
  | pure a => exact hf a h
  | op o k ih => exact fun r => ih r (h r)

theorem Prog.Yields.step {R : O → Type w} {Q : β → Prop} {o : O} {f : R o → Prog O R β}
    (hf : ∀ r, (f r).Yields Q) : Yields Q (call o >>= f) := hf

theorem Prog.Yields.mono {Q Q' : α → Prop} (h : p.Yields Q) (hQ : ∀ a, Q a → Q' a) : p.Yields Q' := by
  induction p with
  | pure a => exact hQ a h
  | op o k ih => exact fun r => ih r (h r)

theorem Prog.Yields.trivial (p : Prog O R α) : p.Yields fun _ => True := by
  induction p with
  | pure a => exact True.intro
  | op o k ih => exact ih

theorem Prog.Yields.of_runs {Q : α → Prop} {a : α} (h : p.Yields Q) (hr : Runs p tr (pure a)) : Q a := by
  generalize hp : (pure a : Prog O R α) = p' at hr
  induction hr with
  | nil =>
      subst hp
      exact h
  | cons _ ih => exact ih (h _) hp

structure Spec (O : Type u) (R : O → Type v) (γ : Type x) where
  guar : γ → O → Prop
  rely : γ → (o : O) → R o → Prop
  next : γ → (o : O) → R o → γ

section

variable {γ : Type x}

namespace Spec

variable (S : Spec O R γ)

/-- The ghost state after the operations of a trace. -/
def ghost (g : γ) (tr : List (Done O R)) : γ := tr.foldl (fun g d => S.next g d.1 d.2) g

/-- Every answer of the trace met the rely condition when it came. -/
def Relied : γ → List (Done O R) → Prop
  | _, [] => True
  | g, ⟨o, r⟩ :: tr => S.rely g o r ∧ Relied (S.next g o r) tr

/-- Every operation of the trace met the guarantee when it was done. -/
def Kept : γ → List (Done O R) → Prop
  | _, [] => True
  | g, ⟨o, r⟩ :: tr => S.guar g o ∧ Kept (S.next g o r) tr

theorem ghost_snoc (g : γ) (tr : List (Done O R)) (o : O) (r : R o) :
    S.ghost g (tr ++ [⟨o, r⟩]) = S.next (S.ghost g tr) o r := by
  simp [ghost]

theorem ghost_append (g : γ) (tr tr' : List (Done O R)) :
    S.ghost g (tr ++ tr') = S.ghost (S.ghost g tr) tr' :=
  List.foldl_append ..

theorem ghost_trace {S : Spec O R (List (Done O R))} (hnext : ∀ tr o r, S.next tr o r = tr ++ [⟨o, r⟩])
    (tr tr' : List (Done O R)) : S.ghost tr tr' = tr ++ tr' := by
  induction tr' generalizing tr with
  | nil => exact (List.append_nil tr).symm
  | cons d tr' ih =>
      change S.ghost (S.next tr d.1 d.2) tr' = _
      rw [ih, hnext, List.append_assoc]
      rfl

theorem relied_append {g : γ} :
    S.Relied g (tr ++ tr') ↔ S.Relied g tr ∧ S.Relied (S.ghost g tr) tr' := by
  induction tr generalizing g with
  | nil => simp [Relied, ghost]
  | cons d tr ih =>
      obtain ⟨o, r⟩ := d
      simp only [List.cons_append, Relied, ih, ghost, List.foldl_cons, and_assoc]

theorem kept_append {g : γ} :
    S.Kept g (tr ++ tr') ↔ S.Kept g tr ∧ S.Kept (S.ghost g tr) tr' := by
  induction tr generalizing g with
  | nil => simp [Kept, ghost]
  | cons d tr ih =>
      obtain ⟨o, r⟩ := d
      simp only [List.cons_append, Kept, ih, ghost, List.foldl_cons, and_assoc]

/-- What every operation that meets the guarantee keeps of the ghost state holds after the trace. -/
theorem Kept.invariant {S : Spec O R γ} {I : γ → Prop} (hstep : ∀ g o r, I g → S.guar g o → I (S.next g o r))
    {g : γ} (h : S.Kept g tr) (hI : I g) : I (S.ghost g tr) := by
  induction tr generalizing g with
  | nil => exact hI
  | cons d tr ih => exact ih h.2 (hstep g d.1 d.2 hI h.1)

theorem Relied.invariant {S : Spec O R γ} {I : γ → Prop}
    (hstep : ∀ g o r, I g → S.guar g o → S.rely g o r → I (S.next g o r)) {g : γ}
    (h : S.Relied g tr) (hkept : S.Kept g tr) (hI : I g) : I (S.ghost g tr) := by
  induction tr generalizing g with
  | nil => exact hI
  | cons d tr ih => exact ih h.2 hkept.2 (hstep g d.1 d.2 hI hkept.1 h.1)

end Spec

/-- The weakest precondition. -/
def wp (S : Spec O R γ) : Prog O R α → (γ → α → Prop) → γ → Prop
  | .pure a, Q, g => Q g a
  | .op o k, Q, g => S.guar g o ∧ ∀ r, S.rely g o r → wp S (k r) Q (S.next g o r)

variable {S : Spec O R γ} {Q Q' : γ → α → Prop} {g : γ}

@[simp]
theorem wp_pure {a : α} : wp S (pure a) Q g ↔ Q g a := Iff.rfl

theorem wp_op {o : O} {k : R o → Prog O R α} :
    wp S (.op o k) Q g ↔ S.guar g o ∧ ∀ r, S.rely g o r → wp S (k r) Q (S.next g o r) := Iff.rfl

@[simp]
theorem wp_bind {Q : γ → β → Prop} :
    wp S (p >>= f) Q g ↔ wp S p (fun g a => wp S (f a) Q g) g := by
  change wp S (p.bind f) Q g ↔ _
  induction p generalizing g with
  | pure a => exact Iff.rfl
  | op o k ih => simp only [Prog.bind, wp_op, ih]

theorem wp_mono (h : wp S p Q g) (hQ : ∀ g a, Q g a → Q' g a) : wp S p Q' g := by
  induction p generalizing g with
  | pure a => exact hQ g a h
  | op o k ih => exact ⟨h.1, fun r hr => ih r (h.2 r hr)⟩

@[simp]
theorem wp_call {R : O → Type w} {S : Spec O R γ} {o : O} {Q : γ → R o → Prop} :
    wp S (Prog.call o) Q g ↔ S.guar g o ∧ ∀ r, S.rely g o r → Q (S.next g o r) r := Iff.rfl

/-- The rule for one operation and what follows. -/
theorem wp_then {R : O → Type w} {S : Spec O R γ} {o : O} {f : R o → Prog O R β} {Q : γ → β → Prop}
    (hg : S.guar g o) (h : ∀ r, S.rely g o r → wp S (f r) Q (S.next g o r)) : wp S (Prog.call o >>= f) Q g :=
  ⟨hg, h⟩

/-- The rule for a program with a known postcondition and what follows. -/
theorem wp_seq {P : γ → α → Prop} {Q : γ → β → Prop} (h : wp S p P g)
    (hf : ∀ g a, P g a → wp S (f a) Q g) : wp S (p >>= f) Q g :=
  wp_bind.mpr (wp_mono h hf)

/-- A program with a precondition keeps its guarantees along every run whose answers it can rely on,
and what is left of it has the precondition still. -/
theorem wp_runs (h : wp S p Q g) (hr : Runs p tr p')
    (hrely : S.Relied g tr) : S.Kept g tr ∧ wp S p' Q (S.ghost g tr) := by
  induction hr generalizing g with
  | nil => exact ⟨trivial, h⟩
  | cons _ ih =>
      obtain ⟨hk, hw⟩ := ih (h.2 _ hrely.1) hrely.2
      exact ⟨⟨h.1, hk⟩, hw⟩

/-- The same where the answers are known to be right for the operations a program may do. -/
theorem wp_runs_of {P : (o : O) → R o → Prop}
    (himp : ∀ g o r, S.guar g o → P o r → S.rely g o r) (h : wp S p Q g) (hr : Runs p tr p')
    (hP : ∀ d ∈ tr, P d.1 d.2) : S.Kept g tr ∧ wp S p' Q (S.ghost g tr) := by
  refine wp_runs h hr ?_
  induction hr generalizing g with
  | nil => exact trivial
  | cons _ ih =>
      have hrely := himp _ _ _ h.1 (hP _ List.mem_cons_self)
      exact ⟨hrely, ih (h.2 _ hrely) fun d hd => hP d (List.mem_cons_of_mem _ hd)⟩

/-- A program that keeps a contract ends, if there is an answer to everything the contract lets it
do. -/
theorem Prog.Ends.of_wp {P : (o : O) → R o → Prop} (hguar : ∀ g o, S.guar g o → ∃ r, P o r)
    (hrely : ∀ g o r, P o r → S.rely g o r) (h : wp S p Q g) : p.Ends P fun a => ∃ g, Q g a := by
  induction p generalizing g with
  | pure a => exact ⟨g, h⟩
  | op o k ih => exact ⟨hguar g o h.1, fun r hr => ih r (h.2 r (hrely g o r hr))⟩

/-- A program all of whose operations keep an invariant of the ghost state keeps it. -/
theorem Prog.Only.wp {P : O → Prop} {I : γ → Prop} (h : p.Only P)
    (hstep : ∀ g o, I g → P o → S.guar g o ∧ ∀ r, I (S.next g o r)) (hI : I g) :
    wp S p (fun g' _ => I g') g := by
  induction p generalizing g with
  | pure a => exact hI
  | op o k ih => exact ⟨(hstep g o hI h.1).1, fun r _ => ih r (h.2 r) ((hstep g o hI h.1).2 r)⟩

/-- Less may be guaranteed. -/
theorem wp_guar {G : γ → O → Prop} (h : wp S p Q g) (hG : ∀ g o, S.guar g o → G g o) :
    wp { S with guar := G } p Q g := by
  induction p generalizing g with
  | pure a => exact h
  | op o k ih => exact ⟨hG g o h.1, fun r hr => ih r (h.2 r hr)⟩

/-- More may be counted on. -/
theorem wp_rely {P : γ → (o : O) → R o → Prop} (h : wp S p Q g)
    (hP : ∀ g o r, P g o r → S.rely g o r) : wp { S with rely := P } p Q g := by
  induction p generalizing g with
  | pure a => exact h
  | op o k ih => exact ⟨h.1, fun r hr => ih r (h.2 r (hP g o r hr))⟩

/-- The postcondition may be strengthened by what holds of every result. -/
theorem wp_yields {P : α → Prop} (h : wp S p Q g) (hp : p.Yields P) :
    wp S p (fun g a => Q g a ∧ P a) g := by
  induction p generalizing g with
  | pure a => exact ⟨h, hp⟩
  | op o k ih => exact ⟨h.1, fun r hr => ih r (h.2 r hr) (hp r)⟩

theorem Spec.Relied.of_mem {g : γ} (h : S.Relied g tr) {o : O} {r : R o}
    (hd : ⟨o, r⟩ ∈ tr) : ∃ before after, tr = before ++ ⟨o, r⟩ :: after ∧ S.rely (S.ghost g before) o r := by
  obtain ⟨before, after, rfl⟩ := List.append_of_mem hd
  exact ⟨before, after, rfl, ((S.relied_append).mp h).2.1⟩

theorem Spec.Kept.of_mem {g : γ} (h : S.Kept g tr) {o : O} {r : R o}
    (hd : ⟨o, r⟩ ∈ tr) : ∃ before after, tr = before ++ ⟨o, r⟩ :: after ∧ S.guar (S.ghost g before) o := by
  obtain ⟨before, after, rfl⟩ := List.append_of_mem hd
  exact ⟨before, after, rfl, ((S.kept_append).mp h).2.1⟩

end

section

variable {γ δ : Type*} {S : Spec O R γ} {S' : Spec O R δ}

/-- Two specs at once, each with a ghost state of its own. -/
def Spec.prod (S : Spec O R γ) (S' : Spec O R δ) : Spec O R (γ × δ) where
  guar g o := S.guar g.1 o ∧ S'.guar g.2 o
  rely g o r := S.rely g.1 o r ∧ S'.rely g.2 o r
  next g o r := (S.next g.1 o r, S'.next g.2 o r)

theorem Spec.ghost_prod (g : γ) (d : δ) (tr : List (Done O R)) :
    (S.prod S').ghost (g, d) tr = (S.ghost g tr, S'.ghost d tr) := by
  induction tr generalizing g d with
  | nil => rfl
  | cons x tr ih => exact ih (S.next g x.1 x.2) (S'.next d x.1 x.2)

theorem Spec.Relied.right {g : γ} {d : δ} (h : (S.prod S').Relied (g, d) tr) :
    S'.Relied d tr := by
  induction tr generalizing g d with
  | nil => exact trivial
  | cons x tr ih => exact ⟨h.1.2, ih h.2⟩

/-- What can be relied on of the answers under one spec can be under another that asks less. -/
theorem Spec.Relied.imp {g : γ} (h : S.Relied g tr)
    (himp : ∀ g d o r, S.rely g o r → S'.rely d o r) (d : δ) : S'.Relied d tr := by
  induction tr generalizing g d with
  | nil => exact trivial
  | cons x tr ih => exact ⟨himp g d x.1 x.2 h.1, ih h.2 _⟩

theorem wp_prod {Q : γ → α → Prop} {Q' : δ → α → Prop} {g : γ} {d : δ} (h : wp S p Q g)
    (h' : wp S' p Q' d) : wp (S.prod S') p (fun g a => Q g.1 a ∧ Q' g.2 a) (g, d) := by
  induction p generalizing g d with
  | pure a => exact ⟨h, h'⟩
  | op o k ih => exact ⟨⟨h.1, h'.1⟩, fun r hr => ih r (h.2 r hr.1) (h'.2 r hr.2)⟩

/-- Of a contract another one follows whose ghost state is related to its. -/
theorem wp_sim {Q : γ → α → Prop} {g : γ} {d : δ} {P : γ → δ → Prop}
    (hguar : ∀ g d o, P g d → S.guar g o → S'.guar d o)
    (hrely : ∀ g d o r, P g d → S.guar g o → S'.rely d o r → S.rely g o r)
    (hnext : ∀ g d o r, P g d → S.guar g o → P (S.next g o r) (S'.next d o r)) (h : wp S p Q g) (hP : P g d) :
    wp S' p (fun d a => ∃ g, P g d ∧ Q g a) d := by
  induction p generalizing g d with
  | pure a => exact ⟨g, hP, h⟩
  | op o k ih =>
      exact ⟨hguar g d o hP h.1, fun r hr => ih r (h.2 r (hrely g d o r hP h.1 hr)) (hnext g d o r hP h.1)⟩

end

section

variable {γ ι : Type*} {S : ι → Spec O R γ}

/-- A family of specs as one. The ghost state says which of them a program keeps. -/
def Spec.indexed (S : ι → Spec O R γ) : Spec O R (ι × γ) where
  guar g o := (S g.1).guar g.2 o
  rely g o r := (S g.1).rely g.2 o r
  next g o r := (g.1, (S g.1).next g.2 o r)

theorem Spec.ghost_indexed (i : ι) (g : γ) (tr : List (Done O R)) :
    (Spec.indexed S).ghost (i, g) tr = (i, (S i).ghost g tr) := by
  induction tr generalizing g with
  | nil => rfl
  | cons d tr ih => exact ih ((S i).next g d.1 d.2)

theorem wp_indexed {Q : ι × γ → α → Prop} {i : ι} {g : γ} :
    wp (Spec.indexed S) p Q (i, g) ↔ wp (S i) p (fun g a => Q (i, g) a) g := by
  induction p generalizing g with
  | pure a => exact Iff.rfl
  | op o k ih => exact and_congr Iff.rfl (forall_congr' fun r => forall_congr' fun _ => ih r)

end

end Nestor.Lib
