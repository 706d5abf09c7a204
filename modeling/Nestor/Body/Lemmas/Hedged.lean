import Nestor.Body.Lemmas.Stream

/-!
# The race between a primary and its backup

`P` tells which contents the streams of a hedged body may carry: that of the version being read, or,
where tags are not compared, any content the origin has had. While block `index` is awaited, the
primary and a streaming backup stand at its first byte.
-/

namespace Nestor

open Lib

variable {b b' : HedgedBody}

/-- The stream stands at `pos` of an admissible content. -/
def StreamFrom (P : Bytes → Prop) (pos : Nat) (s : BlockStream) : Prop := ∃ data, P data ∧ StreamAt data pos s

theorem StreamFrom.turn_none {P pos n} {s s' : BlockStream} (h : StreamFrom P pos s)
    (ht : s.turn n = (s', none)) : StreamFrom P pos s' := by
  obtain ⟨data, hP, hs⟩ := h
  exact ⟨data, hP, hs.turn_none ht⟩

/-- A block cut out of an admissible content. -/
def CutFrom (P : Bytes → Prop) (pos n : Nat) (block : Bytes) : Prop :=
  (∃ data, P data ∧ block = slice data pos (pos + n)) ∧ block.length = n

theorem StreamFrom.turn_ok {P pos n} {s s' : BlockStream} {block : Bytes} (h : StreamFrom P pos s)
    (ht : s.turn n = (s', some (.ok block))) : CutFrom P pos n block ∧ StreamFrom P (pos + n) s' := by
  obtain ⟨data, hP, hs⟩ := h
  obtain ⟨hb, hl, hs'⟩ := hs.turn_ok ht
  exact ⟨⟨⟨data, hP, hb⟩, hl⟩, data, hP, hs'⟩

namespace HedgedBody

structure Inv (P : Bytes → Prop) (pos : Nat) (b : HedgedBody) (waiting : Waiting) : Prop where
  /-- Only a primary that failed while the backup was opening is of no more use. -/
  primary : (∀ e, waiting ≠ .opening e) → StreamFrom P pos b.primary
  backup : ∀ s, b.backup = .streaming s → StreamFrom P pos s
  alone : waiting ≠ .race → b.backup = .idle

theorem Inv.of_idle {P pos w} (hp : StreamFrom P pos b.primary) (hb : b.backup = .idle) :
    b.Inv P pos w where
  primary := fun _ => hp
  backup := fun s hs => by rw [hb] at hs; cases hs
  alone := fun _ => hb

theorem Inv.new {P ctx} {r : GetResponse} {data : Bytes} (hP : P data) (h : r.Carries data) (rangeEnd : Nat) :
    (HedgedBody.new ctx r.body rangeEnd).Inv P r.range.start .race :=
  .of_idle ⟨data, hP, StreamAt.new h⟩ rfl

/-- What a resumed call leaves behind. -/
def After (P : Bytes → Prop) (pos expected : Nat) (b : HedgedBody) : Poll → Prop
  | .pending w => b.Inv P pos w
  | .ready (.ok block) => CutFrom P pos expected block ∧ b.Inv P (pos + expected) .race ∧ b.backup = .idle
  | .ready (.error _) => True

theorem onPrimary_after {P pos expected} {r b' poll} (h : b.onPrimary r = (b', poll))
    (hb : ∀ s, b.backup = .streaming s → StreamFrom P pos s)
    (hr : ∀ block, r = .ok block → CutFrom P pos expected block ∧ StreamFrom P (pos + expected) b.primary) :
    b'.After P pos expected poll := by
  cases r with
  | ok block =>
      simp only [onPrimary, Prod.mk.injEq] at h
      obtain ⟨rfl, rfl⟩ := h
      obtain ⟨hc, hs⟩ := hr block rfl
      exact ⟨hc, .of_idle hs rfl, rfl⟩
  | error e =>
      simp only [onPrimary] at h
      split at h
      · cases hk : b.backup with
        | idle => simp only [hk, Prod.mk.injEq] at h; obtain ⟨rfl, rfl⟩ := h; trivial
        | opening o =>
            simp only [hk, Prod.mk.injEq] at h
            obtain ⟨rfl, rfl⟩ := h
            exact ⟨fun hw => absurd rfl (hw e), (by simp), fun _ => rfl⟩
        | streaming s =>
            simp only [hk, Prod.mk.injEq] at h
            obtain ⟨rfl, rfl⟩ := h
            exact .of_idle (hb s hk) rfl
      · simp only [Prod.mk.injEq] at h
        obtain ⟨rfl, rfl⟩ := h
        trivial

end HedgedBody

section

variable [TagHash]

/-- The tag check of `adopt` lets the response pass. -/
def Usable (ctx : ReadCtx) (r : GetResponse) : Prop :=
  ctx.tag = immutableTag ∨ contentTag r.meta.etag r.meta.size = ctx.tag

instance (ctx : ReadCtx) (r : GetResponse) : Decidable (Usable ctx r) := instDecidableOr

/-- A backup's response that passes the tag check carries an admissible content. -/
def BodyEvent.Honest (P : Bytes → Prop) (ctx : ReadCtx) (ev : BodyEvent) : Prop :=
  ∀ r, ev = .opened (.ok r) → Usable ctx r → ∃ data, P data ∧ r.Carries data

namespace HedgedBody

theorem adopt_streamFrom {P start} {response s} (h : b.adopt response start = some s)
    (hev : (BodyEvent.opened response).Honest P b.ctx) : StreamFrom P start s := by
  unfold adopt at h
  cases response with
  | error e => simp at h
  | ok r =>
      simp only at h
      split at h
      · rename_i hle
        split at h
        · rename_i hc
          cases h
          obtain ⟨data, hP, hd⟩ := hev r rfl hc.1
          exact ⟨data, hP, StreamAt.skipping hd hle⟩
        · cases h
      · cases h

theorem adopt_of_not_usable {r : GetResponse} (h : ¬ Usable b.ctx r) (start : Nat) :
    b.adopt (.ok r) start = none := by
  unfold adopt
  simp only
  split
  · rw [if_neg (fun hc => h hc.1)]
  · rfl

/-- Both streams race for the owed block: every event keeps them at it, until one of them delivers
it. -/
theorem nextBlock_race {P index expected} {ev poll}
    (h : b.nextBlock index expected .race ev = some (b', poll))
    (hi : b.Inv P (b.ctx.namespace.config.blockSize.offset index) .race) (hev : ev.Honest P b.ctx) :
    b'.After P (b.ctx.namespace.config.blockSize.offset index) expected poll := by
  unfold nextBlock at h
  generalize b.ctx.namespace.config.blockSize.offset index = pos at h hi ⊢
  cases ev with
  | primary =>
      have hp := hi.primary (by simp)
      simp only at h
      cases ht : b.primary.turn expected with
      | mk s r =>
          simp only [ht] at h
          cases r with
          | none =>
              cases h
              exact ⟨fun _ => hp.turn_none ht, hi.backup, by simp⟩
          | some r =>
              simp only [Option.some.injEq] at h
              refine onPrimary_after h hi.backup ?_
              intro block hr
              subst hr
              exact hp.turn_ok ht
  | stalled permit =>
      simp only at h
      split at h
      · rename_i hk _
        split at h
        · cases h
          exact ⟨fun _ => hi.primary (by simp), (by simp), by simp⟩
        · cases h
          exact .of_idle (hi.primary (by simp)) hk
      · cases h
  | opened response =>
      simp only at h
      split at h
      · split at h
        · rename_i s ha
          cases h
          refine ⟨fun _ => hi.primary (by simp), ?_, by simp⟩
          intro s' hs'
          cases hs'
          exact adopt_streamFrom ha hev
        · cases h
          exact .of_idle (hi.primary (by simp)) rfl
      · cases h
  | backup =>
      simp only at h
      split at h
      · rename_i s hk
        have hs := hi.backup s hk
        split at h
        · rename_i s' ht
          cases h
          refine ⟨fun _ => hi.primary (by simp), ?_, by simp⟩
          intro s'' hs''
          cases hs''
          exact hs.turn_none ht
        · rename_i s' block ht
          cases h
          obtain ⟨hc, hs'⟩ := hs.turn_ok ht
          exact ⟨hc, .of_idle hs' rfl, rfl⟩
        · cases h
          exact .of_idle (hi.primary (by simp)) rfl
      · cases h

theorem nextBlock_after {P index expected} {w ev poll} (h : b.nextBlock index expected w ev = some (b', poll))
    (hi : b.Inv P (b.ctx.namespace.config.blockSize.offset index) w) (hev : ev.Honest P b.ctx) :
    b'.After P (b.ctx.namespace.config.blockSize.offset index) expected poll := by
  match w, ev with
  | .race, _ => exact nextBlock_race h hi hev
  | .primary, .primary =>
      unfold nextBlock at h
      have hp := hi.primary (by simp)
      have hk := hi.alone (by simp)
      simp only at h
      cases ht : b.primary.turn expected with
      | mk s r =>
          simp only [ht] at h
          cases r with
          | none =>
              cases h
              exact .of_idle (hp.turn_none ht) hk
          | some r =>
              cases h
              cases r with
              | error e => trivial
              | ok block =>
                  obtain ⟨hc, hs⟩ := hp.turn_ok ht
                  exact ⟨hc, .of_idle hs hk, hk⟩
  | .opening e, .opened response =>
      simp only [nextBlock] at h
      split at h
      · rename_i s ha
        cases h
        exact .of_idle (adopt_streamFrom ha hev) (hi.alone (by simp))
      · cases h
        trivial

theorem nextBlock_of_expects {w ev} (h : b.expects w ev) (index expected : Nat) :
    ∃ out, b.nextBlock index expected w ev = some out := by
  rw [← Option.isSome_iff_exists]
  unfold nextBlock
  unfold expects at h
  grind

theorem nextBlock_ctx {index expected} {w ev poll}
    (h : b.nextBlock index expected w ev = some (b', poll)) : b'.ctx = b.ctx ∧ b'.rangeEnd = b.rangeEnd := by
  unfold nextBlock onPrimary at h
  grind

end HedgedBody

end

end Nestor
