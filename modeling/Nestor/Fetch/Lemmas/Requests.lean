import Nestor.Engine.Law

/-!
# Requests to the origin

What comes back from `origin_get`, `head` and `past_end`: an answer that carries a version of the
object. None of them touches the slots of its caller.
-/

namespace Nestor

open Lib

variable {g' : Held} {o : Op} {deadline fuel : Nat}

/-- The task comes to own `owned`; what it knows only grows. -/
structure Held.Moves (g : Held) (owned : Multiset Slot) (g' : Held) : Prop where
  owned : g'.owned = owned
  task : g'.task = g.task
  seen : g'.seen = g.seen
  told : ∀ m ∈ g.told, m ∈ g'.told
  turns : g.turns ≤ g'.turns

/-- The task keeps its slots. -/
structure Held.Hears (g g' : Held) : Prop extends g.Moves g.owned g' where
  lost : g'.lost = g.lost

namespace Held

theorem Moves.trans {g g'' : Held} {owned owned'} (h : g.Moves owned g') (h' : g'.Moves owned' g'') :
    g.Moves owned' g'' where
  owned := h'.owned
  task := h'.task.trans h.task
  seen := h'.seen.trans h.seen
  told := fun m hm => h'.told m (h.told m hm)
  turns := h.turns.trans h'.turns

theorem Hears.refl (g : Held) : g.Hears g := ⟨⟨rfl, rfl, rfl, fun _ h => h, Nat.le_refl _⟩, rfl⟩

theorem Hears.trans {g g'' : Held} (h : g.Hears g') (h' : g'.Hears g'') : g.Hears g'' :=
  ⟨by have := h.toMoves.trans h'.toMoves; rwa [h.owned] at this, h'.lost.trans h.lost⟩

theorem Hears.after {g : Held} {r : Resp o} (h : g' = g.after o r) (ho : o.moves = false) :
    g.Hears g' := by
  have same : ∀ g' : Held, g'.owned = g.owned → g'.task = g.task → g'.seen = g.seen → g'.lost = g.lost →
      (∀ m ∈ g.told, m ∈ g'.told) → g.turns ≤ g'.turns → g.Hears g' :=
    fun g' ho hw hr hl ht hs => ⟨⟨ho, hw, hr, ht, hs⟩, hl⟩
  subst h
  cases o
  case register => simp [Op.moves] at ho
  case publish => simp [Op.moves] at ho
  case spawn => simp [Op.moves] at ho
  case wait => simp [Op.moves] at ho
  case opened => simp [Op.moves] at ho
  case item => simp [Op.moves] at ho
  case metaLookup =>
    cases r
      <;> exact same _ rfl rfl rfl rfl (fun _ h => by simp [Held.after, Held.note, Held.quiet, h])
      (Nat.le_add_right _ _)
  case awaitGet =>
    rcases r with (⟨i, e | r⟩ | _) | _ | _ <;>
      exact same _ rfl rfl rfl rfl (fun _ h => by simp [Held.after, Held.note, Held.quiet, h])
        (Nat.le_add_right _ _)
  case awaitHead =>
    rcases r with (e | m) | _ | _ <;>
      exact same _ rfl rfl rfl rfl (fun _ h => by simp [Held.after, Held.note, Held.quiet, h])
        (Nat.le_add_right _ _)
  all_goals exact same _ rfl rfl rfl rfl (fun _ h => h) (Nat.le_add_right _ _)

theorem hot_after {g : Held} {r : Resp o} {ns object : Bytes} {m : ObjectMeta} (hg : g' = g.after o r)
    (h : g.hot ns object m) (ho : o.keeps = true) : g'.hot ns object m := hg ▸ .inr ⟨ho, h⟩

end Held

variable [TagHash] {T : Terms} {g : Held} {ctx : ReadCtx}

/-- The rule for an operation that leaves the slots alone and of whose ghost state nothing else is
needed. -/
theorem Terms.wp_quiet {α : Type} {f : Resp o → Program α} {Q : Held → α → Prop} (hg : T.guar g o)
    (ho : o.moves = false) (h : ∀ r g', g.Hears g' → T.rely o r → wp T.spec (f r) Q g') :
    wp T.spec (perform o >>= f) Q g :=
  wp_step hg fun r g' hg' hr => h r g' (.after hg' ho) hr

/-- A program that does not wait keeps the answer at hand. -/
theorem Terms.wp_hot {α : Type} {p : Program α} {ns object : Bytes} {m : ObjectMeta} {Q : Held → α → Prop}
    (ho : p.Only (·.keeps = true)) (hhot : g.hot ns object m) (h : wp T.spec p Q g) :
    wp T.spec p (fun g' a => Q g' a ∧ g'.hot ns object m) g := by
  induction p generalizing g with
  | pure a => exact ⟨h, hhot⟩
  | op o k ih => exact ⟨h.1, fun r hr => ih r (ho.2 r) (Held.hot_after rfl hhot ho.1) (h.2 r hr)⟩

theorem Universe.CtxOk.versions {U : Universe} (h : U.CtxOk ctx) (v : Version) :
    U.versions ctx.namespace.name ctx.name v ↔ U.Has ctx.key.namespace ctx.key.object v := by
  rw [Universe.Has, h.key, h.knows.name]

/-! ## GET -/

/-- What has been heard of an answer: the metadata of a response is at hand, and the response
carries a version of the object; metadata that is still valid has the ETag the request asked
about. -/
def Law.Answered (L : Law) (ns object : Bytes) (options : GetOptions) (g : Held) :
    Awaited (Except OriginError GetResponse) → Prop
  | .ready (.ok r) => g.hot ns object r.meta ∧ r.meta ∈ g.told ∧ ∃ v, L.versions ns object v ∧ r.Of v
  | .ready (.error e) => e = .notModified → ∀ m : ObjectMeta, m.etag = options.ifNoneMatch → g.hot ns object m
  | _ => True

/-- The requests are copies of one request. -/
structure Copies (ns object : Bytes) (options : GetOptions) (requests : List GetRequest) : Prop where
  some : requests ≠ []
  eq : ∀ req ∈ requests, req.namespace = ns ∧ req.object = object ∧ req.options = options

open Terms

theorem awaitGet_wp {ns object options} {requests : List GetRequest} {hedge : Bool}
    {k : Awaited GetAnswer → Program (Awaited (Except OriginError GetResponse))} {Q}
    (hg : ∀ req ∈ requests, req ∈ g.gets) (hc : Copies ns object options requests)
    (hok : ∀ g' i r, g.Hears g' → T.law.Answered ns object options g' (.ready (.ok r)) →
      wp T.spec (k (.ready (.answered i (.ok r)))) Q g')
    (herr : ∀ g' i e, g.Hears g' → g'.gets = requests →
      T.law.Answered ns object options g' (.ready (.error e)) →
      wp T.spec (k (.ready (.answered i (.error e)))) Q g')
    (hrest : ∀ g' a, g.Hears g' → g'.gets = requests →
      (a = .ready .stalled ∧ hedge) ∨ a = .timeout ∨ a = .dropped → wp T.spec (k a) Q g') :
    wp T.spec (perform (.awaitGet requests hedge deadline) >>= k) Q g := by
  refine wp_step hg fun answer g' hg' hrely => ?_
  have hh := Held.Hears.after hg' rfl
  match answer, hg', hrely with
  | .ready (.answered i (.ok r)), hg', ⟨req, v, hreq, hv, hof⟩ =>
      obtain ⟨h1, h2, -⟩ := hc.eq req (List.mem_of_getElem? hreq)
      rw [h1, h2] at hv
      refine hok _ i _ hh ⟨hg' ▸ .inl ⟨rfl, fun req hreq => ?_⟩, hg' ▸ List.mem_cons_self, v, hv, hof⟩
      obtain ⟨h1, h2, -⟩ := hc.eq req (List.mem_of_getElem? hreq)
      exact ⟨h1, h2⟩
  | .ready (.answered i (.error e)), hg', _ =>
      refine herr _ i e hh (hg' ▸ rfl) fun he m hm => ?_
      rw [hg']
      refine .inl ⟨he, fun req hreq => ?_⟩
      obtain ⟨h1, h2, h3⟩ := hc.eq req (List.mem_of_getElem? hreq)
      exact ⟨h1, h2, by rw [h3, hm]⟩
  | .ready .stalled, hg', hs => exact hrest _ _ hh (hg' ▸ rfl) (.inl ⟨rfl, hs⟩)
  | .timeout, hg', _ => exact hrest _ _ hh (hg' ▸ rfl) (.inr (.inl rfl))
  | .dropped, hg', _ => exact hrest _ _ hh (hg' ▸ rfl) (.inr (.inr rfl))

theorem awaitLast_wp {ns object options} {req : GetRequest} (hg : req ∈ g.gets)
    (hc : Copies ns object options [req]) :
    wp T.spec (awaitLast req deadline)
      (fun g' a => g.Hears g' ∧ T.law.Answered ns object options g' a) g := by
  unfold awaitLast
  refine awaitGet_wp (by simpa using hg) hc ?_ ?_ ?_
  · intro g' i r hh ha
    exact ⟨hh, ha⟩
  · intro g' i e hh _ ha
    exact ⟨hh, ha⟩
  · rintro g' _ hh _ (⟨-, hf⟩ | rfl | rfl)
    · cases hf
    · exact ⟨hh, trivial⟩
    · exact ⟨hh, trivial⟩

theorem awaitBoth_wp {ns object options} {primary secondary : GetRequest}
    (hg : ∀ req ∈ [primary, secondary], req ∈ g.gets) (hc : Copies ns object options [primary, secondary]) :
    wp T.spec (awaitBoth primary secondary deadline)
      (fun g' a => g.Hears g' ∧ T.law.Answered ns object options g' a) g := by
  unfold awaitBoth
  refine awaitGet_wp hg hc ?_ ?_ ?_
  · intro g₁ i r hh ha
    exact ⟨hh, ha⟩
  · intro g₁ i e hh hgets ha
    dsimp only
    split
    · have hmem : (if i = 0 then secondary else primary) ∈ [primary, secondary] := by split <;> simp
      have hc' : Copies ns object options [if i = 0 then secondary else primary] :=
        ⟨by simp, fun req hreq => by rw [List.mem_singleton.mp hreq]; exact hc.eq _ hmem⟩
      exact wp_mono (awaitLast_wp (hgets ▸ hmem) hc') fun g₂ a h => ⟨hh.trans h.1, h.2⟩
    · exact ⟨hh, ha⟩
  · rintro g₁ _ hh - (⟨-, hf⟩ | rfl | rfl)
    · cases hf
    · exact ⟨hh, trivial⟩
    · exact ⟨hh, trivial⟩

theorem getHedged_wp {options : GetOptions} (hl : ∀ slot ∈ g.lost, ¬ T.Old slot) :
    wp T.spec (getHedged ctx options deadline)
      (fun g' a => g.Hears g' ∧ T.law.Answered ctx.namespace.name ctx.name options g' a) g := by
  unfold getHedged
  refine wp_step hl fun primary g₁ hg₁ hp => ?_
  have h₁ := Held.Hears.after hg₁ rfl
  have hc : Copies ctx.namespace.name ctx.name options [primary] :=
    ⟨by simp, fun req hreq => List.mem_singleton.mp hreq ▸ hp⟩
  refine awaitGet_wp (fun _ h => hg₁ ▸ h) hc ?_ ?_ ?_
  · intro g₂ i r h₂ ha
    exact ⟨h₁.trans h₂, ha⟩
  · intro g₂ i e h₂ _ ha
    exact ⟨h₁.trans h₂, ha⟩
  rintro g₂ _ h₂ hgets (⟨rfl, -⟩ | rfl | rfl)
  · refine wp_step (show primary ∈ g₂.gets by simp [hgets]) fun second g₃ hg₃ hs => ?_
    have h₃ := (h₁.trans h₂).trans (.after hg₃ rfl)
    cases second with
    | none =>
        have hmem : primary ∈ g₃.gets := hg₃ ▸ List.mem_cons_self
        exact wp_mono (awaitLast_wp hmem hc) fun g₄ a h => ⟨h₃.trans h.1, h.2⟩
    | some secondary =>
        have hc₂ : Copies ctx.namespace.name ctx.name options [primary, secondary] := by
          refine ⟨by simp, fun req hreq => ?_⟩
          rcases List.mem_cons.mp hreq with rfl | hreq
          · exact hp
          · rw [List.mem_singleton.mp hreq, hs.1, hs.2.1, hs.2.2]
            exact hp
        have hgets₃ : g₃.gets = [primary, secondary] := hg₃ ▸ rfl
        exact wp_mono (awaitBoth_wp (fun _ h => hgets₃ ▸ h) hc₂) fun g₄ a h => ⟨h₃.trans h.1, h.2⟩
  · exact ⟨h₁.trans h₂, trivial⟩
  · exact ⟨h₁.trans h₂, trivial⟩

theorem originGet_wp {options : GetOptions} (hl : ∀ slot ∈ g.lost, ¬ T.Old slot) :
    wp T.spec (originGet ctx options deadline)
      (fun g' a => g.Hears g' ∧ T.law.Answered ctx.namespace.name ctx.name options g' a) g := by
  unfold originGet
  refine wp_quiet trivial rfl fun started g₁ h₁ _ => ?_
  refine wp_seq (getHedged_wp (h₁.lost ▸ hl)) fun g₂ a h => ?_
  obtain ⟨h₂, ha⟩ := h
  match a with
  | .timeout => exact ⟨h₁.trans h₂, nofun⟩
  | .ready result => exact ⟨h₁.trans h₂, ha⟩
  | .dropped => exact ⟨h₁.trans h₂, trivial⟩

theorem pause_wp {retry : Retry} {e : OriginError} :
    wp T.spec (retry.pause e)
      (fun g' a => g.Hears g' ∧ ∀ retry, a = some (retry, .ok ()) → g.turns < g'.turns) g := by
  unfold Retry.pause
  refine wp_quiet trivial rfl fun now g₁ h₁ _ => ?_
  split
  · exact ⟨h₁, nofun⟩
  · refine wp_step trivial fun woken g₂ hg₂ _ => ?_
    have h₂ := h₁.trans (.after hg₂ rfl)
    match woken, hg₂ with
    | .ready (), hg₂ =>
        refine ⟨h₂, fun _ _ => ?_⟩
        have ht₁ := h₁.turns
        have ht₂ : g₂.turns = g₁.turns + 1 := hg₂ ▸ rfl
        omega
    | .timeout, _ => exact ⟨h₂, nofun⟩
    | .dropped, _ => exact ⟨h₂, nofun⟩

/-! ## HEAD -/

/-- The metadata is at hand and is that of a version of the object. -/
def Law.Described (L : Law) (key : ObjectKey) (g : Held) (m : ObjectMeta) : Prop :=
  g.hot (L.name key.namespace) key.object m ∧ m ∈ g.told ∧ L.Describes key m

section

variable {ns : NamespaceState} {name : Bytes}

/-- A failed attempt is retried, or its error is returned and the metadata is dropped. -/
theorem headRetry_wp {retry : Retry} {g₁ : Held} (h₁ : g.Hears g₁)
    (ih : ∀ {g₂ : Held} (retry : Retry), T.budget ≤ g₂.turns + fuel →
      wp T.spec (headLoop ns ⟨ns.id, name⟩ name fuel retry)
        (fun g' a => g₂.Hears g' ∧ ∀ m, a = some (.ok m) → T.law.Described ⟨ns.id, name⟩ g' m) g₂)
    (hf : T.budget ≤ g.turns + (fuel + 1)) (e : OriginError) :
    wp T.spec (do
      match ← retry.pause e with
      | none => pure none
      | some (_, .error e) =>
          perform (.metaRemove ⟨ns.id, name⟩)
          pure (some (.error (.ofOrigin e)))
      | some (retry, .ok ()) => headLoop ns ⟨ns.id, name⟩ name fuel retry)
    (fun g' a => g.Hears g' ∧ ∀ m, a = some (.ok m) → T.law.Described ⟨ns.id, name⟩ g' m) g₁ := by
  refine wp_seq pause_wp fun g₂ a h₂ => ?_
  obtain ⟨h₂, hgo⟩ := h₂
  have h₂ := h₁.trans h₂
  obtain _ | ⟨retry, e | ⟨⟩⟩ := a
  · exact ⟨h₂, by simp⟩
  · refine wp_quiet trivial rfl fun _ g₃ h₃ _ => ?_
    exact ⟨h₂.trans h₃, by simp⟩
  · have ht₁ := h₁.turns
    have ht₂ := hgo retry rfl
    exact wp_mono (ih retry (by omega)) fun g₃ a h => ⟨h₂.trans h.1, h.2⟩

theorem headLoop_wp (hk : T.law.Knows ns) (retry : Retry) (hf : T.budget ≤ g.turns + fuel) :
    wp T.spec (headLoop ns ⟨ns.id, name⟩ name fuel retry)
      (fun g' a => g.Hears g' ∧ ∀ m, a = some (.ok m) → T.law.Described ⟨ns.id, name⟩ g' m) g := by
  induction fuel generalizing retry g with
  | zero => exact ⟨hf, fun never => by cases never⟩
  | succ fuel ih =>
      unfold headLoop
      refine wp_step trivial fun started g₁ hg₁ _ => ?_
      refine wp_step trivial fun request g₂ hg₂ hreq => ?_
      have h₂ := (Held.Hears.after hg₁ rfl).trans (.after hg₂ rfl)
      refine wp_step (show request ∈ g₂.heads from hg₂ ▸ List.mem_cons_self) fun answer g₃ hg₃ hrely => ?_
      have h₃ := h₂.trans (.after hg₃ rfl)
      obtain (e | m) | _ | _ := answer
      · exact headRetry_wp h₃ (fun retry => ih retry) hf _
      · obtain ⟨v, hv, hn⟩ := hrely
        have hd : T.law.Describes ⟨ns.id, name⟩ m := by
          refine ⟨v, ?_, hn⟩
          rw [hreq.1, hreq.2] at hv
          rw [Universe.Has, ← hk.name]
          exact hv
        have hhot : g₃.hot (T.law.name ns.id) name m := hg₃ ▸ .inl ⟨hreq.1.trans hk.name, hreq.2, rfl⟩
        refine wp_step ⟨hd, .inl hhot⟩ fun _ g₄ hg₄ _ => ⟨h₃.trans (.after hg₄ rfl), ?_⟩
        rintro _ ⟨⟩
        subst hg₄
        exact ⟨Held.hot_after rfl hhot rfl, hg₃ ▸ List.mem_cons_self, hd⟩
      · exact headRetry_wp h₃ (fun retry => ih retry) hf _
      · exact ⟨h₃, by simp⟩

theorem head_wp (hk : T.law.Knows ns) (hf : T.budget ≤ g.turns + fuel) :
    wp T.spec (head fuel ns ⟨ns.id, name⟩ name)
      (fun g' a => g.Hears g' ∧ ∀ m, a = some (.ok m) → T.law.Described ⟨ns.id, name⟩ g' m) g := by
  unfold head
  refine wp_quiet trivial rfl fun now g₁ h₁ _ => ?_
  have hs := h₁.turns
  exact wp_mono (headLoop_wp hk _ (by omega)) fun g₂ a h => ⟨h₁.trans h.1, h.2⟩

theorem pastEnd_wp (hk : T.law.Knows ns) (hf : T.budget ≤ g.turns + fuel) (start : Nat) :
    wp T.spec (pastEnd fuel ns ⟨ns.id, name⟩ name start)
      (fun g' a => g.Hears g' ∧
        ∀ m, a = some (some m) → T.law.Described ⟨ns.id, name⟩ g' m ∧ m.size ≤ start) g := by
  unfold pastEnd
  refine wp_seq (head_wp hk hf) fun g' a h => ?_
  obtain ⟨hh, ha⟩ := h
  match a with
  | none => exact ⟨hh, nofun⟩
  | some (.error _) => exact ⟨hh, nofun⟩
  | some (.ok m) =>
      refine ⟨hh, fun m' hm => ?_⟩
      by_cases hs : m.size ≤ start
      · rw [if_pos hs] at hm
        cases hm
        exact ⟨ha m rfl, hs⟩
      · rw [if_neg hs] at hm
        cases hm

end

end Nestor
