import Nestor.Fetch.Lemmas.Schedule
import Nestor.Read.Lemmas.Progress

/-!
# Resolving the context of a read

`resolve_ctx` returns a context of the object, and handles for the blocks its request starts with.
Only a bounded read of an immutable object goes on without metadata.
-/

namespace Nestor

open Lib Terms

variable {range : Range} {ctx : ReadCtx}

/-- The first block of a request, as far as that is known without the size. -/
def ReadRange.firstIndex (bs : BlockSize) : ReadRange → Nat
  | .from start => bs.index start
  | .bounded r => bs.index r.start
  | _ => 0

theorem BlockSize.firstGroup_spec {bs : BlockSize} {request : ReadRange} {window : Nat} {indexes : Range}
    (h : bs.firstGroup request window = some indexes) :
    indexes.start = request.firstIndex bs ∧ indexes.stop ≤ maxU32 := by
  have hm : maxU32 = 2 ^ 32 - 1 := rfl
  have hadd (a b : Nat) : addU32 a b ≤ maxU32 := by
    have : addU32 a b < 2 ^ 32 := Nat.mod_lt _ (by decide)
    omega
  cases request <;> cases h <;> exact ⟨rfl, hadd _ _⟩

theorem ReadRange.index_start {bs : BlockSize} {request : ReadRange} {size : Nat}
    (h : request.resolve size = .ok range) (hs : ∀ len, request ≠ .suffix len) :
    bs.index range.start = request.firstIndex bs := by
  cases request with
  | full =>
      cases h
      exact bs.index_eq 0 ▸ by simp [ReadRange.firstIndex]
  | bounded r =>
      simp only [ReadRange.resolve] at h
      split at h <;> cases h
      rfl
  | «from» start =>
      simp only [ReadRange.resolve] at h
      split at h <;> cases h
      rfl
  | suffix len => exact absurd rfl (hs len)

/-- The range of a read, as far as it belongs to every content with the size that is known. -/
structure ReadRange.Gives (request : ReadRange) (known : Option ObjectMeta) (range : Range) : Prop where
  shape : range.start < range.stop ∨ range = ⟨0, 0⟩
  asked : ∀ size, (∀ m, known = some m → m.size = size) → ∀ resolved, request.resolve size = .ok resolved →
    resolved.start = range.start ∧ resolved.stop = min range.stop size
  first : ∀ bs : BlockSize, (∀ len, request ≠ .suffix len) → bs.index range.start = request.firstIndex bs

variable {request : ReadRange}

theorem ReadRange.Gives.of_resolve {m : ObjectMeta}
    (h : request.resolve m.size = .ok range) : request.Gives (some m) range where
  shape := (ReadRange.resolve_stop h).2
  asked := fun size hm resolved hres => by
    rw [← hm m rfl, h] at hres
    cases hres
    rw [← hm m rfl, Nat.min_eq_left (ReadRange.resolve_stop h).1]
    exact ⟨rfl, rfl⟩
  first := fun bs hs => ReadRange.index_start h hs

/-- Without metadata the range is the one that was asked for. -/
theorem ReadRange.Gives.of_readRange
    (h : readRange ctx request = some (.ok range)) : request.Gives ctx.meta range := by
  unfold readRange ReadCtx.size at h
  cases hm : ctx.meta with
  | some m =>
      rw [hm] at h
      exact .of_resolve (Option.some.inj h)
  | none =>
      rw [hm] at h
      cases request with
      | bounded r =>
          simp only [Option.map_none, Option.some.injEq] at h
          split at h <;> cases h
          refine ⟨.inl (by omega), fun size _ resolved hres => ?_, fun _ _ => rfl⟩
          simp only [ReadRange.resolve] at hres
          split at hres <;> cases hres
          exact ⟨rfl, rfl⟩
      | full => cases h
      | «from» start => cases h
      | suffix len => cases h

/-- A range given out for a size that was known, or that starts inside the object, can be
satisfied. -/
theorem readRange_resolve {size : Nat}
    (h : readRange ctx request = some (.ok range)) (hm : ∀ m, ctx.meta = some m → m.size = size)
    (hin : ctx.meta = none → range.start < size) : ∃ resolved, request.resolve size = .ok resolved := by
  unfold readRange ReadCtx.size at h
  cases hmeta : ctx.meta with
  | some m =>
      rw [hmeta] at h
      exact ⟨range, hm m hmeta ▸ Option.some.inj h⟩
  | none =>
      have hin := hin hmeta
      rw [hmeta] at h
      cases request with
      | bounded r =>
          simp only [Option.map_none, Option.some.injEq] at h
          split at h <;> cases h
          refine ⟨⟨range.start, min range.stop size⟩, ?_⟩
          rw [ReadRange.resolve, if_neg (by omega)]
      | full => cases h
      | «from» start => cases h
      | suffix len => cases h

variable [TagHash] {T : Terms} {g : Held} {ns : NamespaceState} {name : Bytes} {request : ReadRange}
  {policy : FetchPolicy} {fuel : Nat}

theorem cachedMeta_wp (hT : T.Running) (hi : T.law.immutable ns.id) :
    wp T.spec (cachedMeta ns ⟨ns.id, name⟩ request)
      (fun g' a => g.Hears g' ∧ ∀ m, a = some m → T.law.Describes ⟨ns.id, name⟩ m) g := by
  unfold cachedMeta
  refine wp_step hT.schedules fun answer g₁ hg₁ hr => ?_
  have h₁ := Held.Hears.after hg₁ rfl
  match answer, hr with
  | .timeout, _ => exact hT.hang_wp
  | .dropped, _ => exact hT.hang_wp
  | .ready (_, none), _ => exact ⟨h₁, nofun⟩
  | .ready (i, some block), ⟨key, hkey, hfit⟩ =>
      obtain ⟨v, hv, -, hn⟩ := T.law.names_of_fit hfit
      have hd : T.law.Describes ⟨ns.id, name⟩ block.meta := by
        obtain ⟨rfl, rfl⟩ : i = 0 ∧ key = _ := by
          cases i with
          | zero => exact ⟨rfl, (Option.some.inj hkey).symm⟩
          | succ i => cases hkey
        exact ⟨v, hv, hn⟩
      refine wp_quiet ⟨hd, .inr (.inr hi)⟩ rfl fun _ g₂ h₂ _ => ⟨h₁.trans h₂, ?_⟩
      rintro _ ⟨⟩
      exact hd

/-- What resolving a context gives: handles from the first block on, and no metadata only where that
is not needed. -/
structure Law.ResolvedFor (L : Law) (ns : NamespaceState) (name : Bytes) (request : ReadRange) (g : Held)
    (ctx : ReadCtx) (fetched : List SlotHandle) : Prop extends
    L.Resolved ns name (request.firstIndex ns.config.blockSize) g ctx fetched where
  sized : ctx.meta = none → request.needsSize = false ∧ ns.config.consistency.isImmutable
  suffix : ∀ len, request = .suffix len → fetched = []

theorem Law.ResolvedFor.of_describes {L : Law} {m : ObjectMeta} (hk : L.Knows ns)
    (hd : L.Describes ⟨ns.id, name⟩ m) (ht : ¬ L.immutable ns.id → m ∈ g.told) :
    L.ResolvedFor ns name request g (ReadCtx.new ns ⟨ns.id, name⟩ name (some m) policy) [] := by
  refine ⟨⟨⟨hk, rfl, rfl, ?_, nofun⟩, rfl, rfl, fun hi => ⟨m, ht hi, rfl⟩, trivial⟩, nofun, fun _ _ => rfl⟩
  rintro _ ⟨⟩
  exact hd

theorem resolveAtOrigin_wp (hT : T.Running) (hk : T.law.Knows ns) {known : Option ObjectMeta}
    (hknown : ∀ m, known = some m → m ∈ g.told ∧ T.law.Describes ⟨ns.id, name⟩ m) :
    wp T.spec (resolveAtOrigin fuel ns name request known policy)
      (fun g' out => g.Moves g.owned g' ∧ ∀ ctx fetched, out = .ok (ctx, fetched) →
        T.law.ResolvedFor ns name request g' ctx fetched) g := by
  unfold resolveAtOrigin
  cases hg : ns.config.blockSize.firstGroup request ns.config.fetchWindow with
  | some indexes =>
      obtain ⟨hstart, hmax⟩ := BlockSize.firstGroup_spec hg
      refine wp_mono (probe_wp hT hk hmax hknown) fun g₁ out h₁ => ⟨h₁.1, fun ctx fetched ho => ?_⟩
      obtain ⟨hres, hmeta⟩ := h₁.2 ctx fetched ho
      refine ⟨hstart ▸ hres, fun hm => ?_, ?_⟩
      · rw [hm] at hmeta
        cases hmeta
      · rintro len rfl
        cases hg
  | none =>
      refine wp_seq (head_wp hk (hT.enough _)) fun g₁ out h₁ => ?_
      obtain ⟨h₁, hd⟩ := h₁
      match out with
      | none => exact hT.hang_wp
      | some (.error e) => exact ⟨h₁.toMoves, nofun⟩
      | some (.ok m) =>
          obtain ⟨-, htold, hd⟩ := hd m rfl
          refine ⟨h₁.toMoves, ?_⟩
          rintro _ _ ⟨⟩
          exact .of_describes hk hd fun _ => htold

theorem resolveMissing_wp (hT : T.Running) (hk : T.law.Knows ns) {known : Option ObjectMeta}
    (hknown : ∀ m, known = some m → m ∈ g.told ∧ T.law.Describes ⟨ns.id, name⟩ m) :
    wp T.spec (resolveMissing fuel ns name request policy known)
      (fun g' out => g.Moves g.owned g' ∧ ∀ ctx fetched, out = .ok (ctx, fetched) →
        T.law.ResolvedFor ns name request g' ctx fetched) g := by
  unfold resolveMissing
  split
  · rename_i hc
    have hi := hk.immutable hc
    split
    · refine wp_seq (cachedMeta_wp hT hi) fun g₁ out h₁ => ?_
      obtain ⟨h₁, hd⟩ := h₁
      match out with
      | some m =>
          refine ⟨h₁.toMoves, ?_⟩
          rintro _ _ ⟨⟩
          exact .of_describes hk (hd m rfl) (absurd hi)
      | none =>
          have hknown₁ : ∀ m, known = some m → m ∈ g₁.told ∧ T.law.Describes ⟨ns.id, name⟩ m :=
            fun m hm => ⟨h₁.told m (hknown m hm).1, (hknown m hm).2⟩
          refine wp_mono (resolveAtOrigin_wp hT hk hknown₁) fun g₂ out h₂ => ?_
          rw [h₁.owned] at h₂
          exact ⟨h₁.toMoves.trans h₂.1, h₂.2⟩
    · rename_i hneeds
      refine ⟨(Held.Hears.refl g).toMoves, ?_⟩
      rintro _ _ ⟨⟩
      exact ⟨⟨⟨hk, rfl, rfl, nofun, fun _ => hi⟩, rfl, rfl, absurd hi, trivial⟩,
        fun _ => ⟨by simpa using hneeds, hc⟩, fun _ _ => rfl⟩
  · exact resolveAtOrigin_wp hT hk hknown

theorem resolveCtx_wp (hT : T.Running) (hk : T.law.Knows ns) (hy : g.seen.yielded = false) :
    wp T.spec (resolveCtx fuel ns name request policy)
      (fun g' out => g.Moves g.owned g' ∧ ∀ ctx fetched, out = .ok (ctx, fetched) →
        T.law.ResolvedFor ns name request g' ctx fetched) g := by
  unfold resolveCtx
  refine wp_step ⟨hT.schedules, hy⟩ fun answer g₁ hg₁ hr => ?_
  have h₁ := Held.Hears.after hg₁ rfl
  match answer, hg₁, hr with
  | .fresh m, hg₁, hd =>
      refine ⟨h₁.toMoves, ?_⟩
      rintro _ _ ⟨⟩
      exact .of_describes hk hd fun _ => hg₁ ▸ List.mem_cons_self
  | .stale m, hg₁, hd =>
      have hknown : ∀ m', some m = some m' → m' ∈ g₁.told ∧ T.law.Describes ⟨ns.id, name⟩ m' := by
        rintro _ ⟨⟩
        exact ⟨hg₁ ▸ List.mem_cons_self, hd⟩
      refine wp_mono (resolveMissing_wp hT hk hknown) fun g₂ out h₂ => ?_
      rw [h₁.owned] at h₂
      exact ⟨h₁.toMoves.trans h₂.1, h₂.2⟩
  | .missing, _, _ =>
      refine wp_mono (resolveMissing_wp hT hk nofun) fun g₂ out h₂ => ?_
      rw [h₁.owned] at h₂
      exact ⟨h₁.toMoves.trans h₂.1, h₂.2⟩

/-- The handles are those of the first blocks of the range. -/
theorem Law.ResolvedFor.handles_of_gives {L : Law} {fetched : List SlotHandle}
    (h : L.ResolvedFor ns name request g ctx fetched) (hg : request.Gives ctx.meta range) :
    L.HandlesFrom ctx (ns.config.blockSize.index range.start) fetched := by
  rcases eq_or_ne fetched [] with rfl | hne
  · exact trivial
  · rw [hg.first _ fun len hl => hne (h.suffix len hl)]
    exact h.handles

end Nestor
