import Nestor.Engine.Duty
import Nestor.Fetch.Lemmas.Sight
import Nestor.Read.Lemmas.Resolve

/-!
# The handles a read starts with

A probe registers the blocks its response starts with one after the other, so the handles that
`resolve_ctx` returns are those of consecutive blocks, the first one of the request in front. They
are no more than a fetch window.
-/

namespace Nestor

open Lib

namespace Sight

/-- What a task sees, whatever it does. -/
def watch : Spec Op Resp Sight := { spec with guar := fun _ _ => True }

/-- The handles are those of the blocks from `first` on, as the task was given them. -/
def GivesFrom (f : Sight) (ctx : ReadCtx) (first : Nat) (handles : List SlotHandle) : Prop :=
  List.Forall₂ f.Gives ((List.range' first handles.length).map (BlockKey.new ctx.key ctx.tag)) handles

variable {f f' : Sight} {ctx : ReadCtx} {first window : Nat} {handles handles' : List SlotHandle}

theorem givesFrom_nil : f.GivesFrom ctx first [] := List.Forall₂.nil

theorem GivesFrom.mono (h : f.GivesFrom ctx first handles) (hs : f.stored ⊆ f'.stored)
    (hk : f.known ⊆ f'.known) :
    f'.GivesFrom ctx first handles := h.imp fun _ _ hg => hg.mono hs hk

theorem GivesFrom.cons_iff {handle : SlotHandle} : f.GivesFrom ctx first (handle :: handles) ↔
    f.Gives (BlockKey.new ctx.key ctx.tag first) handle ∧ f.GivesFrom ctx (first + 1) handles := by
  unfold GivesFrom
  rw [List.length_cons, List.range'_succ, List.map_cons, List.forall₂_cons]

theorem GivesFrom.append (h : f.GivesFrom ctx first handles)
    (h' : f.GivesFrom ctx (first + handles.length) handles') :
    f.GivesFrom ctx first (handles ++ handles') := by
  induction handles generalizing first with
  | nil => simpa using h'
  | cons handle handles ih =>
      obtain ⟨hg, h⟩ := GivesFrom.cons_iff.mp h
      refine GivesFrom.cons_iff.mpr ⟨hg, ih h ?_⟩
      rwa [List.length_cons, Nat.add_comm handles.length, ← Nat.add_assoc] at h'

/-- Handles of the first blocks of a request: no more than a fetch window, and of blocks that an
object may have. -/
structure Fetched (f : Sight) (ctx : ReadCtx) (first : Nat) (handles : List SlotHandle) : Prop where
  given : f.GivesFrom ctx first handles
  few : handles.length ≤ max ctx.namespace.config.fetchWindow 1
  below : handles = [] ∨ first + handles.length ≤ maxU32

theorem Fetched.nil : f.Fetched ctx first [] := ⟨givesFrom_nil, Nat.zero_le _, .inl rfl⟩

theorem plain_grows {α : Type} {p : Program α} (h : Plain p) (hf : f.gap = none) :
    wp watch p (fun f' _ => f.Grows f') f := by
  refine h.wp (fun f₁ o h₁ ho => ⟨trivial, fun r => h₁.trans ?_⟩) (.refl hf)
  exact ⟨group_after o r, gap_after ho h₁.gap r, (f₁.subset_after o r).1, (f₁.subset_after o r).2⟩

theorem watch_hang {α : Type} {Q : Sight → α → Prop} : wp watch hang Q f := ⟨trivial, fun r => Empty.elim r⟩

theorem schedule_given {indexes : Range} {priority : Priority} (hf : f.gap = none)
    (hgroup : f.group = false) :
    wp watch (schedule ctx indexes priority) (fun f' handles => f.Grows f' ∧ handles.length = indexes.count ∧
      f'.GivesFrom ctx indexes.start handles) f := by
  refine wp_mono (wp_guar (schedule_wp hf hgroup) fun _ _ _ => trivial) fun f' handles h => ?_
  have hlen : handles.length = indexes.count := by
    have := h.2.length_eq
    rw [List.length_map, List.length_range'] at this
    exact this.symm
  refine ⟨h.1, hlen, ?_⟩
  unfold GivesFrom
  rw [hlen]
  exact h.2

/-! ## Probing -/

theorem registerWhile_given {count : Nat} (hf : f.gap = none) :
    wp watch (registerWhile ctx (List.range' first count))
    (fun f' slots => f.Grows f' ∧ slots.length ≤ count ∧
      f'.GivesFrom ctx first (slots.map .waiting)) f := by
  induction count generalizing first f with
  | zero => exact ⟨.refl hf, Nat.le_refl _, givesFrom_nil⟩
  | succ count ih =>
      refine wp_then trivial fun registration hr => ?_
      cases registration with
      | waiter slot =>
          exact ⟨⟨rfl, hf, fun _ => id, fun _ => List.mem_cons_of_mem _⟩, Nat.zero_le _, givesFrom_nil⟩
      | owner slot =>
          refine wp_seq (ih (by exact hf)) fun f₁ slots h₁ => ?_
          obtain ⟨hg, hlen, hgiven⟩ := h₁
          refine ⟨⟨hg.group, hg.gap, hg.stored, fun _ hk => hg.known (List.mem_cons_of_mem _ hk)⟩,
            Nat.succ_le_succ hlen, ?_⟩
          exact GivesFrom.cons_iff.mpr ⟨⟨hg.known List.mem_cons_self, hr⟩, hgiven⟩

theorem adoptResponse_given {indexes : Range} {response : GetResponse} (hf : f.gap = none)
    (hfew : indexes.start < maxU32 → indexes.count ≤ max ctx.namespace.config.fetchWindow 1) :
    wp watch (adoptResponse ctx indexes response)
    (fun f' handles => f.Grows f' ∧ f'.Fetched ctx indexes.start handles)
      f := by
  unfold adoptResponse
  refine wp_seq (registerWhile_given hf) fun f₁ slots h₁ => ?_
  obtain ⟨hg, hlen, hgiven⟩ := h₁
  split
  · exact ⟨hg, .nil⟩
  · rename_i hne
    refine wp_then trivial fun _ _ => ⟨hg.trans ⟨rfl, hg.gap, fun _ => id, fun _ => id⟩, hgiven, ?_, .inr ?_⟩
    all_goals
      have hpos := List.length_pos_of_ne_nil hne
      have hmax := ctx.namespace.config.blockSize.count_le_maxU32 response.meta.size
      rw [List.length_map]
    · have hcount : indexes.count = indexes.stop - indexes.start := rfl
      have := hfew (by omega)
      omega
    · omega

end Sight

/-- The first group of a request is no more than a window, unless it starts at the very last
index. -/
theorem BlockSize.firstGroup_count {bs : BlockSize} {request : ReadRange} {window : Nat} {indexes : Range}
    (h : bs.firstGroup request window = some indexes) (hlt : indexes.start < maxU32) :
    indexes.count ≤ max window 1 := by
  have hgroup {start stop : Nat} (hlt : start < maxU32) (hstop : stop ≤ maxU32) :
      (Range.mk start (addU32 start (alignedTake start (max stop (satAddU32 start 1)) window))).count ≤ max
      window 1 := by
    have hm : maxU32 = 2 ^ 32 - 1 := rfl
    have hsat : satAddU32 start 1 = start + 1 := Nat.min_eq_left (by omega)
    have hbelow : start < max stop (satAddU32 start 1) := by omega
    obtain ⟨-, hle, hfew⟩ := alignedTake_spec hbelow (by omega) window
    rw [addU32_of_lt (by omega)]
    exact (Nat.add_sub_cancel_left start _).trans_le hfew
  cases request with
  | full =>
      cases h
      exact hgroup hlt (Nat.le_refl _)
  | «from» start =>
      cases h
      exact hgroup hlt (Nat.le_refl _)
  | bounded r =>
      cases h
      exact hgroup hlt (bs.count_le_maxU32 _)
  | suffix len => cases h

namespace Sight

variable {f : Sight} {ns : NamespaceState} {name : Bytes} {request : ReadRange} {policy : FetchPolicy}
  {known : Option ObjectMeta} {fuel : Nat}

theorem cachedMeta_plain : Plain (cachedMeta ns ⟨ns.id, name⟩ request) := by
  refine .step rfl fun answer => ?_
  rcases answer with ⟨i, _ | block⟩ | _ | _
  · exact trivial
  · exact .step rfl fun _ => trivial
  · exact only_hang rfl
  · exact only_hang rfl

/-- What resolving a context gives: handles from the first block of the request on. -/
def Resolved (f : Sight) (ns : NamespaceState) (name : Bytes) (request : ReadRange) :
    Except NestorError (ReadCtx × List SlotHandle) → Prop
  | .ok (ctx, fetched) =>
      (ctx.namespace = ns ∧ ctx.At (.of ns name)) ∧ f.Fetched ctx (request.firstIndex ns.config.blockSize)
        fetched ∧ ∀ len, request = .suffix len → fetched = []
  | .error _ => True

variable [TagHash]

theorem Resolved.unfetched {m : Option ObjectMeta} :
    f.Resolved ns name request (.ok (ReadCtx.new ns ⟨ns.id, name⟩ name m policy, [])) :=
  ⟨⟨rfl, rfl, rfl⟩, .nil, fun _ _ => rfl⟩

theorem probeLoop_given {indexes : Range} {retry : Retry} (hf : f.gap = none)
    (hg : ns.config.blockSize.firstGroup request ns.config.fetchWindow = some indexes) :
    wp watch (probeLoop ns name indexes known policy fuel retry)
      (fun f' out => f.Grows f' ∧ f'.Resolved ns name request out) f := by
  induction fuel generalizing f retry with
  | zero => exact watch_hang
  | succ fuel ih =>
      refine wp_then trivial fun now _ => wp_seq (plain_grows originGet_gets.plain (by exact hf))
        fun f₁ out h₁ => ?_
      have h₁ : f.Grows f₁ := h₁
      rcases out with (e | response) | _ | _
      case timeout => exact watch_hang
      case dropped => exact watch_hang
      case ready.ok =>
        refine wp_then trivial fun _ _ =>
          wp_seq (adoptResponse_given h₁.gap (BlockSize.firstGroup_count hg)) fun f₂ fetched h₂ => ?_
        refine ⟨h₁.trans h₂.1, ⟨rfl, rfl, rfl⟩, (BlockSize.firstGroup_spec hg).1 ▸ h₂.2, ?_⟩
        rintro len rfl
        cases hg
      case ready.error =>
        cases e
        case notModified =>
          cases known with
          | some m => exact wp_then trivial fun _ _ => ⟨h₁, .unfetched⟩
          | none => exact ⟨h₁, trivial⟩
        case notFound => exact wp_then trivial fun _ _ => ⟨h₁, trivial⟩
        -- any other error is one of a read past the end, or to be tried again
        all_goals
          refine wp_seq (plain_grows pastEnd_heads.aside.plain h₁.gap) fun f₂ out h₂ => ?_
          obtain _ | _ | m := out
          · exact watch_hang
          · refine wp_seq (plain_grows pause_aside.plain h₂.gap) fun f₃ out h₃ => ?_
            have h₃ := (h₁.trans h₂).trans h₃
            obtain _ | ⟨retry', e' | ⟨⟩⟩ := out
            · exact watch_hang
            · exact ⟨h₃, trivial⟩
            · exact wp_mono (ih h₃.gap) fun f₄ out h₄ => ⟨h₃.trans h₄.1, h₄.2⟩
          · exact wp_then trivial fun _ _ => ⟨h₁.trans h₂, .unfetched⟩

theorem resolveAtOrigin_given (hf : f.gap = none) :
    wp watch (resolveAtOrigin fuel ns name request known policy)
      (fun f' out => f.Grows f' ∧ f'.Resolved ns name request out) f := by
  unfold resolveAtOrigin
  cases hg : ns.config.blockSize.firstGroup request ns.config.fetchWindow with
  | some indexes => exact wp_then trivial fun now _ => probeLoop_given (by exact hf) hg
  | none =>
      refine wp_seq (plain_grows (.step rfl fun now => (headLoop_heads _).aside.plain) hf) fun f₁ out h₁ => ?_
      obtain _ | e | m := out
      · exact watch_hang
      · exact ⟨h₁, trivial⟩
      · exact ⟨h₁, .unfetched⟩

theorem resolveMissing_given (hf : f.gap = none) :
    wp watch (resolveMissing fuel ns name request policy known)
      (fun f' out => f.Grows f' ∧ f'.Resolved ns name request out) f := by
  unfold resolveMissing
  split
  · split
    · refine wp_seq (plain_grows cachedMeta_plain hf) fun f₁ out h₁ => ?_
      cases out with
      | some m => exact ⟨h₁, .unfetched⟩
      | none => exact wp_mono (resolveAtOrigin_given h₁.gap) fun f₂ out h₂ => ⟨h₁.trans h₂.1, h₂.2⟩
    · exact ⟨.refl hf, .unfetched⟩
  · exact resolveAtOrigin_given hf

theorem resolveCtx_given (hf : f.gap = none) :
    wp watch (resolveCtx fuel ns name request policy)
    (fun f' out => f.Grows f' ∧ f'.Resolved ns name request out) f := by
  refine wp_then trivial fun answer _ => ?_
  cases answer with
  | fresh m => exact ⟨.refl hf, .unfetched⟩
  | stale m => exact resolveMissing_given hf
  | missing => exact resolveMissing_given hf

end Sight

end Nestor
