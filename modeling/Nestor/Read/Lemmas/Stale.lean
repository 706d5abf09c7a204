import Nestor.Read.Lemmas.Brought

/-!
# What comes of a stale block

A reader that waits for a block and finds it stale starts anew or yields an error. It neither goes
on nor ends as if nothing had happened.
-/

namespace Nestor.Stale

open Lib

/-- Whether a block was stale and nothing has come of it yet. -/
def note (due : Bool) : (o : Op) → Resp o → Bool
  | .wait _, .error e => due || e.isStale
  | .metaLookup _ _, _ | .item _ (.error _), _ => false
  | _, _ => due

def guar (due : Bool) : Op → Prop
  | .item _ (.ok _) | .ended => due = false
  | _ => True

def spec : Spec Op Resp Bool := ⟨guar, fun _ _ _ => True, note⟩

theorem unseen_wp {α : Type} {p : Program α} (h : Unseen p) : wp spec p (fun due _ => due = false) false := by
  refine h.wp (fun due o hdue ho => ?_) rfl
  subst hdue
  cases o
  case wait | item | ended => cases ho
  all_goals exact ⟨trivial, fun _ => rfl⟩

theorem wait_wp (handle : SlotHandle) :
    wp spec handle.wait (fun due result => due = true → ∃ e, result = .error e ∧ e.isStale = true) false := by
  cases handle with
  | resolved result => exact nofun
  | waiting slot =>
      refine wp_call.mpr ⟨trivial, fun result _ hdue => ?_⟩
      cases result with
      | ok block => cases hdue
      | error e => exact ⟨e, rfl, hdue⟩

section

variable [TagHash] {r : Reader} {fuel : Nat}

/-- A new start begins with the lookup of the metadata. -/
theorem restart_wp (due : Bool) : wp spec (r.restart fuel) (fun due _ => due = false) due :=
  ⟨trivial, fun found _ => unseen_wp (Reader.restart_unseen.2 found)⟩

theorem nextItem_wp :
    wp spec (r.nextItem fuel) (fun due out => due = false ∨ ∃ e, out.2 = some (.error e)) false := by
  induction fuel generalizing r with
  | zero => exact ⟨trivial, nofun⟩
  | succ fuel ih =>
      unfold Reader.nextItem
      split
      · exact .inl rfl
      · refine wp_seq (unseen_wp Reader.fill_unseen) fun _ r₁ h₁ => ?_
        subst h₁
        cases r₁.window with
        | nil => exact .inl rfl
        | cons handle window =>
            refine wp_seq (wait_wp handle) fun due result hdue => ?_
            cases result with
            | ok block =>
                have hnot : due = false := Bool.eq_false_iff.mpr fun h => by simpa using hdue h
                subst hnot
                exact wp_seq (unseen_wp (Reader.learn_unseen _)) fun _ _ h => .inl h
            | error e =>
                dsimp only
                split
                · rename_i hcancelled
                  have hnot : due = false := by
                    refine Bool.eq_false_iff.mpr fun h => ?_
                    obtain ⟨_, ⟨⟩, hs⟩ := hdue h
                    rw [NestorError.not_isStale_of_isCancelled hcancelled.1] at hs
                    cases hs
                  subst hnot
                  refine wp_seq (unseen_wp (schedule_inner _ _ _).unseen) fun _ handles h => ?_
                  subst h
                  exact ih
                · split
                  · refine wp_seq (restart_wp due) fun _ out h => ?_
                    subst h
                    obtain ⟨r₂, e' | ⟨⟩⟩ := out
                    · exact .inl rfl
                    · exact ih
                  · exact wp_then trivial fun sole _ => .inr ⟨_, rfl⟩

theorem stream_wp {rounds : Nat} : wp spec (r.stream fuel rounds) (fun _ _ => True) false := by
  induction rounds generalizing r with
  | zero => exact ⟨trivial, nofun⟩
  | succ rounds ih =>
      refine wp_seq nextItem_wp fun due out h => ?_
      obtain ⟨r₁, _ | e | chunk⟩ := out
      · exact wp_call.mpr ⟨h.resolve_right nofun, fun _ _ => trivial⟩
      · exact wp_then trivial fun _ _ => ih
      · have hdue : due = false := h.resolve_right nofun
        subst hdue
        exact wp_then rfl fun _ _ => ih

theorem getOpts_wp {ns : NamespaceState} {object : Bytes} {request : ReadRange} {policy : FetchPolicy} :
    wp spec (getOpts fuel ns object request policy) (fun _ _ => True) false := by
  refine wp_seq (unseen_wp resolveCtx_unseen) fun _ out h => ?_
  subst h
  rcases out with e | ⟨ctx, fetched⟩
  · exact wp_call.mpr ⟨trivial, fun _ _ => trivial⟩
  · dsimp only
    split
    · exact ⟨trivial, nofun⟩
    · exact wp_call.mpr ⟨trivial, fun _ _ => trivial⟩
    · split
      · refine wp_then trivial fun sequential _ => ?_
        split
        · refine wp_seq (unseen_wp (spawnReadahead_easy _ _ _).inner.unseen) fun _ _ h => ?_
          subst h
          exact wp_then trivial fun _ _ => stream_wp
        · exact wp_then trivial fun _ _ => stream_wp
      · exact wp_then trivial fun _ _ => stream_wp

end

/-- A stream does not end before something has come of a stale block. -/
theorem answered_of_kept {tr : Trace} (h : spec.Kept true tr) (hend : ⟨.ended, ()⟩ ∈ tr) :
    yieldedError tr = true ∨ ∃ key ttl found, ⟨.metaLookup key ttl, found⟩ ∈ tr := by
  induction tr with
  | nil => cases hend
  | cons d tr ih =>
      obtain ⟨o, r⟩ := d
      have hlater (hkept : spec.Kept true tr) (hne : o ≠ .ended) : yieldedError (⟨o, r⟩ :: tr) = true ∨
          ∃ key ttl found, (⟨.metaLookup key ttl, found⟩ : Done Op Resp) ∈ ⟨o, r⟩ :: tr := by
        have hmem : (⟨.ended, ()⟩ : Done Op Resp) ∈ tr := by
          rcases List.mem_cons.mp hend with heq | hmem
          · cases heq
            exact absurd rfl hne
          · exact hmem
        refine (ih hkept hmem).imp (fun herr => ?_) fun ⟨key, ttl, found, hin⟩ =>
          ⟨key, ttl, found, .tail _ hin⟩
        exact Bool.or_eq_true_iff.mpr (.inr herr)
      cases o
      case ended => cases h.1
      case metaLookup key ttl => exact .inr ⟨key, ttl, r, List.mem_cons_self⟩
      case item known item =>
        cases item with
        | ok chunk => cases h.1
        | error e => exact .inl rfl
      case wait slot => cases r <;> exact hlater h.2 nofun
      all_goals exact hlater h.2 nofun

theorem answered_of_runs [TagHash] {fuel : Nat} {ns : NamespaceState} {object : Bytes} {request : ReadRange}
    {policy : FetchPolicy} {before after : Trace} {slot : Slot} {e : NestorError} {p : Program Unit}
    (h : Runs (getOpts fuel ns object request policy)
      (before ++ ⟨.wait slot, (.error e : BlockResult)⟩ :: after) p) (hs : e.isStale)
    (hend : ⟨.ended, ()⟩ ∈ after) :
    yieldedError after = true ∨ ∃ key ttl found, ⟨.metaLookup key ttl, found⟩ ∈ after := by
  obtain ⟨hkept, -⟩ := wp_runs_of (P := fun _ _ => True) (fun _ _ _ _ h => h) getOpts_wp h fun _ _ => trivial
  obtain ⟨-, -, hafter⟩ := spec.kept_append.mp hkept
  change spec.Kept (_ || e.isStale) after at hafter
  rw [hs, Bool.or_true] at hafter
  exact answered_of_kept hafter hend

end Nestor.Stale
