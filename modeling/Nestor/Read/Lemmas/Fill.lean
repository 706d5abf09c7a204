import Nestor.Engine.Reader
import Nestor.Core.Lemmas.Block

/-!
# Progress of a reader

`schedule` gives a handle for every block it is asked for, whatever it is answered. So `fill` leaves
a window empty only if the reader is at its end, or if its limit is zero.
-/

namespace Nestor

open Lib

theorem hang_yields {α : Type} {Q : α → Prop} : (hang : Program α).Yields Q := nofun

theorem not_runs_hang {α : Type} {tr : Trace} {a : α} : ¬ Runs (hang : Program α) tr (pure a) := by
  intro h
  have hyields : (hang : Program α).Yields fun _ => False := hang_yields
  exact hyields.of_runs h

theorem joinAll_yields (keys : List BlockKey) :
    (joinAll keys).Yields fun out => ∀ results, out = some results → results.length = keys.length := by
  refine (Prog.Yields.trivial (lookups keys.length keys [])).bind fun found _ => ?_
  cases found with
  | none => exact fun _ h => nomatch h
  | some found =>
      intro results h
      cases h
      exact List.length_map _

theorem registerMisses_yields (results : List (BlockKey × Option Block)) :
    (registerMisses results).Yields fun out => out.1.length = results.length := by
  induction results with
  | nil => rfl
  | cons result results ih =>
      obtain ⟨key, found⟩ := result
      unfold registerMisses
      cases found with
      | some block => exact ih.bind fun out h => congrArg (· + 1) h
      | none =>
          refine .step fun registration => ?_
          cases registration with
          | owner slot => exact ih.bind fun out h => congrArg (· + 1) h
          | waiter slot => exact ih.bind fun out h => congrArg (· + 1) h

theorem schedule_yields (ctx : ReadCtx) (indexes : Range) (priority : Priority) :
    (schedule ctx indexes priority).Yields fun handles => handles.length = indexes.count := by
  refine (joinAll_yields _).bind fun out hout => ?_
  cases out with
  | none => exact hang_yields
  | some results =>
      have hlen : results.length = indexes.count := by simpa using hout results rfl
      refine (registerMisses_yields results).bind fun out hhandles => ?_
      obtain ⟨handles, owners⟩ := out
      dsimp only at hhandles ⊢
      split
      · exact hhandles.trans hlen
      · refine (Prog.Yields.trivial _).bind fun landed _ => ?_
        cases landed with
        | none => exact (Prog.Yields.trivial _).bind fun _ _ => hang_yields
        | some landed =>
            refine (Prog.Yields.trivial _).bind fun owners _ => ?_
            exact (Prog.Yields.trivial _).bind fun _ _ => hhandles.trans hlen

namespace Reader

variable {r : Reader} {limit fuel : Nat}

theorem scheduleMore_yields {take : Nat} (hpos : 0 < take) :
    (do
      let handles ← schedule r.ctx ⟨r.next, r.next + take⟩ .foreground
      pure (r.extend take handles, (r.extend take handles).size.isSome) : Program (Reader × Bool)).Yields
      fun out => r.window.length < out.1.window.length ∧ out.1.stop = r.stop := by
  refine (schedule_yields _ _ _).bind fun handles hlen => ⟨?_, rfl⟩
  change _ < (r.window ++ handles).length
  rw [List.length_append, hlen.trans (Nat.add_sub_cancel_left r.next take)]
  exact Nat.lt_add_of_pos_right hpos

/-- A round that may be followed by another takes up a block. -/
theorem takeMore_yields (hlt : r.next < r.stop) (hstop : r.stop ≤ maxU32) :
    (r.takeMore limit).Yields fun out => out.1.window ≠ [] ∧ out.1.stop = r.stop ∧
      (out.2 = true → r.window.length < out.1.window.length) := by
  obtain ⟨hpos, -, -⟩ := alignedTake_spec hlt hstop r.ctx.namespace.config.fetchWindow
  unfold Reader.takeMore
  dsimp only
  split
  · rename_i hfull
    exact ⟨hfull.1, rfl, nofun⟩
  · exact (scheduleMore_yields hpos).mono fun out h =>
      ⟨List.ne_nil_of_length_pos (Nat.zero_lt_of_lt h.1), h.2, fun _ => h.1⟩

theorem fillLoop_yields (hlimit : 0 < limit) (hstop : r.stop ≤ maxU32) :
    (fillLoop limit fuel r).Yields fun r' => r'.stop = r.stop ∧
    (r'.window = [] → r.window = [] ∧ r.stop ≤ r.next) := by
  induction fuel generalizing r with
  | zero => exact hang_yields
  | succ fuel ih =>
      unfold fillLoop
      split
      · rename_i hgo
        refine (takeMore_yields hgo.2 hstop).bind fun out hout => ?_
        obtain ⟨r₁, more⟩ := out
        cases more with
        | true =>
            exact (ih (hout.2.1.trans_le hstop)).mono fun r' h => ⟨h.1.trans hout.2.1,
              fun he => absurd (h.2 he).1 hout.1⟩
        | false => exact ⟨hout.2.1, fun he => absurd he hout.1⟩
      · rename_i hgo
        refine ⟨rfl, fun he => ⟨he, ?_⟩⟩
        rw [he, List.length_nil] at hgo
        omega

theorem learn_yields (m : Option ObjectMeta) :
    (r.learn m).Yields fun r' =>
      r'.ctx = r.ctx ∧ r'.next = r.next ∧ r'.stop ≤ r.stop ∧ (r'.known = none → r.known = none) := by
  unfold Reader.learn
  cases hknown : r.known with
  | some known => exact ⟨rfl, rfl, Nat.le_refl _, fun h => hknown.symm.trans h⟩
  | none =>
      cases m with
      | some m => exact ⟨rfl, rfl, Nat.min_le_left _ _, fun h => nomatch h⟩
      | none =>
          refine .step fun answer => ?_
          cases answer with
          | none => exact ⟨rfl, rfl, Nat.le_refl _, fun _ => rfl⟩
          | some m => exact ⟨rfl, rfl, Nat.min_le_left _ _, fun h => nomatch h⟩

theorem fill_yields (hwindows : r.ctx.namespace.config.Windowed)
    (hmode : r.known = none → r.ctx.namespace.config.consistency.isImmutable) (hstop : r.stop ≤ maxU32) :
    (r.fill fuel).Yields fun r' => r'.window = [] → r'.stop ≤ r.next := by
  unfold Reader.fill
  refine (learn_yields none).bind fun r₁ h₁ => ?_
  obtain ⟨hctx, hnext, hle, hknown⟩ := h₁
  refine (fillLoop_yields ?_ (hle.trans hstop)).mono fun r' h he => hnext ▸ h.1.trans_le (h.2 he).2
  rw [hctx]
  split
  · exact hwindows.1
  · rename_i hsize
    exact hwindows.2 (hmode (hknown (by simpa [Reader.size] using hsize)))

/-! ## Windows without room -/

theorem fillLoop_zero : fillLoop 0 (fuel + 1) r = pure r := if_neg fun h => absurd h.1 (Nat.not_lt_zero _)

theorem fill_eq_fillLoop {m : ObjectMeta} (hknown : r.known = some m) :
    r.fill fuel = fillLoop r.ctx.namespace.config.readWindow fuel r := by
  have hlearn : r.learn none = pure r := by
    unfold Reader.learn
    rw [hknown]
  have hlimit : (if r.size.isSome then r.ctx.namespace.config.readWindow
      else r.ctx.namespace.config.fetchWindow) = r.ctx.namespace.config.readWindow := by
    rw [Reader.size, hknown]
    rfl
  rw [Reader.fill, hlearn]
  change fillLoop (if r.size.isSome then _ else _) fuel r = _
  rw [hlimit]

/-- A reader that knows the size and may have no blocks in its window takes none up. -/
theorem fill_known {m : ObjectMeta} (hknown : r.known = some m)
    (hread : r.ctx.namespace.config.readWindow = 0) :
    r.fill (fuel + 1) = pure r := by
  rw [fill_eq_fillLoop hknown, hread]
  exact fillLoop_zero

theorem fill_at_end {m : ObjectMeta} (hknown : r.known = some m) (hend : r.stop ≤ r.next) :
    r.fill (fuel + 1) = pure r := by
  rw [fill_eq_fillLoop hknown]
  exact if_neg fun h => absurd h.2 (Nat.not_lt.mpr hend)

theorem fill_unknown (hknown : r.known = none) (hfetch : r.ctx.namespace.config.fetchWindow = 0) :
    Runs (r.fill (fuel + 1)) [⟨.metaAny r.ctx.key, none⟩] (pure r) := by
  have hlimit : (if r.size.isSome then r.ctx.namespace.config.readWindow
      else r.ctx.namespace.config.fetchWindow) = 0 := by
    rw [Reader.size, hknown, hfetch]
    rfl
  have hlearn : ∃ k, r.learn none = .op (.metaAny r.ctx.key) k ∧ k none = pure r := by
    unfold Reader.learn
    rw [hknown]
    exact ⟨_, rfl, rfl⟩
  obtain ⟨k, hk, hnone⟩ := hlearn
  rw [Reader.fill, hk]
  suffices h : (k none >>= fun r => fillLoop (if r.size.isSome then r.ctx.namespace.config.readWindow
      else r.ctx.namespace.config.fetchWindow) (fuel + 1) r) = pure r from .cons (h ▸ .nil)
  rw [hnone]
  change fillLoop (if r.size.isSome then _ else _) (fuel + 1) r = pure r
  rw [hlimit]
  exact fillLoop_zero

theorem stream_stuck [TagHash] {tr : Trace} {r' : Reader} {rounds : Nat} (hdone : r.done = false)
    (hfill : Runs (r.fill fuel) tr (pure r')) (hempty : r'.window = []) :
    Runs (r.stream (fuel + 1) (rounds + 1)) (tr ++ [⟨.ended, ()⟩]) (pure ()) := by
  have hnext : Runs (r.nextItem (fuel + 1)) (tr ++ []) (pure ({ r' with done := true }, none)) := by
    unfold nextItem
    rw [if_neg (by simp [hdone])]
    refine hfill.bind ?_
    rw [hempty]
    exact .nil
  rw [List.append_nil] at hnext
  exact hnext.bind (.cons .nil)

end Reader

end Nestor
