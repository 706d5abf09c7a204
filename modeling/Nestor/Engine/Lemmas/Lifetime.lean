import Nestor.Engine.Lemmas.World

/-!
# One lifetime of the engine

In a run without a restart the registry only grows, and every namespace keeps its number. So the
registry at the end of the run tells the name and the configuration behind every id in use before,
and with the contents brought in makes up the universe of the run.
-/

namespace Nestor

open Lib

/-- The namespaces registered, with the versions their objects may have. -/
def Registry.universeOf (R : Registry) (versions : Bytes → Bytes → Version → Prop) : Universe where
  name id := (R.states[id]?).elim [] (·.name)
  sizes id bs := ∃ ns, R.states[id]? = some ns ∧ bs = ns.config.blockSize
  immutable id := ∃ ns, R.states[id]? = some ns ∧ ns.config.consistency.isImmutable
  versions := versions

namespace Registry

variable {R : Registry} {versions : Bytes → Bytes → Version → Prop} {ns : NamespaceState} {object : Bytes}

theorem knows_universeOf (h : R.states[ns.id]? = some ns) : (R.universeOf versions).Knows ns :=
  ⟨by simp [universeOf, h], ⟨ns, h, rfl⟩, fun hi => ⟨ns, h, hi⟩⟩

theorem has_universeOf (h : R.states[ns.id]? = some ns) (v : Version) :
    (R.universeOf versions).Has ns.id object v ↔ versions ns.name object v := by
  simp [universeOf, Universe.Has, h]

theorem mutable_universeOf (h : R.states[ns.id]? = some ns)
    (hetag : ns.config.consistency.isImmutable = false) :
    ¬ (R.universeOf versions).immutable ns.id := by
  rintro ⟨ns', hns', himm⟩
  rw [h] at hns'
  cases hns'
  rw [hetag] at himm
  cases himm

section

variable [TagHash]

theorem matches_universeOf (h : R.states[ns.id]? = some ns)
    (hetag : ns.config.consistency.isImmutable = false) {tag : Nat} {v : Version} :
    (R.universeOf versions).Matches ns.id tag v ↔ v.tag = tag :=
  ⟨fun hm => hm.resolve_left fun hi => mutable_universeOf h hetag hi.2, .inr⟩

/-- If equal tags mean equal contents, the blocks of an object are those of its versions. -/
theorem coherent_universeOf (h : R.states[ns.id]? = some ns)
    (hetag : ns.config.consistency.isImmutable = false)
    (htags : ∀ v w, versions ns.name object v → versions ns.name object w → v.tag = w.tag → v.data = w.data) :
    (R.universeOf versions).exactLaw.Coherent ns.id object := by
  have hone {tag : Nat} {v w : Version} (hv : (R.universeOf versions).Has ns.id object v)
      (hw : (R.universeOf versions).Has ns.id object w) (htv : (R.universeOf versions).Matches ns.id tag v)
      (htw : (R.universeOf versions).Matches ns.id tag w) : v.data = w.data := by
    rw [has_universeOf h] at hv hw
    rw [matches_universeOf h hetag] at htv htw
    exact htags v w hv hw (htv.trans htw.symm)
  refine ⟨hone, fun {tag index b bs v} hfit hbs hv ht => ?_⟩
  obtain ⟨bs', w, ⟨ns₁, hns₁, rfl⟩, hw, htw, -, hd⟩ := hfit.eq_blockOf fun _ _ => hone
  obtain ⟨ns₂, hns₂, rfl⟩ := hbs
  rw [h] at hns₁ hns₂
  cases hns₁
  cases hns₂
  rw [hd, hone hw hv htw ht]
  exact List.take_of_length_le (BlockSize.length_blockOf_le ..)

end

/-- The namespaces are numbered in the order of their registration. -/
def Numbered (R : Registry) : Prop := ∀ i (ns : NamespaceState), R.states[i]? = some ns → ns.id = i

theorem Numbered.get (h : R.Numbered) (hns : ns ∈ R.states) : R.states[ns.id]? = some ns := by
  obtain ⟨i, hi⟩ := List.mem_iff_getElem?.mp hns
  rwa [h i ns hi]

/-- Every namespace is known by its name. -/
def Named (R : Registry) : Prop := ∀ ns ∈ R.states, R.byName ns.name = some ns.id

theorem Named.id_eq (h : R.Named) {ns' : NamespaceState} (hns : ns ∈ R.states) (hns' : ns' ∈ R.states)
    (hname : ns'.name = ns.name) : ns'.id = ns.id :=
  Option.some.inj ((h ns' hns').symm.trans (hname ▸ h ns hns))

end Registry

namespace World

/-- An event of one lifetime of the engine, in which there are less than 2 ^ 32 registrations. -/
def OneLife (w : World) : Event → Prop
  | .restart _ => False
  | .register _ _ => w.shared.registry.states.length < 2 ^ 32
  | _ => True

instance (w : World) : (e : Event) → Decidable (w.OneLife e)
  | .restart _ => inferInstanceAs (Decidable False)
  | .register _ _ => inferInstanceAs (Decidable (w.shared.registry.states.length < 2 ^ 32))
  | .run _ _ | .call _ _ | .tick _ | .overwrite _ _ _ | .evictBlock _ | .evictMeta _ | .evictLastEnd _ =>
      inferInstanceAs (Decidable True)

theorem brings_any (w : World) (e : Event) : w.Brings (fun _ _ _ => True) e := by
  cases e with
  | call id c => cases c <;> simp [Brings]
  | _ => simp [Brings]

theorem numbered_empty : Registry.empty.Numbered := by
  simp [Registry.Numbered, Registry.empty]

theorem named_empty : Registry.empty.Named := List.forall_mem_nil _

variable [TagHash] {fuel : Nat} {w w' : World} {e : Event} {es : List Event}

theorem step_registry (hok : w.OneLife e) (hs : step fuel w e = some w') :
    w'.shared.registry = w.shared.registry ∨
      ∃ name config, e = .register name config ∧ w.shared.registry.byName name = none ∧
        w'.shared.registry =
          ⟨Function.update w.shared.registry.byName name (some (toU32 w.shared.registry.states.length)),
            w.shared.registry.states ++ [⟨toU32 w.shared.registry.states.length, name, config⟩]⟩ := by
  cases e with
  | run i x =>
      obtain ⟨_, o, _, _, _, _, -, rfl⟩ := step_run hs
      exact .inl (w.shared.after_frame o).2.1
  | call id c =>
      obtain ⟨_, -, rfl⟩ := step_call hs
      cases c <;> exact .inl rfl
  | register name config =>
      cases hs
      simp only [Shared.registerNamespace]
      cases hb : w.shared.registry.byName name with
      | some id => exact .inl rfl
      | none => exact .inr ⟨name, config, rfl, hb, rfl⟩
  | restart kept => exact hok.elim
  | _ => cases hs; exact .inl rfl

theorem step_keeps (hok : w.OneLife e) (hs : step fuel w e = some w') {th : Thread Task Op Resp}
    (hth : th ∈ w.threads) :
    ∃ th' ∈ w'.threads, th'.task = th.task ∧ th.trace <+: th'.trace := by
  cases e with
  | run i x =>
      obtain ⟨t, o, k, tr, r, hi, -, rfl⟩ := step_run hs
      obtain ⟨hold, hmoved, -⟩ := System.mem_resume hi ⟨t, k r, tr ++ [⟨o, r⟩]⟩
        (o.tasks.map (system fuel).begin)
      obtain rfl | hin := hold th hth
      · exact ⟨_, hmoved, rfl, List.prefix_append _ _⟩
      · exact ⟨th, hin, rfl, List.prefix_rfl⟩
  | call id c =>
      obtain ⟨_, -, rfl⟩ := step_call hs
      exact ⟨th, List.mem_append_left _ hth, rfl, List.prefix_rfl⟩
  | restart kept => exact hok.elim
  | _ => cases hs; exact ⟨th, hth, rfl, List.prefix_rfl⟩

theorem numbered_step (h : w.shared.registry.Numbered) (hok : w.OneLife e) (hs : step fuel w e = some w') :
    w'.shared.registry.Numbered := by
  obtain heq | ⟨name, config, rfl, -, heq⟩ := step_registry hok hs
  · rwa [heq]
  · intro i ns hi
    rw [heq, List.getElem?_append] at hi
    split at hi
    · exact h i ns hi
    · rename_i hlen
      rw [List.getElem?_singleton] at hi
      split at hi
      · cases hi
        have hlt : w.shared.registry.states.length < 2 ^ 32 := hok
        change toU32 w.shared.registry.states.length = i
        rw [toU32_of_lt hlt]
        omega
      · cases hi

theorem numbered_run (h : Run (step fuel) OneLife w es w') (hw : w.shared.registry.Numbered) :
    w'.shared.registry.Numbered :=
  h.invariant (fun _ _ _ => numbered_step) hw

theorem states_kept (h : Run (step fuel) OneLife w es w') :
    w.shared.registry.states <+: w'.shared.registry.states := by
  induction h with
  | nil => exact List.prefix_rfl
  | cons hok hs _ ih =>
      obtain heq | ⟨name, config, -, -, heq⟩ := step_registry hok hs
      · rwa [heq] at ih
      · rw [heq] at ih
        exact (List.prefix_append _ _).trans ih

theorem named_step (h : w.shared.registry.Named) (hok : w.OneLife e) (hs : step fuel w e = some w') :
    w'.shared.registry.Named := by
  obtain heq | ⟨name, config, rfl, hnone, heq⟩ := step_registry hok hs
  · rwa [heq]
  · intro ns hns
    rw [heq] at hns ⊢
    rcases List.mem_append.mp hns with hold | hnew
    · have hne : ns.name ≠ name := by
        rintro rfl
        cases hnone.symm.trans (h ns hold)
      exact (Function.update_of_ne hne ..).trans (h ns hold)
    · rw [List.mem_singleton.mp hnew]
      exact Function.update_self ..

theorem named_run (h : Run (step fuel) OneLife w es w') (hw : w.shared.registry.Named) :
    w'.shared.registry.Named :=
  h.invariant (fun _ _ _ => named_step) hw

/-- The law admits the events of a lifetime if it knows the namespaces of the registry it comes
to. -/
theorem run_admits {L : Law} (hknows : ∀ ns, w'.shared.registry.states[ns.id]? = some ns → L.Knows ns)
    (h : Run (step fuel) (fun w e => w.Brings L.versions e ∧ w.OneLife e) w es w') :
    Run (step fuel) L.Admits w es w' := by
  induction h with
  | nil => exact .nil
  | cons hok hs hrest ih =>
      refine .cons ⟨hok.1, ?_⟩ hs (ih hknows)
      rintro name config rfl hb
      have hpre := states_kept (hrest.mono fun _ _ => And.right)
      obtain heq | ⟨_, _, heq, -, hstates⟩ := step_registry hok.2 hs
      · cases hs
        simp only [Shared.registerNamespace, hb] at heq
        have := congrArg (List.length ∘ Registry.states) heq
        simp at this
      · cases heq
        rw [hstates] at hpre
        obtain ⟨more, hmore⟩ := hpre
        refine hknows _ ?_
        simp only [toU32_of_lt hok.2, ← hmore, List.append_assoc]
        simp

/-- Every task of a lifetime keeps its contract. -/
theorem lifetime_sound {versions : Bytes → Bytes → Version → Prop}
    (h : Run (step fuel) (fun w e => w.Brings versions e ∧ w.OneLife e) init es w) :
    (outline (w.shared.registry.universeOf versions).exactLaw fuel).Sound w ∧ w.shared.registry.Numbered :=
  ⟨run_sound (run_admits (fun _ => Registry.knows_universeOf) h) init_sound,
    numbered_run (h.mono fun _ _ => And.right) numbered_empty⟩

end World

end Nestor
