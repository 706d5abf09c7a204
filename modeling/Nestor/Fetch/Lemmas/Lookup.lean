import Mathlib.Data.List.Perm.Basic
import Nestor.Engine.Fetch

/-!
# Lookups of several blocks

What `join_all` over lookups comes to, for every contract that says what one lookup does.
-/

namespace Nestor

open Lib

theorem mem_of_mem_zip_snd {α β δ : Type} {f : α → β} {xs : List α} {ys : List (β × δ)}
    (h : ys.map (·.1) = xs.map f) {x : α} {c : δ} (hm : (x, c) ∈ xs.zip (ys.map (·.2))) : (f x, c) ∈ ys := by
  induction xs generalizing ys with
  | nil => simp at hm
  | cons x' xs ih =>
      cases ys with
      | nil => simp at hm
      | cons y ys =>
          rw [List.map_cons, List.map_cons, List.cons.injEq] at h
          rw [List.map_cons, List.zip_cons_cons, List.mem_cons] at hm
          rcases hm with heq | hm
          · obtain ⟨rfl, rfl⟩ := Prod.mk.inj heq
            rw [← h.1]
            exact List.mem_cons_self
          · exact List.mem_cons_of_mem _ (ih h.2 hm)

theorem map_fst_zip_snd {α β δ : Type} {f : α → β} {xs : List α} {ys : List (β × δ)}
    (h : ys.map (·.1) = xs.map f) :
    (xs.zip (ys.map (·.2))).map (·.1) = xs := by
  have hlen := congrArg List.length h
  rw [List.map_fst_zip]
  simp only [List.length_map] at hlen ⊢
  omega

variable {γ : Type} {S : Spec Op Resp γ} {I F : γ → Prop} {mine : BlockKey → Prop}
    {Saw : γ → BlockKey → Option Block → Prop} {g : γ} {keys : List BlockKey}

/-- What a contract says of one lookup: `I` holds all along, `Saw` of what has been found, and `F`
once a lookup has been given up. -/
structure Looks (S : Spec Op Resp γ) (I F : γ → Prop) (mine : BlockKey → Prop)
    (Saw : γ → BlockKey → Option Block → Prop) : Prop where
  asks : ∀ {g keys}, I g → keys ≠ [] → (∀ key ∈ keys, mine key) → S.guar g (.blocksGet keys)
  finds : ∀ {g keys i key found}, I g → S.rely g (.blocksGet keys) (.ready (i, found)) → keys[i]? = some key →
    I (S.next g (.blocksGet keys) (.ready (i, found))) ∧
      Saw (S.next g (.blocksGet keys) (.ready (i, found))) key found ∧
      ∀ key' found', Saw g key' found' → Saw (S.next g (.blocksGet keys) (.ready (i, found))) key' found'
  strays : ∀ {g keys i found}, I g → S.rely g (.blocksGet keys) (.ready (i, found)) → keys[i]? = none →
    S.guar (S.next g (.blocksGet keys) (.ready (i, found))) .hang
  fails : ∀ {g keys r}, I g → S.rely g (.blocksGet keys) r → r = .timeout ∨ r = .dropped →
    F (S.next g (.blocksGet keys) r)

/-- What holds once all lookups are done, or one has been given up. -/
def Looked (F : γ → Prop) (Q : γ → List (BlockKey × Option Block) → Prop) (g : γ) :
    Option (List (BlockKey × Option Block)) → Prop
  | none => F g
  | some found => Q g found

theorem Looks.lookups_wp (h : Looks S I F mine Saw) {n : Nat} {found : List (BlockKey × Option Block)}
    (hn : n = keys.length) (hkeys : ∀ key ∈ keys, mine key) (hg : I g) (hsaw : ∀ p ∈ found, Saw g p.1 p.2) :
    wp S (lookups n keys found) (Looked F fun g' found' => I g' ∧ (∀ p ∈ found', Saw g' p.1 p.2) ∧
      ∀ key, key ∈ keys ∨ key ∈ found.map (·.1) → key ∈ found'.map (·.1)) g := by
  induction n generalizing keys found g with
  | zero =>
      rw [List.length_eq_zero_iff.mp hn.symm]
      exact ⟨hg, hsaw, fun key hk => hk.resolve_left List.not_mem_nil⟩
  | succ n ih =>
      have hne : keys ≠ [] := by
        rintro rfl
        cases hn
      refine wp_then (h.asks hg hne hkeys) fun answer hr => ?_
      rcases answer with ⟨i, block⟩ | _ | _
      · dsimp only
        cases hi : keys[i]? with
        | none => exact ⟨h.strays hg hr hi, nofun⟩
        | some key =>
            obtain ⟨hlt, hget⟩ := List.getElem?_eq_some_iff.mp hi
            obtain ⟨hg₁, hnew, hold⟩ := h.finds hg hr hi
            have hlen : n = (keys.eraseIdx i).length := by
              rw [List.length_eraseIdx_of_lt hlt]
              omega
            refine wp_mono (ih hlen (fun key' hk => hkeys key' (List.mem_of_mem_eraseIdx hk)) hg₁
              (List.forall_mem_cons.mpr ⟨hnew, fun p hp => hold _ _ (hsaw p hp)⟩)) fun g₂ out h₂ => ?_
            cases out with
            | none => exact h₂
            | some found' =>
                refine ⟨h₂.1, h₂.2.1, fun key' hk => h₂.2.2 key' ?_⟩
                rw [List.map_cons, List.mem_cons]
                by_cases heq : key' = key
                · exact .inr (.inl heq)
                · refine hk.imp (fun hk => ?_) .inr
                  have hperm := List.getElem_cons_eraseIdx_perm hlt
                  rw [hget] at hperm
                  exact (List.mem_cons.mp (hperm.mem_iff.mpr hk)).resolve_left heq
      · exact h.fails hg hr (.inl rfl)
      · exact h.fails hg hr (.inr rfl)

theorem Looks.joinAll_wp (h : Looks S I F mine Saw) (hkeys : ∀ key ∈ keys, mine key) (hg : I g) :
    wp S (joinAll keys) (Looked F fun g' results => I g' ∧ results.map (·.1) = keys ∧
      ∀ p ∈ results, Saw g' p.1 p.2) g := by
  refine wp_seq (h.lookups_wp rfl hkeys hg (List.forall_mem_nil _)) fun g₁ out h₁ => ?_
  cases out with
  | none => exact h₁
  | some found =>
      obtain ⟨hg₁, hsaw, hall⟩ := h₁
      refine ⟨hg₁, by simp [Function.comp_def], fun p hp => ?_⟩
      obtain ⟨key, hkey, rfl⟩ := List.mem_map.mp hp
      obtain ⟨q, hq, rfl⟩ := List.mem_map.mp (hall key (.inl hkey))
      have hsome := List.lookup_isSome_iff.mpr ⟨q, hq, beq_self_eq_true q.1⟩
      obtain ⟨result, hresult⟩ := Option.isSome_iff_exists.mp hsome
      obtain ⟨before, after, rfl, -⟩ := List.lookup_eq_some_iff.mp hresult
      rw [hresult, Option.join_some]
      exact hsaw _ (List.mem_append_right _ List.mem_cons_self)

end Nestor
