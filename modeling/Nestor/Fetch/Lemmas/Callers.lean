import Nestor.Engine.Lemmas.Owned
import Nestor.Fetch.Callers
import Nestor.Fetch.Lemmas.Sight

/-!
# How callers share fetches

A key is handed to a fetch group only by the thread that has it in the table, after a lookup that
did not find it there. Whoever had the key before has taken it out of the table with its block in
the cache, so that lookup would have found it: keys handed are handed once.
-/

namespace Nestor

open Lib

variable {key : BlockKey} {b : Block} {slot : Slot}

/-- The task whose contract a job keeps. -/
def Job.contract : Job → Task
  | .schedule ctx indexes _ => .readahead ctx indexes
  | .task t => t

def Job.sight : Job → Sight
  | .schedule _ _ _ => ⟨false, [], [], [], none⟩
  | .task _ => ⟨true, [], [], [], none⟩

namespace Callers

/-- What counts of the ghost state of a thread: its slots, its task and what it sees. -/
structure Party where
  owned : Multiset Slot
  task : Task
  sight : Sight

namespace Party

def of (g : Held × Sight) : Party := ⟨g.1.owned, g.1.task, g.2⟩

def after (p : Party) (o : Op) (r : Resp o) : Party where
  owned := o.owned p.owned r
  task := p.task
  sight := p.sight.after o r

theorem of_after (g : Held × Sight) (o : Op) (r : Resp o) :
    of (g.1.after o r, g.2.after o r) = (of g).after o r := by
  cases o
  case register => cases r <;> rfl
  case publish _ result => cases result <;> rfl
  case metaLookup => cases r <;> rfl
  case awaitGet => rcases r with (⟨i, e | r⟩ | _) | _ | _ <;> rfl
  case awaitHead => rcases r with (e | m) | _ | _ <;> rfl
  all_goals rfl

end Party

/-- The operations on the cache and the table, and those that start tasks. -/
def touches : Op → Bool
  | .blocksGet _ | .blocksInsert _ _ | .blocksRemove _ | .register _ | .unregister _ | .publish _ _
  | .spawn _ => true
  | _ => false

theorem after_of_not_touches (s : Shared) (p : Party) {o : Op} (r : Resp o) (ho : touches o = false) :
    p.after o r = p ∧ (s.after o).inflight = s.inflight ∧ (s.after o).channels = s.channels ∧
      (s.after o).nextSlot = s.nextSlot ∧ (s.after o).blocks = s.blocks := by
  cases o <;> first | exact ⟨rfl, rfl, rfl, rfl, rfl⟩ | cases ho

theorem respond_found {s : Shared} {keys : List BlockKey} {x : Choice} {i : Nat} {s' : Shared}
    {ts : List Task} (h : respond s (.blocksGet keys) x = some (.ready (i, none), s', ts)) :
    x = .found i none := by
  cases x with
  | found j block =>
      simp only [respond] at h
      split at h
      · cases h
        rfl
      · split at h <;> cases h
      · cases h
  | dropped => cases h
  | _ => cases h

section

variable [TagHash]

/-- What a thread may count on. Its slots are in the table, but for one it is about to publish; the
blocks it has seen are cached. A slot it was handed is settled only when its block is cached. -/
structure View (U : Universe) (s : Shared) (p : Party) : Prop extends s.Owns p.owned p.sight.gap where
  stored : p.sight.stored ⊆ s.blocks
  gap : ∀ key, p.sight.gap = some key → U.Inside key → ∃ b, (key, b) ∈ p.sight.stored
  removes : p.task.removes = false
  group : p.sight.group = false → p.task.slots = []
  handed : (p.task.slots.map (·.key)).Nodup
  served : ∀ slot ∈ p.task.slots, U.Inside slot.key → slot ∈ p.owned ∨ ∃ b, (slot.key, b) ∈ s.blocks

/-- What keeps two threads apart. A key one of them is going to hand to a fetch group is not among
those the other was handed. -/
structure Separate (U : Universe) (p p' : Party) : Prop where
  owned : ∀ slot ∈ p.owned, slot ∉ p'.owned
  handed : ∀ slot ∈ p.task.slots, ∀ slot' ∈ p'.task.slots, U.Inside slot.key → slot.key ≠ slot'.key
  missed : ∀ slot ∈ p.owned, slot.key ∈ p.sight.missed → p.sight.gap ≠ some slot.key → U.Inside slot.key →
    ∀ slot' ∈ p'.task.slots, slot'.key ≠ slot.key

/-- What is on the channels is in the cache. -/
def Published (U : Universe) (s : Shared) : Prop :=
  ∀ slot result, s.channels slot = some result → ∃ b, result = .ok b ∧
    (U.Inside slot.key → (slot.key, b) ∈ s.blocks)

variable {U : Universe} {s s' : Shared} {p p' : Party}

theorem ne_nil_of_exact (h : U.Exact key b) (hin : U.Inside key) : b.data ≠ [] := by
  obtain ⟨hi, bs, v, hbs, hv, ht, -, -, hlen⟩ := h
  have hlt := hin bs v hbs hv ht
  have hB := bs.bytes_pos
  rw [bs.blockRange_count hi, Nat.add_mul] at hlen
  intro hnil
  rw [hnil, List.length_nil] at hlen
  omega

theorem View.of_owns (h : View U s p) (hb : s.blocks ⊆ s'.blocks) (ho : s'.Owns p.owned p.sight.gap) :
    View U s' p :=
  { h with
    toOwns := ho
    stored := fun _ hp => hb (h.stored hp)
    served := fun slot hs hin => (h.served slot hs hin).imp id (Exists.imp fun _ hc => hb hc) }

theorem Published.of_subset (h : Published U s) (hc : s'.channels = s.channels) (hb : s.blocks ⊆ s'.blocks) :
    Published U s' := by
  intro slot result hr
  rw [hc] at hr
  obtain ⟨b, heq, hin⟩ := h slot result hr
  exact ⟨b, heq, fun hi => hb (hin hi)⟩

/-! ## Lookups -/

theorem View.looked (h : View U s p) {found : Option Block}
    (hf : ∀ b, found = some b → (key, b) ∈ s.blocks) :
    View U s { p with sight := p.sight.looked key found } := by
  cases found with
  | none => exact { h with }
  | some b =>
      refine { h with stored := fun q hq => ?_, gap := fun key' hk hin => ?_ }
      · rcases List.mem_cons.mp hq with rfl | hq
        · exact hf b rfl
        · exact h.stored hq
      · obtain ⟨b', hb'⟩ := h.gap key' hk hin
        exact ⟨b', List.mem_cons_of_mem _ hb'⟩

/-- A key that is in the table and not in the cache has not been handed to anybody else. -/
theorem View.not_handed (h : View U s p) (h' : View U s p') (ha : Separate U p p') {slot' : Slot}
    (hs : slot ∈ p.owned) (hgap : p.sight.gap = none) (hin : U.Inside slot.key)
    (hnone : ∀ b, (slot.key, b) ∉ s.blocks) (hs' : slot' ∈ p'.task.slots) : slot'.key ≠ slot.key := by
  intro hkey
  rcases h'.served slot' hs' (hkey ▸ hin) with howned | ⟨b, hb⟩
  · by_cases hgap' : p'.sight.gap = some slot'.key
    · obtain ⟨b, hb⟩ := h'.gap _ hgap' (hkey ▸ hin)
      exact hnone b (hkey ▸ h'.stored hb)
    · have hentry := h'.entry slot' howned hgap'
      rw [hkey, h.entry_of_idle hgap hs] at hentry
      cases hentry
      exact ha.owned slot hs howned
  · exact hnone b (hkey ▸ hb)

theorem Separate.looked (h : View U s p) (h' : View U s p') (ha : Separate U p p') (hgap : p.sight.gap = none)
    {found : Option Block} (hnone : found = none → ∀ b, (key, b) ∉ s.blocks) :
    Separate U { p with sight := p.sight.looked key found } p' := by
  cases found with
  | some b => exact { ha with }
  | none =>
      refine { ha with missed := fun slot hs hm hg hin slot' hs' => ?_ }
      rcases List.mem_cons.mp hm with rfl | hm
      · exact h.not_handed h' ha hs hgap hin (hnone rfl) hs'
      · exact ha.missed slot hs hm hg hin slot' hs'

/-! ## Registration -/

/-- The slot of a key that was not in the table. -/
def Party.registered (p : Party) (slot : Slot) : Party :=
  { p with
    owned := slot ::ₘ p.owned,
    sight := { p.sight with missed := p.sight.missed.filter (· ≠ slot.key), known := slot :: p.sight.known } }

theorem View.registered (h : View U s p) (hgap : p.sight.gap = none) (hnone : s.inflight key = none) :
    View U (s.register key).2 (p.registered ⟨key, s.nextSlot⟩) := by
  have howns := h.toOwns.registered hgap hnone
  rw [← hgap] at howns
  simp only [Shared.register, hnone] at howns ⊢
  exact {
    h with
    toOwns := howns
    served := fun slot hs hin => (h.served slot hs hin).imp (Multiset.mem_cons_of_mem ·) id }

theorem Separate.registered (h' : View U s p') (ha : Separate U p p') (key : BlockKey) :
    Separate U (p.registered ⟨key, s.nextSlot⟩) p' := by
  refine { ha with owned := fun slot hs => ?_, missed := fun slot hs hm hg hin slot' hs' => ?_ }
  · rcases Multiset.mem_cons.mp hs with rfl | hs
    · exact h'.not_mem_new key
    · exact ha.owned slot hs
  · obtain ⟨hm, hne⟩ := List.mem_filter.mp hm
    rcases Multiset.mem_cons.mp hs with rfl | hs
    · exact absurd rfl (of_decide_eq_true hne)
    · exact ha.missed slot hs hm hg hin slot' hs'

theorem Separate.registered_right (h : View U s p) (ha : Separate U p p') (key : BlockKey) :
    Separate U p (p'.registered ⟨key, s.nextSlot⟩) := by
  refine { ha with owned := fun slot hs hs' => ?_ }
  rcases Multiset.mem_cons.mp hs' with rfl | hs'
  · exact h.not_mem_new key hs
  · exact ha.owned slot hs hs'

theorem View.register_stable (h : View U s p) (hnone : s.inflight key = none) :
    View U (s.register key).2 p := by
  have howns := h.toOwns.register_stable hnone
  simp only [Shared.register, hnone] at howns ⊢
  exact h.of_owns (fun _ => id) howns

/-! ## Settling -/

def Party.unregistered (p : Party) (key : BlockKey) : Party :=
  { p with sight := { p.sight with gap := some key } }

theorem View.unregistered (h : View U s p) (hgap : p.sight.gap = none)
    (hstored : U.Inside key → ∃ b, (key, b) ∈ p.sight.stored) :
    View U (s.unregister key) (p.unregistered key) := by
  refine { h with toOwns := h.toOwns.unregistered hgap, gap := fun key' hk hin => ?_ }
  cases hk
  exact hstored hin

theorem Separate.unregistered (ha : Separate U p p') (hgap : p.sight.gap = none) (key : BlockKey) :
    Separate U (p.unregistered key) p' :=
  { ha with missed := fun slot hs hm _ => ha.missed slot hs hm (by simp [hgap]) }

theorem View.unregister_stable (h : View U s p) (h' : View U s p') (ha : Separate U p p')
    (hgap : p.sight.gap = none) (hs : slot ∈ p.owned) : View U (s.unregister slot.key) p' :=
  h'.of_owns (fun _ => id) (h.toOwns.unregister_stable h'.toOwns ha.owned hgap hs)

def Party.published (p : Party) (slot : Slot) : Party :=
  { p with owned := p.owned.erase slot, sight := { p.sight with gap := none } }

theorem View.published (h : View U s p) (hgap : p.sight.gap = some slot.key) (hs : slot ∈ p.owned)
    (result : BlockResult) : View U (s.publish slot result) (p.published slot) := by
  refine {
    h with
    toOwns := h.toOwns.published hgap hs result
    gap := by rintro _ ⟨⟩
    served := fun slot' hs' hin => ?_ }
  by_cases heq : slot' = slot
  · subst heq
    obtain ⟨b, hb⟩ := h.gap _ hgap hin
    exact .inr ⟨b, h.stored hb⟩
  · exact (h.served slot' hs' hin).imp (h.nodup.mem_erase_iff.mpr ⟨heq, ·⟩) id

theorem Separate.published (h : View U s p) (ha : Separate U p p') (hgap : p.sight.gap = some slot.key)
    (hs : slot ∈ p.owned) : Separate U (p.published slot) p' where
  owned := fun slot' hs' => ha.owned slot' (Multiset.mem_of_mem_erase hs')
  handed := ha.handed
  missed := fun slot' hs' hm _ => ha.missed slot' (Multiset.mem_of_mem_erase hs') hm (h.gap_ne hgap hs hs')

theorem Separate.published_right (ha : Separate U p p') (slot : Slot) : Separate U p (p'.published slot) :=
  { ha with owned := fun slot' hs hs' => ha.owned slot' hs (Multiset.mem_of_mem_erase hs') }

/-! ## Handing over -/

def Party.spawned (p : Party) (slots : List Slot) : Party := { p with owned := p.owned - slots }

/-- A fetch group at its start. -/
def Party.group (ctx : ReadCtx) (slots : List Slot) (priority : Priority) : Party :=
  ⟨slots, .fetchGroup ctx slots priority none, ⟨true, [], [], [], none⟩⟩

section

variable {slots : List Slot} {ctx : ReadCtx} {priority : Priority}

theorem View.spawned (h : View U s p) (hgroup : p.sight.group = false) : View U s (p.spawned slots) := by
  refine { h with toOwns := h.toOwns.of_le (Multiset.sub_le_self _ _), served := fun slot hs => ?_ }
  change slot ∈ p.task.slots at hs
  rw [h.group hgroup] at hs
  cases hs

theorem Separate.spawned (ha : Separate U p p') : Separate U (p.spawned slots) p' where
  owned := fun slot hs => ha.owned slot (Multiset.mem_of_le (Multiset.sub_le_self _ _) hs)
  handed := ha.handed
  missed := fun slot hs => ha.missed slot (Multiset.mem_of_le (Multiset.sub_le_self _ _) hs)

theorem Separate.spawned_right (ha : Separate U p p') : Separate U p (p'.spawned slots) :=
  { ha with owned := fun slot hs hs' => ha.owned slot hs (Multiset.mem_of_le (Multiset.sub_le_self _ _) hs') }

theorem View.of_group (h : View U s p) (hgap : p.sight.gap = none) (hle : (slots : Multiset Slot) ≤ p.owned) :
    View U s (.group ctx slots priority) := by
  have howns := h.toOwns.of_le hle
  rw [hgap] at howns
  exact {
    toOwns := howns
    stored := List.nil_subset _
    gap := by rintro _ ⟨⟩
    removes := rfl
    group := by rintro ⟨⟩
    handed := (Multiset.coe_nodup.mp howns.nodup).map_on howns.keys
    served := fun slot hs _ => .inl hs }

theorem Separate.group_self (h : View U s p) (hgroup : p.sight.group = false)
    (hle : (slots : Multiset Slot) ≤ p.owned) : Separate U (p.spawned slots) (.group ctx slots priority) where
  owned := fun slot hs => ((Multiset.mem_sub_of_nodup h.nodup).mp hs).2
  handed := fun slot hs => by
    change slot ∈ p.task.slots at hs
    rw [h.group hgroup] at hs
    cases hs
  missed := fun slot hs _ _ _ slot' hs' heq => by
    obtain ⟨hs, hnot⟩ := (Multiset.mem_sub_of_nodup h.nodup).mp hs
    have hsame := h.keys slot' (Multiset.mem_of_le hle (Multiset.mem_coe.mpr hs')) slot hs heq
    exact hnot (hsame ▸ Multiset.mem_coe.mpr hs')

theorem Separate.self_group (h : View U s p) (hgroup : p.sight.group = false) :
    Separate U (.group ctx slots priority) (p.spawned slots) where
  owned := fun slot hs hs' => ((Multiset.mem_sub_of_nodup h.nodup).mp hs').2 hs
  handed := fun slot _ slot' hs' => by
    change slot' ∈ p.task.slots at hs'
    rw [h.group hgroup] at hs'
    cases hs'
  missed := fun _ _ hm => by cases hm

/-- A key that is handed over has not been handed over before. -/
theorem Separate.group_left (ha : Separate U p p') (hgap : p.sight.gap = none)
    (hle : (slots : Multiset Slot) ≤ p.owned) (hmissed : ∀ slot ∈ slots, slot.key ∈ p.sight.missed) :
    Separate U (.group ctx slots priority) p' where
  owned := fun slot hs => ha.owned slot (Multiset.mem_of_le hle hs)
  handed := fun slot hs slot' hs' hin heq =>
    ha.missed slot (Multiset.mem_of_le hle (Multiset.mem_coe.mpr hs)) (hmissed slot hs) (by simp [hgap]) hin
      slot' hs' heq.symm
  missed := fun _ _ hm => by cases hm

theorem Separate.group_right (h : View U s p) (h' : View U s p') (ha : Separate U p p')
    (ha' : Separate U p' p) (hgap : p.sight.gap = none) (hle : (slots : Multiset Slot) ≤ p.owned)
    (hmissed : ∀ slot ∈ slots, slot.key ∈ p.sight.missed) : Separate U p' (.group ctx slots priority) where
  owned := fun slot hs hs' => ha'.owned slot hs (Multiset.mem_of_le hle hs')
  handed := fun slot hs slot' hs' hin heq =>
    ha.missed slot' (Multiset.mem_of_le hle (Multiset.mem_coe.mpr hs')) (hmissed slot' hs') (by simp [hgap])
      (heq ▸ hin) slot hs heq
  missed := fun slot hs _ hg _ slot' hs' heq => by
    have hs' : slot' ∈ p.owned := Multiset.mem_of_le hle (Multiset.mem_coe.mpr hs')
    have hentry := h.entry_of_idle hgap hs'
    rw [heq, h'.entry slot hs hg] at hentry
    cases hentry
    exact ha.owned slot hs' hs

end

/-! ## One step -/

def outline (U : Universe) (fuel : Nat) : Outline (system fuel) (Held × Sight) where
  spec := U.exactLaw.terms.spec.prod Sight.spec
  init job := (.start job.contract, job.sight)
  post _ g := g.1.owned = 0 ∧ g.2.gap = none
  inv s := U.exactLaw.Lawful s ∧ Published U s
  view s g := View U s (.of g)
  apart g g' := Separate U (.of g) (.of g')

variable {fuel : Nat} {g : Held × Sight} {o : Op} {r : Resp o}

theorem sight_rely {L : Law} (h : L.terms.rely o r) : Sight.rely o r := by
  cases o
  case register =>
    cases r with
    | owner slot => exact h.1
    | waiter slot => exact h
  all_goals exact trivial

theorem keeps_of (hinv : (outline U fuel).inv s) (hg : (outline U fuel).spec.guar g o) (ha : s.Answers o r)
    (ho : o.tasks = []) (hpub : Published U (s.after o)) (hview : View U (s.after o) ((Party.of g).after o r))
    (hother : ∀ p', View U s p' → Separate U (.of g) p' → Separate U p' (.of g) → View U (s.after o) p' ∧
      Separate U ((Party.of g).after o r) p' ∧ Separate U p' ((Party.of g).after o r)) :
    (outline U fuel).Keeps s g o r (s.after o) (o.tasks.map .task) where
  inv := ⟨hinv.1.after hg.1, hpub⟩
  rely := ⟨hinv.1.rely ha, sight_rely (hinv.1.rely ha)⟩
  view := by
    rw [← Party.of_after] at hview
    exact hview
  stable g' hg' ha' := (hother _ hg' ha'.1 ha'.2).1
  apart g' hg' ha' := by
    have := hother _ hg' ha'.1 ha'.2
    rw [← Party.of_after] at this
    exact this.2
  starts := by simp [ho]
  fresh := by simp [ho]
  alone := by simp [ho]

theorem keeps_quiet (hinv : (outline U fuel).inv s) (hv : View U s (.of g))
    (hg : (outline U fuel).spec.guar g o) (ha : s.Answers o r) (ho : touches o = false) :
    (outline U fuel).Keeps s g o r (s.after o) (o.tasks.map .task) := by
  obtain ⟨hp, hinflight, hchannels, hnext, hblocks⟩ := after_of_not_touches s (.of g) r ho
  have hstable {p : Party} (h : View U s p) : View U (s.after o) p :=
    h.of_owns (by rw [hblocks]; exact fun _ => id)
      (h.toOwns.of_entry hnext.ge (by rw [hinflight]; exact h.entry))
  refine keeps_of hinv hg ha (by cases o <;> first | rfl | cases ho)
    (hinv.2.of_subset hchannels (by rw [hblocks]; exact fun _ => id)) ?_ fun p' h' h₁ h₂ => ?_
  · rw [hp]
    exact hstable hv
  · rw [hp]
    exact ⟨hstable h', h₁, h₂⟩

theorem keeps_insert {r : Resp (.blocksInsert key b)} (hinv : (outline U fuel).inv s)
    (hv : View U s (.of g)) (hg : (outline U fuel).spec.guar g (.blocksInsert key b)) :
    (outline U fuel).Keeps s g (.blocksInsert key b) r (s.insertBlock key b) [] := by
  have hsub : s.blocks ⊆ (s.insertBlock key b).blocks := fun _ => List.mem_cons_of_mem _
  have hstable {p : Party} (h : View U s p) : View U (s.insertBlock key b) p :=
    h.of_owns hsub (h.toOwns.of_entry (Nat.le_refl _) h.entry)
  have hfound : ∀ b', some b = some b' → (key, b') ∈ (s.insertBlock key b).blocks := by
    rintro _ ⟨⟩
    exact List.mem_cons_self
  exact keeps_of hinv hg trivial rfl (hinv.2.of_subset rfl hsub) ((hstable hv).looked hfound)
    fun p' h' h₁ h₂ => ⟨hstable h', { h₁ with }, { h₂ with }⟩

theorem keeps_get {keys : List BlockKey} {r : Resp (.blocksGet keys)} (hinv : (outline U fuel).inv s)
    (hv : View U s (.of g)) (hg : (outline U fuel).spec.guar g (.blocksGet keys))
    (ha : s.Answers (.blocksGet keys) r) (hnone : ∀ i key, r = .ready (i, none) → keys[i]? = some key →
      ∀ b, (key, b) ∉ s.blocks) :
    (outline U fuel).Keeps s g (.blocksGet keys) r s [] := by
  have hsame (h : (Party.of g).after (.blocksGet keys) r = .of g) :
      (outline U fuel).Keeps s g (.blocksGet keys) r s [] :=
    keeps_of hinv hg ha rfl hinv.2 (h.symm ▸ hv) fun p' h' h₁ h₂ => ⟨h', h.symm ▸ h₁, h.symm ▸ h₂⟩
  rcases r with ⟨i, found⟩ | _ | _
  · cases hi : keys[i]? with
    | none => exact hsame (by simp [Party.after, Op.owned, Sight.after, hi])
    | some key =>
        have hp : (Party.of g).after (.blocksGet keys) (.ready (i, found)) =
            { Party.of g with sight := g.2.looked key found } := by
          simp [Party.after, Op.owned, Sight.after, hi, Party.of]
        have hfound : ∀ b, found = some b → (key, b) ∈ s.blocks := by
          rintro b rfl
          obtain ⟨key', hk, hb⟩ := ha
          rw [hi] at hk
          cases hk
          exact hb
        refine keeps_of hinv hg ha rfl hinv.2 ?_ fun p' h' h₁ h₂ => ⟨h', ?_, ?_⟩
        · rw [hp]
          exact hv.looked hfound
        · rw [hp]
          refine h₁.looked hv h' hg.2 fun hf => ?_
          subst hf
          exact hnone i key rfl hi
        · rw [hp]
          exact { h₂ with }
  · exact hsame rfl
  · exact hsame rfl

theorem keeps_register {r : Resp (.register key)} (hinv : (outline U fuel).inv s)
    (hv : View U s (.of g)) (hg : (outline U fuel).spec.guar g (.register key))
    (ha : s.Answers (.register key) r) :
    (outline U fuel).Keeps s g (.register key) r (s.register key).2 [] := by
  obtain rfl : r = (s.register key).1 := ha
  cases hi : s.inflight key with
  | some slot =>
      have heq := Shared.register_waiter hi
      refine keeps_of hinv hg rfl rfl ?_ ?_ fun p' h' h₁ h₂ => ?_
      all_goals simp only [Shared.after, heq]
      · exact hinv.2
      · exact { hv with }
      · exact ⟨h', { h₁ with }, { h₂ with }⟩
  | none =>
      have heq := Shared.register_owner hi
      have hpub : Published U (s.register key).2 := by
        simp only [Shared.register, hi]
        exact hinv.2
      refine keeps_of hinv hg rfl rfl hpub ?_ fun p' h' h₁ h₂ => ⟨h'.register_stable hi, ?_, ?_⟩
      all_goals rw [heq]
      · exact hv.registered hg.2 hi
      · exact h₁.registered h' key
      · exact h₂.registered_right h' key

theorem keeps_unregister {r : Resp (.unregister key)} (hinv : (outline U fuel).inv s)
    (hv : View U s (.of g)) (hg : (outline U fuel).spec.guar g (.unregister key))
    (hstored : U.Inside key → ∃ b, (key, b) ∈ g.2.stored) :
    (outline U fuel).Keeps s g (.unregister key) r (s.unregister key) [] := by
  obtain ⟨⟨slot, hs, rfl⟩, hgap⟩ := id hg
  exact keeps_of hinv hg trivial rfl hinv.2 (hv.unregistered hgap hstored) fun p' h' h₁ h₂ =>
    ⟨hv.unregister_stable h' h₁ hgap hs, h₁.unregistered hgap slot.key, { h₂ with }⟩

theorem keeps_publish {r : Resp (.publish slot (.ok b))} (hinv : (outline U fuel).inv s)
    (hv : View U s (.of g)) (hg : (outline U fuel).spec.guar g (.publish slot (.ok b))) :
    (outline U fuel).Keeps s g (.publish slot (.ok b)) r (s.publish slot (.ok b)) [] := by
  obtain ⟨⟨hs, hfit⟩, hgap, hstored⟩ := id hg
  refine keeps_of hinv hg trivial rfl ?_ (hv.published hgap hs _) fun p' h' h₁ h₂ =>
    ⟨h'.of_owns (fun _ => id) (h'.toOwns.of_entry (Nat.le_refl _) h'.entry), h₁.published hv hgap hs,
      h₂.published_right slot⟩
  intro slot' result hr
  obtain ⟨rfl, heq⟩ | ⟨-, hr⟩ := update_eq_some hr
  · cases heq
    refine ⟨b, rfl, fun hin => ?_⟩
    exact hv.stored ((hstored b rfl).resolve_right (ne_nil_of_exact (hfit b rfl) hin))
  · exact hinv.2 slot' result hr

theorem keeps_spawn {task : Task} {r : Resp (.spawn task)} (hinv : (outline U fuel).inv s)
    (hv : View U s (.of g)) (hg : (outline U fuel).spec.guar g (.spawn task)) :
    (outline U fuel).Keeps s g (.spawn task) r s [.task task] := by
  obtain ⟨⟨-, hok, hle, -⟩, hgap, hgroup, ⟨ctx, slots, priority, rfl⟩, hmissed⟩ := id hg
  have hstarts : (outline U fuel).Starts s (.task (.fetchGroup ctx slots priority none)) :=
    ⟨Sight.fetchGroup_wp ⟨hok.1.key, rfl⟩ (program_wp U.exactLaw.terms_running hok) rfl, hv.of_group hgap hle⟩
  exact {
    inv := hinv
    rely := ⟨trivial, trivial⟩
    view := hv.spawned hgroup
    stable := fun g' hg' _ => hg'
    apart := fun g' hg' ha => ⟨ha.1.spawned, ha.2.spawned_right⟩
    starts := by
      rintro t (_ | ⟨_, ⟨⟩⟩)
      exact ⟨hstarts, .group_self hv hgroup hle, .self_group hv hgroup⟩
    fresh := by
      rintro t (_ | ⟨_, ⟨⟩⟩) g' hg' ha
      exact ⟨.group_right hv hg' ha.1 ha.2 hgap hle hmissed, .group_left ha.1 hgap hle hmissed⟩
    alone := List.pairwise_singleton _ _ }

/-- One operation of a smooth run keeps the callers sound. -/
theorem resume_sound {c c' : Callers} {i : Nat} {x : Choice} (h : (outline U fuel).Sound c)
    (hok : Smooth U c (.run i x)) (hs : (system fuel).resume c i x = some c') :
    (outline U fuel).Sound c' := by
  refine h.resume hs fun th o k r s ts _ hget hprog hanswer hth hg => ?_
  obtain ⟨⟨r', s', tasks⟩, hresp, heq⟩ := Option.map_eq_some_iff.mp hanswer
  cases heq
  obtain ⟨rfl, rfl, ha⟩ := respond_spec hresp
  obtain ⟨hsettles, hmisses⟩ := hok th hget
  have hv := hth.view
  cases o
  case blocksInsert key b => exact keeps_insert h.inv hv hg
  case blocksGet keys =>
    refine keeps_get h.inv hv hg ha fun j key hr hj => ?_
    subst hr
    exact hmisses keys k j key hprog (respond_found hresp) hj
  case blocksRemove key =>
    rw [show (Op.blocksRemove key).tasks = [] from rfl]
    exact absurd (hg.1.symm.trans hv.removes) (by simp)
  case register key => exact keeps_register h.inv hv hg ha
  case unregister key =>
    refine keeps_unregister h.inv hv hg fun hin => ?_
    -- the result that is going to be published tells that the block is cached
    have hrest := hth.wp
    rw [hprog] at hrest
    have hrest := hrest.2 () ⟨trivial, trivial⟩
    cases hk : k () with
    | pure u =>
        rw [hk] at hrest
        cases hrest.2
    | op o' k' =>
        rw [hk] at hrest
        obtain ⟨slot, result, rfl, rfl, hstored⟩ := Sight.publishes rfl hrest.1.2
        obtain ⟨b, rfl⟩ := hsettles slot result (by simp [hprog, settles, hk])
        exact ⟨b, (hstored b rfl).resolve_right (ne_nil_of_exact (hrest.1.1.2 b rfl) hin)⟩
  case publish slot result =>
    obtain ⟨b, rfl⟩ := hsettles slot result (by simp [hprog, settles])
    exact keeps_publish h.inv hv hg
  case spawn task => exact keeps_spawn h.inv hv hg
  all_goals exact keeps_quiet h.inv hv hg ha rfl

theorem starts_schedule {ctx : ReadCtx} {indexes : Range} {priority : Priority} (hctx : U.CtxOk ctx)
    (hstart : indexes.start ≤ maxU32) (hstop : indexes.stop ≤ maxU32) :
    (outline U fuel).Starts s (.schedule ctx indexes priority) := by
  have hcount : indexes.start + indexes.count ≤ maxU32 := by
    rw [Range.count]
    omega
  have hterms : wp U.exactLaw.terms.spec (do let _ ← schedule ctx indexes priority) (fun g' _ => g'.owned = 0)
      (.start (.readahead ctx indexes)) :=
    wp_seq (schedule_wp U.exactLaw.terms_running hctx hcount) fun g₁ _ h₁ => h₁.1.owned
  have hsight : wp Sight.spec (do let _ ← schedule ctx indexes priority) (fun f' _ => f'.gap = none)
      ⟨false, [], [], [], none⟩ :=
    wp_seq (Sight.schedule_wp rfl rfl) fun f₁ _ h₁ => h₁.1.gap
  refine ⟨wp_prod hterms hsight, ?_⟩
  exact ⟨⟨by rintro _ ⟨⟩, Multiset.nodup_zero, by rintro _ ⟨⟩, by rintro _ ⟨⟩⟩,
    List.nil_subset _, by rintro _ ⟨⟩, rfl, fun _ => rfl, List.nodup_nil, by rintro _ ⟨⟩⟩

theorem step_sound {c c' : Callers} {e : Event} (h : (outline U fuel).Sound c) (hok : Smooth U c e)
    (hs : step fuel c e = some c') : (outline U fuel).Sound c' := by
  cases e with
  | run i x => exact resume_sound h hok hs
  | call ctx indexes priority =>
      cases hs
      refine h.spawn (starts_schedule hok.1 hok.2.1 hok.2.2) fun g _ => ⟨⟨?_, ?_, ?_⟩, ?_, ?_, ?_⟩
      · rintro _ _ ⟨⟩
      · rintro _ _ _ ⟨⟩
      · rintro _ _ _ _ _ _ ⟨⟩
      · rintro _ ⟨⟩
      · rintro _ ⟨⟩
      · rintro _ ⟨⟩
  | tick n =>
      cases hs
      exact h.env ⟨{ h.inv.1 with }, h.inv.2⟩ fun _ hv => { hv with }
  | overwrite ns object v =>
      cases hs
      exact h.env ⟨h.inv.1.setVersion hok, h.inv.2⟩ fun _ hv => { hv with }

end

end Callers

end Nestor
