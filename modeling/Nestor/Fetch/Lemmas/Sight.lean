import Nestor.Fetch.Lemmas.Duty
import Nestor.Fetch.Lemmas.Rest
import Nestor.Fetch.Lemmas.Schedule

/-!
# What a task sees of the cache and the table

Beside its contract, a fetch group and a call of `schedule` keep an order of their own: a block is
in the cache before its slot leaves the table, and a slot is handed to a fetch group only after a
lookup since its registration has not found its block.
-/

namespace Nestor

open Lib

variable {α : Type} {o : Op} {key : BlockKey} {result : BlockResult} {slots : List Slot}
    {next : Nat} {range : Range} {initial : Option GetResponse} {priority : Priority}

structure Sight where
  /-- Whether the task is a fetch group. -/
  group : Bool
  /-- The blocks it has put into the cache or found there. -/
  stored : List (BlockKey × Block)
  /-- The keys it has not found a block for since it registered them. -/
  missed : List BlockKey
  /-- The slots it has registered or joined. -/
  known : List Slot
  /-- The key it has taken out of the table and whose result it has not published yet. -/
  gap : Option BlockKey

namespace Sight

def looked (f : Sight) (key : BlockKey) : Option Block → Sight
  | some block => { f with stored := (key, block) :: f.stored }
  | none => { f with missed := key :: f.missed }

def after (f : Sight) : (o : Op) → Resp o → Sight
  | .blocksInsert key block, _ => { f with stored := (key, block) :: f.stored }
  | .blocksGet keys, .ready (i, found) => (keys[i]?).elim f (f.looked · found)
  | .register key, .owner slot => { f with missed := f.missed.filter (· ≠ key), known := slot :: f.known }
  | .register _, .waiter slot => { f with known := slot :: f.known }
  | .unregister key, _ => { f with gap := some key }
  | .publish _ _, _ => { f with gap := none }
  | _, _ => f

def guar (f : Sight) : Op → Prop
  | .publish slot result =>
      f.gap = some slot.key ∧ ∀ b, result = .ok b → (slot.key, b) ∈ f.stored ∨ b.data = []
  | .spawn task =>
      f.gap = none ∧ f.group = false ∧ (∃ ctx slots priority, task = .fetchGroup ctx slots priority none) ∧
        ∀ slot ∈ task.slots, slot.key ∈ f.missed
  | _ => f.gap = none

/-- A registration is answered with a slot for the key. -/
def rely : (o : Op) → Resp o → Prop
  | .register key, .owner slot => slot.key = key
  | .register key, .waiter slot => slot.key = key
  | _, _ => True

def spec : Spec Op Resp Sight := ⟨guar, fun _ => rely, after⟩

theorem subset_after (f : Sight) (o : Op) (r : Resp o) :
    f.stored ⊆ (f.after o r).stored ∧ f.known ⊆ (f.after o r).known := by
  cases o
  case blocksInsert => exact ⟨fun _ => List.mem_cons_of_mem _, fun _ => id⟩
  case blocksGet keys =>
    rcases r with ⟨i, found⟩ | _ | _
    · change f.stored ⊆ ((keys[i]?).elim f (f.looked · found)).stored ∧
        f.known ⊆ ((keys[i]?).elim f (f.looked · found)).known
      cases keys[i]? <;> cases found <;> simp [looked]
    · exact ⟨fun _ => id, fun _ => id⟩
    · exact ⟨fun _ => id, fun _ => id⟩
  case register => cases r <;> exact ⟨fun _ => id, fun _ => List.mem_cons_of_mem _⟩
  all_goals exact ⟨fun _ => id, fun _ => id⟩

theorem subset_ghost (f : Sight) (tr : Trace) :
    f.stored ⊆ (spec.ghost f tr).stored ∧ f.known ⊆ (spec.ghost f tr).known := by
  induction tr generalizing f with
  | nil => exact ⟨fun _ => id, fun _ => id⟩
  | cons d tr ih =>
      obtain ⟨hs, hk⟩ := f.subset_after d.1 d.2
      obtain ⟨hs', hk'⟩ := ih (f.after d.1 d.2)
      exact ⟨List.Subset.trans hs hs', List.Subset.trans hk hk'⟩

end Sight

/-! ## Operations that neither settle slots nor start tasks -/

def Op.plain : Op → Bool
  | .publish _ _ | .unregister _ | .spawn _ => false
  | _ => true

abbrev Plain {α : Type} (p : Program α) : Prop := p.Only (·.plain = true)

theorem Aside.plain {p : Program α} (h : Aside p) : Plain p :=
  h.mono fun o ho => by cases o <;> first | rfl | cases ho

/-- The operations of a GET of the object with its hedge. -/
def Op.Gets (ns object : Bytes) : Op → Prop
  | .sendGet ns' object' _ => ns' = ns ∧ object' = object
  | .clock | .hedge _ | .awaitGet _ _ _ | .hang => True
  | _ => False

abbrev Gets {α : Type} (ns object : Bytes) (p : Program α) : Prop := p.Only (·.Gets ns object)

theorem Gets.plain {ns object : Bytes} {p : Program α} (h : Gets ns object p) : Plain p :=
  h.mono fun o ho => by cases o <;> first | rfl | cases ho

variable {ctx : ReadCtx} {deadline fuel : Nat}

section

variable {ns object : Bytes}

theorem awaitLast_gets {request : GetRequest} : Gets ns object (awaitLast request deadline) := by
  refine .step trivial fun answer => ?_
  rcases answer with (_ | _) | _ | _
  case ready.stalled => exact only_hang trivial
  all_goals exact trivial

theorem awaitBoth_gets {primary secondary : GetRequest} :
    Gets ns object (awaitBoth primary secondary deadline) := by
  refine .step trivial fun answer => ?_
  rcases answer with (⟨i, e | response⟩ | _) | _ | _
  case ready.answered.error =>
    dsimp only
    split
    · exact awaitLast_gets
    · exact trivial
  case ready.stalled => exact only_hang trivial
  all_goals exact trivial

end

theorem getHedged_gets {options : GetOptions} :
    Gets ctx.namespace.name ctx.name (getHedged ctx options deadline) := by
  refine .step ⟨rfl, rfl⟩ fun primary => .step trivial fun answer => ?_
  rcases answer with (_ | _) | _ | _
  case ready.stalled =>
    refine .step trivial fun secondary => ?_
    cases secondary with
    | none => exact awaitLast_gets
    | some secondary => exact awaitBoth_gets
  all_goals exact trivial

theorem originGet_gets {options : GetOptions} :
    Gets ctx.namespace.name ctx.name (originGet ctx options deadline) := by
  refine .step trivial fun started => .bind getHedged_gets fun answer => ?_
  cases answer <;> exact trivial

/-! ## Probes -/

/-- All operations but the lookups of blocks and the waits for them, the items of a stream and its
end; no block is inserted. -/
def Op.blind : Op → Bool
  | .blocksGet _ | .wait _ | .blocksInsert _ _ | .item _ _ | .ended => false
  | _ => true

abbrev Blind {α : Type} (p : Program α) : Prop := p.Only (·.blind = true)

theorem Easy.blind {p : Program α} (h : Easy p) : Blind p :=
  h.mono fun o ho => by cases o <;> first | rfl | cases ho

theorem Heads.blind {ns object : Bytes} {p : Program α} (h : Heads ns object p) : Blind p :=
  h.mono fun o ho => by cases o <;> first | rfl | cases ho

theorem Gets.blind {ns object : Bytes} {p : Program α} (h : Gets ns object p) : Blind p :=
  h.mono fun o ho => by cases o <;> first | rfl | cases ho

theorem probeLoop_blind [TagHash] {ns : NamespaceState} {name : Bytes} {indexes : Range}
    {known : Option ObjectMeta} {policy : FetchPolicy} (retry : Retry) :
    Blind (probeLoop ns name indexes known policy fuel retry) := by
  induction fuel generalizing retry with
  | zero => exact only_hang rfl
  | succ fuel ih =>
      refine .step rfl fun now => originGet_gets.blind.bind fun out => ?_
      rcases out with (e | response) | _ | _
      case timeout => exact only_hang rfl
      case dropped => exact only_hang rfl
      case ready.ok => exact .step rfl fun _ => (adoptResponse_easy _ _ _).blind.bind fun _ => trivial
      case ready.error =>
        cases e
        case notModified =>
          cases known with
          | some m => exact .step rfl fun _ => trivial
          | none => trivial
        case notFound => exact .step rfl fun _ => trivial
        all_goals
          refine pastEnd_heads.blind.bind fun out => ?_
          obtain _ | _ | m := out
          · exact only_hang rfl
          · refine .bind (pause_only rfl fun _ => rfl) fun out => ?_
            obtain _ | ⟨retry', e' | ⟨⟩⟩ := out
            · exact only_hang rfl
            · trivial
            · exact ih retry'
          · exact .step rfl fun _ => trivial

/-! ## Settling -/

namespace Sight

variable {f : Sight} {m : ObjectMeta}

theorem group_after (o : Op) (r : Resp o) : (f.after o r).group = f.group := by
  cases o
  case blocksGet keys =>
    rcases r with ⟨i, found⟩ | _ | _
    · change ((keys[i]?).elim f (f.looked · found)).group = f.group
      cases keys[i]? <;> cases found <;> rfl
    · rfl
    · rfl
  case register => cases r <;> rfl
  all_goals rfl

theorem gap_after (ho : o.plain = true) (hf : f.gap = none) (r : Resp o) : (f.after o r).gap = none := by
  cases o
  case publish => cases ho
  case unregister => cases ho
  case blocksGet keys =>
    rcases r with ⟨i, found⟩ | _ | _
    · change ((keys[i]?).elim f (f.looked · found)).gap = none
      cases keys[i]? <;> cases found <;> exact hf
    · exact hf
    · exact hf
  case register => cases r <;> exact hf
  all_goals exact hf

/-- Between its two halves, settling goes on with the publication. -/
theorem publishes (hgap : f.gap = some key) (hg : f.guar o) :
    ∃ slot result, o = .publish slot result ∧ slot.key = key ∧
      ∀ b, result = .ok b → (slot.key, b) ∈ f.stored ∨ b.data = [] := by
  have hidle : f.gap ≠ none := by simp [hgap]
  cases o
  case publish slot result => exact ⟨slot, result, rfl, (Option.some.inj (hgap.symm.trans hg.1)).symm, hg.2⟩
  case spawn => exact absurd hg.1 hidle
  all_goals exact absurd hg hidle

theorem settle_wp {slot : Slot} (hf : f.gap = none)
    (hr : ∀ b, result = .ok b → (slot.key, b) ∈ f.stored ∨ b.data = []) :
    wp spec (slot.settle result) (fun f' _ => f' = f) f := by
  refine ⟨hf, fun _ _ => ⟨⟨rfl, hr⟩, fun _ _ => ?_⟩⟩
  cases f
  cases hf
  rfl

theorem resolveAll_wp (hf : f.gap = none)
    (hr : ∀ b, result = .ok b → b.data = []) : wp spec (resolveAll result slots) (fun f' _ => f' = f) f := by
  induction slots with
  | nil => exact rfl
  | cons slot slots ih =>
      refine wp_seq (settle_wp hf fun b hb => .inr (hr b hb)) fun f₁ _ h₁ => ?_
      rw [h₁]
      exact ih

theorem cancelAll_idle (hf : f.gap = none) : wp spec (cancelAll slots) (fun f' _ => f'.gap = none) f :=
  wp_mono (resolveAll_wp hf nofun) fun _ _ h => h ▸ hf

end Sight

/-! ## Scheduling -/

namespace Sight

/-- The task knows what it knew, and settles nothing. -/
structure Grows (f f' : Sight) : Prop where
  group : f'.group = f.group
  gap : f'.gap = none
  stored : f.stored ⊆ f'.stored
  known : f.known ⊆ f'.known

/-- The result of a lookup. -/
def Saw (f : Sight) (key : BlockKey) : Option Block → Prop
  | some block => (key, block) ∈ f.stored
  | none => key ∈ f.missed

/-- The handle is one the task was given for the key. -/
def Gives (f : Sight) (key : BlockKey) : SlotHandle → Prop
  | .resolved result => ∃ block, result = .ok block ∧ (key, block) ∈ f.stored
  | .waiting slot => slot ∈ f.known ∧ slot.key = key

variable {f f' f'' : Sight}

theorem Grows.refl (hf : f.gap = none) : f.Grows f := ⟨rfl, hf, fun _ => id, fun _ => id⟩

theorem Grows.trans (h : f.Grows f') (h' : f'.Grows f'') : f.Grows f'' :=
  ⟨h'.group.trans h.group, h'.gap, fun _ hp => h'.stored (h.stored hp), fun _ hs => h'.known (h.known hs)⟩

theorem Gives.mono {handle : SlotHandle} (h : f.Gives key handle) (hs : f.stored ⊆ f'.stored)
    (hk : f.known ⊆ f'.known) : f'.Gives key handle := by
  cases handle with
  | resolved result =>
      obtain ⟨block, hr, hb⟩ := h
      exact ⟨block, hr, hs hb⟩
  | waiting slot => exact ⟨hk h.1, h.2⟩

theorem looked_grows (hf : f.gap = none) (key : BlockKey) (found : Option Block) :
    f.Grows (f.looked key found) ∧ f.missed ⊆ (f.looked key found).missed ∧
    (f.looked key found).Saw key found := by
  cases found with
  | none => exact ⟨⟨rfl, hf, fun _ => id, fun _ => id⟩, fun _ => List.mem_cons_of_mem _, List.mem_cons_self⟩
  | some block =>
      exact ⟨⟨rfl, hf, fun _ => List.mem_cons_of_mem _, fun _ => id⟩, fun _ => id, List.mem_cons_self⟩

theorem Saw.mono {found : Option Block} (h : f.Saw key found) (hg : f.Grows f')
    (hm : f.missed ⊆ f'.missed) : f'.Saw key found := by
  cases found with
  | none => exact hm h
  | some block => exact hg.stored h

theorem hang_wp {Q : Sight → α → Prop} (hf : f.gap = none) : wp spec hang Q f :=
  ⟨hf, fun r => Empty.elim r⟩

theorem looks (f : Sight) :
    Looks spec (fun f' => f.Grows f' ∧ f.missed ⊆ f'.missed) f.Grows (fun _ => True) Saw where
  asks := fun h _ _ => h.1.gap
  finds := by
    rintro f₁ keys i key found ⟨hg, hm⟩ - hi
    obtain ⟨hg₁, hm₁, hs⟩ := looked_grows hg.gap key found
    have hnext : spec.next f₁ (.blocksGet keys) (.ready (i, found)) = f₁.looked key found := by
      change (keys[i]?).elim f₁ (f₁.looked · found) = _
      rw [hi, Option.elim_some]
    rw [hnext]
    exact ⟨⟨hg.trans hg₁, fun _ hk => hm₁ (hm hk)⟩, hs, fun _ _ h => h.mono hg₁ hm₁⟩
  strays := by
    intro f₁ keys i found h _ hi
    change ((keys[i]?).elim f₁ (f₁.looked · found)).gap = none
    rw [hi]
    exact h.1.gap
  fails := by
    rintro f₁ keys _ h - (rfl | rfl) <;> exact h.1

theorem joinAll_wp {keys : List BlockKey} (hf : f.gap = none) :
    wp spec (joinAll keys) (Looked f.Grows fun f' results => (f.Grows f' ∧ f.missed ⊆ f'.missed) ∧
      results.map (·.1) = keys ∧ ∀ p ∈ results, f'.Saw p.1 p.2) f :=
  f.looks.joinAll_wp (fun _ _ => trivial) ⟨.refl hf, fun _ => id⟩

theorem registerMisses_wp {results : List (BlockKey × Option Block)} (hf : f.gap = none)
    (hs : ∀ key block, (key, some block) ∈ results → (key, block) ∈ f.stored) :
    wp spec (registerMisses results) (fun f' out => f.Grows f' ∧
      List.Forall₂ (fun p handle => f'.Gives p.1 handle) results out.1) f := by
  induction results generalizing f with
  | nil => exact ⟨.refl hf, .nil⟩
  | cons p results ih =>
      obtain ⟨key, found⟩ := p
      have hs' : ∀ key' block, (key', some block) ∈ results → (key', block) ∈ f.stored :=
        fun key' block hb => hs key' block (List.mem_cons_of_mem _ hb)
      cases found with
      | some block =>
          refine wp_seq (ih hf hs') fun f₁ out h₁ => ⟨h₁.1, .cons ?_ h₁.2⟩
          exact ⟨block, rfl, h₁.1.stored (hs key block List.mem_cons_self)⟩
      | none =>
          refine wp_then hf fun registration hr => ?_
          cases registration with
          | owner slot =>
              refine wp_seq (ih (by exact hf) (by exact hs')) fun f₁ out h₁ => ?_
              exact ⟨⟨h₁.1.group, h₁.1.gap, h₁.1.stored, fun _ hk => h₁.1.known (List.mem_cons_of_mem _ hk)⟩,
                .cons ⟨h₁.1.known List.mem_cons_self, hr⟩ h₁.2⟩
          | waiter slot =>
              refine wp_seq (ih (by exact hf) (by exact hs')) fun f₁ out h₁ => ?_
              exact ⟨⟨h₁.1.group, h₁.1.gap, h₁.1.stored, fun _ hk => h₁.1.known (List.mem_cons_of_mem _ hk)⟩,
                .cons ⟨h₁.1.known List.mem_cons_self, hr⟩ h₁.2⟩

theorem resolveLanded_wp {landed : List (Slot × Option Block)} (hf : f.gap = none)
    (hs : ∀ slot block, (slot, some block) ∈ landed → (slot.key, block) ∈ f.stored) :
    wp spec (resolveLanded landed) (fun f' owners => f' = f ∧ ∀ slot ∈ owners, (slot, none) ∈ landed) f := by
  induction landed with
  | nil => exact ⟨rfl, by simp⟩
  | cons p landed ih =>
      obtain ⟨slot, found⟩ := p
      have ih := ih fun slot' block hb => hs slot' block (List.mem_cons_of_mem _ hb)
      cases found with
      | some block =>
          refine wp_seq (settle_wp hf ?_) fun f₁ _ h₁ => ?_
          · rintro _ ⟨⟩
            exact .inl (hs slot block List.mem_cons_self)
          · subst h₁
            exact wp_mono ih fun f₂ owners h₂ => ⟨h₂.1,
              fun slot' hs => List.mem_cons_of_mem _ (h₂.2 slot' hs)⟩
      | none =>
          refine wp_seq ih fun f₂ owners h₂ => ⟨h₂.1, fun slot' hs => ?_⟩
          rcases List.mem_cons.mp hs with rfl | hs
          · exact List.mem_cons_self
          · exact List.mem_cons_of_mem _ (h₂.2 slot' hs)

theorem spawnGroups_wp {groups : List FetchGroup} {owners : List Slot} (hf : f.gap = none)
    (hg : f.group = false) (hm : ∀ slot ∈ owners, slot.key ∈ f.missed) :
    wp spec (spawnGroups ctx priority groups owners) (fun f' _ => f' = f) f := by
  induction groups generalizing owners with
  | nil => exact rfl
  | cons group groups ih =>
      refine wp_then ⟨hf, hg, ⟨ctx, _, priority, rfl⟩, fun slot hs => hm slot (List.mem_of_mem_take hs)⟩
        fun _ _ => ?_
      exact ih fun slot hs => hm slot (List.mem_of_mem_drop hs)

theorem schedule_wp {indexes : Range} (hf : f.gap = none) (hgroup : f.group = false) :
    wp spec (schedule ctx indexes priority) (fun f' handles => f.Grows f' ∧ List.Forall₂ f'.Gives
      ((List.range' indexes.start indexes.count).map (BlockKey.new ctx.key ctx.tag)) handles) f := by
  unfold schedule
  refine wp_seq (joinAll_wp hf) fun f₁ out h₁ => ?_
  cases out with
  | none => exact hang_wp (Grows.gap h₁)
  | some results =>
      obtain ⟨⟨hg₁, -⟩, hkeys, hsaw⟩ := h₁
      refine wp_seq (registerMisses_wp hg₁.gap fun key block hb => hsaw _ hb) fun f₂ out h₂ => ?_
      obtain ⟨handles, owners⟩ := out
      obtain ⟨hg₂, hgives⟩ := h₂
      have hgives : List.Forall₂ f₂.Gives ((List.range' indexes.start indexes.count).map
          (BlockKey.new ctx.key ctx.tag)) handles := by
        rw [← hkeys, List.forall₂_map_left_iff]
        exact hgives
      have hdone {f₃ : Sight} (hg₃ : f₂.Grows f₃) : f.Grows f₃ ∧ List.Forall₂ f₃.Gives
          ((List.range' indexes.start indexes.count).map (BlockKey.new ctx.key ctx.tag)) handles :=
        ⟨(hg₁.trans hg₂).trans hg₃, hgives.imp fun _ _ h => h.mono hg₃.stored hg₃.known⟩
      dsimp only
      split
      · exact hdone (.refl hg₂.gap)
      · refine wp_seq (joinAll_wp hg₂.gap) fun f₃ out h₃ => ?_
        cases out with
        | none => exact wp_seq (cancelAll_idle (Grows.gap h₃)) fun f₄ _ h₄ => hang_wp h₄
        | some landed =>
            obtain ⟨⟨hg₃, -⟩, hkeys₃, hsaw₃⟩ := h₃
            have hlanded {slot : Slot} {found : Option Block}
                (h : (slot, found) ∈ owners.zip (landed.map (·.2))) : f₃.Saw slot.key found :=
                hsaw₃ _ (mem_of_mem_zip_snd hkeys₃ h)
            refine wp_seq (resolveLanded_wp hg₃.gap fun slot block hb => hlanded hb) fun f₄ owners' h₄ => ?_
            obtain ⟨rfl, howners⟩ := h₄
            have hgroup₄ : f₄.group = false := by rw [hg₃.group, hg₂.group, hg₁.group, hgroup]
            refine wp_seq (spawnGroups_wp hg₃.gap hgroup₄ fun slot hs => hlanded (howners slot hs))
              fun f₅ _ h₅ => ?_
            subst h₅
            exact hdone hg₃

end Sight

/-! ## Fetch groups -/

namespace Sight

/-- The task has settled what its duty says, and has seen the blocks its duty counts on. -/
structure Follows (f : Sight) (d : Duty) : Prop where
  gap : f.gap = d.gap
  stored : d.stored ⊆ f.stored

variable {f : Sight} {d : Duty} {budget n : Nat} {home : Home}

theorem Follows.after (h : f.Follows d) (hn : Rest.guar n o) (r : Resp o) :
    (f.after o r).Follows (d.after o r) := by
  cases o
  case blocksGet => exact absurd hn id
  case blocksInsert => exact ⟨h.gap, List.cons_subset_cons _ h.stored⟩
  case register => cases r <;> exact ⟨h.gap, h.stored⟩
  case unregister | publish => exact ⟨rfl, h.stored⟩
  all_goals exact ⟨h.gap, h.stored⟩

theorem Follows.guar (h : f.Follows d) (hn : Rest.guar n o) (hp : d.Pays budget home o) : f.guar o := by
  cases o
  case blocksGet | spawn => exact absurd hn id
  case publish => exact ⟨h.gap.trans hp.1, fun b hb => (hp.2.2 b hb).imp_left (h.stored ·)⟩
  case wait | unregister | blocksInsert | hang => exact h.gap.trans hp.1
  all_goals exact h.gap.trans hp

end Sight

variable [TagHash]

theorem Terms.duty_rely {T : Terms} {n : Nat} {r : Resp o} (h : T.rely o r) (hn : Rest.guar n o) :
    Duty.rely o r := by
  cases o
  case blocksGet => exact absurd hn id
  case awaitGet => rcases r with (⟨_, _ | _⟩ | _) | _ | _ <;> first | exact h | exact trivial
  case awaitBody => cases r <;> first | exact h.1 | exact trivial
  all_goals exact trivial

/-- A fetch group pays its duty and looks nothing up, so it keeps the order. -/
theorem Sight.fetchGroup_wp {T : Terms} {g : Held} {f : Sight} {home : Home} {Q : Held → Unit → Prop}
    (hctx : ctx.At home) (h : wp T.spec (fetchGroup fuel ctx slots priority initial) Q g)
    (hgap : f.gap = none) :
    wp (T.spec.prod spec) (fetchGroup fuel ctx slots priority initial)
    (fun g' a => Q g'.1 a ∧ g'.2.gap = none) (g, f) := by
  have hduty : wp (Duty.spec 0 home) (fetchGroup fuel ctx slots priority initial) _ _ :=
    Duty.fetchGroup_wp (b := ⟨slots, [], [], none, 0⟩) hctx.under (.refl rfl) (Nat.zero_le (0 + fuel))
  refine wp_mono (wp_sim (P := fun a b => b.1 = a.1 ∧ b.2.Follows a.2.1) ?_ ?_ ?_
    (wp_prod h (wp_prod hduty Rest.fetchGroup_wp)) ⟨rfl, hgap, List.nil_subset _⟩) ?_
  · rintro ⟨g, d, n⟩ ⟨_, f⟩ o ⟨rfl, hf⟩ ⟨hg, hd, hn⟩
    exact ⟨hg, hf.guar hn hd.2⟩
  · rintro ⟨g, d, n⟩ ⟨_, f⟩ o r ⟨rfl, hf⟩ ⟨hg, hd, hn⟩ ⟨hr, -⟩
    exact ⟨hr, Terms.duty_rely hr hn, trivial⟩
  · rintro ⟨g, d, n⟩ ⟨_, f⟩ o r ⟨rfl, hf⟩ ⟨hg, hd, hn⟩
    exact ⟨rfl, hf.after hn r⟩
  · rintro ⟨_, f⟩ a ⟨⟨g, d, n⟩, ⟨rfl, hf⟩, hq, hd, -⟩
    exact ⟨hq, hf.gap.trans hd.gap⟩

end Nestor
