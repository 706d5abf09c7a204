import Mathlib.Algebra.Ring.Nat
import Nestor.Fetch.Lemmas.Group

/-!
# What a fetch group delivers

Whatever the origin answers to the successive attempts, a fetch group caches and publishes exact
blocks only, and settles each of its slots once.
-/

namespace Nestor

open Lib

variable {g : Held} {tr : Trace}

/-- The slots an operation settles with an error. -/
def Op.loses : Op → List Slot
  | .publish slot (.error _) => [slot]
  | _ => []

/-- What is seen of a stream after an operation. -/
def Seen.after (seen : Seen) : (o : Op) → Resp o → Seen
  | .wait _, result => Held.waited seen result
  | .opened range known, _ => { seen with opened := some (range, known) }
  | .item _ item, _ => Held.yielded seen item
  | _, _ => seen

theorem Held.after_eq (g : Held) (o : Op) (r : Resp o) : (g.after o r).task = g.task ∧
    (g.after o r).lost = o.loses ++ g.lost ∧ (g.after o r).seen = g.seen.after o r := by
  cases o
  case register => cases r <;> exact ⟨rfl, rfl, rfl⟩
  case publish _ result => cases result <;> exact ⟨rfl, rfl, rfl⟩
  case metaLookup => cases r <;> exact ⟨rfl, rfl, rfl⟩
  case awaitGet => rcases r with (⟨i, e | r⟩ | _) | _ | _ <;> exact ⟨rfl, rfl, rfl⟩
  case awaitHead => rcases r with (e | m) | _ | _ <;> exact ⟨rfl, rfl, rfl⟩
  all_goals exact ⟨rfl, rfl, rfl⟩

section

variable [TagHash]

/-! ## Settled slots -/

/-- The slots published in a trace, whatever the result. -/
def published (tr : Trace) : List Slot :=
  tr.filterMap fun
    | ⟨.publish slot _, _⟩ => some slot
    | _ => none

/-- The slots a trace registers. -/
def claimed (tr : Trace) : List Slot :=
  tr.filterMap fun
    | ⟨.register _, .owner slot⟩ => some slot
    | _ => none

/-- How often the loops may have gone round again. -/
def turns (tr : Trace) : Nat := (tr.map fun d => d.1.turns d.2).sum

theorem Terms.ghost_turns (T : Terms) (g : Held) (tr : Trace) :
    (T.spec.ghost g tr).turns = g.turns + turns tr := by
  induction tr generalizing g with
  | nil => rfl
  | cons d tr ih =>
      change (T.spec.ghost (g.after d.1 d.2) tr).turns = _
      rw [ih, turns, turns, List.map_cons, List.sum_cons, ← Nat.add_assoc]
      rfl

theorem Terms.after_owned {T : Terms} (hT : ¬ T.schedules) {o : Op} (r : Resp o) (h : T.guar g o) :
    (g.after o r).owned + ↑(published [⟨o, r⟩]) = g.owned + ↑(claimed [⟨o, r⟩]) := by
  cases o
  case register =>
    cases r with
    | owner slot =>
        change slot ::ₘ g.owned + 0 = g.owned + {slot}
        rw [add_zero, add_comm, Multiset.singleton_add]
    | waiter slot => rfl
  case publish slot result =>
    have he : g.owned.erase slot + {slot} = g.owned + 0 := by
      rw [add_zero, add_comm, Multiset.singleton_add, Multiset.cons_erase h.1]
    cases result <;> exact he
  case spawn => exact absurd h.1 hT
  case metaLookup => cases r <;> rfl
  case awaitGet => rcases r with (⟨i, e | r⟩ | _) | _ | _ <;> rfl
  case awaitHead => rcases r with (e | m) | _ | _ <;> rfl
  all_goals rfl

theorem Terms.ghost_owned {T : Terms} (hT : ¬ T.schedules)
    (h : T.spec.Kept g tr) : (T.spec.ghost g tr).owned + ↑(published tr) = g.owned + ↑(claimed tr) := by
  induction tr generalizing g with
  | nil => rfl
  | cons d tr ih =>
      obtain ⟨o, r⟩ := d
      have hp : published (⟨o, r⟩ :: tr) = published [⟨o, r⟩] ++ published tr := by
        rw [published, published, published, ← List.filterMap_append]; rfl
      have hc : claimed (⟨o, r⟩ :: tr) = claimed [⟨o, r⟩] ++ claimed tr := by
        rw [claimed, claimed, claimed, ← List.filterMap_append]; rfl
      rw [hp, hc, ← Multiset.coe_add, ← Multiset.coe_add]
      calc (T.spec.ghost (g.after o r) tr).owned + (↑(published [⟨o, r⟩]) + ↑(published tr))
        _ = (T.spec.ghost (g.after o r) tr).owned + ↑(published tr) + ↑(published [⟨o, r⟩]) := by
          rw [add_comm (published [⟨o, r⟩] : Multiset Slot), add_assoc]
        _ = (g.after o r).owned + ↑(published [⟨o, r⟩]) + ↑(claimed tr) := by
          have hk : T.spec.Kept (g.after o r) tr := h.2
          rw [ih hk, add_right_comm]
        _ = g.owned + (↑(claimed [⟨o, r⟩]) + ↑(claimed tr)) := by
          rw [T.after_owned hT r h.1, add_assoc]

theorem Terms.lost_of_mem (T : Terms) {slot : Slot} {e : NestorError} {r}
    (h : ⟨.publish slot (.error e), r⟩ ∈ tr) : slot ∈ (T.spec.ghost g tr).lost := by
  have hmono : ∀ (tr : Trace) (g : Held), slot ∈ g.lost → slot ∈ (T.spec.ghost g tr).lost := by
    intro tr
    induction tr with
    | nil => exact fun _ h => h
    | cons d tr ih => exact fun g h => ih _ ((g.after_eq d.1 d.2).2.1 ▸ List.mem_append_right _ h)
  obtain ⟨before, after, rfl⟩ := List.append_of_mem h
  rw [Spec.ghost_append]
  exact hmono after _ List.mem_cons_self

theorem Terms.ghost_task (T : Terms) (g : Held) (tr : Trace) :
    (T.spec.ghost g tr).task = g.task := by
  induction tr generalizing g with
  | nil => rfl
  | cons d tr ih => exact (ih _).trans (g.after_eq d.1 d.2).1

/-! ## The runs of a fetch group -/

/-- The answers a fetch group gets. Every response carries, as far as its body goes, the version its
object has at the origin; its range, its chunks and where it breaks off are arbitrary. A
registration that makes the group an owner gives it a new slot. -/
def Delivers (origin : Bytes → Bytes → Version) (slots : List Slot) : (o : Op) → Resp o → Prop
  | .awaitGet requests _ _, .ready (.answered i (.ok r)) =>
      ∃ req, requests[i]? = some req ∧ r.Of (origin req.namespace req.object)
  | .awaitGet _ hedge _, .ready .stalled => hedge
  | .awaitHead req _, .ready (.ok m) => (origin req.namespace req.object).Names m
  | .awaitBody b waiting _, .ready ev =>
      b.expects waiting ev ∧ ∀ r, ev = .opened (.ok r) → r.Of (origin b.ctx.namespace.name b.ctx.name)
  | .sendGet ns object options, req => req.namespace = ns ∧ req.object = object ∧ req.options = options
  | .hedge primary, some req =>
      req.namespace = primary.namespace ∧ req.object = primary.object ∧ req.options = primary.options
  | .sendHead ns object, req => req.namespace = ns ∧ req.object = object
  | .register key, .owner slot => slot.key = key ∧ slot ∉ slots
  | .register key, .waiter slot => slot.key = key
  | _, _ => True

/-- A block that is, byte by byte, the one of its object at the origin; empty past the end. -/
def ExactBlock (origin : Bytes → Bytes → Version) (ns : NamespaceState) (key : BlockKey) (b : Block) : Prop :=
  key.namespace = ns.id ∧ (origin ns.name key.object).Names b.meta ∧
    b.data = blockOf ns.config.blockSize (origin ns.name key.object).data key.index

/-- What holds of every run of a fetch group that has come to `p`. -/
structure GroupRun (origin : Bytes → Bytes → Version) (ns : NamespaceState) (slots : List Slot) (fuel : Nat)
    (tr : Trace) (p : Program Unit) : Prop where
  cached : ∀ key b r, ⟨.blocksInsert key b, r⟩ ∈ tr → ExactBlock origin ns key b
  delivered : ∀ slot b r, ⟨.publish slot (.ok b), r⟩ ∈ tr → ExactBlock origin ns slot.key b
  /-- What is delivered stays. -/
  untouched : ∀ key r, ⟨.blocksRemove key, r⟩ ∉ tr
  /-- A new attempt is made only as long as every slot is delivered or pending. -/
  pending : ∀ before name object options r after, tr = before ++ ⟨.sendGet name object options, r⟩ :: after →
    ∀ slot ∈ slots, ∀ e r, ⟨.publish slot (.error e), r⟩ ∉ before
  once : ∀ slot ∈ slots, (published tr).count slot ≤ 1
  settled : p = pure () → ∀ slot ∈ slots, (published tr).count slot = 1
  /-- It does not stop by itself before it is done. -/
  goes_on : ∀ k, p = .op .hang k → fuel ≤ turns tr

/-- A namespace whose origin has one version of each object. -/
def soleUniverse (origin : Bytes → Bytes → Version) (ns : NamespaceState) : Universe where
  name := fun _ => ns.name
  sizes := fun id bs => id = ns.id ∧ bs = ns.config.blockSize
  immutable := fun _ => True
  versions := fun name object v => v = origin name object

/-- The terms of a fetch group on its own. -/
def groupTerms (origin : Bytes → Bytes → Version) (ns : NamespaceState) (slots : List Slot) (fuel : Nat) :
    Terms where
  law := (soleUniverse origin ns).exactLaw
  Old := (· ∈ slots)
  budget := fuel
  schedules := False

section

variable {origin : Bytes → Bytes → Version} {ns : NamespaceState} {slots : List Slot} {fuel : Nat}

theorem exactBlock_of_exact {key : BlockKey} {b : Block} (h : (soleUniverse origin ns).Exact key b) :
    ExactBlock origin ns key b := by
  obtain ⟨bs, v, ⟨hid, rfl⟩, rfl, -, hn, hd⟩ := h.eq_blockOf fun v w hv hw _ _ => by rw [hv, hw]
  exact ⟨hid, hn, hd⟩

theorem rely_of_delivers (g : Held) (o : Op) (r : Resp o) (hg : (groupTerms origin ns slots fuel).guar g o)
    (h : Delivers origin slots o r) : (groupTerms origin ns slots fuel).rely o r := by
  cases o
  case metaLookup => exact hg.1.elim
  case metaAny => exact hg.elim
  case blocksGet => exact hg.elim
  case wait => exact hg.elim
  case register => cases r <;> exact h
  case awaitGet =>
    rcases r with (⟨i, e | r⟩ | _) | _ | _
    case ready.answered.ok =>
      obtain ⟨req, hreq, hof⟩ := h
      exact ⟨req, _, hreq, rfl, hof⟩
    all_goals exact h
  case awaitHead =>
    rcases r with (e | m) | _ | _
    case ready.ok => exact ⟨_, rfl, h⟩
    all_goals exact h
  case awaitBody =>
    cases r with
    | ready ev => exact ⟨h.1, fun r hr => ⟨_, rfl, h.2 r hr⟩⟩
    | timeout => exact trivial
    | dropped => exact trivial
  case hedge => cases r <;> exact h
  case sendGet => exact h
  case sendHead => exact h
  all_goals exact trivial

theorem groupRun_of_wp {first : Nat} {ctx : ReadCtx} {q p : Program Unit}
    (hslots : SlotsFrom ctx first slots) (ho : g.owned = ↑slots) (ht : g.turns = 0)
    (hremoves : g.task.removes = false)
    (hwp : wp (groupTerms origin ns slots fuel).spec q (fun g' _ => g'.owned = 0) g) (hrun : Runs q tr p)
    (hans : ∀ d ∈ tr, Delivers origin slots d.1 d.2) : GroupRun origin ns slots fuel tr p := by
  obtain ⟨hkept, hp⟩ := wp_runs_of rely_of_delivers hwp hrun hans
  have howned := Terms.ghost_owned (T := groupTerms origin ns slots fuel) id hkept
  have hcount : ∀ slot ∈ slots,
      ((groupTerms origin ns slots fuel).spec.ghost g tr).owned.count slot + (published tr).count
      slot = 1 := by
    intro slot hs
    have hnew : slot ∉ claimed tr := by
      intro hc
      obtain ⟨⟨o, r⟩, hd, he⟩ := List.mem_filterMap.mp hc
      split at he
      · cases he
        rename_i heq
        cases heq
        exact (hans _ hd).2 hs
      · cases he
    have := congrArg (Multiset.count slot) howned
    rwa [Multiset.count_add, Multiset.count_add, ho, Multiset.coe_count, Multiset.coe_count,
      Multiset.coe_count, List.count_eq_one_of_mem hslots.nodup hs, List.count_eq_zero.mpr hnew] at this
  refine ⟨fun key b r hd => ?_, fun slot b r hd => ?_, fun key r hd => ?_, ?_, fun slot hs => ?_, ?_, ?_⟩
  · obtain ⟨_, _, _, hg⟩ := hkept.of_mem hd
    exact exactBlock_of_exact hg
  · obtain ⟨_, _, _, hg⟩ := hkept.of_mem hd
    exact exactBlock_of_exact (hg.2 b rfl)
  · obtain ⟨before, _, _, hg⟩ := hkept.of_mem hd
    have hg : ((groupTerms origin ns slots fuel).spec.ghost g before).task.removes = true := hg
    rw [Terms.ghost_task, hremoves] at hg
    cases hg
  · rintro before name object options r after rfl slot hs e r' hd
    exact ((Spec.kept_append _).mp hkept).2.1 slot (Terms.lost_of_mem _ hd) hs
  · have := hcount slot hs
    omega
  · rintro rfl slot hs
    have hzero : ((groupTerms origin ns slots fuel).spec.ghost g tr).owned = 0 := hp
    have := hcount slot hs
    rwa [hzero, Multiset.count_zero, Nat.zero_add] at this
  · rintro k rfl
    have hturns : fuel ≤ ((groupTerms origin ns slots fuel).spec.ghost g tr).turns := hp.1
    rwa [Terms.ghost_turns, ht, Nat.zero_add] at hturns

end

/-- A fetch group delivers exact blocks and settles each of its slots once, whatever the origin
does; and as long as its operations are answered, it comes to its end. -/
theorem fetchGroup_exact (origin : Bytes → Bytes → Version) (ns : NamespaceState) (name : Bytes)
    (m : Option ObjectMeta) (policy : FetchPolicy) (first : Nat) (slots : List Slot) (priority : Priority)
    (initial : Option GetResponse) (fuel : Nat)
    (hm : ∀ known, m = some known → (origin ns.name name).Names known)
    (hslots : SlotsFrom (ReadCtx.new ns ⟨ns.id, name⟩ name m policy) first slots)
    (hinit : ∀ r, initial = some r → r.Of (origin ns.name name)) :
    (∀ tr p, Runs (fetchGroup fuel (ReadCtx.new ns ⟨ns.id, name⟩ name m policy) slots priority initial) tr p →
      (∀ d ∈ tr, Delivers origin slots d.1 d.2) → GroupRun origin ns slots fuel tr p) ∧
    ∀ e : Strategy Op Resp, (∀ tr o, o ≠ .hang → (e tr o).isSome) → ∀ tr p,
      (fetchGroup fuel (ReadCtx.new ns ⟨ns.id, name⟩ name m policy) slots priority initial).follow e [] =
        (tr, p) →
      (∀ d ∈ tr, Delivers origin slots d.1 d.2) → turns tr < fuel → p = pure () := by
  have hctx : (soleUniverse origin ns).CtxOk (ReadCtx.new ns ⟨ns.id, name⟩ name m policy) :=
    ⟨⟨rfl, ⟨rfl, rfl⟩, fun _ => trivial⟩, rfl, rfl, fun known hk => ⟨_, rfl, hm known hk⟩, fun _ => trivial⟩
  have hwp : wp (groupTerms origin ns slots fuel).spec
      (fetchGroup fuel (ReadCtx.new ns ⟨ns.id, name⟩ name m policy) slots priority initial)
      (fun g' _ => g'.owned = 0)
      (Held.start (.fetchGroup (ReadCtx.new ns ⟨ns.id, name⟩ name m policy) slots priority initial)) := by
    refine fetchGroup_wp hctx hslots rfl (by simp [Held.start]) (fun _ _ _ => id) (fun r hr => ?_)
      (Nat.le_add_left _ _)
    subst hr
    exact ⟨⟨rfl, rfl, rfl⟩, _, rfl, hinit r rfl⟩
  have hruns : ∀ tr p, Runs (fetchGroup fuel (ReadCtx.new ns ⟨ns.id, name⟩ name m policy) slots
      priority initial) tr p → (∀ d ∈ tr, Delivers origin slots d.1 d.2) →
      GroupRun origin ns slots fuel tr p :=
    fun tr p hrun hans => groupRun_of_wp hslots rfl rfl rfl hwp hrun hans
  refine ⟨hruns, fun e he tr p hfollow hans hlt => ?_⟩
  obtain ⟨tr', htr, hrun, -, hstop⟩ := Prog.follow_runs e [] (fetchGroup fuel _ slots priority initial)
  rw [hfollow] at htr hrun hstop
  obtain rfl : tr = tr' := htr
  match p with
  | .pure () => rfl
  | .op o k =>
      have hnone := hstop o k rfl
      by_cases ho : o = .hang
      · subst ho
        have := (hruns tr _ hrun hans).goes_on k rfl
        omega
      · have := he tr o ho
        rw [hnone] at this
        cases this

end

section

open Sample

/-- An origin where every object is `[1, 2, 3]`, and answers that deliver it in one chunk. -/
def sampleOrigin (_ _ : Bytes) : Version := ⟨[1, 2, 3], some [9]⟩

def promptAnswers : Strategy Op Resp := fun _ o =>
  match o with
  | .clock => some 0
  | .metaLookup _ _ => some .missing
  | .metaAny _ => some none
  | .readaheadObserve _ _ => some false
  | .blocksGet _ => some .dropped
  | .blocksContains _ => some false
  | .register key => some (.waiter ⟨key, 0⟩)
  | .wait _ => some (.error .cancelled)
  | .sole => some true
  | .acquire _ => some true
  | .sendGet ns object options => some ⟨ns, object, options, 0⟩
  | .hedge _ => some none
  | .sendHead ns object => some ⟨ns, object, 0⟩
  | .awaitGet [] _ _ => some .timeout
  | .awaitGet (_ :: _) _ _ =>
      some (.ready (.answered 0 (.ok ⟨⟨3, some [9], none⟩, ⟨0, 3⟩, [.ok [1, 2, 3]]⟩)))
  | .awaitHead _ _ => some .timeout
  | .awaitBody _ (.opening _) _ => some (.ready (.opened (.error .notFound)))
  | .awaitBody _ _ _ => some (.ready .primary)
  | .awaitStream _ => some (.ready ())
  | .sleep _ => some (.ready ())
  | .hang => none
  | .metaPut _ _ | .metaRemove _ | .readaheadForget _ | .blocksInsert _ _ | .blocksRemove _ | .unregister _
  | .publish _ _ | .spawn _ | .put _ _ _ | .failed _ | .opened _ _ | .item _ _ | .ended | .described _
  | .returned => some ()

theorem delivers_promptAnswers {slots : List Slot} {o : Op} {r : Resp o}
    (h : promptAnswers tr o = some r) : Delivers sampleOrigin slots o r := by
  cases o
  case awaitGet requests _ _ =>
    cases requests with
    | nil => cases h; exact trivial
    | cons req requests => cases h; exact ⟨req, rfl, by simp only [sampleOrigin]; decide⟩
  case awaitBody _ waiting _ => cases waiting <;> cases h <;> exact ⟨rfl, nofun⟩
  case register => cases h; exact rfl
  case hang => cases h
  case sendGet => cases h; exact ⟨rfl, rfl, rfl⟩
  case sendHead => cases h; exact ⟨rfl, rfl⟩
  all_goals cases h; exact trivial

def sampleNamespace : NamespaceState := ⟨0, [110], NamespaceConfig.default⟩

def sampleSlots : List Slot := [⟨⟨0, 0, 0, [111]⟩, 0⟩, ⟨⟨0, 0, 1, [111]⟩, 1⟩]

theorem fetchGroup_exact_promptly :
    ((fetchGroup 3 (ReadCtx.new sampleNamespace ⟨sampleNamespace.id, [111]⟩ [111] none FetchPolicy.default)
      sampleSlots .foreground none).follow promptAnswers []).2 = pure () := by
  obtain ⟨tr, htr, -, hans, -⟩ := Prog.follow_runs promptAnswers [] (fetchGroup 3 (ReadCtx.new sampleNamespace
    ⟨sampleNamespace.id, [111]⟩ [111] none FetchPolicy.default) sampleSlots .foreground none)
  refine (fetchGroup_exact sampleOrigin sampleNamespace [111] none FetchPolicy.default 0 sampleSlots
    .foreground none 3 nofun ⟨rfl, by decide, rfl, by decide, trivial⟩ nofun).2 promptAnswers ?_ _ _
    Prod.mk.eta.symm ?_
    (by decide)
  · intro tr o ho
    cases o
    case hang => exact absurd rfl ho
    case awaitGet requests _ _ => cases requests <;> rfl
    case awaitBody _ waiting _ => cases waiting <;> rfl
    all_goals rfl
  · rw [htr]
    intro d hd
    obtain ⟨before, he⟩ := hans d hd
    exact delivers_promptAnswers he

end

end Nestor
