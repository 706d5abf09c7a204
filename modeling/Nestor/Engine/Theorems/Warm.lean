import Nestor.Engine.Lemmas.Duties
import Nestor.Engine.Lemmas.Lifetime
import Nestor.Read.Lemmas.Brought
import Nestor.Read.Lemmas.Hits

/-!
# What has been read is in the cache, and is read from there

Both halves of what a cache is for. As long as no block is evicted or removed, every block a read
has yielded a part of is in the cache, whoever fetched it; and a read whose metadata is fresh and
whose blocks are in the cache asks no origin and waits for nobody.
-/

namespace Nestor

open Lib

/-! ## Reads that ask nobody -/

namespace Shared

variable (s : Shared) (ns : NamespaceState) (object : Bytes) (m : ObjectMeta) (range : Range)

/-- The blocks of the range of an object with the metadata are in the cache. -/
def Warm [TagHash] : Prop := ∀ key, Hits.Within ns object m range key → ∃ block, (key, block) ∈ s.blocks

def Holds (key : BlockKey) (block : Block) : Prop := (key, block) ∈ s.blocks

/-- The block that was inserted last under the key. -/
def Latest (key : BlockKey) (block : Block) : Prop := s.blocks.find? (·.1 = key) = some (key, block)

/-- A lookup that finds nothing looks for a block that is not there. -/
def Truthful (keys : List BlockKey) (x : Choice) : Prop :=
  ∀ i key, x = .found i none → keys[i]? = some key → ∀ block, (key, block) ∉ s.blocks

/-- A lookup of metadata finds the entry fresh, and one of a block finds what is in the cache, where
the blocks of the range are. -/
def FindsWarm [TagHash] : Op → Choice → Prop
  | .metaLookup _ _, _ => s.lookupMeta ⟨ns.id, object⟩ ns.metaTtl = .fresh m
  | .blocksGet keys, x => s.Warm ns object m range ∧ s.Truthful keys x
  | _, _ => True

end Shared

namespace World

section

variable [TagHash] {fuel : Nat} {w w' : World} {e : Event} {es : List Event} {ns : NamespaceState}
  {object : Bytes} {m : ObjectMeta} {range : Range} {request : ReadRange} {policy : FetchPolicy} {i : Nat}
  {th : Thread Task Op Resp}

/-- Whenever the thread looks something up, it finds it. -/
def Finding (ns : NamespaceState) (object : Bytes) (m : ObjectMeta) (range : Range) (i : Nat) (w : World) :
    Event → Prop
  | .run j x =>
      j = i → ∀ o k, (w.threads[i]?).map (·.prog) = some (.op o k) → w.shared.FindsWarm ns object m range o x
  | .restart _ => False
  | _ => True

theorem hits_rely {o : Op} {x : Choice} {r : Resp o} {s s' : Shared} {ts : List Task}
    (hg : o.Hits ns object (Hits.Within ns object m range)) (hf : s.FindsWarm ns object m range o x)
    (hr : respond s o x = some (r, s', ts)) : Hits.rely m o r := by
  obtain ⟨-, -, ha⟩ := respond_spec hr
  cases o
  case metaLookup key ttl =>
    obtain ⟨rfl, rfl⟩ := hg
    exact Eq.trans ha hf
  case blocksGet keys =>
    rcases r with ⟨j, _ | block⟩ | _ | _
    · exfalso
      cases x <;> simp only [respond, reduceCtorEq] at hr
      split at hr
      · rename_i key hkey
        cases hr
        obtain ⟨block, hb⟩ := hf.1 key (hg.2 key (List.mem_of_getElem? hkey))
        exact hf.2 _ key rfl hkey block hb
      · split at hr <;> cases hr
      · cases hr
      · cases hr
    · exact rfl
    · trivial
    · trivial
  all_goals trivial

theorem step_other (hs : step fuel w e = some w') (hlife : ∀ kept, e ≠ .restart kept)
    (hother : ∀ x, e ≠ .run i x) (hi : w.threads[i]? = some th) : w'.threads[i]? = some th := by
  have hlt := (List.getElem?_eq_some_iff.mp hi).1
  cases e with
  | run j x =>
      obtain ⟨t, o, k, tr, r, hj, -, rfl⟩ := step_run hs
      have hne : j ≠ i := by
        rintro rfl
        exact hother x rfl
      rw [List.getElem?_append_left (by rwa [List.length_set]), List.getElem?_set_ne hne]
      exact hi
  | call id c =>
      obtain ⟨ns, -, rfl⟩ := step_call hs
      rw [List.getElem?_append_left hlt]
      exact hi
  | restart kept => exact absurd rfl (hlife kept)
  | _ => cases hs; exact hi

/-- So far the thread has done nothing but look things up and yield what it has found, and it will
go on so. -/
def Warms (ns : NamespaceState) (object : Bytes) (m : ObjectMeta) (range : Range) (i : Nat) (w : World) :
    Prop :=
  ∃ th, w.threads[i]? = some th ∧
    wp (Hits.spec ns object m (Hits.Within ns object m range)) th.prog (fun _ _ => True) () ∧
    ∀ d ∈ th.trace, d.1.Hits ns object (Hits.Within ns object m range)

theorem warms_step (h : w.Warms ns object m range i) (hok : w.Finding ns object m range i e)
    (hs : step fuel w e = some w') : w'.Warms ns object m range i := by
  obtain ⟨th, hi, hwp, htrace⟩ := h
  have hkept (hother : ∀ x, e ≠ .run i x) : w'.threads[i]? = some th :=
    step_other hs (by rintro kept rfl; exact hok) hother hi
  cases e with
  | run j x =>
      by_cases hj : j = i
      · subst hj
        obtain ⟨t, o, k, tr, r, s, ts, hj, hresp, rfl⟩ := System.resume_cases hs
        cases hi.symm.trans hj
        have hrely := hits_rely hwp.1 (hok rfl o k (by rw [hj]; rfl)) hresp
        refine ⟨⟨t, k r, tr ++ [⟨o, r⟩]⟩, ?_, hwp.2 r hrely, ?_⟩
        · obtain ⟨hlt, -⟩ := List.getElem?_eq_some_iff.mp hj
          rw [List.getElem?_append_left (by rwa [List.length_set]), List.getElem?_set_self hlt]
        · exact List.forall_mem_append.mpr ⟨htrace, List.forall_mem_singleton.mpr hwp.1⟩
      · exact ⟨th, hkept (by rintro _ ⟨⟩; exact hj rfl), hwp, htrace⟩
  | _ => exact ⟨th, hkept nofun, hwp, htrace⟩

/-- A get whose metadata is fresh when it looks it up and whose blocks are in the cache when it
looks for them does nothing but look things up, yield what it finds and perhaps start a readahead:
it sends no request to the origin, registers no block, starts no fetch and waits for nobody. -/
theorem warm_read_asks_nobody
    (hstart : w.threads[i]? = some ((system fuel).begin (.get ns object request policy)))
    (hrange : request.resolve m.size = .ok range)
    (hrun : Run (step fuel) (Finding ns object m range i) w es w') (hi : w'.threads[i]? = some th) :
    ∀ d ∈ th.trace, d.1.Hits ns object (Hits.Within ns object m range) := by
  have hwarm : w.Warms ns object m range i := ⟨_, hstart, Hits.getOpts_wp hrange, List.forall_mem_nil _⟩
  obtain ⟨th', hi', -, htrace⟩ := hrun.invariant (fun _ _ _ => warms_step) hwarm
  cases hi.symm.trans hi'
  exact htrace

end

section

open Sample

def warmNamespace : NamespaceState :=
  ⟨0, [97], { NamespaceConfig.default with consistency := .immutable, readahead := 0 }⟩

def warmMeta : ObjectMeta := ⟨1, none, some 0⟩

def warmEvents : List Event :=
  [.register [97] warmNamespace.config, .call 0 (.insert [111] none [1]), .run 0 .go, .run 0 .go, .run 0 .go,
    .run 0 .go]

def warmRead : Task := .get warmNamespace [111] (.bounded ⟨0, 1⟩) FetchPolicy.default

def warmReadEvents : List Event :=
  [.run 1 .go, .run 1 .go, .run 1 (.found 0 (some ⟨warmMeta, [1]⟩)), .run 1 .go, .run 1 .go]

/-- The metadata is fresh, the block is in the cache, and no lookup misses. -/
def warmCheck (w : World) : Event → Bool
  | .run _ (.found _ none) | .restart _ => false
  | .run _ _ => decide (w.shared.lookupMeta ⟨0, [111]⟩ none = .fresh warmMeta) &&
      w.shared.blocks.any (·.1 = ⟨0, immutableTag, 0, [111]⟩)
  | _ => true

theorem warmCheck_ok (w : World) (e : Event) (h : warmCheck w e = true) :
    w.Finding warmNamespace [111] warmMeta ⟨0, 1⟩ 1 e := by
  cases e with
  | run j x =>
      intro _ o k _
      have htrue : ∀ i, x ≠ .found i none := by
        rintro i rfl
        cases h
      have hheld : decide (w.shared.lookupMeta ⟨0, [111]⟩ none = .fresh warmMeta) &&
          w.shared.blocks.any (·.1 = ⟨0, immutableTag, 0, [111]⟩) := by
        rcases x with _ | _ | ⟨_, _ | _⟩ | _ | _ | _ | _ | _ | _
        case found.none => cases h
        all_goals exact h
      obtain ⟨hfresh, hblock⟩ := Bool.and_eq_true_iff.mp hheld
      cases o
      case metaLookup =>
        have hfresh := of_decide_eq_true hfresh
        exact hfresh
      case blocksGet keys =>
        refine ⟨fun key hkey => ?_, fun i key hx => absurd hx (htrue i)⟩
        obtain ⟨i, -, hi, rfl⟩ := hkey
        obtain rfl : i = 0 := Nat.lt_one_iff.mp hi
        obtain ⟨⟨key, block⟩, hmem, hkey⟩ := List.any_eq_true.mp hblock
        obtain rfl := of_decide_eq_true hkey
        exact ⟨block, hmem⟩
      all_goals trivial
  | restart kept => cases h
  | _ => trivial

theorem warm_read_asks_nobody_inserted : ∃ (w w' : World) (th : Thread Task Op Resp),
    runEvents (step 5) init warmEvents = some w ∧
    Run (step 5) (Finding warmNamespace [111] warmMeta ⟨0, 1⟩ 1)
      ⟨w.shared, w.threads ++ [(system 5).begin warmRead]⟩ warmReadEvents w' ∧
    w'.threads[1]? = some th ∧ yieldedBytes th.trace = [1] ∧
    ∀ d ∈ th.trace, d.1.Hits warmNamespace [111] (Hits.Within warmNamespace [111] warmMeta ⟨0, 1⟩) := by
  obtain ⟨w, hw, hlength, w', hw', th, hth, hyielded⟩ : ∃ w ∈ runEvents (step 5) init warmEvents,
      w.threads.length = 1 ∧ ∃ w' ∈ runEvents (checked warmCheck (step 5))
        ⟨w.shared, w.threads ++ [(system 5).begin warmRead]⟩ warmReadEvents,
        ∃ th ∈ w'.threads[1]?, yieldedBytes th.trace = [1] := by
    decide
  have hstart : (w.threads ++ [(system 5).begin warmRead])[1]? = some ((system 5).begin warmRead) := by
    rw [← hlength]
    simp
  have hrun := Run.of_checked warmCheck_ok hw'
  exact ⟨w, w', th, hw, hrun, hth, hyielded, warm_read_asks_nobody hstart rfl hrun hth⟩

end

section

variable [TagHash] {fuel : Nat} {w w' : World} {e : Event} {es : List Event} {th : Thread Task Op Resp}

/-! ## Blocks that have been read -/

/-- The block an operation removes or inserts. -/
def removed : Op → Option BlockKey
  | .blocksRemove key => some key
  | _ => none

def inserted : Op → Option (BlockKey × Block)
  | .blocksInsert key block => some (key, block)
  | _ => none

/-- No block leaves the cache, and none is replaced by one with other data. -/
def Keeping (w : World) : Event → Prop
  | .run i _ => ∀ o ∈ (w.threads[i]?).bind Thread.next, removed o = none ∧
      ∀ new ∈ inserted o, ∀ entry ∈ w.shared.blocks, entry.1 = new.1 → entry.2.data = new.2.data
  | .evictBlock _ | .restart _ => False
  | _ => True

instance (w : World) : (e : Event) → Decidable (w.Keeping e)
  | .run i _ => inferInstanceAs (Decidable (∀ o ∈ (w.threads[i]?).bind Thread.next, removed o = none ∧
      ∀ new ∈ inserted o, ∀ entry ∈ w.shared.blocks, entry.1 = new.1 → entry.2.data = new.2.data))
  | .evictBlock _ | .restart _ => inferInstanceAs (Decidable False)
  | .call _ _ | .register _ _ | .tick _ | .overwrite _ _ _ | .evictMeta _ | .evictLastEnd _ =>
      inferInstanceAs (Decidable True)

/-- What the threads were given is in the cache, and so is what is published, unless it is empty. -/
structure Provided (w : World) : Prop where
  traces : ∀ th ∈ w.threads, ∀ d ∈ th.trace, Supplies w.shared.Holds d.1 d.2
  channels : ∀ slot block, w.shared.channels slot = some (.ok block) →
    (slot.key, block) ∈ w.shared.blocks ∨ block.data = []
  once : ∀ entry ∈ w.shared.blocks, ∀ entry' ∈ w.shared.blocks, entry.1 = entry'.1 →
    entry.2.data = entry'.2.data

omit [TagHash] in
theorem mem_of_stored (h : ∀ d ∈ th.trace, Supplies w.shared.Holds d.1 d.2)
    {p : BlockKey × Block} (hp : p ∈ (Duty.of th).stored) : p ∈ w.shared.blocks := by
  suffices hall : ∀ (tr : Trace) (d : Duty), (∀ p ∈ d.stored, p ∈ w.shared.blocks) →
      (∀ done ∈ tr, Supplies w.shared.Holds done.1 done.2) →
      ∀ p ∈ (tr.foldl (fun d done => d.after done.1 done.2) d).stored, p ∈ w.shared.blocks from
    hall th.trace (.start th.task) (List.forall_mem_nil _) h p hp
  intro tr
  induction tr with
  | nil => exact fun d hd _ => hd
  | cons done tr ih =>
      intro d hd htr
      obtain ⟨hdone, htr⟩ := List.forall_mem_cons.mp htr
      refine ih _ ?_ htr
      obtain ⟨o, r⟩ := done
      cases o
      case blocksInsert key block => exact List.forall_mem_cons.mpr ⟨hdone, hd⟩
      case blocksGet keys =>
        rcases r with ⟨i, _ | block⟩ | _ | _
        case ready.some =>
          intro q hq
          rcases List.mem_append.mp hq with hq | hq
          · obtain ⟨key, hkey, rfl⟩ := List.mem_map.mp hq
            exact hdone key (Option.mem_toList.mp hkey)
          · exact hd q hq
        all_goals exact hd
      case register => cases r <;> exact hd
      all_goals exact hd

omit [TagHash] in
theorem supplies_after {s : Shared} {o : Op} {r : Resp o} (ha : s.Answers o r)
    (hc : ∀ slot block, s.channels slot = some (.ok block) → (slot.key, block) ∈ s.blocks ∨ block.data = []) :
    Supplies (s.after o).Holds o r := by
  cases o
  case blocksInsert key block => exact List.mem_cons_self
  case blocksGet keys =>
    rcases r with ⟨i, _ | block⟩ | _ | _
    case ready.some =>
      obtain ⟨key, hkey, hb⟩ := ha
      intro key' hkey'
      cases hkey.symm.trans hkey'
      exact hb
    all_goals trivial
  case wait slot =>
    cases r with
    | error e => trivial
    | ok block => exact hc slot block ha
  all_goals trivial

omit [TagHash] in
theorem blocks_after {s : Shared} {o : Op} (ho : removed o = none) :
    (s.after o).blocks = (inserted o).toList ++ s.blocks := by
  cases o
  case blocksRemove key => cases ho
  case register key =>
    simp only [Shared.after, Shared.register]
    cases s.inflight key <;> rfl
  all_goals rfl

omit [TagHash] in
theorem same_data_append {blocks : List (BlockKey × Block)} {new : Option (BlockKey × Block)}
    (h : ∀ entry ∈ blocks, ∀ entry' ∈ blocks, entry.1 = entry'.1 → entry.2.data = entry'.2.data)
    (hnew : ∀ p ∈ new, ∀ entry ∈ blocks, entry.1 = p.1 → entry.2.data = p.2.data) :
    ∀ entry ∈ new.toList ++ blocks, ∀ entry' ∈ new.toList ++ blocks, entry.1 = entry'.1 →
    entry.2.data = entry'.2.data := by
  intro entry hentry entry' hentry' hkey
  rcases List.mem_append.mp hentry with hentry | hentry
    <;> rcases List.mem_append.mp hentry' with hentry' | hentry'
  · cases (Option.mem_toList.mp hentry).symm.trans (Option.mem_toList.mp hentry')
    rfl
  · exact (hnew entry (Option.mem_toList.mp hentry) entry' hentry' hkey.symm).symm
  · exact hnew entry' (Option.mem_toList.mp hentry') entry hentry hkey
  · exact h entry hentry entry' hentry' hkey

omit [TagHash] in
theorem Provided.latest (h : w.Provided) {key : BlockKey} {chunk : Bytes}
    (hcut : CutOut w.shared.Holds key chunk) :
    CutOut w.shared.Latest key chunk := by
  obtain ⟨block, a, b, hmem, rfl⟩ := hcut
  have hsome : (w.shared.blocks.find? (·.1 = key)).isSome :=
    List.find?_isSome.mpr ⟨(key, block), hmem, decide_eq_true rfl⟩
  obtain ⟨⟨key', latest⟩, hfind⟩ := Option.isSome_iff_exists.mp hsome
  obtain rfl : key' = key := by simpa using List.find?_some hfind
  exact ⟨latest, a, b, hfind, by rw [h.once _ hmem _ (List.mem_of_find?_eq_some hfind) rfl]⟩

omit [TagHash] in
theorem published_after {s : Shared} {o : Op} {slot : Slot} {block : Block}
    (h : (s.after o).channels slot = some (.ok block)) :
    s.channels slot = some (.ok block) ∨ o = .publish slot (.ok block) := by
  cases o
  case publish slot' result =>
    obtain ⟨rfl, heq⟩ | ⟨-, h⟩ := update_eq_some h
    · cases heq
      exact .inr rfl
    · exact .inl h
  case register key =>
    simp only [Shared.after, Shared.register] at h
    cases hi : s.inflight key <;> rw [hi] at h <;> exact .inl h
  all_goals exact .inl h

theorem provided_step (hd : (duties fuel).Sound w) (h : w.Provided) (hok : w.Keeping e)
    (hs : step fuel w e = some w') :
    w'.Provided := by
  cases e with
  | run i x =>
      obtain ⟨t, o, k, tr, r, hi, ha, rfl⟩ := step_run hs
      have hmem := List.mem_of_getElem? hi
      obtain ⟨hremoved, hdata⟩ := hok o (by rw [hi]; rfl)
      have hblocks := blocks_after (s := w.shared) hremoved
      have hsub : w.shared.blocks ⊆ (w.shared.after o).blocks := hblocks ▸ List.subset_append_right _ _
      have hold (th : Thread Task Op Resp) (hth : th ∈ w.threads) :
          ∀ d ∈ th.trace, Supplies (w.shared.after o).Holds d.1 d.2 :=
        fun d hmem => (h.traces th hth d hmem).mono fun _ _ hb => hsub hb
      obtain ⟨-, -, hcases⟩ := System.mem_resume hi ⟨t, k r, tr ++ [⟨o, r⟩]⟩ (o.tasks.map (system fuel).begin)
      refine ⟨fun th hth => ?_, fun slot block hc => ?_, ?_⟩
      · rcases hcases th hth with hth | rfl | hth
        · exact hold th hth
        · exact List.forall_mem_append.mpr
            ⟨hold _ hmem, List.forall_mem_singleton.mpr (supplies_after ha h.channels)⟩
        · obtain ⟨task, -, rfl⟩ := List.mem_map.mp hth
          exact List.forall_mem_nil _
      · rcases published_after hc with hc | rfl
        · exact (h.channels slot block hc).imp_left (hsub ·)
        · obtain ⟨-, -, -, hb⟩ := pays_next hd hmem rfl
          exact (hb block rfl).imp_left fun hb => hsub (mem_of_stored (h.traces _ hmem) hb)
      · rw [hblocks]
        exact same_data_append h.once hdata
  | call id c =>
      obtain ⟨ns, -, rfl⟩ := step_call hs
      refine ⟨fun th hth => ?_, ?_, ?_⟩
      · rcases List.mem_append.mp hth with hold | hnew
        · cases c <;> exact h.traces th hold
        · rw [List.mem_singleton.mp hnew]
          exact List.forall_mem_nil _
      · cases c <;> exact h.channels
      · cases c <;> exact h.once
  | register name config =>
      cases hs
      unfold Shared.registerNamespace
      split
      · exact h
      · exact ⟨h.traces, h.channels, h.once⟩
  | evictBlock i => exact hok.elim
  | restart kept => exact hok.elim
  | _ => cases hs; exact ⟨h.traces, h.channels, h.once⟩

end

end World

namespace World

section

variable [TagHash] {fuel : Nat} {w : World} {es : List Event} {th : Thread Task Op Resp}

/-- As long as no block leaves the cache or is replaced by one with other data, the chunks that a
read has yielded are cut out of blocks that the cache holds now: consecutive blocks of the object,
under one tag. -/
theorem read_blocks_stay (hrun : Run (step fuel) Keeping init es w) (hth : th ∈ w.threads)
    {ns : NamespaceState} {object : Bytes} {request : ReadRange} {policy : FetchPolicy}
    (htask : th.task = .get ns object request policy) (hwindow : 0 < ns.config.fetchWindow) :
    ∃ tag first, ∀ k chunk, (yielded th.trace)[k]? = some chunk →
      CutOut w.shared.Latest (BlockKey.new ⟨ns.id, object⟩ tag (first + k)) chunk := by
  obtain ⟨hd, hprovided⟩ : (duties fuel).Sound w ∧ w.Provided :=
    hrun.invariant (fun _ _ _ hi hok hs => (⟨duties_step hi.1 hs, provided_step hi.1 hi.2 hok hs⟩ : _ ∧ _))
      ⟨duties_init, List.forall_mem_nil _, nofun, List.forall_mem_nil _⟩
  have hruns := (hd.threads th hth).runs
  rw [htask] at hruns
  obtain ⟨tag, first, hcut⟩ := Brought.of_runs (Brought.getOpts_wp hwindow) hruns (sight_of_sound hd hth)
    fun d hmem _ => hprovided.traces th hth d hmem
  exact ⟨tag, first, fun k chunk hk => hprovided.latest (hcut k chunk hk)⟩

end

open Sample

theorem read_blocks_stay_inserted : ∃ (w : World) (th : Thread Task Op Resp),
    Run (step 5) Keeping init
      (warmEvents ++ .call 0 (.get [111] (.bounded ⟨0, 1⟩) FetchPolicy.default) :: warmReadEvents) w ∧
    th ∈ w.threads ∧ yielded th.trace = [[1]] ∧
    ∃ tag first, CutOut w.shared.Latest (BlockKey.new ⟨0, [111]⟩ tag first) [1] := by
  obtain ⟨w, hw, th, hth, hreads, hyielded⟩ : ∃ w ∈ runEvents (checked (fun w e => decide (Keeping w e))
      (step 5)) init (warmEvents ++ .call 0 (.get [111] (.bounded ⟨0, 1⟩) FetchPolicy.default) ::
      warmReadEvents), ∃ th ∈ w.threads[1]?, th.task.reads warmNamespace [111] (.bounded ⟨0, 1⟩) = true ∧
      yielded th.trace = [[1]] := by
    decide
  obtain ⟨policy, htask⟩ := Task.reads_iff.mp hreads
  have hrun := Run.of_decided hw
  have hmem := List.mem_of_getElem? hth
  obtain ⟨tag, first, hcut⟩ := read_blocks_stay hrun hmem htask (by decide)
  exact ⟨w, th, hrun, hmem, hyielded, tag, first, hcut 0 [1] (by rw [hyielded]; rfl)⟩

end World

end Nestor
