import Nestor.Engine.Lemmas.Duties
import Nestor.Engine.Lemmas.Timely
import Nestor.Engine.Theorems.Versions

/-!
# Reading one's writes

A write forgets the metadata of its object once the origin has accepted it, so a read that starts
later looks it up anew. A task that was answered before the write may still record what it was told:
where that happens after the object has been invalidated, later reads find the old version for as
long as the entry is fresh.
-/

namespace Nestor

open Lib

/-- The task writes the version and has invalidated the object. -/
def Invalidated (ns : NamespaceState) (object : Bytes) (v : Version) (th : Thread Task Op Resp) : Prop :=
  (∃ populate, th.task = .write ns object v populate) ∧ ⟨.metaRemove ⟨ns.id, object⟩, ()⟩ ∈ th.trace

/-- Once a write of the version has invalidated the object, no task records metadata of another
version. -/
def World.Orderly (ns : NamespaceState) (object : Bytes) (v : Version) (w : World) : Event → Prop
  | .run i _ => (∃ th ∈ w.threads, Invalidated ns object v th) → ∀ t m k tr,
      w.threads[i]? = some ⟨t, .op (.metaPut ⟨ns.id, object⟩ m) k, tr⟩ → v.Names m
  | _ => True

theorem removed_of_returned [TagHash] {ns : NamespaceState} {object : Bytes} {v : Version} {populate : Bool}
    {tr : Trace} {p : Program Unit} (hetag : ns.config.consistency.isImmutable = false)
    (h : Runs (write ns object v populate) tr p) (hreturned : ⟨.returned, ()⟩ ∈ tr) :
    (⟨.metaRemove ⟨ns.id, object⟩, ()⟩ : Done Op Resp) ∈ tr := by
  unfold write invalidate at h
  rw [hetag] at h
  cases h with
  | nil => cases hreturned
  | cons h =>
      obtain heq | hreturned := List.mem_cons.mp hreturned
      · cases heq
      · cases h with
        | nil => cases hreturned
        | cons h =>
            obtain heq | hreturned := List.mem_cons.mp hreturned
            · cases heq
            · cases h with
              | nil => cases hreturned
              | cons h => exact List.mem_cons_of_mem _ (List.mem_cons_of_mem _ List.mem_cons_self)

/-- A read that has got timely answers only is bound to the current version. -/
theorem Terms.current_of_timely [TagHash] {T : Terms} {ns : NamespaceState} {object : Bytes}
    {hist : List (Option Version)} {request : ReadRange} {policy : FetchPolicy} {tr before : Trace}
    {tag : Nat} (hmutable : ¬ T.law.immutable ns.id) (habout : ∀ d ∈ tr, d.1.About (.of ns object))
    (hkept : T.spec.Kept (.start (.get ns object request policy)) tr)
    (htimely : ∀ d ∈ tr, Timely ns object hist d.1 d.2) (hbefore : before <+: tr)
    (hbound : T.law.Bound (T.spec.ghost (.start (.get ns object request policy)) before) ns object tag) :
    ∃ v, hist.head? = some (some v) ∧ v.tag = tag := by
  obtain ⟨after, rfl⟩ := hbefore
  have hstart : (Held.start (.get ns object request policy)).Late ns object hist :=
    ⟨List.forall_mem_nil _, List.forall_mem_nil _, List.forall_mem_nil _⟩
  have hlate := hstart.ghost (T.spec.kept_append.mp hkept).1
    (fun d hd => habout d (List.mem_append_left _ hd)) fun d hd => htimely d (List.mem_append_left _ hd)
  obtain ⟨m, hm, -, rfl⟩ := hbound.told hmutable
  obtain ⟨v, hv, hnames⟩ := hlate.told m hm
  exact ⟨v, hv, hnames.contentTag_eq.symm⟩

namespace World

variable [TagHash] {fuel : Nat} {w w' : World} {e : Event} {es : List Event} {ns : NamespaceState}
  {object : Bytes} {v : Version} {hist : List (Option Version)}

/-- After a write has invalidated the object, only its version is recorded. -/
def Recorded (ns : NamespaceState) (object : Bytes) (v : Version) (w : World) : Prop :=
  (∃ th ∈ w.threads, Invalidated ns object v th) → ∀ entry, w.shared.metas ⟨ns.id, object⟩ = some entry →
    v.Names entry.meta

theorem recorded_step (h : w.Recorded ns object v) (hok : w.Orderly ns object v e)
    (hs : step fuel w e = some w') :
    w'.Recorded ns object v := by
  rintro ⟨th, hth, htask, hremoved⟩ entry hentry
  -- the write had invalidated the object before, or does it in this step
  have hbefore (hold : ∃ th ∈ w.threads, Invalidated ns object v th) : v.Names entry.meta := by
    obtain hentry | ⟨i, x, t, k, tr, rfl, hi⟩ := step_metas hs hentry
    · exact h hold entry hentry
    · exact hok hold t entry.meta k tr hi
  obtain ⟨j, hj⟩ := List.mem_iff_getElem?.mp hth
  obtain hold | hstart | ⟨o, k, r, tr, hold, htrace, -, hshared⟩ := step_threads hs hj
  · exact hbefore ⟨th, List.mem_of_getElem? hold, htask, hremoved⟩
  · rw [hstart] at hremoved
    cases hremoved
  · rw [htrace, List.mem_append, List.mem_singleton] at hremoved
    rcases hremoved with hremoved | heq
    · exact hbefore ⟨_, List.mem_of_getElem? hold, htask, hremoved⟩
    · cases heq
      rw [hshared] at hentry
      cases (Function.update_self ..).symm.trans hentry

/-- The threads started after the first `count` have got timely answers only. -/
def TimelyFrom (ns : NamespaceState) (object : Bytes) (hist : List (Option Version)) (count : Nat)
    (w : World) : Prop :=
  ∀ j th, count ≤ j → w.threads[j]? = some th → ∀ d ∈ th.trace, Timely ns object hist d.1 d.2

theorem timelyFrom_step {count : Nat} (h : w.TimelyFrom ns object hist count)
    (hstill : w.shared.Still ns object hist) (hs : step fuel w e = some w') :
    w'.TimelyFrom ns object hist count := by
  intro j th hj hth
  obtain hold | hstart | ⟨o, k, r, tr, hold, htrace, hans, -⟩ := step_threads hs hth
  · exact h j th hj hold
  · rw [hstart]
    exact List.forall_mem_nil _
  · rw [htrace]
    refine List.forall_mem_append.mpr ⟨h j _ hj hold, List.forall_mem_singleton.mpr ?_⟩
    exact hstill.timely hans

theorem invalidated_step (hok : w.OneLife e) (hs : step fuel w e = some w')
    (h : ∃ th ∈ w.threads, Invalidated ns object v th) : ∃ th ∈ w'.threads, Invalidated ns object v th := by
  obtain ⟨th, hth, ⟨populate, htask⟩, hremoved⟩ := h
  obtain ⟨th', hth', htask', htrace⟩ := step_keeps hok hs hth
  exact ⟨th', hth', ⟨populate, htask'.trans htask⟩, htrace.subset hremoved⟩

/-- As long as the object is not written again, the threads started meanwhile get timely answers
only. -/
theorem timelyFrom_run {count : Nat}
    (h : Run (step fuel) (fun w e => w.OneLife e ∧ w.Orderly ns object v e) w es w')
    (hv : hist.head? = some (some v)) (hsame : w'.shared.history ns.name object = hist)
    (hstill : w.shared.Still ns object hist) (hwritten : ∃ th ∈ w.threads, Invalidated ns object v th)
    (htimely : w.TimelyFrom ns object hist count) : w'.TimelyFrom ns object hist count := by
  induction h with
  | nil => exact htimely
  | cons hok hs hrest ih =>
      rename_i w e w₁ es w'
      have hfirst := step_history hs ns.name object
      have hlater := run_history hrest ns.name object
      rw [hstill.history] at hfirst
      rw [hsame] at hlater
      have hkept : w₁.shared.history ns.name object = hist :=
        (hfirst.eq_of_length (Nat.le_antisymm hfirst.length_le hlater.length_le)).symm
      have hwritten₁ := invalidated_step hok.1 hs hwritten
      have hbefore (_ : ∃ th ∈ w.threads, Invalidated ns object v th) (entry : MetaEntry)
          (hentry : w.shared.metas ⟨ns.id, object⟩ = some entry) : v.Names entry.meta := by
        obtain ⟨v', hv', hnames⟩ := hstill.metas entry hentry
        cases hv.symm.trans hv'
        exact hnames
      have hrecorded : w₁.Recorded ns object v := recorded_step hbefore hok.2 hs
      exact ih hsame ⟨hkept, fun entry hentry => ⟨v, hv, hrecorded hwritten₁ entry hentry⟩⟩ hwritten₁
        (timelyFrom_step htimely hstill hs)

/-- The read yields the current version of the history: none of it if there is none, a part from the
start of its range on, and the whole range if it ends without an error. -/
structure Delivers (ns : NamespaceState) (request : ReadRange) (hist : List (Option Version)) (tr : Trace) :
    Prop where
  absent : (∀ v, hist.head? ≠ some (some v)) → yieldedBytes tr = []
  part : ∀ v, hist.head? = some (some v) → yieldedBytes tr = [] ∨ ∃ a b, yieldedBytes tr = slice v.data a b ∧
    ∀ range, request.resolve v.data.length = .ok range → a = range.start ∧ b ≤ range.stop
  whole : ∀ v, hist.head? = some (some v) → ∀ before after range, tr = before ++ ⟨.ended, ()⟩ :: after →
    yieldedError before = false → ns.config.Windowed → v.data.length ≤ maxU32 * ns.config.blockSize.bytes →
    request.resolve v.data.length = .ok range → yieldedBytes before = slice v.data range.start range.stop

/-- A read that has got timely answers only yields the current version. -/
theorem delivers_of_timely {versions : Bytes → Bytes → Version → Prop}
    (hrun : Run (step fuel) (fun w e => w.Brings versions e ∧ w.OneLife e) init es w)
    (hns : ns ∈ w.shared.registry.states) (hetag : ns.config.consistency.isImmutable = false)
    (htags : ∀ v v', versions ns.name object v → versions ns.name object v' → v.tag = v'.tag →
      v.data = v'.data)
    {th : Thread Task Op Resp} (hth : th ∈ w.threads) {request : ReadRange} {policy : FetchPolicy}
    (htask : th.task = .get ns object request policy)
    (htimely : ∀ d ∈ th.trace, Timely ns object hist d.1 d.2)
    (hhist : hist <:+ w.shared.history ns.name object) : Delivers ns request hist th.trace := by
  obtain ⟨hsound, hnumbered⟩ := lifetime_sound hrun
  have hduties : (duties fuel).Sound w := hrun.invariant (fun _ _ _ hi _ hs => duties_step hi hs) duties_init
  have hget := hnumbered.get hns
  have hcoherent := Registry.coherent_universeOf hget hetag htags
  have hmutable : ¬ (w.shared.registry.universeOf versions).immutable ns.id :=
    Registry.mutable_universeOf hget hetag
  have hkept := (hsound.threads th hth).kept
  have habout := about_of_sound hduties hth
  rw [htask] at hkept habout
  have hhas {v : Version} (hv : hist.head? = some (some v)) :
      (w.shared.registry.universeOf versions).Has ns.id object v :=
    (Registry.has_universeOf hget v).mpr
      (hsound.inv.history ns.name object v (hhist.subset (List.mem_of_mem_head? hv)))
  have hpart := Terms.bytes_of_kept hkept
  refine ⟨fun hnone => ?_, fun v hv => ?_, fun v hv before after range htrace hok hwindows hsize hrange => ?_⟩
  · obtain hbytes | ⟨tag, before, hbefore, hb, -⟩ := hpart
    · exact hbytes
    · obtain ⟨v, hv, -⟩ := Terms.current_of_timely hmutable habout hkept htimely hbefore hb
      exact absurd hv (hnone v)
  · obtain hbytes | ⟨tag, before, hbefore, hb, hpart⟩ := hpart
    · exact .inl hbytes
    · obtain ⟨v', hv', htag⟩ := Terms.current_of_timely hmutable habout hkept htimely hbefore hb
      cases hv.symm.trans hv'
      exact .inr (hpart hcoherent v (hhas hv) (.inr htag))
  · have hended := hkept
    rw [htrace] at hended
    obtain ⟨tag, hb, hwhole⟩ := Terms.ends_of_kept hended hok
    obtain ⟨v', hv', htag⟩ :=
      Terms.current_of_timely hmutable habout hkept htimely ⟨_, htrace.symm⟩ hb
    cases hv.symm.trans hv'
    exact hwhole hwindows hcoherent v (hhas hv) (.inr htag) hsize range hrange

/-- Take a lifetime, whose events bring in the given versions, in which a write of `v` through the
engine has returned, to an object of an etag namespace for which equal tags mean equal contents;
once the write had invalidated the object, no task has recorded metadata of another version. As long
as `v` is the current version, a read that is started after the return yields bytes of `v`, from the
start of its range on, and all bytes of the range if its stream ends without an error, whatever the
time to live of the namespace. -/
theorem reads_own_writes {versions : Bytes → Bytes → Version → Prop} {es' : List Event}
    (hrun : Run (step fuel) (fun w e => w.Brings versions e ∧ w.OneLife e ∧ w.Orderly ns object v e)
      init es w)
    (hns : ns ∈ w.shared.registry.states) (hetag : ns.config.consistency.isImmutable = false)
    (htags : ∀ v v', versions ns.name object v → versions ns.name object v' → v.tag = v'.tag →
      v.data = v'.data)
    {writer : Thread Task Op Resp} (hwriter : writer ∈ w.threads) {populate : Bool}
    (hwrites : writer.task = .write ns object v populate) (hreturned : ⟨.returned, ()⟩ ∈ writer.trace)
    (hcurrent : (w.shared.history ns.name object).head? = some (some v))
    (hrun' : Run (step fuel) (fun w e => w.Brings versions e ∧ w.OneLife e ∧ w.Orderly ns object v e)
      w es' w')
    (hsame : w'.shared.history ns.name object = w.shared.history ns.name object) {j : Nat}
    (hj : w.threads.length ≤ j) {reader : Thread Task Op Resp} (hreader : w'.threads[j]? = some reader)
    {request : ReadRange} {policy : FetchPolicy} (hreads : reader.task = .get ns object request policy) :
    (yieldedBytes reader.trace = [] ∨ ∃ a b, yieldedBytes reader.trace = slice v.data a b ∧
      ∀ range, request.resolve v.data.length = .ok range → a = range.start ∧ b ≤ range.stop) ∧
    ∀ before after range, reader.trace = before ++ ⟨.ended, ()⟩ :: after → yieldedError before = false →
      ns.config.Windowed → v.data.length ≤ maxU32 * ns.config.blockSize.bytes →
      request.resolve v.data.length = .ok range → yieldedBytes before =
        slice v.data range.start range.stop := by
  have hlife := hrun.mono fun _ _ h => (⟨h.1, h.2.1⟩ : _ ∧ _)
  have hlife' := hrun'.mono fun _ _ h => (⟨h.1, h.2.1⟩ : _ ∧ _)
  -- the write has invalidated the object, so nothing else is recorded when it returns
  have hwritten : ∃ th ∈ w.threads, Invalidated ns object v th := by
    have hruns := ((lifetime_sound hlife).1.threads writer hwriter).runs
    rw [hwrites] at hruns
    exact ⟨writer, hwriter, ⟨populate, hwrites⟩, removed_of_returned hetag hruns hreturned⟩
  have hrecorded : w.Recorded ns object v :=
    hrun.invariant (fun _ _ _ hi hok hs => recorded_step hi hok.2.2 hs) (by rintro ⟨th, hth, -⟩; cases hth)
  have hstill : w.shared.Still ns object (w.shared.history ns.name object) :=
    ⟨rfl, fun entry hentry => ⟨v, hcurrent, hrecorded hwritten entry hentry⟩⟩
  have htimely : w'.TimelyFrom ns object (w.shared.history ns.name object) w.threads.length := by
    refine timelyFrom_run (hrun'.mono fun _ _ h => h.2) hcurrent hsame hstill hwritten ?_
    intro i th hi hth
    rw [List.getElem?_eq_none hi] at hth
    cases hth
  have hns' := (states_kept (hlife'.mono fun _ _ => And.right)).subset hns
  have hdelivers := delivers_of_timely (hlife.append hlife') hns' hetag htags (List.mem_of_getElem? hreader)
    hreads (htimely j reader hj hreader) (hsame ▸ List.suffix_rfl)
  exact ⟨hdelivers.part v hcurrent, hdelivers.whole v hcurrent⟩

end World

section

open Sample World

def writtenNamespace : NamespaceState := ⟨0, [97], { NamespaceConfig.default with readahead := 0 }⟩

/-- A read is under way and has recorded what the origin answered. Then the object is written and
stored. -/
def storedEvents : List Event :=
  [.register [97] writtenNamespace.config, .overwrite [97] [111] (some ⟨[1], some [8]⟩),
    .call 0 (.get [111] .full FetchPolicy.default), .run 0 .go, .run 0 .go, .run 0 .go, .run 0 .go,
    .run 0 .go, .run 0 (.answered 0 (some ⟨[1], some [8]⟩) (.ok ⟨⟨1, some [8], none⟩, ⟨0, 1⟩, [.ok [1]]⟩)),
    .run 0 .go, .call 0 (.write [111] ⟨[2, 3], some [9]⟩ true), .run 1 .go, .run 1 .go, .run 1 .go,
    .run 1 .go, .run 1 .go, .run 1 .go, .run 1 .go]

def readStoredEvents : List Event :=
  [.call 0 (.get [111] .full FetchPolicy.default), .run 2 .go, .run 2 .go,
    .run 2 (.found 0 (some ⟨⟨2, some [9], some 0⟩, [2, 3]⟩)), .run 2 .go, .run 2 .go]

abbrev storedVersions (_ _ : Bytes) (v : Version) : Prop := v = ⟨[1], some [8]⟩ ∨ v = ⟨[2, 3], some [9]⟩

def removesMeta : Done Op Resp → Bool
  | ⟨.metaRemove _, _⟩ => true
  | _ => false

/-- The conditions of an orderly run, checked: what is recorded after an invalidation is the version
written. -/
def orderlyCheck (w : World) (e : Event) : Bool :=
  decide (w.Brings storedVersions e ∧ w.OneLife e) && match e with
    | .run i _ => w.threads.all (fun th => th.trace.all (!removesMeta ·)) || match w.threads[i]? with
        | some ⟨_, .op (.metaPut _ m) _, _⟩ => decide ((⟨[2, 3], some [9]⟩ : Version).Names m)
        | _ => true
    | _ => true

theorem orderlyCheck_ok (w : World) (e : Event) (h : orderlyCheck w e = true) :
    w.Brings storedVersions e ∧ w.OneLife e ∧ w.Orderly writtenNamespace [111] ⟨[2, 3], some [9]⟩ e := by
  obtain ⟨hone, h⟩ := Bool.and_eq_true_iff.mp h
  obtain ⟨hbrings, hone⟩ := of_decide_eq_true hone
  refine ⟨hbrings, hone, ?_⟩
  cases e with
  | run i x =>
      rintro ⟨th, hth, -, hremoved⟩ t m k tr hi
      rcases Bool.or_eq_true_iff.mp h with hnone | hnames
      · cases List.all_eq_true.mp (List.all_eq_true.mp hnone th hth) _ hremoved
      · rw [hi] at hnames
        exact of_decide_eq_true hnames
  | _ => trivial

/-- The object has been written. -/
def writeReturned (th : Thread Task Op Resp) : Bool :=
  (match th.task with
    | .write ns object v _ => decide (ns = writtenNamespace ∧ object = [111] ∧ v = ⟨[2, 3], some [9]⟩)
    | _ => false) &&
  th.trace.any fun
    | ⟨.returned, _⟩ => true
    | _ => false

theorem writeReturned_spec {th : Thread Task Op Resp} (h : writeReturned th = true) :
    (∃ populate, th.task = .write writtenNamespace [111] ⟨[2, 3], some [9]⟩ populate) ∧
      ⟨.returned, ()⟩ ∈ th.trace := by
  obtain ⟨htask, hreturned⟩ := Bool.and_eq_true_iff.mp h
  constructor
  · cases heq : th.task with
    | write ns object v populate =>
        rw [heq] at htask
        obtain ⟨rfl, rfl, rfl⟩ := of_decide_eq_true htask
        exact ⟨populate, rfl⟩
    | _ =>
        rw [heq] at htask
        cases htask
  · obtain ⟨⟨o, r⟩, hd, hreturned⟩ := List.any_eq_true.mp hreturned
    cases o
    case returned => exact hd
    all_goals cases hreturned

theorem reads_own_writes_stored : ∃ (w w' : World) (reader : Thread Task Op Resp) (before after : Trace),
    Run (step 6) (fun w e => w.Brings storedVersions e ∧ w.OneLife e ∧
      w.Orderly writtenNamespace [111] ⟨[2, 3], some [9]⟩ e) w readStoredEvents w' ∧
    (∃ writer ∈ w.threads, ⟨.returned, ()⟩ ∈ writer.trace) ∧ w'.threads[2]? = some reader ∧
    reader.trace = before ++ ⟨.ended, ()⟩ :: after ∧ yieldedBytes before = slice [2, 3] 0 2 := by
  obtain ⟨w, hw, ⟨hns, hlength, hcurrent⟩, ⟨writer, hwriter, hwritten⟩, w', hw', hsame, reader,
      hreader, hreads, hended, hok⟩ : ∃ w ∈ runEvents (checked orderlyCheck (step 6)) init storedEvents,
      (writtenNamespace ∈ w.shared.registry.states ∧ w.threads.length ≤ 2 ∧
        (w.shared.history [97] [111]).head? = some (some ⟨[2, 3], some [9]⟩)) ∧
      (∃ writer ∈ w.threads[1]?, writeReturned writer = true) ∧
      ∃ w' ∈ runEvents (checked orderlyCheck (step 6)) w readStoredEvents,
        w'.shared.history [97] [111] = w.shared.history [97] [111] ∧ ∃ reader ∈ w'.threads[2]?,
          reader.task.reads writtenNamespace [111] .full = true ∧ streamEnded reader.trace = true ∧
            yieldedError reader.trace = false := by
    decide
  obtain ⟨⟨populate, hwrites⟩, hreturned⟩ := writeReturned_spec hwritten
  obtain ⟨policy, htask⟩ := Task.reads_iff.mp hreads
  obtain ⟨before, after, htrace, hbefore⟩ := split_of_streamEnded hended hok
  have htags : ∀ v v', storedVersions [97] [111] v → storedVersions [97] [111] v' → v.tag = v'.tag →
      v.data = v'.data := by
    rintro v v' (rfl | rfl) (rfl | rfl) ht <;> first | rfl | exact absurd ht (by decide)
  have hmem := List.mem_of_getElem? hwriter
  have hrun' := Run.of_checked orderlyCheck_ok hw'
  have hread := reads_own_writes (.of_checked orderlyCheck_ok hw) hns rfl htags hmem hwrites hreturned
    hcurrent hrun' hsame hlength hreader htask
  exact ⟨w, w', reader, before, after, hrun', ⟨writer, hmem, hreturned⟩, hreader, htrace,
    hread.2 before after ⟨0, 2⟩ htrace hbefore ⟨by decide, fun _ => by decide⟩ (by decide) rfl⟩

/-- A read probes the object, and the origin answers. Before the read goes on, the object is
written. -/
def overtakenEvents : List Event :=
  [.register [97] writtenNamespace.config, .overwrite [97] [111] (some ⟨[1], some [8]⟩),
    .call 0 (.get [111] .full FetchPolicy.default), .run 0 .go, .run 0 .go, .run 0 .go, .run 0 .go,
    .run 0 .go, .run 0 (.answered 0 (some ⟨[1], some [8]⟩) (.ok ⟨⟨1, some [8], none⟩, ⟨0, 1⟩, [.ok [1]]⟩)),
    .call 0 (.write [111] ⟨[2, 3], some [9]⟩ false), .run 1 .go, .run 1 .go, .run 1 .go, .run 1 .go]

/-- It goes on after the write has returned, and its fetch group stores the block. Then the object
is read again. -/
def readAgainEvents : List Event :=
  [.run 0 .go, .run 0 .go, .run 0 .go, .run 0 .go, .run 2 (.flag true), .run 2 .go, .run 2 .go, .run 2 .go,
    .run 2 (.body none .primary), .run 2 .go, .run 2 .go, .run 2 .go,
    .call 0 (.get [111] .full FetchPolicy.default), .run 3 .go, .run 3 .go,
    .run 3 (.found 0 (some ⟨⟨1, some [8], none⟩, [1]⟩)), .run 3 .go, .run 3 .go]

/-- What the first read recorded after the write is fresh, so the read that is started after the
write has returned yields the old version, and the entry stays for the time to live. -/
theorem old_version_read : ∃ (w w' : World) (writer reader : Thread Task Op Resp),
    runEvents (step 6) init overtakenEvents = some w ∧ w.threads[1]? = some writer ∧
    writer.task = .write writtenNamespace [111] ⟨[2, 3], some [9]⟩ false ∧ ⟨.returned, ()⟩ ∈ writer.trace ∧
    (w.shared.history [97] [111]).head? = some (some ⟨[2, 3], some [9]⟩) ∧
    runEvents (step 6) w readAgainEvents = some w' ∧ w'.shared.history [97] [111] = w.shared.history [97]
    [111] ∧ w.threads.length ≤ 3 ∧ w'.threads[3]? = some reader ∧
    reader.task = .get writtenNamespace [111] .full FetchPolicy.default ∧ streamEnded reader.trace = true ∧
    yieldedError reader.trace = false ∧ yieldedBytes reader.trace = [1] :=
  ⟨_, _, _, _, rfl, rfl, rfl, List.mem_of_getElem? (i := 3) rfl, rfl, rfl, rfl, by decide, rfl, rfl, rfl,
    rfl, rfl⟩

end

end Nestor
