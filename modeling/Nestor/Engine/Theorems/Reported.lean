import Nestor.Engine.Stream
import Nestor.Engine.Theorems.Versions

/-!
# What a stream reports

A stream in an etag namespace knows the metadata of its object from the start, and the caller takes
the size, the range and the content length from it. They belong to the bytes as long as the read is
not started anew: then the reader takes up the metadata of another version, and the cell of the
stream keeps the first.
-/

namespace Nestor

open Lib

/-- What a stream opened with `range` reports, while its cell holds `known`, belongs to the version.
The S3 handler takes its headers and its conditions from what `ready` gives. -/
structure Reports [TagHash] (request : ReadRange) (range : Range) (known : Option ObjectMeta) (v : Version) :
    Prop where
  «meta» : ∃ m, known = some m ∧ v.Names m
  resolved : request.resolve v.data.length = .ok (reportedRange range known)
  length : contentLength range known = some (reportedRange range known).count
  ready : ∀ fuel (s : ReadStream), s.reader.reported = known → ∃ m, s.ready fuel = pure (s, .ok m) ∧ v.Names m

theorem Reports.of_resolve [TagHash] {request : ReadRange} {range : Range} {m : ObjectMeta} {v : Version}
    (hn : v.Names m) (hr : request.resolve m.size = .ok range) (hsize : v.data.length < 2 ^ 64) :
    Reports request range (some m) v ∧ reportedRange range (some m) = range := by
  obtain ⟨hstop, hshape⟩ := ReadRange.resolve_stop hr
  have hsame : reportedRange range (some m) = range := by
    change (⟨range.start, min range.stop m.size⟩ : Range) = range
    rw [Nat.min_eq_left hstop]
  have hle : range.start ≤ range.stop := by
    rcases hshape with h | rfl
    · exact Nat.le_of_lt h
    · exact Nat.le_refl 0
  refine ⟨⟨⟨m, rfl, hn⟩, ?_, ?_, fun fuel s hs => ⟨m, ?_, hn⟩⟩, hsame⟩
  · rw [hsame, ← hn.1, hr]
  · change some (subU64 (reportedRange range (some m)).stop (reportedRange range (some m)).start) = _
    rw [hsame, subU64_of_le hle (by have := hn.1; omega)]
    rfl
  · simp only [ReadStream.ready, hs]
    rfl

/-- No block that a read waited for before it yielded anything was stale. -/
def Calm (tr : Trace) : Prop :=
  ∀ before slot e after, tr = before ++ ⟨.wait slot, (.error e : BlockResult)⟩ :: after → e.isStale →
    yieldedItem before = true

theorem Calm.left {tr tr' : Trace} (h : Calm (tr ++ tr')) : Calm tr := by
  rintro before slot e after rfl hs
  exact h before slot e (after ++ tr') (List.append_assoc ..) hs

section

variable [TagHash] {T : Terms} {task : Task} {tr : Trace}

theorem Terms.opened_of_ghost {range : Range} {known : Option ObjectMeta}
    (h : (T.spec.ghost (.start task) tr).seen.opened = some (range, known)) :
    (⟨.opened range known, ()⟩ : Done Op Resp) ∈ tr := by
  induction tr using List.reverseRecOn with
  | nil => cases h
  | append_singleton tr d ih =>
      obtain ⟨o, r⟩ := d
      rw [Spec.ghost_snoc] at h
      change ((T.spec.ghost (.start task) tr).after o r).seen.opened = _ at h
      obtain heq | ⟨slot, e, -, heq⟩ | ⟨range', known', hd, heq⟩ | ⟨known', item, -, heq⟩ :=
        Held.seen_cases (T.spec.ghost (.start task) tr) o r
      · rw [heq] at h
        exact List.mem_append_left _ (ih h)
      · rw [heq] at h
        exact List.mem_append_left _ (ih h)
      · rw [heq] at h
        cases h
        rw [hd]
        exact List.mem_append_right _ List.mem_cons_self
      · rw [heq] at h
        cases item <;> exact List.mem_append_left _ (ih h)

theorem Terms.not_stale_of_calm (h : Calm tr) : (T.spec.ghost (.start task) tr).seen.stale = false := by
  induction tr using List.reverseRecOn with
  | nil => rfl
  | append_singleton tr d ih =>
      obtain ⟨o, r⟩ := d
      have hold := ih h.left
      rw [Spec.ghost_snoc]
      change ((T.spec.ghost (.start task) tr).after o r).seen.stale = false
      obtain heq | ⟨slot, e, hd, heq⟩ | ⟨range', known', -, heq⟩ | ⟨known', item, -, heq⟩ :=
        Held.seen_cases (T.spec.ghost (.start task) tr) o r
      · rw [heq]
        exact hold
      · rw [heq]
        change (_ || (e.isStale && !_)) = false
        rw [hold, (T.ghost_seen (.start task) tr).2.2, Bool.false_or]
        cases hs : e.isStale with
        | false => rfl
        | true =>
            rw [h tr slot e [] (by rw [hd]) hs]
            rfl
      · rw [heq]
        exact hold
      · rw [heq]
        cases item <;> exact hold

section

variable {ns : NamespaceState} {object : Bytes} {request : ReadRange} {policy : FetchPolicy}

/-- A read of a mutable object that has not been started anew is bound to the metadata its stream
was opened with. -/
theorem Terms.shown_of_calm (hmutable : ¬ T.law.immutable ns.id)
    (h : T.spec.Kept (.start (.get ns object request policy)) tr) (hcalm : Calm tr) {tag : Nat}
    (hbound : T.law.Bound (T.spec.ghost (.start (.get ns object request policy)) tr) ns object tag) :
    ∃ range m v, (T.spec.ghost (.start (.get ns object request policy)) tr).seen.opened =
      some (range, some m) ∧ ⟨.opened range (some m), ()⟩ ∈ tr ∧ request.resolve m.size = .ok range ∧
      T.law.Has ns.id object v ∧ v.Names m ∧ v.tag = tag := by
  obtain ⟨range, m, hopened, htag⟩ := hbound.kept hmutable (not_stale_of_calm hcalm)
  have hmem := opened_of_ghost hopened
  obtain ⟨before, after, -, ns', object', request', policy', htask, hopens⟩ := h.of_mem hmem
  rw [ghost_task] at htask
  cases htask
  obtain ⟨m', -, hm, ⟨v, hv, hn⟩, hresolve⟩ := hopens hmutable
  cases hm
  exact ⟨range, m, v, hopened, hmem, hresolve, hv, hn, hn.contentTag_eq.symm.trans htag.symm⟩

/-- With every chunk it still reports them, and all its bytes are from the version they name. -/
theorem Terms.item_of_calm (hmutable : ¬ T.law.immutable ns.id) (hcoherent : T.law.Coherent ns.id object)
    {before after : Trace} {known : Option ObjectMeta} {chunk : Bytes}
    (h : T.spec.Kept (.start (.get ns object request policy))
      (before ++ ⟨.item known (.ok chunk), ()⟩ :: after))
    (hcalm : Calm before) :
    ∃ range m v stop, ⟨.opened range (some m), ()⟩ ∈ before ∧ known = some m ∧
      request.resolve m.size = .ok range ∧ T.law.Has ns.id object v ∧ v.Names m ∧
      yieldedBytes before ++ chunk = slice v.data range.start stop ∧
      stop ≤ range.stop := by
  obtain ⟨hbefore, ⟨⟨ns', object', request', policy', tag, htask, hbound, hknown, hpart⟩, -⟩, -⟩ :=
    T.spec.kept_append.mp h
  rw [ghost_task] at htask
  cases htask
  obtain ⟨range, m, v, hopened, hmem, hresolve, hv, hn, htag⟩ := shown_of_calm hmutable hbefore hcalm hbound
  obtain ⟨range', hopened'⟩ := hknown hmutable (not_stale_of_calm hcalm)
  cases hopened.symm.trans hopened'
  obtain ⟨start, stop, hbytes, hab⟩ := hpart hcoherent v hv (.inr htag)
  rw [hn.1] at hresolve
  obtain ⟨rfl, hle⟩ := hab range hresolve
  rw [(T.ghost_seen _ before).1] at hbytes
  exact ⟨range, m, v, stop, hmem, rfl, hn.1 ▸ hresolve, hv, hn, hbytes, hle⟩

/-- At its end these are all bytes of the range. -/
theorem Terms.ended_of_calm (hmutable : ¬ T.law.immutable ns.id) (hcoherent : T.law.Coherent ns.id object)
    (hwindows : ns.config.Windowed) {before after : Trace}
    (hsizes : ∀ v, T.law.Has ns.id object v → v.data.length ≤ maxU32 * ns.config.blockSize.bytes)
    (h : T.spec.Kept (.start (.get ns object request policy)) (before ++ ⟨.ended, ()⟩ :: after))
    (hcalm : Calm before) (hok : yieldedError before = false) :
    ∃ range m v, ⟨.opened range (some m), ()⟩ ∈ before ∧ request.resolve m.size = .ok range ∧
      T.law.Has ns.id object v ∧ v.Names m ∧ yieldedBytes before = slice v.data range.start range.stop := by
  obtain ⟨tag, hbound, hwhole⟩ := ends_of_kept h hok
  obtain ⟨range, m, v, -, hmem, hresolve, hv, hn, htag⟩ :=
    shown_of_calm hmutable (T.spec.kept_append.mp h).1 hcalm hbound
  refine ⟨range, m, v, hmem, hresolve, hv, hn, ?_⟩
  exact hwhole hwindows hcoherent v hv (.inr htag) (hsizes v hv) range (hn.1 ▸ hresolve)

end

end

namespace World

variable [TagHash]

/-- In a state of a lifetime, whose events bring in the given versions, take an object of an etag
namespace for which equal tags mean equal contents, and whose versions have no more blocks than can
be counted. A read of it for which no block was stale before it yielded anything reports, with every
chunk, what it was opened with, and this belongs to the version that all bytes so far are from; when
it has come to its end without an error, these are as many as the content length says. -/
theorem reported_describes_yielded {versions : Bytes → Bytes → Version → Prop} {fuel : Nat} {es : List Event}
    {w : World} (hrun : Run (step fuel) (fun w e => w.Brings versions e ∧ w.OneLife e) init es w)
    {ns : NamespaceState} (hns : ns ∈ w.shared.registry.states)
    (hetag : ns.config.consistency.isImmutable = false) {object : Bytes}
    (htags : ∀ v v', versions ns.name object v → versions ns.name object v' → v.tag = v'.tag →
      v.data = v'.data) (hsizes : ∀ v, versions ns.name object v →
      v.data.length ≤ maxU32 * ns.config.blockSize.bytes)
    (hwindows : ns.config.Windowed) {th : Thread Task Op Resp} (hth : th ∈ w.threads) {request : ReadRange}
    {policy : FetchPolicy} (htask : th.task = .get ns object request policy) (hcalm : Calm th.trace) :
    (∀ before known chunk after, th.trace = before ++ ⟨.item known (.ok chunk), ()⟩ :: after →
      ∃ range v stop, ⟨.opened range known, ()⟩ ∈ before ∧ versions ns.name object v ∧
        Reports request range known v ∧ yieldedBytes before ++ chunk =
          slice v.data (reportedRange range known).start stop ∧
        stop ≤ (reportedRange range known).stop) ∧
    ∀ before after, th.trace = before ++ ⟨.ended, ()⟩ :: after → yieldedError before = false →
      ∃ range known v, ⟨.opened range known, ()⟩ ∈ before ∧ versions ns.name object v ∧
        Reports request range known v ∧ yieldedBytes before = slice v.data (reportedRange range known).start
          (reportedRange range known).stop ∧
        contentLength range known = some (yieldedBytes before).length := by
  obtain ⟨hsound, hnumbered⟩ := lifetime_sound hrun
  have hget := hnumbered.get hns
  have hcoherent := Registry.coherent_universeOf hget hetag htags
  have hmutable : ¬ (w.shared.registry.universeOf versions).immutable ns.id :=
    Registry.mutable_universeOf hget hetag
  have hkept := (hsound.threads th hth).kept
  rw [htask] at hkept
  have hlt {v : Version} (hv : versions ns.name object v) : v.data.length < 2 ^ 64 :=
    calc v.data.length ≤ maxU32 * ns.config.blockSize.bytes := hsizes v hv
      _ ≤ maxU32 * 2 ^ 24 := Nat.mul_le_mul_left _ ns.config.blockSize.bytes_le
      _ < 2 ^ 64 := by decide
  refine ⟨fun before known chunk after heq => ?_, fun before after heq hok => ?_⟩
  · rw [heq] at hkept hcalm
    obtain ⟨range, m, v, stop, hmem, rfl, hresolve, hv, hn, hbytes, hle⟩ :=
      Terms.item_of_calm hmutable hcoherent hkept hcalm.left
    have hv := (Registry.has_universeOf hget v).mp hv
    obtain ⟨hreports, hsame⟩ := Reports.of_resolve hn hresolve (hlt hv)
    exact ⟨range, v, stop, hmem, hv, hreports, hsame.symm ▸ hbytes, hsame.symm ▸ hle⟩
  · rw [heq] at hkept hcalm
    obtain ⟨range, m, v, hmem, hresolve, hv, hn, hbytes⟩ := Terms.ended_of_calm hmutable hcoherent hwindows
      (fun v hv => hsizes v ((Registry.has_universeOf hget v).mp hv)) hkept hcalm.left hok
    have hv := (Registry.has_universeOf hget v).mp hv
    obtain ⟨hreports, hsame⟩ := Reports.of_resolve hn hresolve (hlt hv)
    refine ⟨range, some m, v, hmem, hv, hreports, hsame.symm ▸ hbytes, ?_⟩
    rw [hreports.length, hbytes, hsame, length_slice,
      Nat.min_eq_left (hn.1 ▸ (ReadRange.resolve_stop hresolve).1)]
    rfl

end World

section

open Sample World

/-- The operation gives an error for a block. -/
def givesError : Done Op Resp → Bool
  | ⟨.wait _, .error _⟩ => true
  | _ => false

theorem calm_of_all {tr : Trace} (h : tr.all (!givesError ·) = true) : Calm tr := by
  rintro before slot e after rfl -
  have := List.all_eq_true.mp h ⟨.wait slot, (.error e : BlockResult)⟩
    (List.mem_append_right _ List.mem_cons_self)
  cases this

theorem reported_describes_yielded_overwritten : ∃ (w : World) (th : Thread Task Op Resp)
    (before after : Trace) (range : Range) (known : Option ObjectMeta) (v : Version), th ∈ w.threads ∧
    th.trace = before ++ ⟨.ended, ()⟩ :: after ∧ ⟨.opened range known, ()⟩ ∈ before ∧
    overwrittenVersions [97] [111] v ∧
    Reports .full range known v ∧ contentLength range known = some (yieldedBytes before).length := by
  obtain ⟨w, hw, hns, th, hth, hreads, hcalm, hended, hok⟩ : ∃ w ∈ overwrittenRun,
      overwrittenNamespace ∈ w.shared.registry.states ∧ ∃ th ∈ w.threads[1]?,
        th.task.reads overwrittenNamespace [111] .full = true ∧ th.trace.all (!givesError ·) = true ∧
          streamEnded th.trace = true ∧ yieldedError th.trace = false := by
    decide
  obtain ⟨policy, htask⟩ := Task.reads_iff.mp hreads
  obtain ⟨before, after, htrace, hbefore⟩ := split_of_streamEnded hended hok
  have hsizes : ∀ v, overwrittenVersions [97] [111] v →
      v.data.length ≤ maxU32 * overwrittenNamespace.config.blockSize.bytes := by
    rintro v (rfl | rfl) <;> decide
  obtain ⟨range, known, v, hopened, hv, hreports, -, hlength⟩ :=
    (reported_describes_yielded (.of_decided hw) hns rfl overwritten_tags hsizes
      ⟨by decide, fun _ => by decide⟩ (List.mem_of_getElem? hth) htask (calm_of_all hcalm)).2 before
    after htrace hbefore
  exact ⟨w, th, before, after, range, known, v, List.mem_of_getElem? hth, htrace, hopened, hv,
    hreports, hlength⟩

/-- What the streams of a trace were opened with. -/
def openings (tr : Trace) : List (Range × Option ObjectMeta) :=
  tr.filterMap fun
    | ⟨.opened range known, _⟩ => some (range, known)
    | _ => none

/-- What a stream reports with its chunks. -/
def reports (tr : Trace) : List (Option ObjectMeta × Bytes) :=
  tr.filterMap fun
    | ⟨.item known (.ok chunk), _⟩ => some (known, chunk)
    | _ => none

def replacedNamespace : NamespaceState := ⟨0, [97], { NamespaceConfig.default with readahead := 0 }⟩

/-- The metadata of an object is looked up, the object is overwritten, and it is read as a whole.
The first block is not there any more, so the read is started anew. -/
def replacedEvents : List Event :=
  [.register [97] replacedNamespace.config, .overwrite [97] [111] (some ⟨[1], some [8]⟩),
    .call 0 (.head [111]), .run 0 .go, .run 0 .go, .run 0 .go, .run 0 .go,
    .run 0 (.described (some ⟨[1], some [8]⟩) (.ok ⟨1, some [8], none⟩)), .run 0 .go, .run 0 .go,
    .overwrite [97] [111] (some ⟨[2, 3], some [9]⟩), .call 0 (.get [111] .full FetchPolicy.default),
    .run 1 .go, .run 1 .go, .run 1 (.found 0 none), .run 1 .go, .run 1 (.found 0 none), .run 1 .go,
    -- the origin refuses the GET of the old version
    .run 2 (.flag true), .run 2 .go, .run 2 .go, .run 2 .go, .run 2 .go,
    .run 2 (.answered 0 none (.error .preconditionFailed)), .run 2 .go, .run 2 .go, .run 2 .go,
    -- the reader probes the object
    .run 1 .go, .run 1 .go, .run 1 .go, .run 1 .go, .run 1 .go, .run 1 .go,
    .run 1 (.answered 0 (some ⟨[2, 3], some [9]⟩) (.ok ⟨⟨2, some [9], none⟩, ⟨0, 2⟩, [.ok [2, 3]]⟩)),
    .run 1 .go, .run 1 .go, .run 1 .go, .run 3 (.flag true), .run 3 .go, .run 3 .go, .run 3 .go,
    .run 3 (.body none .primary), .run 3 .go, .run 3 .go, .run 3 .go, .run 1 .go, .run 1 .go, .run 1 .go]

/-- The stream was opened with the metadata of the first version and reports it, and yields the
bytes of the second: two of them, with a content length of one. -/
theorem replaced_reported : ∃ (w : World) (th : Thread Task Op Resp) (policy : FetchPolicy),
    runEvents (step 6) init replacedEvents = some w ∧ th ∈ w.threads ∧
    th.task = .get replacedNamespace [111] .full policy ∧ streamEnded th.trace = true ∧
    yieldedError th.trace = false ∧
    openings th.trace = [(⟨0, 1⟩, some ⟨1, some [8], none⟩)] ∧
    reports th.trace = [(some ⟨1, some [8], none⟩, [2, 3])] ∧
    contentLength ⟨0, 1⟩ (some ⟨1, some [8], none⟩) = some 1 ∧ yieldedBytes th.trace = [2, 3] := by
  obtain ⟨w, hw, th, hth, hreads, hended, hok, hopened, hreported, hbytes⟩ :
      ∃ w ∈ runEvents (step 6) init replacedEvents, ∃ th ∈ w.threads[1]?,
        th.task.reads replacedNamespace [111] .full = true ∧ streamEnded th.trace = true ∧
        yieldedError th.trace = false ∧ openings th.trace = [(⟨0, 1⟩, some ⟨1, some [8], none⟩)] ∧
        reports th.trace = [(some ⟨1, some [8], none⟩, [2, 3])] ∧ yieldedBytes th.trace = [2, 3] := by
    decide
  obtain ⟨policy, htask⟩ := Task.reads_iff.mp hreads
  exact ⟨w, th, policy, hw, List.mem_of_getElem? hth, htask, hended, hok, hopened, hreported, by decide,
    hbytes⟩

end

end Nestor
