import Nestor.Read.Lemmas.PastEnd

/-!
# Reads past the end

A bounded read that starts at or after the end of its object is told so. The exceptions are readers
that start without the size, in an immutable namespace, and end up with no block to read: because
the metadata cache tells them the size before their first block and that block is none of the
object's, or because the first block is past the last one that can be counted. They end as if they
had read everything.
-/

namespace Nestor

open Lib

variable {tr tail : Trace} {o : Op} {size fuel : Nat} {r : Reader}
    {out : Except NestorError (ReadCtx × List SlotHandle)}

/-- The read yields no bytes and ends in a range error that carries the size. -/
def EndsPast (size : Nat) (tr : Trace) : Prop :=
  yieldedBytes tr = [] ∧ ∃ range, (∃ u, ⟨.failed (.range range size), u⟩ ∈ tr) ∨
    ∃ known u, ⟨.item known (.error (.range range size)), u⟩ ∈ tr

/-- The metadata was in the cache when the read was opened. -/
def MetaCached (tr : Trace) : Prop := ∃ key ttl m, ⟨.metaLookup key ttl, .fresh m⟩ ∈ tr

/-- The metadata cache has told the reader the metadata. -/
def MetaLearnt (tr : Trace) : Prop := ∃ key m, ⟨.metaAny key, some m⟩ ∈ tr

/-! ## Traces -/

/-- The caller is told an item or an error. -/
def Op.shown : Op → Bool
  | .failed _ | .item _ _ => true
  | _ => false

/-- The metadata cache is asked. -/
def Op.consults : Op → Bool
  | .metaLookup _ _ | .metaAny _ => true
  | _ => false

/-- Nothing the caller sees, and no question for metadata. -/
def Quiet (tr : Trace) : Prop := ∀ d ∈ tr, d.1.shown = false ∧ d.1.consults = false

theorem Quiet.of_inner (h : ∀ d ∈ tr, d.1.inner = true) : Quiet tr := by
  intro d hd
  obtain ⟨o, r⟩ := d
  have ho := h _ hd
  cases o <;> first | exact ⟨rfl, rfl⟩ | cases ho

theorem Quiet.append {tr' : Trace} (h : Quiet tr) (h' : Quiet tr') : Quiet (tr ++ tr') :=
  List.forall_mem_append.mpr ⟨h, h'⟩

theorem Quiet.not_mem (h : Quiet tr) {r : Resp o} (ho : o.consults = true) :
    ⟨o, r⟩ ∉ tr := fun hin => absurd (h _ hin).2 (by simp [ho])

theorem Quiet.hidden (h : Quiet tr) : ∀ d ∈ tr, d.1.shown = false := fun d hd => (h d hd).1

theorem endsPast_cons {r : Resp o} (ho : o.shown = false) :
    EndsPast size (⟨o, r⟩ :: tr) ↔ EndsPast size tr := by
  have hnone : yieldedBytes (⟨o, r⟩ :: tr) = yieldedBytes tr := by
    cases o <;> first | rfl | cases ho
  have hmem (o' : Op) (r' : Resp o') (ho' : o'.shown = true) :
      ⟨o', r'⟩ ∈ ⟨o, r⟩ :: tr ↔ (⟨o', r'⟩ : Done Op Resp) ∈ tr := by
    refine List.mem_cons.trans (or_iff_right ?_)
    rintro ⟨⟩
    rw [ho] at ho'
    cases ho'
  unfold EndsPast
  rw [hnone]
  simp only [hmem (.failed _) _ rfl, hmem (.item _ _) _ rfl]

theorem endsPast_append {tr' : Trace} (h : ∀ d ∈ tr, d.1.shown = false) :
    EndsPast size (tr ++ tr') ↔ EndsPast size tr' := by
  induction tr with
  | nil => exact Iff.rfl
  | cons d tr ih =>
      exact (endsPast_cons (h d List.mem_cons_self)).trans (ih fun d hd => h d (List.mem_cons_of_mem _ hd))

/-- The end of a stream that is to read the blocks from `first` up to `stop` past the end of the
object: the range error is yielded if there is a block to read. -/
structure PastTail (size first stop : Nat) (tail : Trace) : Prop where
  block : first < stop → ∃ known rg, tail = [⟨.item known (.error (.range rg size)), ()⟩, ⟨.ended, ()⟩]
  none : stop ≤ first → tail = [⟨.ended, ()⟩]

theorem PastTail.shown {first stop : Nat} (h : PastTail size first stop tail) :
    ∀ d ∈ tail, d.1.shown = true ∨ d.1 = .ended := by
  intro d hd
  rcases Nat.lt_or_ge first stop with hlt | hle
  · obtain ⟨known, rg, rfl⟩ := h.block hlt
    rcases List.mem_cons.mp hd with rfl | hd
    · exact .inl rfl
    · exact .inr (congrArg Sigma.fst (List.mem_singleton.mp hd))
  · rw [h.none hle] at hd
    exact .inr (congrArg Sigma.fst (List.mem_singleton.mp hd))

theorem PastTail.endsPast_iff {first stop : Nat} (h : PastTail size first stop tail) :
    EndsPast size tail ↔ first < stop := by
  by_cases hlt : first < stop
  · obtain ⟨known, rg, rfl⟩ := h.block hlt
    exact iff_of_true ⟨rfl, rg, .inr ⟨known, (), List.mem_cons_self⟩⟩ hlt
  · rw [h.none (Nat.le_of_not_lt hlt)]
    refine iff_of_false ?_ hlt
    rintro ⟨-, rg, ⟨u, hin⟩ | ⟨known, u, hin⟩⟩ <;> cases List.mem_singleton.mp hin

theorem asked_of_mem {key key' : ObjectKey} {ttl : Option Nat} {lookup : MetaLookup}
    {answer : Option ObjectMeta} {tr₁ tr₂ : Trace} (h₁ : Quiet tr₁) (h₂ : Quiet tr₂)
    (htail : ∀ d ∈ tail, d.1.shown = true ∨ d.1 = .ended) {r : Resp o} (ho : o.consults = true)
    (hin : (⟨o, r⟩ : Done Op Resp) ∈ ⟨.metaLookup key ttl, lookup⟩ ::
      (tr₁ ++ ⟨.metaAny key', answer⟩ :: (tr₂ ++ tail))) :
    (⟨o, r⟩ : Done Op Resp) = ⟨.metaLookup key ttl, lookup⟩ ∨ (⟨o, r⟩ : Done Op Resp) =
      ⟨.metaAny key', answer⟩ := by
  have hno : ⟨o, r⟩ ∉ tail := by
    intro hin
    rcases htail _ hin with hshown | hended
    · cases o <;> cases ho <;> cases hshown
    · cases hended
      cases ho
  rcases List.mem_cons.mp hin with heq | hin
  · exact .inl heq
  · rcases List.mem_append.mp hin with hin | hin
    · exact absurd hin (h₁.not_mem ho)
    · rcases List.mem_cons.mp hin with heq | hin
      · exact .inr heq
      · exact absurd hin (List.not_mem_append (h₂.not_mem ho) hno)

/-! ## The reader -/

section

variable {origin : Bytes → Bytes → Version} {ns : NamespaceState} {object : Bytes} {range : Range}
  {policy : FetchPolicy}

/-- A block that ends before the range is no part of it. -/
theorem deliver_past {b : Block} {m : ObjectMeta} (hns : r.ctx.namespace = ns) (hknown : r.known = some m)
    (hsize : m.size = (origin ns.name object).data.length)
    (hpast : (origin ns.name object).data.length ≤ r.range.start)
    (hdata : b.data = blockOf ns.config.blockSize (origin ns.name object).data r.first) :
    ∃ rg, (r.deliver r.first b).2 = some (.error (.range rg (origin ns.name object).data.length)) ∧
      (r.deliver r.first b).1.done = true := by
  have hlen : b.data.length ≤ (ns.config.blockSize.sliceWithin r.first r.range).start := by
    rw [BlockSize.sliceWithin_start, hdata, blockOf, length_slice, Nat.add_mul]
    omega
  unfold Reader.deliver
  rw [hns]
  dsimp only
  rw [if_pos (.inr hlen)]
  refine ⟨r.range, ?_, rfl⟩
  dsimp only
  rw [if_pos rfl, Reader.size, hknown, ← hsize]
  rfl

theorem readRange_past {ctx : ReadCtx} {m : ObjectMeta} (hmeta : ctx.meta = some m)
    (hnames : (origin ns.name object).Names m) (hpast : (origin ns.name object).data.length ≤ range.start) :
    readRange ctx (.bounded range) = some (.error (.range range (origin ns.name object).data.length)) := by
  have hsize : ctx.size = some (origin ns.name object).data.length :=
    (congrArg (Option.map ObjectMeta.size) hmeta).trans (congrArg some hnames.1)
  unfold readRange
  rw [hsize]
  exact congrArg some (if_pos (.inr hpast))

variable [TagHash]

/-- The reader of a bounded range whose size is not known. -/
def unsizedReader (ns : NamespaceState) (object : Bytes) (range : Range) (policy : FetchPolicy) : Reader :=
  Reader.new (.bounded range) (ReadCtx.new ns ⟨ns.id, object⟩ object none policy) range []

theorem readRange_unsized (hne : range.start < range.stop) :
    readRange (ReadCtx.new ns ⟨ns.id, object⟩ object none policy) (.bounded range) = some (.ok range) :=
  congrArg some (if_neg (Nat.not_le_of_lt hne))

/-- The blocks left to a reader once the metadata cache has answered. -/
def stopAfter (bs : BlockSize) (range : Range) : Option ObjectMeta → Nat
  | none => bs.count range.stop
  | some m => min (bs.count range.stop) (bs.count m.size)

/-- The reader after that answer. -/
def told (r : Reader) : Option ObjectMeta → Reader
  | none => r
  | some m => r.learnt m

theorem told_keeps (ns : NamespaceState) (object : Bytes) (range : Range) (policy : FetchPolicy)
    (answer : Option ObjectMeta) :
    (told (unsizedReader ns object range policy) answer).ctx = ReadCtx.new ns ⟨ns.id, object⟩
      object none policy ∧ (told (unsizedReader ns object range policy) answer).range.start = range.start ∧
      (told (unsizedReader ns object range policy) answer).known = answer := by
  cases answer <;> exact ⟨rfl, rfl, rfl⟩

theorem told_spec (ns : NamespaceState) (object : Bytes) (policy : FetchPolicy)
    (hne : range.start < range.stop) (answer : Option ObjectMeta) :
    (told (unsizedReader ns object range policy) answer).first = ns.config.blockSize.index range.start ∧
      (told (unsizedReader ns object range policy) answer).emit = ns.config.blockSize.index range.start ∧
      (told (unsizedReader ns object range policy) answer).next = ns.config.blockSize.index range.start ∧
      (told (unsizedReader ns object range policy) answer).stop =
        stopAfter ns.config.blockSize range answer := by
  have hblocks : ns.config.blockSize.blocks range = ⟨ns.config.blockSize.index range.start,
    ns.config.blockSize.count range.stop⟩ := if_neg (Nat.not_le_of_lt hne)
  have hnext : addU32 (ns.config.blockSize.index range.start) (toU32 0) =
      ns.config.blockSize.index range.start := by
    have hle := (ns.config.blockSize.index_le range.start).1
    have hm : maxU32 = 2 ^ 32 - 1 := rfl
    exact addU32_of_lt (show ns.config.blockSize.index range.start + 0 < 2 ^ 32 by omega)
  have hnew : unsizedReader ns object range policy = { unsizedReader ns object range policy with
      first := ns.config.blockSize.index range.start, emit := ns.config.blockSize.index range.start,
      next := ns.config.blockSize.index range.start, stop := ns.config.blockSize.count range.stop } := by
    unfold unsizedReader Reader.new
    dsimp only [ReadCtx.new]
    rw [hblocks]
    dsimp only [List.length_nil]
    rw [hnext]
  rw [hnew]
  cases answer <;> exact ⟨rfl, rfl, rfl, rfl⟩

theorem stream_done {rounds : Nat} (hdone : r.done = true)
    (hrun : Runs (r.stream fuel rounds) tr (pure ())) : tr = [⟨.ended, ()⟩] := by
  cases rounds with
  | zero => exact absurd hrun not_runs_hang
  | succ rounds =>
      unfold Reader.stream at hrun
      obtain ⟨tr₁, tr₂, out, rfl, hnext, hrun⟩ := hrun.of_bind
      cases fuel with
      | zero => exact absurd hnext not_runs_hang
      | succ fuel =>
          unfold Reader.nextItem at hnext
          rw [if_pos hdone] at hnext
          obtain ⟨rfl, rfl⟩ := hnext.of_pure
          obtain ⟨u, tr', rfl, hrest⟩ := Runs.of_call (f := pure) hrun
          obtain ⟨rfl, -⟩ := hrest.of_pure
          rfl

theorem learn_told : (unsizedReader ns object range policy).learn none =
    perform (.metaAny ⟨ns.id, object⟩) >>= fun answer =>
      pure (told (unsizedReader ns object range policy) answer) := by
  unfold Reader.learn
  change perform (.metaAny ⟨ns.id, object⟩) >>= _ = _
  congr 1
  funext answer
  cases answer <;> rfl

theorem fill_told (hrun : Runs ((unsizedReader ns object range policy).fill fuel) tr (pure r)) :
    ∃ answer tr' next window, tr = ⟨.metaAny ⟨ns.id, object⟩, answer⟩ :: tr' ∧ Quiet tr' ∧
      r = { told (unsizedReader ns object range policy) answer with next := next, window := window } ∧
      ((told (unsizedReader ns object range policy) answer).stop ≤
        (told (unsizedReader ns object range policy) answer).next → window = []) := by
  unfold Reader.fill at hrun
  obtain ⟨tr₁, tr₂, r₁, rfl, hlearn, hloop⟩ := hrun.of_bind
  have hquiet := Quiet.of_inner (Reader.fillLoop_inner.of_runs hloop)
  obtain ⟨next, window, rfl⟩ := Reader.fillLoop_same.of_runs hloop
  rw [learn_told] at hlearn
  obtain ⟨answer, tr', rfl, htold⟩ := Runs.of_call hlearn
  obtain ⟨rfl, rfl⟩ := htold.of_pure
  refine ⟨answer, tr₂, next, window, rfl, hquiet, rfl, fun hstop => ?_⟩
  cases fuel with
  | zero => exact absurd hloop not_runs_hang
  | succ fuel =>
      unfold Reader.fillLoop at hloop
      rw [if_neg fun hgo => absurd hstop (Nat.not_le_of_lt hgo.2)] at hloop
      have hsame := congrArg Reader.window hloop.of_pure.2
      cases answer <;> exact hsame.symm

theorem wait_works {handle : SlotHandle} {key : BlockKey} {result : BlockResult}
    (hok : (servedLaw origin ns).HandleOk key handle) (hrun : Runs handle.wait tr (pure result))
    (hworks : ∀ d ∈ tr, Works origin ns d.1 d.2) : Quiet tr ∧ ∃ b, result = .ok b ∧
    ServedBlock origin ns key b := by
  cases handle with
  | resolved stored =>
      obtain ⟨rfl, rfl⟩ := Runs.of_pure hrun
      cases stored with
      | ok b => exact ⟨fun d hd => absurd hd List.not_mem_nil, b, rfl, hok⟩
      | error e => exact hok.elim
  | waiting slot =>
      obtain ⟨answer, tr', rfl, hrest⟩ := Runs.of_call (f := pure) hrun
      obtain ⟨rfl, rfl⟩ := hrest.of_pure
      have hanswer := hworks _ (List.mem_singleton_self _)
      refine ⟨fun d hd => ?_, ?_⟩
      · rw [List.mem_singleton.mp hd]
        exact ⟨rfl, rfl⟩
      · cases answer with
        | ok b =>
            have hserved : ServedBlock origin ns slot.key b := hanswer
            rw [show slot.key = key from hok] at hserved
            exact ⟨b, rfl, hserved⟩
        | error e => exact hanswer.elim

theorem deliver_told {answer : Option ObjectMeta} {next : Nat} {window : List SlotHandle} {b : Block}
    {out : Option (Except NestorError Bytes)} (hne : range.start < range.stop)
    (hpast : (origin ns.name object).data.length ≤ range.start)
    (hanswer : ∀ m, answer = some m → (origin ns.name object).Names m)
    (hmeta : (origin ns.name object).Names b.meta)
    (hdata : b.data = blockOf ns.config.blockSize (origin ns.name object).data
      (ns.config.blockSize.index range.start)) (hrun : Runs (do
      let r ← Reader.learn { told (unsizedReader ns object range policy) answer with
        next := next, window := window, emit := ns.config.blockSize.index range.start + 1 } (some b.meta)
      pure (r.deliver (ns.config.blockSize.index range.start) b)) tr (pure (r, out))) :
    tr = [] ∧ r.done = true ∧ ∃ rg, out = some (.error (.range rg (origin ns.name object).data.length)) := by
  obtain ⟨hfirst, -⟩ := told_spec ns object policy hne answer
  obtain ⟨hctx, hstart, hknown⟩ := told_keeps ns object range policy answer
  -- the block tells the metadata if the cache has not
  have hlearnt : ∃ (r' : Reader) (m : ObjectMeta),
      Runs (pure (r'.deliver (ns.config.blockSize.index range.start) b)) tr (pure (r, out)) ∧
      r'.first = ns.config.blockSize.index range.start ∧ r'.ctx.namespace = ns ∧
      r'.range.start = range.start ∧
      r'.known = some m ∧ (origin ns.name object).Names m := by
    have hns := congrArg ReadCtx.namespace hctx
    cases answer with
    | none => exact ⟨_, b.meta, hrun, hfirst, hns, hstart, rfl, hmeta⟩
    | some m => exact ⟨_, m, hrun, hfirst, hns, hstart, hknown, hanswer m rfl⟩
  obtain ⟨r', m, hrun, hf, hns, hs, hk, hnames⟩ := hlearnt
  obtain ⟨rfl, hout⟩ := Runs.of_pure hrun
  rw [← hf] at hout hdata
  obtain ⟨rg, hitem, hdone⟩ := deliver_past hns hk hnames.1 (hs ▸ hpast) hdata
  rw [hout] at hitem hdone
  exact ⟨rfl, hdone, rg, hitem⟩

/-- The answers of a cache whose lookups come to an end, and of an origin that works. -/
def WorksOn (origin : Bytes → Bytes → Version) (ns : NamespaceState) (o : Op) (r : Resp o) : Prop :=
  Works origin ns o r ∧ o.landed r

theorem ends_of_works {α : Type} {p : Program α} {Q : Unit → α → Prop}
    (h : wp (workSpec origin ns True) p Q ()) :
    p.Ends (WorksOn origin ns) fun a => ∃ g, Q g a :=
  .of_wp (S := workSpec origin ns True) (fun _ _ => Op.Steady.answered)
    (fun _ _ _ hr => ⟨hr.1, fun _ => hr.2⟩) h

theorem fill_ends (hne : range.start < range.stop)
    (hfuel : max ns.config.readWindow ns.config.fetchWindow < fuel) :
    ((unsizedReader ns object range policy).fill fuel).Ends (WorksOn origin ns) fun _ => True := by
  obtain ⟨fuel, rfl⟩ := Nat.exists_eq_add_one_of_ne_zero (Nat.ne_zero_of_lt hfuel)
  unfold Reader.fill
  rw [learn_told]
  refine .step ⟨none, trivial, trivial⟩ fun answer _ => ?_
  obtain ⟨hctx, -, -⟩ := told_keeps ns object range policy answer
  obtain ⟨-, -, -, hstop⟩ := told_spec ns object policy hne answer
  refine (ends_of_works (fillLoop_works ?_ ?_)).mono fun _ _ => trivial
  · rw [hstop]
    cases answer with
    | none => exact BlockSize.count_le_maxU32 _ _
    | some m => exact (Nat.min_le_left _ _).trans (BlockSize.count_le_maxU32 _ _)
  · rw [hctx]
    split <;> simp only [ReadCtx.new] <;> omega

theorem wait_ends {handle : SlotHandle} {key : BlockKey} (hok : (servedLaw origin ns).HandleOk key handle)
    (hns : key.namespace = ns.id) (htag : key.tag = immutableTag) :
    handle.wait.Ends (WorksOn origin ns) fun result => ∃ b, result = .ok b := by
  have hends : handle.wait.Ends (WorksOn origin ns) fun _ => True := by
    cases handle with
    | resolved result => exact trivial
    | waiting slot =>
        have hkey : slot.key = key := hok
        have hserved : ∃ b, ServedBlock origin ns slot.key b :=
          ⟨⟨⟨_, _, none⟩, _⟩, ⟨hkey ▸ hns, ⟨rfl, rfl⟩, rfl⟩, .inl (hkey ▸ htag)⟩
        obtain ⟨b, hb⟩ := hserved
        exact ⟨⟨.ok b, hb, trivial⟩, fun _ _ => trivial⟩
  refine hends.runs.mono fun result hrun => ?_
  obtain ⟨tr, hrun, hP⟩ := hrun
  obtain ⟨-, b, hb, -⟩ := wait_works hok hrun fun d hd => (hP d hd).1
  exact ⟨b, hb⟩

section

variable (hwindows : ns.config.Windowed) (himm : ns.config.consistency.isImmutable = true)
  (hne : range.start < range.stop)

include hwindows himm hne

/-- What the first poll finds in its window: handles of the blocks from the first one on, if there
are any. -/
theorem fill_past (hrun : Runs ((unsizedReader ns object range policy).fill fuel) tr (pure r))
    (hworks : ∀ d ∈ tr, Works origin ns d.1 d.2) :
    ∃ answer tr' next window, tr = ⟨.metaAny ⟨ns.id, object⟩, answer⟩ :: tr' ∧ Quiet tr' ∧
      r = { told (unsizedReader ns object range policy) answer with next := next, window := window } ∧
      (window = [] ↔ stopAfter ns.config.blockSize range answer ≤ ns.config.blockSize.index range.start) ∧
      ∀ handle rest, window = handle :: rest → (servedLaw origin ns).HandleOk
        (BlockKey.new ⟨ns.id, object⟩ immutableTag (ns.config.blockSize.index range.start)) handle := by
  have hreader : (readTerms origin ns).ReaderOk _ (unsizedReader ns object range policy) _ :=
    Reader.new_ok (fun _ => .inr himm) (fun _ h => absurd h (Option.some_ne_none _).symm)
      (readRange_unsized hne)
      trivial
  obtain ⟨-, -, hok, -, hempty⟩ := wp_runs_of rely_of_serves (fill_wp readTerms_running hreader) hrun
    fun d hd => (hworks d hd).serves
  obtain ⟨answer, tr', next, window, rfl, hquiet, rfl, hnone⟩ := fill_told hrun
  obtain ⟨-, hemit, hnext, hstop⟩ := told_spec ns object policy hne answer
  obtain ⟨hctx, -, -⟩ := told_keeps ns object range policy answer
  refine ⟨answer, tr', next, window, rfl, hquiet, rfl, ⟨?_, fun hle => hnone (by rwa [hstop, hnext])⟩, ?_⟩
  · rintro rfl
    have hend := hempty (by rw [hctx]; exact hwindows) rfl
    have hat := hok.next
    dsimp only at hend hat
    rw [hstop] at hend
    rw [hemit, List.length_nil] at hat
    omega
  · rintro handle rest rfl
    obtain ⟨hhandle, -⟩ := hok.pop rfl
    dsimp only at hhandle
    rwa [hctx, hemit] at hhandle

variable (hpast : (origin ns.name object).data.length ≤ range.start)

include hpast

/-- The first poll: the metadata cache is asked, and either the first block is no part of the range,
or there is no block to read. -/
theorem nextItem_past {out : Option (Except NestorError Bytes)}
    (hrun : Runs ((unsizedReader ns object range policy).nextItem fuel) tr (pure (r, out)))
    (hworks : ∀ d ∈ tr, Works origin ns d.1 d.2) :
    ∃ answer tr', tr = ⟨.metaAny ⟨ns.id, object⟩, answer⟩ :: tr' ∧ Quiet tr' ∧ r.done = true ∧
      (ns.config.blockSize.index range.start < stopAfter ns.config.blockSize range answer →
        ∃ rg, out = some (.error (.range rg (origin ns.name object).data.length))) ∧
      (stopAfter ns.config.blockSize range answer ≤ ns.config.blockSize.index range.start → out = none) := by
  cases fuel with
  | zero => exact absurd hrun not_runs_hang
  | succ fuel =>
      unfold Reader.nextItem at hrun
      rw [if_neg (show ¬ (unsizedReader ns object range policy).done = true from Bool.false_ne_true)] at hrun
      obtain ⟨tr₁, tr₂, r₁, rfl, hfill, hrest⟩ := hrun.of_bind
      obtain ⟨answer, tr', next, window, rfl, hquiet, rfl, hend, hhandle⟩ := fill_past hwindows himm hne hfill
        fun d hd => hworks d (List.mem_append_left _ hd)
      cases window with
      | nil =>
          obtain ⟨rfl, hout⟩ := Runs.of_pure hrest
          cases hout
          exact ⟨answer, tr', by rw [List.append_nil], hquiet, rfl,
            fun hlt => absurd (hend.mp rfl) (Nat.not_le_of_lt hlt), fun _ => rfl⟩
      | cons handle window =>
          obtain ⟨-, hemit, -, -⟩ := told_spec ns object policy hne answer
          dsimp only at hrest
          rw [hemit] at hrest
          obtain ⟨tr₃, tr₄, result, rfl, hwait, hlast⟩ := hrest.of_bind
          obtain ⟨hwaited, b, rfl, ⟨-, hmeta, hdata⟩, -⟩ := wait_works (hhandle _ _ rfl) hwait fun d hd =>
            hworks d (List.mem_append_right _ (List.mem_append_left _ hd))
          have hanswer : ∀ m, answer = some m → (origin ns.name object).Names m := by
            rintro m rfl
            exact hworks _ List.mem_cons_self
          obtain ⟨rfl, hdone, rg, hout⟩ := deliver_told hne hpast hanswer hmeta hdata hlast
          refine ⟨answer, tr' ++ (tr₃ ++ []), rfl, ?_, hdone, fun _ => ⟨rg, hout⟩, fun hle => ?_⟩
          · rw [List.append_nil]
            exact hquiet.append hwaited
          · cases hend.mpr hle

theorem stream_past {rounds : Nat}
    (hrun : Runs ((unsizedReader ns object range policy).stream fuel rounds) tr (pure ()))
    (hworks : ∀ d ∈ tr, Works origin ns d.1 d.2) :
    ∃ answer tr' tail, tr = ⟨.metaAny ⟨ns.id, object⟩, answer⟩ :: (tr' ++ tail) ∧ Quiet tr' ∧
      PastTail (origin ns.name object).data.length (ns.config.blockSize.index range.start)
        (stopAfter ns.config.blockSize range answer) tail := by
  cases rounds with
  | zero => exact absurd hrun not_runs_hang
  | succ rounds =>
      unfold Reader.stream at hrun
      obtain ⟨tr₁, tr₂, ⟨r, out⟩, rfl, hnext, hrest⟩ := hrun.of_bind
      obtain ⟨answer, tr', rfl, hquiet, hdone, hsome, hnone⟩ := nextItem_past hwindows himm hne hpast hnext
        fun d hd => hworks d (List.mem_append_left _ hd)
      refine ⟨answer, tr', tr₂, rfl, hquiet, ⟨fun hlt => ?_, fun hle => ?_⟩⟩
      · obtain ⟨rg, rfl⟩ := hsome hlt
        obtain ⟨u, tr₃, rfl, hend⟩ := Runs.of_call hrest
        exact ⟨r.reported, rg, congrArg _ (stream_done hdone hend)⟩
      · obtain rfl := hnone hle
        obtain ⟨u, tr₃, rfl, hend⟩ := Runs.of_call (f := pure) hrest
        rw [hend.of_pure.1]

theorem nextItem_ends (hfuel : max ns.config.readWindow ns.config.fetchWindow + 1 < fuel) :
    ((unsizedReader ns object range policy).nextItem fuel).Ends (WorksOn origin ns)
      fun out => out.1.done = true := by
  refine (Prog.Ends.runs (Q := fun _ => True) ?_).mono fun out hrun => ?_
  · obtain ⟨fuel, rfl⟩ := Nat.exists_eq_add_one_of_ne_zero (Nat.ne_zero_of_lt hfuel)
    unfold Reader.nextItem
    rw [if_neg (show ¬ (unsizedReader ns object range policy).done = true from Bool.false_ne_true)]
    refine (fill_ends hne (by omega)).runs.bind fun r hrun => ?_
    obtain ⟨tr, hrun, hP⟩ := hrun
    obtain ⟨answer, _, _, window, -, -, rfl, -, hhandle⟩ :=
      fill_past hwindows himm hne hrun fun d hd => (hP d hd).1
    cases window with
    | nil => exact trivial
    | cons handle window =>
        refine (wait_ends (hhandle _ _ rfl) rfl rfl).bind fun result hb => ?_
        obtain ⟨b, rfl⟩ := hb
        cases answer <;> exact trivial
  · obtain ⟨tr, hrun, hP⟩ := hrun
    obtain ⟨_, _, -, -, hdone, -⟩ := nextItem_past hwindows himm hne hpast hrun fun d hd => (hP d hd).1
    exact hdone

theorem stream_ends (hfuel : max ns.config.readWindow ns.config.fetchWindow + 1 < fuel) :
    ((unsizedReader ns object range policy).stream fuel fuel).Ends (WorksOn origin ns) fun _ => True := by
  have hended : (perform .ended).Ends (WorksOn origin ns) fun _ => True :=
    ⟨⟨(), trivial, trivial⟩, fun _ _ => trivial⟩
  obtain ⟨n, rfl⟩ := Nat.exists_eq_add_of_le' (show 2 ≤ fuel by omega)
  refine (nextItem_ends hwindows himm hne hpast hfuel).bind fun out hdone => ?_
  obtain ⟨r, _ | item⟩ := out
  · exact hended
  · refine .step ⟨(), trivial, trivial⟩ fun _ _ => ?_
    unfold Reader.stream Reader.nextItem
    rw [if_pos hdone]
    exact hended

end

/-! ## The read -/

theorem resolveAtOrigin_works {known : Option ObjectMeta}
    (hknown : ∀ m, known = some m → (origin ns.name object).Names m)
    (hrun : Runs (resolveAtOrigin fuel ns object (.bounded range) known policy) tr (pure out))
    (hworks : ∀ d ∈ tr, Works origin ns d.1 d.2) : Quiet tr ∧ Resolved origin ns object out := by
  obtain ⟨hkept, hout⟩ := wp_runs_of (S := workSpec origin ns False) (fun _ _ _ _ h => ⟨h, False.elim⟩)
    (probe_works hknown False.elim) hrun hworks
  refine ⟨.of_inner fun d hd => ?_, hout⟩
  obtain ⟨before, after, -, hsteady⟩ := hkept.of_mem hd
  exact hsteady.inner

theorem resolveMissing_past {known : Option ObjectMeta}
    (hknown : ∀ m, known = some m → (origin ns.name object).Names m)
    (hrun : Runs (resolveMissing fuel ns object (.bounded range) policy known) tr (pure out))
    (hworks : ∀ d ∈ tr, Works origin ns d.1 d.2) :
    Quiet tr ∧ (ns.config.consistency.isImmutable = false ∧ Resolved origin ns object out ∨
      ns.config.consistency.isImmutable = true ∧
        out = .ok (ReadCtx.new ns ⟨ns.id, object⟩ object none policy, [])) := by
  unfold resolveMissing at hrun
  cases himm : ns.config.consistency.isImmutable with
  | true =>
      rw [if_pos himm] at hrun
      obtain ⟨rfl, rfl⟩ := Runs.of_pure hrun
      exact ⟨fun d hd => absurd hd List.not_mem_nil, .inr ⟨rfl, rfl⟩⟩
  | false =>
      rw [if_neg (by rw [himm]; exact Bool.false_ne_true)] at hrun
      obtain ⟨hquiet, hout⟩ := resolveAtOrigin_works hknown hrun hworks
      exact ⟨hquiet, .inl ⟨rfl, hout⟩⟩

/-- The context of a read is resolved: with the metadata of the object, or without it if the
namespace is immutable and the cache has no metadata that is fresh. -/
theorem resolveCtx_past (hrun : Runs (resolveCtx fuel ns object (.bounded range) policy) tr (pure out))
    (hworks : ∀ d ∈ tr, Works origin ns d.1 d.2) :
    ∃ lookup tr', tr = ⟨.metaLookup ⟨ns.id, object⟩ ns.metaTtl, lookup⟩ :: tr' ∧ Quiet tr' ∧
      ((ns.config.consistency.isImmutable = false ∨ ∃ m, lookup = .fresh m) ∧ Resolved origin ns object out ∨
        (∀ m, lookup ≠ .fresh m) ∧ ns.config.consistency.isImmutable = true ∧
          out = .ok (ReadCtx.new ns ⟨ns.id, object⟩ object none policy, [])) := by
  unfold resolveCtx at hrun
  obtain ⟨lookup, tr', rfl, hrest⟩ := Runs.of_call hrun
  have hlookup := hworks _ List.mem_cons_self
  have hworks' : ∀ d ∈ tr', Works origin ns d.1 d.2 := fun d hd => hworks d (List.mem_cons_of_mem _ hd)
  refine ⟨lookup, tr', rfl, ?_⟩
  cases lookup with
  | fresh m =>
      obtain ⟨rfl, rfl⟩ := hrest.of_pure
      exact ⟨fun d hd => absurd hd List.not_mem_nil, .inl ⟨.inr ⟨m, rfl⟩, _, _, m, rfl, rfl, hlookup⟩⟩
  | stale m =>
      have hknown : ∀ m', some m = some m' → (origin ns.name object).Names m' := by
        rintro m' ⟨⟩
        exact hlookup
      obtain ⟨hquiet, hout⟩ := resolveMissing_past hknown hrest hworks'
      exact ⟨hquiet, hout.imp (And.imp_left .inl) (⟨fun _ => nofun, ·⟩)⟩
  | missing =>
      have hknown : ∀ m', none = some m' → (origin ns.name object).Names m' := nofun
      obtain ⟨hquiet, hout⟩ := resolveMissing_past hknown hrest hworks'
      exact ⟨hquiet, hout.imp (And.imp_left .inl) (⟨fun _ => nofun, ·⟩)⟩

/-- A run of a read past the end: it fails at once, or it polls a reader that does not know the
size. -/
theorem getOpts_past (hne : range.start < range.stop)
    (hpast : (origin ns.name object).data.length ≤ range.start)
    (hrun : Runs (getOpts fuel ns object (.bounded range) policy) tr (pure ()))
    (hworks : ∀ d ∈ tr, Works origin ns d.1 d.2) :
    ∃ lookup tr₁ tr₂, tr = ⟨.metaLookup ⟨ns.id, object⟩ ns.metaTtl, lookup⟩ :: (tr₁ ++ tr₂) ∧ Quiet tr₁ ∧
      ((ns.config.consistency.isImmutable = false ∨ ∃ m, lookup = .fresh m) ∧
          tr₂ = [⟨.failed (.range range (origin ns.name object).data.length), ()⟩] ∨
        (∀ m, lookup ≠ .fresh m) ∧ ns.config.consistency.isImmutable = true ∧
          Runs ((unsizedReader ns object range policy).stream fuel fuel) tr₂ (pure ())) := by
  unfold getOpts at hrun
  obtain ⟨tr₀, tr₂, out, rfl, hresolve, hrest⟩ := hrun.of_bind
  obtain ⟨lookup, tr₁, rfl, hquiet, ⟨hwhy, ctx, fetched, m, rfl, hmeta, hnames⟩ | ⟨hl, himm, rfl⟩⟩ :=
    resolveCtx_past hresolve fun d hd => hworks d (List.mem_append_left _ hd)
  · dsimp only at hrest
    rw [readRange_past hmeta hnames hpast] at hrest
    obtain ⟨u, tr', rfl, hend⟩ := Runs.of_call (f := pure) hrest
    rw [hend.of_pure.1]
    exact ⟨lookup, tr₁, _, rfl, hquiet, .inl ⟨hwhy, rfl⟩⟩
  · dsimp only at hrest
    rw [readRange_unsized hne] at hrest
    dsimp only at hrest
    -- the three ways to the first poll
    have hopen {seen tr' : Trace} (hseen : Quiet seen)
        (h : Runs (perform (.opened range none) >>= fun _ =>
          (unsizedReader ns object range policy).stream fuel fuel) tr' (pure ())) :
        ∃ seen' tr'', seen ++ tr' = seen' ++ tr'' ∧ Quiet seen' ∧
          Runs ((unsizedReader ns object range policy).stream fuel fuel) tr'' (pure ()) := by
      obtain ⟨u, tr'', rfl, hstream⟩ := Runs.of_call h
      refine ⟨seen ++ [⟨.opened range none, u⟩], tr'', by rw [List.append_assoc]; rfl, ?_, hstream⟩
      refine hseen.append fun d hd => ?_
      rw [List.mem_singleton.mp hd]
      exact ⟨rfl, rfl⟩
    have hsplit : ∃ seen tr', tr₁ ++ tr₂ = seen ++ tr' ∧ Quiet seen ∧
        Runs ((unsizedReader ns object range policy).stream fuel fuel) tr' (pure ()) := by
      split at hrest
      · obtain ⟨sequential, tr', rfl, hgo⟩ := Runs.of_call hrest
        have hobserved : Quiet (tr₁ ++ [⟨.readaheadObserve ⟨ns.id, object⟩ range, sequential⟩]) :=
          hquiet.append fun d hd => List.mem_singleton.mp hd ▸ ⟨rfl, rfl⟩
        rw [← List.singleton_append, ← List.append_assoc]
        cases sequential with
        | true =>
            obtain ⟨tr₃, tr₄, u, rfl, hspawn, hlast⟩ := Runs.of_bind hgo
            rw [← List.append_assoc]
            exact hopen (hobserved.append (.of_inner ((spawnReadahead_easy _ _ _).inner.of_runs hspawn)))
              hlast
        | false => exact hopen hobserved hgo
      · exact hopen hquiet hrest
    obtain ⟨seen, tr', hsplit, hseen, hstream⟩ := hsplit
    exact ⟨lookup, seen, tr', congrArg _ hsplit, hseen, .inr ⟨hl, himm, hstream⟩⟩

/-! ## The end of the read -/

theorem resolveMissing_ends {known : Option ObjectMeta}
    (hknown : ∀ m, known = some m → (origin ns.name object).Names m) (hfuel : 1 < fuel) :
    (resolveMissing fuel ns object (.bounded range) policy known).Ends (WorksOn origin ns) fun _ => True := by
  unfold resolveMissing
  split
  · exact trivial
  · exact (ends_of_works (probe_works hknown fun _ => hfuel)).mono fun _ _ => trivial

theorem resolveCtx_ends (hfuel : 1 < fuel) :
    (resolveCtx fuel ns object (.bounded range) policy).Ends (WorksOn origin ns) fun _ => True := by
  refine .step ⟨.missing, trivial, trivial⟩ fun lookup hlookup => ?_
  cases lookup with
  | fresh m => exact trivial
  | stale m => exact resolveMissing_ends (fun m' hm => Option.some.inj hm ▸ hlookup.1) hfuel
  | missing => exact resolveMissing_ends nofun hfuel

/-- With an origin that works, and with lookups that come to an end, a read past the end ends. -/
theorem getOpts_past_ends (hwindows : ns.config.Windowed) (hne : range.start < range.stop)
    (hpast : (origin ns.name object).data.length ≤ range.start) :
    ∃ enough, ∀ fuel ≥ enough, (getOpts fuel ns object (.bounded range) policy).Ends (WorksOn origin ns)
      fun _ => True := by
  refine ⟨max ns.config.readWindow ns.config.fetchWindow + 2, fun fuel hfuel => ?_⟩
  unfold getOpts
  refine (resolveCtx_ends (by omega)).runs.bind fun out hrun => ?_
  obtain ⟨tr, hrun, hP⟩ := hrun
  obtain ⟨_, _, -, -, ⟨-, ctx, fetched, m, rfl, hmeta, hnames⟩ | ⟨-, himm, rfl⟩⟩ :=
    resolveCtx_past hrun fun d hd => (hP d hd).1
  · dsimp only
    rw [readRange_past hmeta hnames hpast]
    exact ⟨⟨(), trivial, trivial⟩, fun _ _ => trivial⟩
  · dsimp only
    rw [readRange_unsized hne]
    have hopen : (perform (.opened range none) >>= fun _ => (unsizedReader ns object range policy).stream
        fuel fuel).Ends (WorksOn origin ns) fun _ => True :=
      .step ⟨(), trivial, trivial⟩ fun _ _ => stream_ends hwindows himm hne hpast hfuel
    dsimp only
    split
    · refine .step ⟨false, trivial, trivial⟩ fun sequential _ => ?_
      cases sequential with
      | true => exact (ends_of_works (spawnReadahead_easy _ _ _).works).bind fun _ _ => hopen
      | false => exact hopen
    · exact hopen

/-- A read past the end ends in the range error unless it starts without the size and has no block
to read. -/
theorem getOpts_endsPast_iff (origin : Bytes → Bytes → Version) (ns : NamespaceState) (object : Bytes)
    (range : Range) (policy : FetchPolicy) (fuel : Nat) (tr : Trace) (hwindows : ns.config.Windowed)
    (hne : range.start < range.stop) (hpast : (origin ns.name object).data.length ≤ range.start)
    (hrun : Runs (getOpts fuel ns object (.bounded range) policy) tr (pure ()))
    (hworks : ∀ d ∈ tr, Works origin ns d.1 d.2) :
    EndsPast (origin ns.name object).data.length tr ↔
      ns.config.consistency.isImmutable = false ∨ MetaCached tr ∨
        ns.config.blockSize.index range.start < ns.config.blockSize.count range.stop ∧
          (MetaLearnt tr → ns.config.blockSize.index range.start <
            ns.config.blockSize.count (origin ns.name object).data.length) := by
  obtain ⟨lookup, tr₁, tr₂, htr, hquiet, ⟨hwhy, rfl⟩ | ⟨hl, himm, hstream⟩⟩ :=
    getOpts_past hne hpast hrun hworks
  · -- the size was known
    rw [htr]
    refine iff_of_true ?_ ?_
    · rw [endsPast_cons rfl, endsPast_append hquiet.hidden]
      exact ⟨rfl, range, .inl ⟨(), List.mem_singleton_self _⟩⟩
    · refine hwhy.imp_right fun hfresh => ?_
      obtain ⟨m, rfl⟩ := hfresh
      exact .inl ⟨_, _, m, List.mem_cons_self⟩
  · obtain ⟨answer, tr₃, tail, rfl, hquiet', htail⟩ := stream_past hwindows himm hne hpast hstream fun d hd =>
      hworks d (htr ▸ List.mem_cons_of_mem _ (List.mem_append_right _ hd))
    have hasked {o : Op} {r : Resp o} (ho : o.consults = true) (hin : ⟨o, r⟩ ∈ tr) :
        (⟨o, r⟩ : Done Op Resp) = ⟨.metaLookup ⟨ns.id, object⟩ ns.metaTtl, lookup⟩ ∨
          (⟨o, r⟩ : Done Op Resp) = ⟨.metaAny ⟨ns.id, object⟩, answer⟩ :=
      asked_of_mem hquiet hquiet' htail.shown ho (htr ▸ hin)
    have hcached : ¬ MetaCached tr := by
      rintro ⟨key, ttl, m, hin⟩
      rcases hasked rfl hin with heq | heq
      · cases heq
        exact hl m rfl
      · cases heq
    have hlearnt : MetaLearnt tr ↔ ∃ m, answer = some m := by
      constructor
      · rintro ⟨key, m, hin⟩
        rcases hasked rfl hin with heq | heq
        · cases heq
        · cases heq
          exact ⟨m, rfl⟩
      · rintro ⟨m, rfl⟩
        exact ⟨_, m, htr ▸ List.mem_cons_of_mem _ (List.mem_append_right _ List.mem_cons_self)⟩
    have hends : EndsPast (origin ns.name object).data.length tr ↔
        ns.config.blockSize.index range.start < stopAfter ns.config.blockSize range answer := by
      rw [htr, endsPast_cons rfl, endsPast_append hquiet.hidden, endsPast_cons rfl,
        endsPast_append hquiet'.hidden]
      exact htail.endsPast_iff
    rw [hends, hlearnt, himm, or_iff_right (fun h => Bool.noConfusion h), or_iff_right hcached]
    cases answer with
    | none => exact ⟨fun hlt => ⟨hlt, nofun⟩, And.left⟩
    | some m =>
        have hnames : (origin ns.name object).Names m :=
          hworks ⟨.metaAny ⟨ns.id, object⟩, some m⟩
            (htr ▸ List.mem_cons_of_mem _ (List.mem_append_right _ List.mem_cons_self))
        unfold stopAfter
        rw [lt_min_iff, hnames.1]
        exact and_congr_right fun _ => ⟨fun h _ => h, fun h => h ⟨m, rfl⟩⟩

end

section

open Sample

/-- An immutable namespace whose objects have one byte. -/
def tinyNamespace : NamespaceState := ⟨0, [97], { NamespaceConfig.default with consistency := .immutable }⟩

def tinyOrigin (_ _ : Bytes) : Version := ⟨[1], none⟩

/-- The answers to a read while another request leaves the metadata of the object in the cache,
which has its block. -/
def tinyAnswers : Strategy Op Resp := fun _ o =>
  match o with
  | .metaLookup _ _ => some .missing
  | .readaheadObserve _ _ => some false
  | .opened _ _ | .item _ _ | .ended => some ()
  | .metaAny _ => some (some ⟨1, none, none⟩)
  | .blocksGet keys =>
      if keys = [⟨0, immutableTag, 0, [111]⟩] then some (.ready (0, some ⟨⟨1, none, none⟩, [1]⟩)) else none
  | _ => none

theorem works_tinyAnswers {r : Resp o} (h : tinyAnswers tr o = some r) :
    Works tinyOrigin tinyNamespace o r := by
  cases o
  case metaAny =>
    cases h
    exact ⟨rfl, rfl⟩
  case blocksGet keys =>
    unfold tinyAnswers at h
    dsimp only at h
    split at h
    · rename_i hkeys
      cases h
      exact ⟨_, congrArg (·[0]?) hkeys, ⟨rfl, ⟨rfl, rfl⟩, by decide⟩, .inl rfl⟩
    · cases h
  all_goals cases h <;> exact trivial

/-- The read of the byte at `start`. -/
def tinyRead (start : Nat) : Trace × Program Unit :=
  (getOpts 3 tinyNamespace [111] (.bounded ⟨start, start + 1⟩) FetchPolicy.default).follow tinyAnswers []

/-- Where that is the second block, the read completes as an empty one. -/
theorem tinyRead_endsEmpty : (tinyOrigin [97] [111]).data.length ≤ BlockSize.default.bytes ∧
    (tinyRead BlockSize.default.bytes).2 = pure () ∧
    (∀ d ∈ (tinyRead BlockSize.default.bytes).1, Works tinyOrigin tinyNamespace d.1 d.2) ∧
    ¬ EndsPast (tinyOrigin [97] [111]).data.length (tinyRead BlockSize.default.bytes).1 := by
  obtain ⟨tr, htr, hrun, hans, -⟩ := Prog.follow_runs tinyAnswers []
    (getOpts 3 tinyNamespace [111] (.bounded ⟨BlockSize.default.bytes, BlockSize.default.bytes + 1⟩)
    FetchPolicy.default)
  have htr : (tinyRead BlockSize.default.bytes).1 = tr := htr
  refine ⟨by decide, rfl, fun d hd => ?_, ?_⟩
  · obtain ⟨before, he⟩ := hans d (htr ▸ hd)
    exact works_tinyAnswers he
  · have hops : (tinyRead BlockSize.default.bytes).1.all fun d => !d.1.shown := rfl
    rintro ⟨-, range, ⟨u, hin⟩ | ⟨known, u, hin⟩⟩ <;> cases List.all_eq_true.mp hops _ hin

/-- Where it is behind the end in the only block, the read is told. -/
theorem getOpts_endsPast_firstBlock : (tinyRead 1).2 = pure () ∧ EndsPast 1 (tinyRead 1).1 := by
  obtain ⟨tr, htr, hrun, hans, -⟩ := Prog.follow_runs tinyAnswers []
    (getOpts 3 tinyNamespace [111] (.bounded ⟨1, 1 + 1⟩) FetchPolicy.default)
  have htr : (tinyRead 1).1 = tr := htr
  have hend : (tinyRead 1).2 = pure () := rfl
  have hrun : Runs _ tr (tinyRead 1).2 := hrun
  rw [hend] at hrun
  refine ⟨hend, htr ▸ ?_⟩
  refine (getOpts_endsPast_iff tinyOrigin tinyNamespace [111] ⟨1, 1 + 1⟩ FetchPolicy.default 3 tr
    ⟨by decide, fun _ => by decide⟩ (by decide) (by decide) hrun fun d hd => ?_).mpr
      (.inr (.inr ⟨by decide, fun _ => by decide⟩))
  obtain ⟨before, he⟩ := hans d hd
  exact works_tinyAnswers he

end

end Nestor
