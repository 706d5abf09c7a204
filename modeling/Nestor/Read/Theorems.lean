import Nestor.Fetch.Theorems
import Nestor.Read.Lemmas.Stream

/-!
# Reads are exact

A reader of an object that does not change yields the bytes of its range, whichever blocks it finds
in the cache, whenever it learns the size, and however its handles resolve, if it ends without an
error.
-/

namespace Nestor

open Lib

/-! ## What a stream has yielded -/

/-- The bytes of the items of a trace. -/
def yieldedBytes (tr : Trace) : Bytes :=
  tr.flatMap fun
    | ⟨.item _ (.ok chunk), _⟩ => chunk
    | _ => []

theorem yieldedBytes_append (tr tr' : Trace) :
    yieldedBytes (tr ++ tr') = yieldedBytes tr ++ yieldedBytes tr' := List.flatMap_append ..

/-- One of the items was an error. -/
def yieldedError (tr : Trace) : Bool :=
  tr.any fun
    | ⟨.item _ (.error _), _⟩ => true
    | _ => false

/-- There was an item. -/
def yieldedItem (tr : Trace) : Bool :=
  tr.any fun
    | ⟨.item _ _, _⟩ => true
    | _ => false

/-- The stream has come to its end. -/
def streamEnded (tr : Trace) : Bool :=
  tr.any fun
    | ⟨.ended, _⟩ => true
    | _ => false

theorem split_of_streamEnded {tr : Trace} (h : streamEnded tr = true) (hok : yieldedError tr = false) :
    ∃ before after, tr = before ++ ⟨.ended, ()⟩ :: after ∧ yieldedError before = false := by
  obtain ⟨⟨o, r⟩, hd, hends⟩ := List.any_eq_true.mp h
  cases o
  case ended =>
    obtain ⟨before, after, rfl⟩ := List.append_of_mem hd
    rw [yieldedError, List.any_append, Bool.or_eq_false_iff] at hok
    exact ⟨before, after, rfl, hok.1⟩
  all_goals cases hends

theorem Held.seen_cases (g : Held) (o : Op) (r : Resp o) :
    (g.after o r).seen = g.seen ∨
    (∃ slot e, (⟨o, r⟩ : Done Op Resp) = ⟨.wait slot, (.error e : BlockResult)⟩ ∧
      (g.after o r).seen = waited g.seen (.error e)) ∨
    (∃ range known, (⟨o, r⟩ : Done Op Resp) = ⟨.opened range known, ()⟩ ∧
      (g.after o r).seen = { g.seen with opened := some (range, known) }) ∨
    ∃ known item, o = .item known item ∧ (g.after o r).seen = yielded g.seen item := by
  rw [(g.after_eq o r).2.2]
  cases o
  case wait slot =>
    cases r with
    | ok block => exact .inl rfl
    | error e => exact .inr (.inl ⟨slot, e, rfl, rfl⟩)
  case opened range known => exact .inr (.inr (.inl ⟨range, known, rfl, rfl⟩))
  case item known item => exact .inr (.inr (.inr ⟨known, item, rfl, rfl⟩))
  all_goals exact .inl rfl

theorem Seen.after_eq (seen : Seen) (o : Op) (r : Resp o) :
    (seen.after o r).out = seen.out ++ yieldedBytes [⟨o, r⟩] ∧
      (seen.after o r).failed = (seen.failed || yieldedError [⟨o, r⟩]) ∧
      (seen.after o r).yielded = (seen.yielded || yieldedItem [⟨o, r⟩]) := by
  have same : seen.out = seen.out ++ [] ∧ seen.failed = (seen.failed || false) ∧
      seen.yielded = (seen.yielded || false) :=
    ⟨(List.append_nil _).symm, (Bool.or_false _).symm, (Bool.or_false _).symm⟩
  cases o
  case item _ item =>
    cases item with
    | ok chunk =>
        exact ⟨congrArg _ (List.append_nil chunk).symm, (Bool.or_false _).symm, (Bool.or_true _).symm⟩
    | error e => exact ⟨(List.append_nil _).symm, (Bool.or_true _).symm, (Bool.or_true _).symm⟩
  case wait => cases r <;> exact same
  all_goals exact same

section

variable [TagHash]

theorem Terms.ghost_seen (T : Terms) (g : Held) (tr : Trace) :
    (T.spec.ghost g tr).seen.out = g.seen.out ++ yieldedBytes tr ∧
      (T.spec.ghost g tr).seen.failed = (g.seen.failed || yieldedError tr) ∧
      (T.spec.ghost g tr).seen.yielded = (g.seen.yielded || yieldedItem tr) := by
  induction tr generalizing g with
  | nil => exact ⟨(List.append_nil _).symm, (Bool.or_false _).symm, (Bool.or_false _).symm⟩
  | cons d tr ih =>
      obtain ⟨o, r⟩ := d
      obtain ⟨hout, hfailed, hyielded⟩ := ih (g.after o r)
      obtain ⟨hout', hfailed', hyielded'⟩ := (g.after_eq o r).2.2 ▸ g.seen.after_eq o r
      rw [hout', List.append_assoc, yieldedBytes, yieldedBytes, ← List.flatMap_append] at hout
      rw [hfailed', Bool.or_assoc, yieldedError, yieldedError, ← List.any_append] at hfailed
      rw [hyielded', Bool.or_assoc, yieldedItem, yieldedItem, ← List.any_append] at hyielded
      exact ⟨hout, hfailed, hyielded⟩

/-- A read that has come to its end without an error has yielded its range as a whole. -/
theorem Terms.ends_of_kept {T : Terms} {ns : NamespaceState} {object : Bytes} {request : ReadRange}
    {policy : FetchPolicy} {before after : Trace}
    (h : T.spec.Kept (.start (.get ns object request policy)) (before ++ ⟨.ended, ()⟩ :: after))
    (hok : yieldedError before = false) :
    ∃ tag, T.law.Bound (T.spec.ghost (.start (.get ns object request policy)) before) ns object tag ∧
      (ns.config.Windowed → T.law.Coherent ns.id object → ∀ v, T.law.Has ns.id object v →
        T.law.Matches ns.id tag v → v.data.length ≤ maxU32 * ns.config.blockSize.bytes →
        ∀ range, request.resolve v.data.length = .ok range → yieldedBytes before =
          slice v.data range.start range.stop) := by
  obtain ⟨-, hends, -⟩ := T.spec.kept_append.mp h
  obtain ⟨hout, hfailed, -⟩ := T.ghost_seen (.start (.get ns object request policy)) before
  obtain ⟨ns', object', request', policy', tag, htask, hbound, hwhole⟩ := hends (hfailed.trans hok)
  rw [ghost_task] at htask
  cases htask
  exact ⟨tag, hbound, fun hw hc v hv ht hs range hr => hout.symm.trans (hwhole hw hc v hv ht hs range hr)⟩

/-! ## Reads of an object that does not change -/

/-- A block of the cache or of a fetch: the one of its object, under one of the tags the object's
blocks are cached under. -/
def ServedBlock (origin : Bytes → Bytes → Version) (ns : NamespaceState) (key : BlockKey) (b : Block) :
    Prop :=
  ExactBlock origin ns key b ∧ (key.tag = immutableTag ∨ (origin ns.name key.object).tag = key.tag)

/-- The answers a reader gets. What the metadata cache knows is right, and a lookup or a handle
gives, if not an error, the block it is for; the origin answers as it does to a fetch group. -/
def Serves (origin : Bytes → Bytes → Version) (ns : NamespaceState) : (o : Op) → Resp o → Prop
  | .metaLookup key _, .fresh m => (origin ns.name key.object).Names m
  | .metaLookup key _, .stale m => (origin ns.name key.object).Names m
  | .metaAny key, some m => (origin ns.name key.object).Names m
  | .blocksGet keys, .ready (i, some b) => ∃ key, keys[i]? = some key ∧ ServedBlock origin ns key b
  | .wait slot, .ok b => ServedBlock origin ns slot.key b
  | o, r => Delivers origin [] o r

/-- The law of a cache that holds blocks of unchanged objects. -/
def servedLaw (origin : Bytes → Bytes → Version) (ns : NamespaceState) : Law where
  toUniverse := soleUniverse origin ns
  Fit := ServedBlock origin ns
  fit_of_exact := by
    intro key b h
    obtain ⟨_, _, v, -, rfl, ht, -, -⟩ := id h
    exact ⟨exactBlock_of_exact h, ht.imp And.left id⟩
  names_of_fit := fun ⟨⟨_, hn, _⟩, ht⟩ => ⟨_, rfl, ht.imp (⟨·, trivial⟩) id, hn⟩

def readTerms (origin : Bytes → Bytes → Version) (ns : NamespaceState) : Terms where
  law := servedLaw origin ns
  Old := fun _ => False
  budget := 0
  schedules := True

variable {origin : Bytes → Bytes → Version} {ns : NamespaceState}

theorem servedLaw_coherent {id : NamespaceId} {object : Bytes} :
    (servedLaw origin ns).Coherent id object where
  one := by
    rintro tag v w rfl rfl - -
    rfl
  cut := by
    rintro tag index b bs v ⟨⟨-, -, hd⟩, -⟩ ⟨-, rfl⟩ rfl -
    rw [hd]
    exact List.take_of_length_le (BlockSize.length_blockOf_le ..)

theorem rely_of_serves (g : Held) (o : Op) (r : Resp o) (_ : (readTerms origin ns).guar g o)
    (h : Serves origin ns o r) : (readTerms origin ns).rely o r := by
  cases o
  case metaLookup =>
    cases r with
    | fresh m => exact ⟨_, rfl, h⟩
    | stale m => exact ⟨_, rfl, h⟩
    | missing => exact trivial
  case metaAny =>
    cases r with
    | none => exact trivial
    | some m => exact ⟨_, rfl, h⟩
  case blocksGet => rcases r with ⟨i, _ | b⟩ | _ | _ <;> exact h
  case wait => cases r <;> exact h
  case register =>
    cases r with
    | owner slot => exact ⟨h.1, id⟩
    | waiter slot => exact h
  case awaitGet =>
    rcases r with (⟨i, e | r⟩ | _) | _ | _
    case ready.answered.ok =>
      obtain ⟨req, hreq, hof⟩ := h
      exact ⟨req, _, hreq, rfl, hof⟩
    all_goals exact h
  case awaitHead =>
    rcases r with (e | m) | _ | _
    case ready.ok => exact ⟨_, rfl, h⟩
    all_goals exact h
  case awaitBody =>
    cases r with
    | ready ev => exact ⟨h.1, fun r hr => ⟨_, rfl, h.2 r hr⟩⟩
    | timeout => exact trivial
    | dropped => exact trivial
  case hedge => cases r <;> exact h
  case sendGet => exact h
  case sendHead => exact h
  all_goals exact trivial

/-- The ghost state of a read whose stream has just been opened. -/
def openedRead (ns : NamespaceState) (object : Bytes) (request : ReadRange) (policy : FetchPolicy)
    (range : Range) (m : Option ObjectMeta) : Held :=
  { Held.start (.get ns object request policy) with seen := ⟨some (range, m), [], false, false,
    false, false⟩ }

section

variable {object : Bytes} {m : Option ObjectMeta} {policy : FetchPolicy} {request : ReadRange} {range : Range}
  {fetched : List SlotHandle}

theorem readTerms_running : (readTerms origin ns).Running := ⟨trivial, fun _ => id, rfl⟩

variable (hsized : m = none → 0 < ns.config.fetchWindow ∨ ns.config.consistency.isImmutable)
    (hm : ∀ known, m = some known → (origin ns.name object).Names known)
    (hrange : readRange (ReadCtx.new ns ⟨ns.id, object⟩ object m policy) request = some (.ok range))
    (hfetched : (servedLaw origin ns).HandlesFrom (ReadCtx.new ns ⟨ns.id, object⟩ object m policy)
      (ns.config.blockSize.index range.start) fetched)
include hsized hm hrange hfetched

theorem Reader.new_ok : (readTerms origin ns).ReaderOk (openedRead ns object request policy range m)
      (Reader.new request (ReadCtx.new ns ⟨ns.id, object⟩ object m policy) range fetched)
      (Reader.new request (ReadCtx.new ns ⟨ns.id, object⟩ object m policy) range fetched).emit := by
  let ctx := ReadCtx.new ns ⟨ns.id, object⟩ object m policy
  have hgives : request.Gives ctx.meta range := .of_readRange hrange
  have hctx : (soleUniverse origin ns).CtxOk ctx :=
    ⟨⟨rfl, ⟨rfl, rfl⟩, fun _ => trivial⟩, rfl, rfl, fun known hk => ⟨_, rfl, hm known hk⟩, fun _ => trivial⟩
  refine .fresh hgives hctx ?_ ⟨policy, rfl⟩ rfl hsized rfl rfl rfl rfl rfl
    ⟨hctx.tag_right, absurd trivial, absurd trivial⟩ (absurd trivial) ⟨rfl, rfl⟩ rfl
  change (servedLaw origin ns).HandlesFrom ctx (ns.config.blockSize.blocks range).start fetched
  rwa [BlockSize.blocks_eq _ hgives.shape]

/-- A reader whose windows let it go on yields its range as a whole, if its stream ends without an
error. -/
theorem Reader.stream_whole {fuel rounds : Nat} {tr : Trace} (hwindows : ns.config.Windowed)
    (hsize : (origin ns.name object).data.length ≤ maxU32 * ns.config.blockSize.bytes)
    (hinside : m = none → range.start < (origin ns.name object).data.length)
    (hrun : Runs ((Reader.new request (ReadCtx.new ns ⟨ns.id, object⟩ object m policy) range fetched).stream
      fuel rounds) tr (pure ()))
    (hans : ∀ d ∈ tr, Serves origin ns d.1 d.2) (hok : yieldedError tr = false) :
    yieldedBytes tr = slice (origin ns.name object).data range.start
      (min range.stop (origin ns.name object).data.length) := by
  have hreader := Reader.new_ok hsized hm hrange hfetched
  obtain ⟨-, -, hends⟩ := wp_runs_of rely_of_serves (stream_wp readTerms_running (.inl hreader)) hrun hans
  obtain ⟨hout, hfailed, -⟩ :=
    (readTerms origin ns).ghost_seen (openedRead ns object request policy range m) tr
  obtain ⟨ns', object', request', policy', tag, htask, hbound, hwhole⟩ := hends (hfailed.trans hok)
  rw [Terms.ghost_task] at htask
  cases htask
  have hmatches : (servedLaw origin ns).Matches ns.id tag (origin ns.name object) := by
    rcases hbound.right with h | ⟨v, rfl, h⟩
    · exact .inl h
    · exact .inr h
  obtain ⟨resolved, hres⟩ := readRange_resolve hrange (fun known hk => (hm known hk).1) hinside
  have hgives : request.Gives (ReadCtx.new ns ⟨ns.id, object⟩ object m policy).meta range :=
    .of_readRange hrange
  obtain ⟨hstart, hstop⟩ := hgives.asked _ (fun known hk => (hm known hk).1) resolved hres
  rw [← hstart, ← hstop]
  exact hout.symm.trans (hwhole hwindows servedLaw_coherent _ rfl hmatches hsize resolved hres)

end

/-- A reader of an object that does not change, with the range `get_opts` gives it and handles of
the first blocks: if its stream ends without an error, its chunks are the bytes of the range, in
order. -/
theorem Reader.stream_exact (origin : Bytes → Bytes → Version) (ns : NamespaceState) (object : Bytes)
    (m : Option ObjectMeta) (policy : FetchPolicy) (request : ReadRange) (range : Range)
    (fetched : List SlotHandle) (fuel rounds : Nat) (tr : Trace)
    (hfetch : 0 < ns.config.fetchWindow) (hread : 0 < ns.config.readWindow)
    (hsize : (origin ns.name object).data.length ≤ maxU32 * ns.config.blockSize.bytes)
    (hm : ∀ known, m = some known → (origin ns.name object).Names known)
    (hrange : readRange (ReadCtx.new ns ⟨ns.id, object⟩ object m policy) request = some (.ok range))
    (hinside : m = none → range.start < (origin ns.name object).data.length)
    (hfetched : (servedLaw origin ns).HandlesFrom (ReadCtx.new ns ⟨ns.id, object⟩ object m policy)
      (ns.config.blockSize.index range.start) fetched)
    (hrun : Runs ((Reader.new request (ReadCtx.new ns ⟨ns.id, object⟩ object m policy) range fetched).stream
      fuel rounds) tr (pure ()))
    (hans : ∀ d ∈ tr, Serves origin ns d.1 d.2) (hok : yieldedError tr = false) :
    yieldedBytes tr = slice (origin ns.name object).data range.start
      (min range.stop (origin ns.name object).data.length) := by
  exact Reader.stream_whole (fun _ => .inl hfetch) hm hrange hfetched ⟨hread, fun _ => hfetch⟩ hsize
    hinside hrun hans hok

end

section

open Sample

/-- Answers to a reader whose blocks are being fetched by somebody else. -/
def fetchedAnswers : Strategy Op Resp := fun tr o =>
  match o with
  | .blocksGet (_ :: _) => some (.ready (0, none))
  | .wait slot =>
      if slot.key.namespace = sampleNamespace.id ∧ slot.key.tag = immutableTag then
        some (.ok ⟨⟨3, some [9], none⟩, blockOf sampleNamespace.config.blockSize [1, 2, 3] slot.key.index⟩)
      else some (.error .cancelled)
  | o => promptAnswers tr o

theorem serves_fetchedAnswers {tr : Trace} {o : Op} {r : Resp o}
    (h : fetchedAnswers tr o = some r) : Serves sampleOrigin sampleNamespace o r := by
  cases o
  case blocksGet keys => cases keys <;> cases h <;> exact trivial
  case wait slot =>
    unfold fetchedAnswers at h
    dsimp only at h
    split at h
    · rename_i hkey
      cases h
      exact ⟨⟨hkey.1, by simp only [sampleOrigin]; decide, rfl⟩, .inl hkey.2⟩
    · cases h
      exact trivial
  case metaLookup => cases h; exact trivial
  case metaAny => cases h; exact trivial
  all_goals
    have hprompt : promptAnswers tr _ = some r := h
    exact (delivers_promptAnswers hprompt : Delivers sampleOrigin [] _ r)

/-- The read of the last two bytes. -/
def sampleRead : Trace × Program Unit :=
  ((Reader.new (.bounded ⟨1, 3⟩) (ReadCtx.new sampleNamespace ⟨sampleNamespace.id, [111]⟩ [111] none
    FetchPolicy.default) ⟨1, 3⟩ []).stream 3 3).follow fetchedAnswers []

theorem Reader.stream_exact_fetched : sampleRead.2 = pure () ∧ yieldedBytes sampleRead.1 = [2, 3] := by
  obtain ⟨tr, htr, hrun, hans, -⟩ := Prog.follow_runs fetchedAnswers [] ((Reader.new (.bounded ⟨1, 3⟩)
    (ReadCtx.new sampleNamespace ⟨sampleNamespace.id, [111]⟩ [111] none FetchPolicy.default) ⟨1, 3⟩ []).stream
    3 3)
  have htr : sampleRead.1 = tr := htr
  have hend : sampleRead.2 = pure () := rfl
  have hrun : Runs _ tr sampleRead.2 := hrun
  rw [hend] at hrun
  refine ⟨hend, htr ▸ ?_⟩
  refine Reader.stream_exact sampleOrigin sampleNamespace [111] none FetchPolicy.default (.bounded ⟨1, 3⟩)
    ⟨1, 3⟩ [] 3 3 tr (by decide) (by decide) (by decide) nofun rfl (fun _ => by decide) trivial hrun
      (fun d hd => ?_) (htr ▸ by decide)
  obtain ⟨before, he⟩ := hans d hd
  exact serves_fetchedAnswers he

end

end Nestor
