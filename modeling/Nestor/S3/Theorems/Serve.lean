import Nestor.S3.Routes

/-!
# What is served with fresh metadata
-/

namespace Nestor.S3

open Lib

/-- The metadata of the object is in the cache, and fresh. -/
def FreshAnswers (key : ObjectKey) (m : ObjectMeta) : (o : Op) → Resp o → Prop
  | .metaLookup k _, found => k = key → found = .fresh m
  | _, _ => True

section

variable {ns : NamespaceState} {object : Bytes} {m : ObjectMeta}

theorem headMeta_fresh (fuel : Nat) :
    (headMeta fuel ns object).Ends (FreshAnswers ⟨ns.id, object⟩ m) (· = .ok m) := by
  refine ⟨⟨.fresh m, fun _ => rfl⟩, fun found hf => ?_⟩
  cases hf rfl
  rfl

theorem resolveCtx_fresh [TagHash] (fuel : Nat) (request : ReadRange) (policy : FetchPolicy) :
    (resolveCtx fuel ns object request policy).Ends (FreshAnswers ⟨ns.id, object⟩ m)
      (· = .ok (ReadCtx.new ns ⟨ns.id, object⟩ object (some m) policy, [])) := by
  refine ⟨⟨.fresh m, fun _ => rfl⟩, fun found hf => ?_⟩
  cases hf rfl
  rfl

/-- The stream of a range that resolves, with the metadata in its cell. -/
def freshStream [TagHash] (ns : NamespaceState) (object : Bytes) (m : ObjectMeta) (request : ReadRange)
    (policy : FetchPolicy) (range : Range) : ReadStream :=
  ⟨Reader.new request (ReadCtx.new ns ⟨ns.id, object⟩ object (some m) policy) range [], range, none⟩

theorem spawnReadahead_fresh (ctx : ReadCtx) (range : Range) {key : ObjectKey} :
    (spawnReadahead ns ctx range).Ends (FreshAnswers key m) fun _ => True := by
  unfold spawnReadahead
  dsimp only
  split
  · trivial
  · exact ⟨⟨(), trivial⟩, fun _ _ => trivial⟩

theorem openStream_fresh [TagHash] (fuel : Nat) (request : ReadRange) (policy : FetchPolicy) :
    (openStream fuel ns object request policy).Ends (FreshAnswers ⟨ns.id, object⟩ m)
      (· = (request.resolve m.size).map (freshStream ns object m request policy)) := by
  refine Prog.Ends.bind (resolveCtx_fresh fuel request policy) ?_
  rintro _ rfl
  have hrange : readRange (ReadCtx.new ns ⟨ns.id, object⟩ object (some m) policy) request =
      some (request.resolve m.size) := rfl
  simp only [hrange]
  cases request.resolve m.size with
  | error e => rfl
  | ok range =>
      dsimp only
      split
      · refine ⟨⟨true, trivial⟩, fun sequential _ => ?_⟩
        cases sequential with
        | false => rfl
        | true =>
            exact Prog.Ends.bind (p := spawnReadahead ns _ range) (spawnReadahead_fresh _ range)
              fun _ _ => rfl
      · rfl

theorem ready_fresh [TagHash] (fuel : Nat) (request : ReadRange) (policy : FetchPolicy) (range : Range) :
    (freshStream ns object m request policy range).ready fuel =
      pure (freshStream ns object m request policy range, .ok m) := rfl

end

theorem resolve_error {request : ReadRange} {size : Nat} {e : NestorError}
    (h : request.resolve size = .error e) :
    ∃ range, e = .range range size := by
  cases request with
  | full => cases h
  | bounded r =>
      simp only [ReadRange.resolve] at h
      split at h
      · cases h
        exact ⟨_, rfl⟩
      · cases h
  | «from» start =>
      simp only [ReadRange.resolve] at h
      split at h
      · cases h
        exact ⟨_, rfl⟩
      · cases h
  | suffix len =>
      simp only [ReadRange.resolve] at h
      split at h
      · cases h
        exact ⟨_, rfl⟩
      · cases h

section

variable [HttpDates] {ns : NamespaceState} {headers : HeaderMap} {key : Bytes} {m : ObjectMeta}

/-- What GET answers: an unsatisfiable range comes first. -/
def getResponse (headers : HeaderMap) (key : Bytes) (m : ObjectMeta) : Except S3Error Response :=
  match ((parseRange headers).getD .full).resolve m.size with
  | .error _ => .ok (unsatisfiable key m.size)
  | .ok _ => respond headers key m .stream

theorem serveGet_fresh [TagHash] [Humantime] (fuel : Nat) (text : S3Error.ErrorText)
    (hfetch : headers.get .xNestorFetch = none) :
    (serveGet fuel text ns headers key).Ends (FreshAnswers ⟨ns.id, key⟩ m) fun served =>
      served.map (·.1) = getResponse headers key m := by
  have hoverrides : fetchOverrides headers = .ok .default := by rw [fetchOverrides, hfetch]
  simp only [serveGet, hoverrides]
  refine Prog.Ends.bind (openStream_fresh fuel _ _) ?_
  rintro _ rfl
  unfold getResponse
  cases hr : ((parseRange headers).getD .full).resolve m.size with
  | error e =>
      obtain ⟨range, rfl⟩ := resolve_error hr
      rfl
  | ok range =>
      simp only [Except.map, ready_fresh]
      change Except.map (·.1) (Except.map (·, some _) (respond headers key m .stream)) = _
      cases respond headers key m .stream <;> rfl

theorem serveHead_fresh (fuel : Nat) (text : S3Error.ErrorText) :
    (serveHead fuel text ns headers key).Ends (FreshAnswers ⟨ns.id, key⟩ m) fun served =>
      served.map (·.1) = respond headers key m .empty := by
  refine Prog.Ends.bind (headMeta_fresh fuel) ?_
  rintro _ rfl
  change Except.map (·.1) (Except.map (·, none) (respond headers key m .empty)) = _
  cases respond headers key m .empty <;> rfl

theorem agree_iff :
    ((handled (getResponse headers key m)).status = (handled (respond headers key m .empty)).status ∧
      (handled (getResponse headers key m)).headers = (handled (respond headers key m .empty)).headers) ↔
    (∃ range, ((parseRange headers).getD .full).resolve m.size = .ok range) ∨
      (preconditions headers).evaluate m = .satisfied := by
  unfold getResponse respond
  cases hr : ((parseRange headers).getD .full).resolve m.size with
  | ok range =>
      cases (preconditions headers).evaluate m <;> simp [handled, hr]
  | error e =>
      have hstatus : (unsatisfiable key m.size).status = 416 := by
        unfold unsatisfiable
        dsimp only
        split <;> rfl
      cases (preconditions headers).evaluate m with
      | satisfied => simp [hr]
      | notModified => simp [handled, hstatus]
      | failed =>
          have hfailed : (S3Error.preconditionFailed key).intoResponse.status = 412 := rfl
          simp [handled, hstatus, hfailed]

/-- With fresh metadata, GET and HEAD answer with the same status and headers if the range can be
satisfied or the preconditions hold. Otherwise GET reports the range and HEAD the precondition. -/
theorem get_head_agree [TagHash] [Humantime] {namespaces : Namespaces} {bucket : Bytes}
    {uri : Uri} (fuel : Nat) (text : S3Error.ErrorText) (hns : namespaces bucket = .ok ns)
    (hfetch : headers.get .xNestorFetch = none) :
    ∃ get head : Response,
      (serve fuel text namespaces ⟨.get, uri, headers⟩ ⟨some bucket, some key⟩).Ends
        (FreshAnswers ⟨ns.id, key⟩ m) (fun served => served.map (fun s => handled (s.map (·.1))) = some get) ∧
      (serve fuel text namespaces ⟨.head, uri, headers⟩ ⟨some bucket, some key⟩).Ends
        (FreshAnswers ⟨ns.id, key⟩ m)
        (fun served => served.map (fun s => handled (s.map (·.1))) = some head) ∧
      (get.status = head.status ∧ get.headers = head.headers ↔
        (∃ range, ((parseRange headers).getD .full).resolve m.size = .ok range) ∨
          (preconditions headers).evaluate m = .satisfied) := by
  refine ⟨handled (getResponse headers key m), handled (respond headers key m .empty), ?_, ?_, agree_iff⟩
  · have hget : Method.get ≠ .head := by decide
    simp only [serve, hns, if_neg hget]
    refine Prog.Ends.bind (serveGet_fresh fuel text hfetch) fun served hs => ?_
    change (some served).map _ = _
    rw [Option.map_some, hs]
  · simp only [serve, hns, if_pos]
    refine Prog.Ends.bind (serveHead_fresh fuel text) fun served hs => ?_
    change (some served).map _ = _
    rw [Option.map_some, hs]

end

/-- Dates are not written, and not understood. -/
abbrev noDates : HttpDates := ⟨fun _ => ⟨[], List.forall_mem_nil _⟩, fun _ => none⟩

/-- No duration is understood. -/
abbrev noDurations : Humantime := ⟨fun _ => none⟩

def sampleMeta : ObjectMeta := ⟨10, some (ascii "\"e\""), none⟩

/-- A conditional request for a part. -/
def conditionalHeaders (range : HeaderValue) : HeaderMap :=
  [(.range, range), (.ifNoneMatch, ⟨ascii "*", by decide⟩)]

section

open Sample

def servedNs : NamespaceState := ⟨0, ascii "bucket", .default⟩

/-- Serves `/bucket/k`. -/
def serveSample (method : Method) (headers : HeaderMap) : Program (Option Served) :=
  @serve _ noDates noDurations 1 ⟨fun _ => [], fun _ => []⟩ (fun _ => .ok servedNs) ⟨method,
    ⟨none, ascii "/bucket/k", none⟩, headers⟩ ⟨some (ascii "bucket"), some (ascii "k")⟩

def freshStrategy (m : ObjectMeta) : Strategy Op Resp := fun _ o =>
  match o with
  | .metaLookup _ _ => some (.fresh m)
  | .readaheadObserve _ _ => some false
  | _ => none

/-- The status of the answer, with fresh metadata. -/
def statusSample (method : Method) (headers : HeaderMap) : Option Nat :=
  match ((serveSample method headers).follow (freshStrategy sampleMeta) []).2 with
  | .pure (some served) => some (handled (served.map (·.1))).status
  | _ => none

theorem get_head_agree_unsatisfiable :
    statusSample .get (conditionalHeaders ⟨ascii "bytes=10-", by decide⟩) = some 416 ∧
      statusSample .head (conditionalHeaders ⟨ascii "bytes=10-", by decide⟩) = some 304 := by
  decide

theorem get_head_agree_satisfiable :
    let headers := conditionalHeaders ⟨ascii "bytes=5-", by decide⟩
    ∃ get head : Response,
      (serveSample .get headers).Ends (FreshAnswers ⟨0, ascii "k"⟩ sampleMeta)
        (fun served => served.map (fun s => handled (s.map (·.1))) = some get) ∧
      (serveSample .head headers).Ends (FreshAnswers ⟨0, ascii "k"⟩ sampleMeta)
        (fun served => served.map (fun s => handled (s.map (·.1))) = some head) ∧
      get.status = head.status ∧ get.headers = head.headers := by
  intro headers
  obtain ⟨get, head, hget, hhead, hagree⟩ := @get_head_agree noDates servedNs headers (ascii "k") sampleMeta _
    noDurations (fun _ => .ok servedNs) (ascii "bucket") ⟨none, ascii "/bucket/k", none⟩ 1
    ⟨fun _ => [], fun _ => []⟩ rfl (by decide)
  refine ⟨get, head, hget, hhead, hagree.mpr (.inl ⟨⟨5, 10⟩, ?_⟩)⟩
  have hrange : parseRange headers = some (.from 5) := by decide
  rw [hrange]
  rfl

end

end Nestor.S3
