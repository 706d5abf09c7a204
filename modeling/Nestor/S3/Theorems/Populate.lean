import Nestor.Lib.Runs
import Nestor.S3.Body
import Nestor.S3.Routes

/-!
# Population of the cache by writes

What a write has captured is what the origin has pulled of its body when the response arrives,
unless that is more than the limit. It is the whole body exactly if nothing of the body is left by
then.
-/

namespace Nestor.S3

open Lib

/-! ## What a body yields -/

/-- The stream yields the bytes and ends without an error. -/
inductive RequestBody.Gives : RequestBody → Bytes → Prop
  | ended {b : RequestBody} : b.turn = none → Gives b []
  | quiet {b b' : RequestBody} {data : Bytes} : b.turn = some (none, b') → Gives b' data → Gives b data
  | chunk {b b' : RequestBody} {chunk data : Bytes} : b.turn = some (some (.ok chunk), b') → Gives b' data →
      Gives b (chunk ++ data)

namespace RequestBody

variable {b b' : RequestBody} {data : Bytes}

theorem gives_quiet (h : b.turn = some (none, b')) : b.Gives data ↔ b'.Gives data := by
  constructor
  · intro hg
    cases hg with
    | ended h' => rw [h] at h'; cases h'
    | quiet h' hg =>
        rw [h] at h'
        cases h'
        exact hg
    | chunk h' _ => rw [h] at h'; cases h'
  · exact .quiet h

theorem gives_chunk {chunk : Bytes} (h : b.turn = some (some (.ok chunk), b')) :
    b.Gives data ↔ ∃ rest, b'.Gives rest ∧ data = chunk ++ rest := by
  constructor
  · intro hg
    cases hg with
    | ended h' => rw [h] at h'; cases h'
    | quiet h' _ => rw [h] at h'; cases h'
    | chunk h' hg =>
        rw [h] at h'
        cases h'
        exact ⟨_, hg, rfl⟩
  · rintro ⟨rest, hg, rfl⟩
    exact .chunk h hg

theorem not_gives_error {e : BodyError} (h : b.turn = some (some (.error e), b')) : ¬ b.Gives data := by
  intro hg
  cases hg with
  | ended h' => rw [h] at h'; cases h'
  | quiet h' _ => rw [h] at h'; cases h'
  | chunk h' _ => rw [h] at h'; cases h'

/-- A stream yields one sequence of bytes. -/
theorem Gives.unique {data' : Bytes} (h : b.Gives data) (h' : b.Gives data') : data = data' := by
  induction h generalizing data' with
  | ended hturn =>
      cases h' with
      | ended _ => rfl
      | quiet h _ => rw [hturn] at h; cases h
      | chunk h _ => rw [hturn] at h; cases h
  | quiet hturn _ ih => exact ih ((gives_quiet hturn).mp h')
  | chunk hturn _ ih =>
      obtain ⟨rest, hrest, rfl⟩ := (gives_chunk hturn).mp h'
      rw [ih hrest]

end RequestBody

/-! ## What has been pulled -/

/-- The bytes of the chunks among the items. -/
def chunkBytes (items : List Chunk) : Bytes :=
  items.flatMap fun
    | .ok chunk => chunk
    | .error _ => []

theorem chunkBytes_snoc (items : List Chunk) (item : Chunk) :
    chunkBytes (items ++ [item]) = chunkBytes items ++ chunkBytes [item] := List.flatMap_append

theorem chunkBytes_ok (chunk : Bytes) : chunkBytes [.ok chunk] = chunk := List.append_nil chunk

/-- Nothing but the end is left of the body, and there was no error. -/
def Upload.Finished (u : Upload) : Prop := (∀ e, .error e ∉ u.pulled) ∧ u.body.Gives []

/-- The capture holds what has been pulled, up to the limit. -/
structure Captured.Holds (c : Captured) (limit : Nat) (data : Bytes) : Prop where
  overflow : c.overflow = true ↔ limit < data.length
  chunks : c.overflow = false → c.chunks.flatten = data ∧ c.len = data.length

theorem Captured.Holds.push {c : Captured} {limit : Nat} {data : Bytes} (h : c.Holds limit data)
    (chunk : Bytes) :
    (c.push limit chunk).Holds limit (data ++ chunk) := by
  unfold Captured.push
  rw [apply_ite (Holds · limit (data ++ chunk))]
  split
  · rename_i hover
    have hlt := h.overflow.mp hover
    refine ⟨iff_of_true hover ?_, fun hno => absurd hover (by simp [hno])⟩
    rw [List.length_append]
    omega
  · rename_i hover
    rw [Bool.not_eq_true] at hover
    obtain ⟨hchunks, hlen⟩ := h.chunks hover
    rw [apply_ite (Holds · limit (data ++ chunk)), hlen, ← List.length_append]
    split
    · rename_i hlt
      exact ⟨iff_of_true rfl hlt, fun hno => nomatch hno⟩
    · rename_i hlt
      refine ⟨⟨fun hno => ?_, fun hgt => absurd hgt hlt⟩, fun _ => ⟨?_, rfl⟩⟩
      · rw [hover] at hno
        cases hno
      · rw [List.flatten_append, hchunks, List.flatten_singleton]

theorem Captured.Holds.take {c : Captured} {limit : Nat} {data : Bytes} (h : c.Holds limit data) :
    c.take = if limit < data.length then none else some data := by
  unfold Captured.take
  cases hover : c.overflow with
  | true =>
      rw [if_pos (h.overflow.mp hover)]
      rfl
  | false =>
      rw [if_neg fun hlt => absurd (h.overflow.mpr hlt) (by simp [hover]), (h.chunks hover).1]
      rfl

/-- Where a request is that has been sent in part: the body it was made with yields what has been
pulled and what is left. -/
structure Upload.Sent (start : RequestBody) (limit : Nat) (u : Upload) : Prop where
  gives : ∀ data, start.Gives data ↔
    (∀ e, .error e ∉ u.pulled) ∧ ∃ rest, u.body.Gives rest ∧ data = chunkBytes u.pulled ++ rest
  captured : u.captured.Holds limit (chunkBytes u.pulled)

theorem Upload.sent_new (streaming : Bool) (items : List Chunk) (limit : Nat) :
    (Upload.new streaming items).Sent (.new streaming items) limit where
  gives := by
    intro data
    constructor
    · intro h
      exact ⟨fun e => List.not_mem_nil, data, h, rfl⟩
    · rintro ⟨-, rest, h, rfl⟩
      exact h
  captured := ⟨iff_of_false Bool.false_ne_true (Nat.not_lt_zero limit), fun _ => ⟨rfl, rfl⟩⟩

theorem Upload.Sent.step {start : RequestBody} {limit : Nat} {u u' : Upload} (h : u.Sent start limit)
    (hstep : u.step limit = some u') : u'.Sent start limit := by
  unfold Upload.step at hstep
  split at hstep
  · cases hstep
  · rename_i body hturn
    cases hstep
    refine ⟨fun data => (h.gives data).trans ?_, h.captured⟩
    simp only [RequestBody.gives_quiet hturn]
  · rename_i item body hturn
    cases hstep
    cases item with
    | error e =>
        refine ⟨fun data => (h.gives data).trans (iff_of_false ?_ ?_), ?_⟩
        · rintro ⟨-, rest, hg, -⟩
          exact RequestBody.not_gives_error hturn hg
        · rintro ⟨hno, -⟩
          exact hno e (List.mem_append_right _ (List.mem_singleton_self _))
        · change u.captured.Holds limit (chunkBytes (u.pulled ++ [.error e]))
          rw [chunkBytes_snoc]
          exact (List.append_nil (chunkBytes u.pulled)).symm ▸ h.captured
    | ok chunk =>
        refine ⟨fun data => (h.gives data).trans ?_, ?_⟩
        · have hno : (∀ e, .error e ∉ u.pulled ++ [.ok chunk]) ↔ ∀ e, .error e ∉ u.pulled := by simp
          have hbytes : chunkBytes (u.pulled ++ [.ok chunk]) = chunkBytes u.pulled ++ chunk := by
            rw [chunkBytes_snoc, chunkBytes_ok]
          change _ ↔ (∀ e, .error e ∉ u.pulled ++ [.ok chunk]) ∧
            ∃ rest, body.Gives rest ∧ data = chunkBytes (u.pulled ++ [.ok chunk]) ++ rest
          rw [hno, hbytes]
          refine and_congr_right fun _ => ⟨?_, ?_⟩
          · rintro ⟨rest, hg, rfl⟩
            obtain ⟨rest', hg', rfl⟩ := (RequestBody.gives_chunk hturn).mp hg
            exact ⟨rest', hg', (List.append_assoc ..).symm⟩
          · rintro ⟨rest, hg, rfl⟩
            exact ⟨chunk ++ rest, (RequestBody.gives_chunk hturn).mpr ⟨rest, hg, rfl⟩, List.append_assoc ..⟩
        · change (u.captured.push limit chunk).Holds limit (chunkBytes (u.pulled ++ [.ok chunk]))
          rw [chunkBytes_snoc, chunkBytes_ok]
          exact h.captured.push chunk

/-! ## What is inserted -/

/-- What has been pulled is the whole body exactly if the request is finished. -/
theorem Upload.Sent.gives_pulled {start : RequestBody} {limit : Nat} {u : Upload} (h : u.Sent start limit) :
    start.Gives (chunkBytes u.pulled) ↔ u.Finished := by
  rw [h.gives]
  refine and_congr_right fun _ => ⟨?_, fun hg => ⟨[], hg, (List.append_nil _).symm⟩⟩
  rintro ⟨rest, hg, he⟩
  rwa [List.self_eq_append_right.mp he] at hg

/-- The data a list of updates inserts. -/
def Inserts (updates : List CacheUpdate) (data : Bytes) : Prop :=
  ∃ ns key etag, .insert ns key etag data ∈ updates

/-- Everything inserted is the whole body and within the limit, and a body over the limit is not
inserted. -/
def PopulatesWhole (start : RequestBody) (limit : Nat) (updates : List CacheUpdate) : Prop :=
  (∀ data, Inserts updates data → start.Gives data ∧ data.length ≤ limit) ∧
    ∀ whole, start.Gives whole → limit < whole.length → ∀ data, ¬ Inserts updates data

theorem inserts_put (ns : NamespaceState) (bucket key : Bytes) (response : Response) (captured : Option Bytes)
    (size : Option Nat) (data : Bytes) :
    Inserts (.invalidate ns key :: (captured.toList.map (populate ns key response) ++
      size.toList.map (.written bucket key))) data ↔ captured = some data := by
  constructor
  · rintro ⟨ns', key', etag, hin⟩
    rcases List.mem_cons.mp hin with h | hin
    · cases h
    rcases List.mem_append.mp hin with hin | hin
    · obtain ⟨data', hdata, h⟩ := List.mem_map.mp hin
      cases h
      exact Option.mem_toList.mp hdata
    · obtain ⟨_, -, h⟩ := List.mem_map.mp hin
      cases h
  · rintro rfl
    exact ⟨ns, key, _, List.mem_cons_of_mem _ (List.mem_append_left _ (List.mem_singleton_self _))⟩

section

variable [XmlReader] {namespaces : Namespaces} {limit : Nat} {req : Request} {target : Target}
  {rawQuery bucket key : Bytes} {ns : NamespaceState} {response : Response}

/-- A write of an object that succeeds inserts what was captured. -/
theorem forward_put (hput : classify req.method target rawQuery false = .putObject)
    (hcopy : req.headers.containsKey .xAmzCopySource = false) (hbucket : target.bucket = some bucket)
    (hkey : target.key = some key) (hns : namespaces bucket = .ok ns) (hok : isSuccess response.status = true)
    (captured : Option Bytes) :
    forward namespaces (some limit) req target rawQuery (.ok ⟨response, captured⟩) = some (.ok response,
      .invalidate ns key :: (captured.toList.map (populate ns key response) ++
        (payloadSize req.headers).toList.map (.written bucket key))) := by
  unfold forward
  simp [hcopy, hput, hok, hbucket, hns, hkey, captureLimit, mutationUpdates]

end

/-- A write of an object that succeeds populates the cache with whole bodies only, exactly if at the
time of the response the origin has pulled the whole body, or more of it than the limit. -/
theorem forward_populates_iff [XmlReader] (namespaces : Namespaces) (limit : Nat) (req : Request)
    (target : Target) (rawQuery bucket key : Bytes) (ns : NamespaceState) (response : Response)
    (items : List Chunk) (n : Nat) (u : Upload) (result : Except S3Error Response)
    (updates : List CacheUpdate) (hput : classify req.method target rawQuery false = .putObject)
    (hcopy : req.headers.containsKey .xAmzCopySource = false) (hbucket : target.bucket = some bucket)
    (hkey : target.key = some key) (hns : namespaces bucket = .ok ns) (hok : isSuccess response.status = true)
    (hsent : Lib.turns (Upload.step limit) n (.new (isStreaming req.headers) items) = some u)
    (hforward : forward namespaces (some limit) req target rawQuery (.ok ⟨response, u.captured.take⟩) =
      some (result, updates)) :
    PopulatesWhole (.new (isStreaming req.headers) items) limit updates ↔
      limit < (chunkBytes u.pulled).length ∨ u.Finished := by
  have hinv := turns_invariant (fun u u' h hstep => h.step hstep) hsent
    (Upload.sent_new (isStreaming req.headers) items limit)
  rw [forward_put hput hcopy hbucket hkey hns hok] at hforward
  have hinserts (data : Bytes) : Inserts updates data ↔
      (if limit < (chunkBytes u.pulled).length then none else some (chunkBytes u.pulled)) = some data := by
    rw [← (Prod.mk.inj (Option.some.inj hforward)).2, inserts_put, hinv.captured.take]
  by_cases hover : limit < (chunkBytes u.pulled).length
  · -- nothing was captured, so nothing is inserted
    refine iff_of_true ⟨fun data hin => ?_, fun whole _ _ data hin => ?_⟩ (.inl hover)
    · rw [hinserts, if_pos hover] at hin
      cases hin
    · rw [hinserts, if_pos hover] at hin
      cases hin
  · have hpulled : Inserts updates (chunkBytes u.pulled) := by rw [hinserts, if_neg hover]
    rw [or_iff_right hover, ← hinv.gives_pulled]
    refine ⟨fun h => (h.1 _ hpulled).1, fun hg => ⟨fun data hin => ?_, fun whole hwhole hlt => ?_⟩⟩
    · rw [hinserts, if_neg hover] at hin
      cases hin
      exact ⟨hg, Nat.le_of_not_lt hover⟩
    · rw [hwhole.unique hg] at hlt
      exact absurd hlt hover

/-! ## A response before the end of the body -/

section

def putTarget : Target := ⟨some (ascii "b"), some (ascii "k")⟩

def samplePut : Request := ⟨.put, ⟨none, ascii "/b/k", none⟩, []⟩

def sampleBucket : Namespaces := fun _ => .ok ⟨0, ascii "b", NamespaceConfig.default⟩

/-- A body of two chunks. -/
def sampleItems : List Chunk := [.ok [1], .ok [2]]

theorem sampleItems_gives : (RequestBody.new (isStreaming samplePut.headers) sampleItems).Gives
    ([1] ++ ([2] ++ [])) :=
  .chunk rfl (.chunk rfl (.quiet rfl (.ended rfl)))

/-- The origin answers when it has pulled the first of two chunks: that chunk is inserted as the
object. -/
theorem forward_populates_part :
    ∃ u updates, Lib.turns (Upload.step 16) 1 (.new (isStreaming samplePut.headers) sampleItems) = some u ∧
      @forward .blank sampleBucket (some 16) samplePut putTarget []
      (.ok ⟨⟨200, [], .empty⟩, u.captured.take⟩) =
        some (.ok ⟨200, [], .empty⟩, updates) ∧
      Inserts updates [1] ∧ (RequestBody.new (isStreaming samplePut.headers) sampleItems).Gives [1, 2] :=
  ⟨⟨⟨[.ok [2]], none, false⟩, [.ok [1]], ⟨[[1]], 1, false⟩⟩, _, rfl, rfl,
    ⟨_, _, _, List.mem_cons_of_mem _ (List.mem_singleton_self _)⟩, sampleItems_gives⟩

theorem forward_populates_all :
    ∃ u updates, Lib.turns (Upload.step 16) 2 (.new (isStreaming samplePut.headers) sampleItems) = some u ∧
      @forward .blank sampleBucket (some 16) samplePut putTarget []
      (.ok ⟨⟨200, [], .empty⟩, u.captured.take⟩) =
        some (.ok ⟨200, [], .empty⟩, updates) ∧
      PopulatesWhole (.new (isStreaming samplePut.headers) sampleItems) 16 updates := by
  let u : Upload := ⟨⟨[], none, false⟩, [.ok [1], .ok [2]], ⟨[[1], [2]], 2, false⟩⟩
  have hfinished : u.Finished := ⟨by simp [u], .quiet rfl (.ended rfl)⟩
  exact ⟨u, _, rfl, rfl, (@forward_populates_iff .blank sampleBucket 16 samplePut putTarget []
    (ascii "b") (ascii "k") ⟨0, ascii "b", NamespaceConfig.default⟩ ⟨200, [], .empty⟩ sampleItems 2 u _ _ rfl
    rfl rfl rfl rfl rfl rfl rfl).mpr
    (.inr hfinished)⟩

end

end Nestor.S3
