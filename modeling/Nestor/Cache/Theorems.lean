import Mathlib.Data.List.Induction
import Mathlib.Data.Set.Function
import Nestor.Cache.Blocks

/-!
# What is written under `reused`

The count of a key is its number of reads since it was removed, or at least two once a lookup has
found it on disk. The read that takes the count to two is the one that writes, so there is at most
one between two removals.
-/

namespace Nestor.Cache

variable {call : Call} {reads : Reads}

/-! ## The history of a key -/

/-- The reads of a key since it was last removed. -/
def readsSince (key : BlockKey) (calls : List Call) : Nat :=
  calls.foldl (fun n call => match call with
    | .recordRead k _ => if k = key then n + 1 else n
    | .remove k => if k = key then 0 else n
    | _ => n) 0

theorem readsSince_concat (key : BlockKey) (calls : List Call) (call : Call) :
    readsSince key (calls ++ [call]) = match call with
      | .recordRead k _ => if k = key then readsSince key calls + 1 else readsSince key calls
      | .remove k => if k = key then 0 else readsSince key calls
      | _ => readsSince key calls := List.foldl_append ..

variable [KeyHash]

/-- Since the key was last removed, a lookup has found it on disk. -/
def FoundOnDisk (key : BlockKey) (calls : List Call) : Prop :=
  ∃ before found after, calls = before ++ .get key (some found) :: after ∧
    ((Blocks.open (some .reused)).run before).memory key = none ∧ .remove key ∉ after

/-- The calls are about keys with distinct hashes, and no read count is evicted. -/
structure Distinct (keys : Set BlockKey) (calls : List Call) : Prop where
  hash : keys.InjOn KeyHash.hash
  mem : ∀ call ∈ calls, call.key ∈ keys
  counts : ∀ key, .evictCount key ∉ calls

variable {keys : Set BlockKey} {calls : List Call} {key : BlockKey}

theorem Distinct.of_append {calls' : List Call} (h : Distinct keys (calls ++ calls')) : Distinct keys calls :=
  ⟨h.hash, fun call hc => h.mem call (List.mem_append_left _ hc),
    fun k hk => h.counts k (List.mem_append_left _ hk)⟩

theorem Blocks.run_concat (blocks : Blocks) (calls : List Call) (call : Call) :
    blocks.run (calls ++ [call]) = (blocks.run calls).step call := List.foldl_append ..

/-- The last call is the lookup that finds the key, or it is not a removal and there was one
before. -/
theorem foundOnDisk_concat : FoundOnDisk key (calls ++ [call]) ↔
    (∃ found, call = .get key (some found) ∧ ((Blocks.open (some .reused)).run calls).memory key = none) ∨
      call ≠ .remove key ∧ FoundOnDisk key calls := by
  constructor
  · rintro ⟨before, found, after, heq, hmem, hno⟩
    rcases List.eq_nil_or_concat after with rfl | ⟨after, last, rfl⟩
    · obtain ⟨rfl, hcall⟩ := List.append_inj' heq rfl
      exact .inl ⟨found, List.singleton_inj.mp hcall, hmem⟩
    · rw [List.concat_eq_append] at heq hno
      rw [← List.cons_append, ← List.append_assoc] at heq
      obtain ⟨rfl, hcall⟩ := List.append_inj' heq rfl
      obtain rfl := List.singleton_inj.mp hcall
      rw [List.mem_append, not_or, List.mem_singleton] at hno
      exact .inr ⟨fun h => hno.2 h.symm, before, found, after, rfl, hmem, hno.1⟩
  · rintro (⟨found, rfl, hmem⟩ | ⟨hcall, before, found, after, rfl, hmem, hno⟩)
    · exact ⟨calls, found, [], rfl, hmem, List.not_mem_nil⟩
    · refine ⟨before, found, after ++ [call], by simp, hmem, ?_⟩
      rw [List.mem_append, not_or, List.mem_singleton]
      exact ⟨hno, fun h => hcall h.symm⟩

/-! ## Counts -/

/-- What the count of a key is, by its history. -/
structure CountOk (key : BlockKey) (calls : List Call) (count : Option Nat) : Prop where
  unseen : ¬ FoundOnDisk key calls →
    count = if readsSince key calls = 0 then none else some (min (readsSince key calls) 255)
  seen : FoundOnDisk key calls → ∃ n, 2 ≤ n ∧ count = some n

theorem CountOk.congr {count : Option Nat} {calls' : List Call} (h : CountOk key calls count)
    (hreads : readsSince key calls' = readsSince key calls)
    (hfound : FoundOnDisk key calls' ↔ FoundOnDisk key calls) :
    CountOk key calls' count := by
  refine ⟨fun hno => ?_, fun hf => h.seen (hfound.mp hf)⟩
  rw [hreads]
  exact h.unseen fun hf => hno (hfound.mpr hf)

theorem CountOk.record {hash : Nat} (h : CountOk key calls (reads hash)) :
    (reads.record hash).1 = reusedReads ↔ readsSince key calls = 1 ∧ ¬ FoundOnDisk key calls := by
  unfold Reads.record reusedReads
  by_cases hf : FoundOnDisk key calls
  · obtain ⟨n, hn, hcount⟩ := h.seen hf
    rw [hcount]
    dsimp only
    split <;> simp only [hf, not_true_eq_false, and_false, iff_false] <;> omega
  · rw [h.unseen hf]
    by_cases hzero : readsSince key calls = 0
    · simp [hzero]
    · rw [if_neg hzero]
      dsimp only
      split <;> simp only [hf, not_false_eq_true, and_true] <;> omega

theorem CountOk.read {hash : Nat} (h : CountOk key calls (reads hash)) (data : Data) :
    ∃ count, (reads.record hash).2 = Function.update reads hash count ∧
      CountOk key (calls ++ [.recordRead key data]) count := by
  have hreads : readsSince key (calls ++ [.recordRead key data]) = readsSince key calls + 1 := by
    simp [readsSince_concat]
  have hfound : FoundOnDisk key (calls ++ [.recordRead key data]) ↔ FoundOnDisk key calls := by
    simp [foundOnDisk_concat]
  by_cases hf : FoundOnDisk key calls
  · obtain ⟨n, hn, hcount⟩ := h.seen hf
    unfold Reads.record
    rw [hcount]
    dsimp only
    split
    · exact ⟨some (n + 1), rfl, fun hno => absurd (hfound.mpr hf) hno, fun _ => ⟨n + 1, by omega, rfl⟩⟩
    · exact ⟨some n, by rw [← hcount, Function.update_eq_self], fun hno => absurd (hfound.mpr hf) hno,
        fun _ => ⟨n, hn, rfl⟩⟩
  · have hcount := h.unseen hf
    have hok {count : Option Nat} (hc : count = some (min (readsSince key calls + 1) 255)) :
        CountOk key (calls ++ [.recordRead key data]) count := by
      refine ⟨fun _ => ?_, fun hyes => absurd (hfound.mp hyes) hf⟩
      rw [hreads, if_neg (Nat.succ_ne_zero _), hc]
    unfold Reads.record
    rw [hcount]
    by_cases hzero : readsSince key calls = 0
    · rw [if_pos hzero]
      exact ⟨some 1, rfl, hok (by rw [hzero]; rfl)⟩
    · rw [if_neg hzero] at hcount ⊢
      dsimp only
      split
      · exact ⟨_, rfl, hok (by congr 1; omega)⟩
      · refine ⟨reads hash, (Function.update_eq_self hash reads).symm, hok ?_⟩
        rw [hcount]
        congr 1
        omega

/-! ## One call -/

theorem history_of_ne (h : call.key ≠ key) :
    readsSince key (calls ++ [call]) = readsSince key calls ∧
      (FoundOnDisk key (calls ++ [call]) ↔ FoundOnDisk key calls) := by
  rw [readsSince_concat, foundOnDisk_concat]
  cases call <;> simp only [Call.key] at h <;> simp [h]

theorem step_count (hreads : ((Blocks.open (some .reused)).run calls).reads = some reads)
    (h : CountOk call.key calls (reads (KeyHash.hash call.key))) (hcall : ∀ key, call ≠ .evictCount key) :
    ∃ count, (((Blocks.open (some .reused)).run calls).step call).reads =
        some (Function.update reads (KeyHash.hash call.key) count) ∧
        CountOk call.key (calls ++ [call]) count := by
  have hsame : some reads = some (Function.update reads (KeyHash.hash call.key)
      (reads (KeyHash.hash call.key))) := by
    rw [Function.update_eq_self]
  generalize hblocks : (Blocks.open (some .reused)).run calls = blocks at hreads ⊢
  cases call with
  | get key onDisk =>
      simp only [Call.key] at h hsame ⊢
      simp only [Blocks.step, Blocks.get]
      cases hmem : blocks.memory key with
      | some entry =>
          refine ⟨_, hreads.trans hsame, h.congr (readsSince_concat ..) ?_⟩
          simp [foundOnDisk_concat, hblocks, hmem]
      | none =>
          cases onDisk with
          | none =>
              refine ⟨_, hreads.trans hsame, h.congr (readsSince_concat ..) ?_⟩
              simp [foundOnDisk_concat]
          | some found =>
              have hfound : FoundOnDisk key (calls ++ [.get key (some found)]) :=
                foundOnDisk_concat.mpr (.inl ⟨found, rfl, by rw [hblocks, hmem]⟩)
              have hok {n : Nat} (hn : 2 ≤ n) : CountOk key (calls ++ [.get key (some found)]) (some n) :=
                ⟨fun hno => absurd hfound hno, fun _ => ⟨n, hn, rfl⟩⟩
              simp only [hreads, Option.map_some, Reads.keep, Option.some.injEq]
              cases reads (KeyHash.hash key) with
              | none => exact ⟨_, rfl, hok (Nat.le_refl 2)⟩
              | some n => exact ⟨_, rfl, hok (Nat.le_max_right n 2)⟩
  | insert key data =>
      refine ⟨_, hreads.trans hsame, h.congr (readsSince_concat ..) ?_⟩
      simp [foundOnDisk_concat]
  | recordRead key data =>
      obtain ⟨count, hrecord, hok⟩ := h.read data
      refine ⟨count, ?_, hok⟩
      simp only [Blocks.step, Blocks.recordRead, hreads, Call.key] at hrecord ⊢
      rw [← hrecord]
      split
      · rfl
      · split
        · rfl
        · split <;> rfl
  | remove key =>
      refine ⟨none, ?_, fun _ => ?_, fun hf => ?_⟩
      · simp [Blocks.step, Blocks.remove, hreads, Reads.forget, Call.key]
      · simp [readsSince_concat, Call.key]
      · simp [foundOnDisk_concat, Call.key] at hf
  | evict key =>
      refine ⟨_, ?_, h.congr (readsSince_concat ..) ?_⟩
      · refine Eq.trans ?_ (hreads.trans hsame)
        simp only [Blocks.step, Blocks.evict]
        split <;> rfl
      · simp [foundOnDisk_concat]
  | evictCount key => exact absurd rfl (hcall key)

/-! ## Runs -/

/-- The counts of the keys are right. -/
structure CountsOk (keys : Set BlockKey) (calls : List Call) (blocks : Blocks) : Prop where
  policy : blocks.policy = .writeOnInsertion
  counts : ∃ reads, blocks.reads = some reads ∧ ∀ key ∈ keys, CountOk key calls (reads (KeyHash.hash key))

theorem step_policy (blocks : Blocks) (call : Call) : (blocks.step call).policy = blocks.policy := by
  cases call
    <;> simp only [Blocks.step, Blocks.get, Blocks.insert, Blocks.recordRead, Blocks.remove, Blocks.evict,
    Blocks.evictCount]
  all_goals repeat' (first | rfl | split)

theorem countsOk_run (h : Distinct keys calls) :
    CountsOk keys calls ((Blocks.open (some .reused)).run calls) := by
  induction calls using List.reverseRecOn with
  | nil =>
      refine ⟨rfl, _, rfl, fun key _ => ⟨fun _ => rfl, ?_⟩⟩
      rintro ⟨before, found, after, heq, -⟩
      simp at heq
  | append_singleton calls call ih =>
      obtain ⟨hpolicy, reads, hreads, hcounts⟩ := ih h.of_append
      have hmem : call.key ∈ keys := h.mem call (by simp)
      obtain ⟨count, hstep, hok⟩ := step_count hreads (hcounts _ hmem) fun key hc => h.counts key
        (by simp [hc])
      rw [Blocks.run_concat]
      refine ⟨(step_policy _ _).trans hpolicy, _, hstep, fun key hkey => ?_⟩
      by_cases heq : call.key = key
      · subst heq
        rwa [Function.update_self]
      · rw [Function.update_of_ne fun hh => heq (h.hash hkey hmem hh).symm]
        exact (hcounts key hkey).congr (history_of_ne heq).1 (history_of_ne heq).2

/-- What the call hands to the disk is a block that RAM holds, for a read of that very block that
the count makes the second. -/
theorem step_enqueued {blocks : Blocks} (hpolicy : blocks.policy = .writeOnInsertion)
    (hreads : blocks.reads = some reads) (call : Call) :
    (∃ key data entry, call = .recordRead key data ∧ (reads.record (KeyHash.hash key)).1 = reusedReads ∧
        blocks.memory key = some entry ∧ entry.data.ptr = data.ptr ∧
        (blocks.step call).enqueued = blocks.enqueued ++ [(key, entry.data)]) ∨
    (¬ ∃ key data entry, call = .recordRead key data ∧ (reads.record (KeyHash.hash key)).1 = reusedReads ∧
        blocks.memory key = some entry ∧ entry.data.ptr = data.ptr) ∧
        (blocks.step call).enqueued = blocks.enqueued := by
  cases call with
  | recordRead key data =>
      simp only [Blocks.step, Blocks.recordRead, hreads]
      by_cases hcount : (reads.record (KeyHash.hash key)).1 = reusedReads
      · rw [if_neg (by simpa using hcount)]
        cases hmem : blocks.memory key with
        | none =>
            refine .inr ⟨?_, rfl⟩
            rintro ⟨_, _, entry, ⟨⟩, -, hentry, -⟩
            rw [hmem] at hentry
            cases hentry
        | some entry =>
            dsimp only
            by_cases hptr : entry.data.ptr = data.ptr
            · rw [if_neg (by simpa using hptr)]
              exact .inl ⟨key, data, entry, rfl, hcount, hmem, hptr, rfl⟩
            · rw [if_pos hptr]
              refine .inr ⟨?_, rfl⟩
              rintro ⟨_, _, entry', ⟨⟩, -, hentry, hptr'⟩
              rw [hmem] at hentry
              cases hentry
              exact hptr hptr'
      · rw [if_pos hcount]
        refine .inr ⟨?_, rfl⟩
        rintro ⟨_, _, _, ⟨⟩, hcount', -⟩
        exact hcount hcount'
  | get key onDisk =>
      refine .inr ⟨by simp, ?_⟩
      simp only [Blocks.step, Blocks.get]
      split
      · rfl
      · split <;> rfl
  | insert key data => exact .inr ⟨by simp, by simp [Blocks.step, Blocks.insert, hreads]⟩
  | remove key => exact .inr ⟨by simp, rfl⟩
  | evict key =>
      refine .inr ⟨by simp, ?_⟩
      simp only [Blocks.step, Blocks.evict]
      split
      · rfl
      · simp [hpolicy]
  | evictCount key => exact .inr ⟨by simp, rfl⟩

/-! ## Writes -/

/-- A call writes nothing, or it is the second read of a key since the key was removed, no lookup
has found the key on disk, and what is written is what RAM holds for it, which is the block that was
read. -/
theorem write_cases (h : Distinct keys (calls ++ [call])) :
    (∃ key data entry, call = .recordRead key data ∧ readsSince key calls = 1 ∧ ¬ FoundOnDisk key calls ∧
        ((Blocks.open (some .reused)).run calls).memory key = some entry ∧ entry.data.ptr = data.ptr ∧
        ((Blocks.open (some .reused)).run (calls ++ [call])).enqueued =
          ((Blocks.open (some .reused)).run calls).enqueued ++ [(key, entry.data)]) ∨
    (¬ ∃ key data entry, call = .recordRead key data ∧ readsSince key calls = 1 ∧ ¬ FoundOnDisk key calls ∧
        ((Blocks.open (some .reused)).run calls).memory key = some entry ∧ entry.data.ptr = data.ptr) ∧
      ((Blocks.open (some .reused)).run (calls ++ [call])).enqueued =
        ((Blocks.open (some .reused)).run calls).enqueued := by
  obtain ⟨hpolicy, reads, hreads, hcounts⟩ := countsOk_run h.of_append
  have hcount {key : BlockKey} {data : Data} (hcall : call = .recordRead key data) :=
    (hcounts key (by simpa [hcall, Call.key] using h.mem call (by simp))).record
  rw [Blocks.run_concat]
  obtain ⟨key, data, entry, hcall, hsecond, hmem, hptr, henq⟩ | ⟨hno, henq⟩ :=
    step_enqueued hpolicy hreads call
  · obtain ⟨hone, hdisk⟩ := (hcount hcall).mp hsecond
    exact .inl ⟨key, data, entry, hcall, hone, hdisk, hmem, hptr, henq⟩
  · refine .inr ⟨?_, henq⟩
    rintro ⟨key, data, entry, hcall, hone, hdisk, hmem, hptr⟩
    exact hno ⟨key, data, entry, hcall, (hcount hcall).mpr ⟨hone, hdisk⟩, hmem, hptr⟩

/-- The writes of a key. -/
def writesOf (key : BlockKey) (blocks : Blocks) : Nat := blocks.enqueued.countP (·.1 = key)

/-- While a key is not removed it is written once at most, and then it has been read twice. -/
theorem writesOf_append {before after : List Call} (h : Distinct keys (before ++ after))
    (hno : .remove key ∉ after) :
    writesOf key ((Blocks.open (some .reused)).run (before ++ after)) ≤
        writesOf key ((Blocks.open (some .reused)).run before) ∨
      writesOf key ((Blocks.open (some .reused)).run (before ++ after)) =
        writesOf key ((Blocks.open (some .reused)).run before) + 1 ∧
        2 ≤ readsSince key (before ++ after) := by
  induction after using List.reverseRecOn with
  | nil => exact .inl (by rw [List.append_nil])
  | append_singleton after call ih =>
      rw [← List.append_assoc] at h ⊢
      rw [List.mem_append, not_or, List.mem_singleton] at hno
      have ih := ih h.of_append hno.1
      -- only a removal of the key lowers its number of reads
      have hreads : readsSince key (before ++ after) ≤ readsSince key (before ++ after ++ [call]) := by
        rw [readsSince_concat]
        cases call with
        | recordRead k data =>
            dsimp only
            split <;> omega
        | remove k =>
            have hne : k ≠ key := by
              rintro rfl
              exact hno.2 rfl
            simp [hne]
        | _ => exact Nat.le_refl _
      obtain ⟨k, data, entry, rfl, hone, -, -, -, henq⟩ | ⟨-, henq⟩ := write_cases h
      · by_cases hk : k = key
        · subst hk
          have hsecond : readsSince k (before ++ after ++ [.recordRead k data]) = 2 := by
            simp only [readsSince_concat, if_true, hone]
          unfold writesOf at ih ⊢
          rw [henq, List.countP_append, List.countP_singleton, hsecond]
          simp only [decide_true, if_true]
          omega
        · unfold writesOf at ih ⊢
          rw [henq, List.countP_append, List.countP_singleton]
          simp only [hk, decide_false, Bool.false_eq_true, if_false, Nat.add_zero]
          omega
      · unfold writesOf at ih ⊢
        rw [henq]
        omega

/-- Under `reused`, with distinct hashes and no count evicted: the only calls that write are reads;
such a read is the second of its key since the key was removed, no lookup has found the key on disk
since, and RAM holds the very block that was read, which is what is written; and every such read
writes. Between two removals of a key it is written once at most. -/
theorem reused_writes_once (keys : Set BlockKey) :
    (∀ calls call, Distinct keys (calls ++ [call]) → ∀ key written,
      ((Blocks.open (some .reused)).run (calls ++ [call])).enqueued =
          ((Blocks.open (some .reused)).run calls).enqueued ++ [(key, written)] ↔
        ∃ data entry, call = .recordRead key data ∧ readsSince key calls = 1 ∧ ¬ FoundOnDisk key calls ∧
          ((Blocks.open (some .reused)).run calls).memory key = some entry ∧ entry.data = written ∧
          written.ptr = data.ptr) ∧
    (∀ calls call, Distinct keys (calls ++ [call]) →
      ((Blocks.open (some .reused)).run (calls ++ [call])).enqueued ≠
          ((Blocks.open (some .reused)).run calls).enqueued → ∃ key data, call = .recordRead key data) ∧
    ∀ key before after, Distinct keys (before ++ after) → .remove key ∉ after →
      writesOf key ((Blocks.open (some .reused)).run (before ++ after)) ≤
        writesOf key ((Blocks.open (some .reused)).run before) + 1 := by
  refine ⟨fun calls call h key written => ?_, fun calls call h hne => ?_, fun key before after h hno => ?_⟩
  · obtain ⟨k, data, entry, rfl, hone, hdisk, hmem, hptr, henq⟩ | ⟨hnone, henq⟩ := write_cases h
    · rw [henq, List.append_cancel_left_eq, List.singleton_inj, Prod.mk.injEq]
      constructor
      · rintro ⟨rfl, rfl⟩
        exact ⟨data, entry, rfl, hone, hdisk, hmem, rfl, hptr⟩
      · rintro ⟨data', entry', ⟨⟩, -, -, hmem', rfl, -⟩
        rw [hmem] at hmem'
        cases hmem'
        exact ⟨rfl, rfl⟩
    · rw [henq]
      constructor
      · intro hself
        simp at hself
      · rintro ⟨data, entry, hcall, hone, hdisk, hmem, rfl, hptr⟩
        exact absurd ⟨key, data, entry, hcall, hone, hdisk, hmem, hptr⟩ hnone
  · obtain ⟨k, data, -, hcall, -⟩ | ⟨-, henq⟩ := write_cases h
    · exact ⟨k, data, hcall⟩
    · exact absurd henq hne
  · obtain hle | ⟨heq, -⟩ := writesOf_append h hno
    · exact hle.trans (Nat.le_succ _)
    · exact Nat.le_of_eq heq

omit [KeyHash] in
/-- A block is inserted and read twice: the second read writes it, and a third one would not. -/
theorem reused_writes_once_second_read :
    letI : KeyHash := ⟨fun _ => 7⟩
    let key : BlockKey := ⟨0, 0, 1, []⟩
    let data : Data := ⟨⟨⟨1, none, none⟩, [7]⟩, 1⟩
    let calls := [.insert key data, .recordRead key data]
    ((Blocks.open (some .reused)).run calls).enqueued = [] ∧
    ((Blocks.open (some .reused)).run (calls ++ [.recordRead key data])).enqueued = [(key, data)] ∧
    writesOf key
      ((Blocks.open (some .reused)).run (calls ++ [.recordRead key data, .recordRead key data])) ≤ 1 := by
  let : KeyHash := ⟨fun _ => 7⟩
  intro key data calls
  have hdistinct : Distinct {key} (calls ++ [.recordRead key data] ++ [.recordRead key data]) :=
    ⟨Set.injOn_singleton _ _, by simp [calls, Call.key], by simp [calls]⟩
  have hnone : ¬ FoundOnDisk key calls := by
    rintro ⟨before, found, after, heq, -, -⟩
    have hmem : .get key (some found) ∈ calls := heq ▸ List.mem_append_right _ List.mem_cons_self
    simp [calls] at hmem
  obtain ⟨hwrites, -, honce⟩ := reused_writes_once {key}
  refine ⟨rfl, (hwrites calls _ hdistinct.of_append key data).mpr ?_, honce key [] _ hdistinct (by simp)⟩
  exact ⟨data, ⟨data, .inMem, false⟩, rfl, rfl, hnone, rfl, rfl, rfl⟩

end Nestor.Cache
