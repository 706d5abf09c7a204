import Nestor.Client.Lemmas.Read
import Nestor.Client.Theorems.Membership

/-!
# Exact routed reads

Whatever nodes answer, in whatever order, and however often the object is overwritten in between: a
body that ends without an error is the requested range of one version, the one the metadata of the
response names.
-/

namespace Nestor.Client

open Lib Store ClusterConfig

/-- The request is for a part of the block that is not empty. -/
def WithinBlock (bs : BlockSize) (piece : Piece) : Prop :=
  ∃ range, piece.2.range = some range ∧ range.start < range.stop ∧ bs.offset piece.1 ≤ range.start ∧
    range.stop ≤ bs.offset (piece.1 + 1)

section

variable {config : ClusterConfig} {options : GetOptions} {V : Version → Prop}

/-! ## Blocks -/

theorem index_bounds (bs : BlockSize) {o : Nat} (h : o < maxU32 * bs.bytes) :
    bs.index o < maxU32 ∧ bs.index o * bs.bytes ≤ o ∧ o < (bs.index o + 1) * bs.bytes := by
  have hspec := bs.index_spec (h.trans_le (Nat.mul_le_mul_right _ (by decide)))
  exact ⟨Nat.lt_of_mul_lt_mul_right (hspec.1.trans_lt h), hspec⟩

theorem firstOptions_eq (h : readStart options < maxU32 * config.blockSize.bytes) :
    config.firstOptions options = ⟨some ⟨readStart options,
      min (readLimit options) ((config.firstIndex options + 1) * config.blockSize.bytes)⟩,
      options.ifMatch, options.ifNoneMatch⟩ := by
  have hlt := (index_bounds config.blockSize h).1
  have hm : maxU32 = 2 ^ 32 - 1 := rfl
  have hadd : addU32 (config.firstIndex options) 1 = config.firstIndex options + 1 :=
    addU32_of_lt (show config.blockSize.index (readStart options) + 1 < 2 ^ 32 by omega)
  rw [firstOptions, hadd, BlockSize.offset_eq]

theorem first_within (h : readStart options < maxU32 * config.blockSize.bytes)
    (hne : readStart options < readLimit options) :
    WithinBlock config.blockSize (config.firstIndex options, config.firstOptions options) := by
  obtain ⟨-, hle, hlt⟩ := index_bounds config.blockSize h
  rw [firstOptions_eq h]
  refine ⟨_, rfl, Nat.lt_min.mpr ⟨hne, hlt⟩, ?_, ?_⟩
  · rw [BlockSize.offset_eq]
    exact hle
  · rw [BlockSize.offset_eq]
    exact Nat.min_le_right _ _

/-- The last block of a read that ends at `stop`. -/
def lastIndex (config : ClusterConfig) (options : GetOptions) (stop : Nat) : Nat :=
  max (config.blockSize.index (stop - 1)) (config.firstIndex options)

theorem rest_bounds {stop i : Nat} (hstop : stop < maxU32 * config.blockSize.bytes)
    (hfirst : config.firstIndex options < i) (hi : i ≤ lastIndex config options stop) :
    i < maxU32 ∧ i * config.blockSize.bytes < stop := by
  obtain ⟨hlt, hle, -⟩ := index_bounds config.blockSize (o := stop - 1) (by omega)
  have hi' : i ≤ config.blockSize.index (stop - 1) := by
    rw [lastIndex] at hi
    omega
  have hmul := (Nat.mul_le_mul_right config.blockSize.bytes hi').trans hle
  have hpos : 0 < i * config.blockSize.bytes := Nat.mul_pos (by omega) config.blockSize.bytes_pos
  omega

theorem stop_le_last {stop : Nat} (hstop : stop < maxU32 * config.blockSize.bytes) :
    stop ≤ (lastIndex config options stop + 1) * config.blockSize.bytes := by
  obtain ⟨-, -, hlt⟩ := index_bounds config.blockSize (o := stop - 1) (by omega)
  have hmul := Nat.mul_le_mul_right config.blockSize.bytes
    (Nat.succ_le_succ (Nat.le_max_left (config.blockSize.index (stop - 1)) (config.firstIndex options)))
  exact (show stop ≤ (config.blockSize.index (stop - 1) + 1) * config.blockSize.bytes by omega).trans hmul

theorem pieces_within {first last stop : Nat} {ifMatch : Option Bytes}
    (h : ∀ i, first ≤ i → i ≤ last → i < maxU32 ∧ i * config.blockSize.bytes < stop) :
    ∀ piece ∈ config.pieces first last stop ifMatch, WithinBlock config.blockSize piece := by
  intro piece hpiece
  obtain ⟨i, hi, rfl⟩ := List.mem_map.mp hpiece
  obtain ⟨hle, hlt⟩ := List.mem_range'_1.mp hi
  obtain ⟨hmax, hbefore⟩ := h i hle (by omega)
  refine ⟨_, rfl, ?_⟩
  rw [config.blockSize.blockRange_eq hmax, BlockSize.offset_eq, BlockSize.offset_eq]
  have hnext := Nat.mul_lt_mul_of_pos_right (Nat.lt_succ_self i) config.blockSize.bytes_pos
  exact ⟨Nat.lt_min.mpr ⟨hnext, hbefore⟩, Nat.le_refl _, Nat.min_le_left _ _⟩

/-! ## Versions -/

/-- The ETag the other blocks are asked for with is that of the version of the first response. -/
theorem Versioned.same {bs : BlockSize} (hV : Versioned V bs) {v : Version} {first : GetResponse} (hv : V v)
    (hfirst : Answers v (config.firstOptions options) first) (htagged : first.meta.etag.isSome) (w : Version)
    (asked : GetOptions) (r : GetResponse) (hw : V w)
    (hasked : asked.ifMatch = options.ifMatch.or first.meta.etag) (hanswers : Answers w asked r) : w = v := by
  have hsome : v.etag.isSome := hfirst.names.2 ▸ htagged
  refine (hV.one v w hv hw hsome ?_).symm
  cases hmatch : options.ifMatch with
  | some tag =>
      rw [hmatch] at hasked
      exact (hfirst.ifMatch tag hmatch).trans (hanswers.ifMatch tag hasked).symm
  | none =>
      obtain ⟨tag, htag⟩ := Option.isSome_iff_exists.mp hsome
      rw [hmatch, Option.none_or, hfirst.names.2, htag] at hasked
      rw [hanswers.ifMatch tag hasked, hV.text v hv tag htag, htag]

/-- The body of a read whose first response is given has received some of the blocks after the first
one. -/
def ReadingOf (config : ClusterConfig) (V : Version → Prop) (v : Version) (options : GetOptions)
    (first : GetResponse) (b : RoutedBody) (next : Nat) : Prop :=
  Reading config V v (readStart options) (lastIndex config options (min (readLimit options) first.meta.size))
    (min (readLimit options) first.meta.size) (options.ifMatch.or first.meta.etag) b next

theorem respond_reading {v : Version} {first : GetResponse}
    (hstart : readStart options < maxU32 * config.blockSize.bytes)
    (hfirst : Answers v (config.firstOptions options) first) :
    ReadingOf config V v options first (config.respond options first).body
      (config.firstIndex options + 1) := by
  obtain ⟨hlt, -, hstop⟩ := index_bounds config.blockSize hstart
  have hm : maxU32 = 2 ^ 32 - 1 := rfl
  have hadd : addU32 (config.firstIndex options) 1 = config.firstIndex options + 1 :=
    addU32_of_lt (show config.blockSize.index (readStart options) + 1 < 2 ^ 32 by omega)
  refine ⟨?_, Nat.succ_le_succ (Nat.le_max_right _ _), Nat.le_of_lt hstop, ?_, fun hno => ?_⟩
  · rw [ClusterConfig.respond, Buffered.items, List.map_nil, List.nil_append, hadd]
    rfl
  · intro piece result hin
    cases hin
  · have hrec : (config.respond options first).body.received = first.body := by
      simp [RoutedBody.received, ClusterConfig.respond]
    rw [hrec] at hno ⊢
    rw [firstOptions_eq hstart] at hfirst
    rw [hfirst.bytes _ rfl hno, hfirst.names.1]
    congr 1
    dsimp only
    rw [Nat.min_comm (readLimit options), Nat.min_assoc]

end

/-! ## Reads -/

section

variable {Addr : Type} [LinearOrder Addr] [RouteHash Addr] {V : Version → Prop}

theorem Cluster.get_ok {c : Cluster Addr} {object : Nat} {options : GetOptions} {tr} {routed : RoutedResponse}
    (hget : Runs (c.get object options) tr (pure (.ok routed)))
    (hhonest : Honest (AnsweredBy V (c.config.firstOptions options)) tr) :
    ∃ first, AnsweredBy V (c.config.firstOptions options) first ∧
    routed = c.config.respond options first := by
  have hwp : wp (attemptSpec (AnsweredBy V (c.config.firstOptions options))) (c.get object options)
      (fun _ result => ∀ routed, result = .ok routed →
        ∃ first, AnsweredBy V (c.config.firstOptions options) first ∧ routed = c.config.respond
        options first) () := by
    unfold Cluster.get
    split
    · exact fun _ h => nomatch h
    · refine wp_seq (hedged_sound _ _) fun _ result hresult => ?_
      cases result with
      | error e => exact fun _ h => nomatch h
      | ok first =>
          intro routed h
          cases h
          exact ⟨first, hresult first rfl, rfl⟩
  exact sound_runs hwp hget hhonest routed rfl

/-- A request for a block of the body ends as its attempts let it, whatever nodes are ranked for it
by then. -/
def Polled (c : Cluster Addr) (object : Nat) (V : Version → Prop) (b : RoutedBody) : BodyEvent → Prop
  | .finish k result => ∀ piece, b.rest.running[k]? = some (piece, none) → ∃ (now : Cluster Addr), ∃ tr,
      now.config = c.config ∧ Runs (now.block object piece.1) tr (pure result) ∧
      Honest (AnsweredBy V piece.2) tr
  | _ => True

theorem Polled.sound {c : Cluster Addr} {object : Nat} {b : RoutedBody} {e : BodyEvent}
    (h : Polled c object V b e) :
    ∀ k result piece, e = .finish k result → b.rest.running[k]? = some (piece, none) →
      Sound (AnsweredBy V piece.2) () result := by
  rintro k result piece rfl hpiece
  obtain ⟨now, tr, -, hruns, hhonest⟩ := h piece hpiece
  exact sound_runs (hedged_sound _ _) hruns hhonest

/-- A routed read asks for one part of a block at a time, and a body that ends without an error is
the requested range of the version that the metadata names. -/
theorem Cluster.get_exact (c : Cluster Addr) (object : Nat) (options : GetOptions)
    (hV : Versioned V c.config.blockSize)
    (hstart : options.range = none ∨ ∃ v, V v ∧ readStart options < v.data.length) :
    (readStart options < readLimit options →
      WithinBlock c.config.blockSize (c.config.firstIndex options, c.config.firstOptions options)) ∧
    ∀ tr routed, Runs (c.get object options) tr (pure (.ok routed)) →
      Honest (AnsweredBy V (c.config.firstOptions options)) tr → routed.meta.etag.isSome →
      (∀ piece ∈ routed.body.rest.items, WithinBlock c.config.blockSize piece) ∧
      ∃ v, V v ∧ v.Names routed.meta ∧
        routed.range = ⟨readStart options, min (readLimit options) v.data.length⟩ ∧
        ∀ es b, Run (RoutedBody.step c.config.readWindow) (Polled c object V) routed.body es b → b.Ended →
          (∀ e, .error e ∉ b.out) →
          bodyBytes b.out = slice v.data (readStart options) (min (readLimit options) v.data.length) := by
  have hlow : readStart options < maxU32 * c.config.blockSize.bytes := by
    rcases hstart with hnone | ⟨v, hv, hlt⟩
    · rw [readStart, hnone]
      exact Nat.mul_pos (by decide) c.config.blockSize.bytes_pos
    · exact hlt.trans (hV.size v hv)
  refine ⟨first_within hlow, fun tr routed hget hhonest htagged => ?_⟩
  obtain ⟨first, ⟨v, hv, hfirst⟩, rfl⟩ := Cluster.get_ok hget hhonest
  have hsize : min (readLimit options) first.meta.size ≤ v.data.length := by
    rw [hfirst.names.1]
    exact Nat.min_le_right _ _
  have hhigh := hsize.trans_lt (hV.size v hv)
  have hbody := respond_reading (V := V) hlow hfirst
  refine ⟨?_, v, hv, hfirst.names, by rw [ClusterConfig.respond, hfirst.names.1],
    fun es b hrun hended hno => ?_⟩
  · rw [hbody.items]
    exact pieces_within fun i hi hi' => rest_bounds hhigh hi hi'
  have hkeep : ∀ b e b', (∃ next, c.config.firstIndex options < next ∧
      ReadingOf c.config V v options first b next) → Polled c object V b e →
      b.step c.config.readWindow e = some b' →
      ∃ next, c.config.firstIndex options < next ∧ ReadingOf c.config V v options first b' next := by
    rintro b e b' ⟨next, hnext, h⟩ hpolled hstep
    obtain ⟨next', hle, h'⟩ := h.step (hV.same hv hfirst htagged) hsize
      (fun i hi hi' => rest_bounds hhigh (hnext.trans_le hi') hi) hpolled.sound hstep
    exact ⟨next', hnext.trans_le hle, h'⟩
  obtain ⟨next, -, h⟩ := hrun.invariant hkeep ⟨_, Nat.lt_succ_self _, hbody⟩
  obtain ⟨hfirstEnd, hcurrentEnd, hitems⟩ := hended
  have hrec : b.received = b.out := by simp [RoutedBody.received, hfirstEnd, hcurrentEnd]
  have hbytes := h.bytes (hrec.symm ▸ hno)
  have hnext : next = lastIndex c.config options (min (readLimit options) first.meta.size) + 1 := by
    have hlen := congrArg List.length (h.items.symm.trans hitems)
    rw [ClusterConfig.pieces, List.length_map, List.length_range', List.length_nil] at hlen
    have hle := h.next_le
    omega
  rw [hnext, Nat.min_eq_right (stop_le_last hhigh), hrec, hfirst.names.1] at hbytes
  exact hbytes

end

section

open RouteSample

/-- An object of a block and a byte, before and after it is overwritten with a byte. -/
def sampleVersions (v : Version) : Prop :=
  v = ⟨List.replicate 1048577 7, some [97]⟩ ∨ v = ⟨[8], some [98]⟩

/-- The options of a read of two bytes across the end of the first block. -/
def sampleOptions : GetOptions := ⟨some ⟨1048575, 1048577⟩, none, none⟩

def sampleFirst : GetResponse := ⟨⟨1048577, some [97], none⟩, ⟨1048575, 1048576⟩, [.ok [7]]⟩

def sampleSecond : GetResponse := ⟨⟨1048577, some [97], none⟩, ⟨1048576, 1048577⟩, [.ok [7]]⟩

theorem sampleVersions_versioned : Versioned sampleVersions ClusterConfig.default.blockSize where
  text := by
    rintro v (rfl | rfl) tag htag <;> cases htag <;> decide
  one := by
    rintro v w (rfl | rfl) (rfl | rfl) - heq
    · rfl
    · cases heq
    · cases heq
    · rfl
  size := by
    rintro v (rfl | rfl)
    · rw [List.length_replicate]
      decide
    · decide

/-- A part of the first version is answered for as it is, also if the version is asked for by its
ETag. -/
theorem answeredBy_sample (range : Range) {ifMatch : Option Bytes}
    (hmatch : ∀ tag, ifMatch = some tag → tag = [97]) (hrange : range.start + 1 = range.stop)
    (hstop : range.stop ≤ 1048577) :
    AnsweredBy sampleVersions ⟨some range, ifMatch, none⟩ ⟨⟨1048577, some [97], none⟩, range, [.ok [7]]⟩ := by
  refine ⟨_, .inl rfl, fun tag htag => ?_, ⟨?_, rfl⟩, fun range' hr _ => ?_⟩
  · rw [hmatch tag htag]
    decide
  · rw [List.length_replicate]
  · cases hr
    rw [slice_min_length, slice, List.take_replicate, List.drop_replicate, Nat.min_eq_left hstop,
      show range.stop - range.start = 1 by omega]
    rfl

/-- The trace of a request whose first attempt is answered. -/
def sampleTrace (index : Nat) (r : GetResponse) : List (Done (RouteOp GetResponse) (RouteResp GetResponse)) :=
  [⟨.primary (sampleCluster.rank 0 index), some 0⟩, ⟨.finishOrDelay 0, .finished (.done (.ok r))⟩,
    ⟨.observe 0, ()⟩, ⟨.release 0, ()⟩]

theorem sampleTrace_honest {P : GetResponse → Prop} {index : Nat} {r : GetResponse} (h : P r) :
    Honest P (sampleTrace index r) := by
  intro d hd id t hended
  simp only [sampleTrace, List.mem_cons, List.not_mem_nil, or_false] at hd
  rcases hd with rfl | rfl | rfl | rfl <;> cases hended
  exact h

theorem Cluster.get_exact_sample :
    ∃ b, Run (RoutedBody.step 16) (Polled sampleCluster 0 sampleVersions)
        (ClusterConfig.default.respond sampleOptions sampleFirst).body
        [.first, .start, .finish 0 (.ok sampleSecond), .take, .next] b ∧ b.out = [.ok [7], .ok [7]] ∧
      ∃ v, sampleVersions v ∧ v.Names sampleFirst.meta ∧ bodyBytes b.out = slice v.data 1048575 1048577 := by
  have hexact := (Cluster.get_exact sampleCluster 0 sampleOptions sampleVersions_versioned
    (.inr ⟨_, .inl rfl, by rw [List.length_replicate]; decide⟩)).2
  have hget : Runs (sampleCluster.get 0 sampleOptions) (sampleTrace 0 sampleFirst)
      (pure (.ok (ClusterConfig.default.respond sampleOptions sampleFirst))) :=
    .cons (.cons (.cons (.cons .nil)))
  have hfirst : AnsweredBy sampleVersions (ClusterConfig.default.firstOptions sampleOptions) sampleFirst :=
    answeredBy_sample ⟨1048575, 1048576⟩ nofun rfl (by decide)
  obtain ⟨-, v, hv, hnames, hrange, hbody⟩ := hexact _ _ hget (sampleTrace_honest hfirst) rfl
  have hrun : Run (RoutedBody.step 16) (Polled sampleCluster 0 sampleVersions)
      (ClusterConfig.default.respond sampleOptions sampleFirst).body
      [.first, .start, .finish 0 (.ok sampleSecond), .take, .next]
        ⟨[], ⟨[], []⟩, [], [.ok [7], .ok [7]]⟩ := by
    refine .cons trivial rfl (.cons trivial rfl (.cons ?_ rfl (.cons trivial rfl (.cons trivial rfl .nil))))
    intro piece hpiece
    cases hpiece
    refine ⟨sampleCluster, sampleTrace 1 sampleSecond, rfl, .cons (.cons (.cons (.cons .nil))),
      sampleTrace_honest ?_⟩
    exact answeredBy_sample ⟨1048576, 1048577⟩ (fun tag htag => by cases htag; rfl) rfl (by decide)
  refine ⟨_, hrun, rfl, v, hv, hnames, (hbody _ _ hrun ⟨rfl, rfl, rfl⟩ (by simp)).trans ?_⟩
  rw [hnames.1.symm]
  rfl

end

end Nestor.Client
