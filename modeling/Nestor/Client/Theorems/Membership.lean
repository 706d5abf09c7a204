import Nestor.Client.Cluster

/-!
# Changes of membership

After a new list of addresses has been applied the nodes are those of the list, the nodes that stay
are the same nodes, and among them every block ranks as before. So a block changes its owner only to
a node that is new, or because its owner has left.
-/

namespace Nestor.Client

open Lib

variable {Addr : Type}

variable {heap : Heap Addr} {fresh : NodeId}

/-- Nodes on the heap, with different addresses. -/
structure Placed (heap : Heap Addr) (fresh : NodeId) (nodes : List NodeId) : Prop where
  placed : ∀ id ∈ nodes, id < fresh
  distinct : (nodes.map fun id => (heap id).addr).Nodup

theorem Placed.eq_of_addr {nodes : List NodeId} (h : Placed heap fresh nodes)
    {a b : NodeId} (ha : a ∈ nodes) (hb : b ∈ nodes) (hab : (heap a).addr = (heap b).addr) : a = b :=
  List.inj_on_of_nodup_map h.distinct ha hb hab

theorem Placed.keyed [RouteHash Addr] {nodes : List NodeId} (h : Placed heap fresh nodes)
    (object block : Nat) : Keyed (rankKey heap object block) nodes := fun _ ha _ hb hab =>
  h.eq_of_addr ha hb (Prod.ext_iff.mp (toLex.injective hab)).2

section

variable [LinearOrder Addr] [RouteHash Addr]

/-! ## The nodes of a list of addresses -/

theorem nodesFor_same (config : ClusterConfig) (current : List NodeId) (now : Nat) (heap : Heap Addr)
    (addrs : List Addr) {id : NodeId} (hid : id < fresh) :
    (nodesFor config current now heap fresh addrs).2.1 id = heap id := by
  induction addrs generalizing heap fresh with
  | nil => rfl
  | cons addr addrs ih =>
      unfold nodesFor
      cases current.find? fun id => (heap id).addr = addr with
      | some old => exact ih heap hid
      | none => exact (ih _ (Nat.lt_succ_of_lt hid)).trans (Function.update_of_ne (Nat.ne_of_lt hid) ..)

/-- What `nodesFor` returns: the nodes have the addresses, in order; those below `fresh` are current
ones, and all others are new, at addresses that no current node has. -/
structure NodesFor (current : List NodeId) (heap : Heap Addr) (fresh : NodeId) (addrs : List Addr)
    (ids : List NodeId) (heap' : Heap Addr) (next : NodeId) : Prop where
  grows : fresh ≤ next
  addrs : ids.map (fun id => (heap' id).addr) = addrs
  placed : ∀ id ∈ ids, id < next
  kept : ∀ id ∈ ids, id < fresh → id ∈ current
  added : ∀ id ∈ ids, fresh ≤ id → ∀ old ∈ current, (heap old).addr ≠ (heap' id).addr
  reused : next = fresh → ∀ id ∈ ids, id ∈ current

theorem nodesFor_spec (config : ClusterConfig) {current : List NodeId} (now : Nat)
    (addrs : List Addr) (hc : ∀ id ∈ current, id < fresh) {ids : List NodeId} {heap' : Heap Addr}
    {next : NodeId} (h : nodesFor config current now heap fresh addrs = (ids, heap', next)) :
    NodesFor current heap fresh addrs ids heap' next := by
  induction addrs generalizing heap fresh ids with
  | nil =>
      cases h
      refine ⟨Nat.le_refl _, rfl, ?_, ?_, ?_, ?_⟩ <;> simp
  | cons addr addrs ih =>
      unfold nodesFor at h
      cases hfind : current.find? fun id => (heap id).addr = addr with
      | some id =>
          have hid : id ∈ current := List.mem_of_find?_eq_some hfind
          have haddr : (heap id).addr = addr := by simpa using List.find?_some hfind
          rcases hout : nodesFor config current now heap fresh addrs with ⟨ids, heap', next⟩
          rw [hfind, hout] at h
          cases h
          have h := ih hc hout
          have hsame : heap' id = heap id := by
            rw [← nodesFor_same config current now heap addrs (hc id hid), hout]
          refine ⟨h.grows, ?_, ?_, ?_, ?_, ?_⟩
          · exact List.cons_eq_cons.mpr ⟨(congrArg Node.addr hsame).trans haddr, h.addrs⟩
          · exact List.forall_mem_cons.mpr ⟨Nat.lt_of_lt_of_le (hc id hid) h.grows, h.placed⟩
          · exact List.forall_mem_cons.mpr ⟨fun _ => hid, h.kept⟩
          · exact List.forall_mem_cons.mpr ⟨fun hle => absurd (hc id hid) (Nat.not_lt.mpr hle), h.added⟩
          · exact fun he => List.forall_mem_cons.mpr ⟨hid, h.reused he⟩
      | none =>
          have hnew : ∀ old ∈ current, (heap old).addr ≠ addr := by simpa using List.find?_eq_none.mp hfind
          have hold : ∀ id < fresh, Function.update heap fresh (Node.new addr config now) id = heap id :=
            fun id hid => Function.update_of_ne (Nat.ne_of_lt hid) ..
          rcases hout : nodesFor config current now (Function.update heap fresh (Node.new addr config now))
            (fresh + 1) addrs with ⟨ids, heap', next⟩
          rw [hfind] at h
          simp only [hout] at h
          cases h
          have h := ih (fun id hid => Nat.lt_succ_of_lt (hc id hid)) hout
          have hgrows : fresh < next := h.grows
          have hfresh : (heap' fresh).addr = addr := by
            have hsame := nodesFor_same config current now
              (Function.update heap fresh (Node.new addr config now)) addrs (Nat.lt_succ_self fresh)
            rw [hout, Function.update_self] at hsame
            exact congrArg Node.addr hsame
          refine ⟨Nat.le_of_lt hgrows, ?_, ?_, ?_, ?_, fun he => absurd he (Nat.ne_of_gt hgrows)⟩
          · exact List.cons_eq_cons.mpr ⟨hfresh, h.addrs⟩
          · exact List.forall_mem_cons.mpr ⟨hgrows, h.placed⟩
          · refine List.forall_mem_cons.mpr ⟨fun hlt => absurd hlt (Nat.lt_irrefl _), fun id hid hlt => ?_⟩
            exact h.kept id hid (Nat.lt_succ_of_lt hlt)
          · refine List.forall_mem_cons.mpr ⟨fun _ old hin => by rw [hfresh]; exact hnew old hin, ?_⟩
            intro id hid hle old hin
            rcases Nat.lt_or_eq_of_le hle with hlt | rfl
            · rw [← hold old (hc old hin)]
              exact h.added id hid hlt old hin
            · rw [hfresh]
              exact hnew old hin

/-! ## A new list of addresses -/

/-- What a new list of addresses makes of a cluster. -/
structure Applied (c : Cluster Addr) (addrs : List Addr) (c' : Cluster Addr) : Prop where
  placed : Placed c'.heap c'.fresh c'.nodes
  members : (c'.nodes.map fun id => (c'.heap id).addr).Perm addrs
  same : ∀ id ∈ c.nodes, c'.heap id = c.heap id
  kept : ∀ id ∈ c.nodes, (c.heap id).addr ∈ addrs → id ∈ c'.nodes
  added : ∀ id ∈ c'.nodes, id ∉ c.nodes → ∀ old ∈ c.nodes, (c.heap old).addr ≠ (c'.heap id).addr

namespace Cluster

variable {c c' : Cluster Addr} {addrs : List Addr} {now : Nat}

theorem apply_same (c : Cluster Addr) (now : Nat) (addrs : List Addr) {id : NodeId} (hid : id < c.fresh) :
    (c.apply now addrs).heap id = c.heap id := by
  unfold Cluster.apply
  dsimp only
  split
  · exact nodesFor_same c.config c.nodes now c.heap _ hid
  · rfl

theorem new_placed {config : ClusterConfig} (hb : addrs.Nodup)
    (h : new config heap now addrs = some c) : Placed c.heap c.fresh c.nodes := by
  unfold new at h
  split at h
  · cases h
  · rcases hout : nodesFor config [] now heap 0 addrs with ⟨ids, heap', next⟩
    simp only [hout] at h
    cases h
    have hn := nodesFor_spec config now addrs (by simp) hout
    exact ⟨hn.placed, hn.addrs ▸ hb⟩

theorem apply_spec (hc : Placed c.heap c.fresh c.nodes) (hb : addrs.Nodup) (h : c.apply now addrs = c') :
    Applied c addrs c' := by
  have hsorted : (addrs.insertionSort (· ≤ ·)).Perm addrs := List.perm_insertionSort _ addrs
  unfold apply at h
  rcases hout : nodesFor c.config c.nodes now c.heap c.fresh (addrs.insertionSort (· ≤ ·))
    with ⟨ids, heap, next⟩
  have hn := nodesFor_spec c.config now _ hc.placed hout
  have hperm : (ids.map fun id => (heap id).addr).Perm addrs := hn.addrs ▸ hsorted
  have hsame : ∀ id ∈ c.nodes, heap id = c.heap id := fun id hid => by
    rw [← nodesFor_same c.config c.nodes now c.heap _ (hc.placed id hid), hout]
  simp only [hout] at h
  split at h
  · subst h
    refine ⟨⟨hn.placed, hperm.nodup_iff.mpr hb⟩, hperm, hsame, fun id hid ha => ?_, fun id hid hnot => ?_⟩
    · obtain ⟨new, hnew, haddr⟩ := List.mem_map.mp (hperm.mem_iff.mpr ha)
      rcases Nat.lt_or_ge new c.fresh with hlt | hge
      · have hold := hn.kept new hnew hlt
        rw [hsame new hold] at haddr
        exact hc.eq_of_addr hold hid haddr ▸ hnew
      · exact absurd haddr.symm (hn.added new hnew hge id hid)
    · exact hn.added id hid (Nat.not_lt.mp fun hlt => hnot (hn.kept id hid hlt))
  · rename_i hchanged
    subst h
    obtain ⟨hadded, hremoved⟩ := not_or.mp hchanged
    refine ⟨hc, ?_, fun _ _ => rfl, fun _ hid _ => hid, fun _ hid hnot => absurd hid hnot⟩
    refine (List.perm_ext_iff_of_nodup hc.distinct hb).mpr fun a => ⟨fun ha => ?_, fun ha => ?_⟩
    · obtain ⟨id, hid, rfl⟩ := List.mem_map.mp ha
      have hnone : c.nodes.filter (fun id => (c.heap id).addr ∉ addrs.insertionSort (· ≤ ·)) = [] :=
        List.length_eq_zero_iff.mp (Nat.eq_zero_of_not_pos hremoved)
      have hin := List.filter_eq_nil_iff.mp hnone id hid
      simp only [decide_eq_true_eq, not_not] at hin
      exact hsorted.mem_iff.mp hin
    · have hnext : next = c.fresh :=
        Nat.le_antisymm (Nat.sub_eq_zero_iff_le.mp (Nat.eq_zero_of_not_pos hadded)) hn.grows
      obtain ⟨id, hid, rfl⟩ := List.mem_map.mp (hperm.mem_iff.mpr ha)
      have hold := hn.reused hnext id hid
      exact List.mem_map.mpr ⟨id, hold, by rw [hsame id hold]⟩

/-- The nodes that stay rank among themselves as before. -/
theorem rank_common (hc : Placed c.heap c.fresh c.nodes) (h : Applied c addrs c') (object block : Nat) :
    (c'.rank object block).filter (· ∈ c.nodes) = (c.rank object block).filter (· ∈ c'.nodes) := by
  have hkeyed := hc.keyed object block
  have hcommon : Keyed (rankKey c.heap object block) (c.nodes.filter (· ∈ c'.nodes)) := fun a ha b hb =>
    hkeyed a (List.mem_of_mem_filter ha) b (List.mem_of_mem_filter hb)
  have hkeys : ∀ id ∈ c.nodes, rankKey c'.heap object block id = rankKey c.heap object block id := by
    intro id hid
    rw [rankKey, rankKey, h.same id hid]
  have hperm : (c'.nodes.filter (· ∈ c.nodes)).Perm (c.nodes.filter (· ∈ c'.nodes)) := by
    refine (List.perm_ext_iff_of_nodup ?_ ?_).mpr fun id => ?_
    · exact (List.Nodup.of_map _ h.placed.distinct).filter _
    · exact (List.Nodup.of_map _ hc.distinct).filter _
    · simp [and_comm]
  rw [rank, rank, Ranked.new, Ranked.new, filter_rankBy hkeyed, filter_rankBy (h.placed.keyed object block),
    ← rankBy_eq_of_perm hcommon hperm]
  refine rankBy_congr (fun a ha b hb => hcommon a (hperm.mem_iff.mp ha) b (hperm.mem_iff.mp hb))
    fun id hid => ?_
  exact hkeys id (List.mem_of_mem_filter (hperm.mem_iff.mp hid))

/-- A block gets another owner only if its owner has left, or from a node that is new and outranks
it. -/
theorem owner_moves (h : Applied c addrs c') {object block : Nat} {owner : NodeId}
    (howner : (c.rank object block).head? = some owner) (hmoved : (c'.rank object block).head? ≠ some owner) :
    (c.heap owner).addr ∉ addrs ∨ ∃ new, (c'.rank object block).head? = some new ∧
      (∀ old ∈ c.nodes, (c.heap old).addr ≠ (c'.heap new).addr) ∧
      rankKey c'.heap object block new < rankKey c'.heap object block owner := by
  obtain ⟨hin, hbest⟩ := head?_rankBy howner
  by_cases hstays : (c.heap owner).addr ∈ addrs
  · right
    have hin' : owner ∈ c'.rank object block := mem_rankBy.mpr (h.kept owner hin hstays)
    obtain ⟨new, hnew⟩ : ∃ new, (c'.rank object block).head? = some new :=
      Option.isSome_iff_exists.mp (List.isSome_head?.mpr (List.ne_nil_of_mem hin'))
    have hne : new ≠ owner := fun he => hmoved (he ▸ hnew)
    obtain ⟨hmem, hle⟩ := head?_rankBy hnew
    have hlt : rankKey c'.heap object block new < rankKey c'.heap object block owner := by
      refine lt_of_le_of_ne (hle owner (mem_rankBy.mp hin')) fun he => hne ?_
      exact h.placed.keyed object block new hmem owner (mem_rankBy.mp hin') he
    refine ⟨new, hnew, h.added new hmem fun hold => ?_, hlt⟩
    -- an old node cannot have overtaken the owner
    have hle' := hbest new hold
    rw [rankKey, rankKey, ← h.same new hold, ← h.same owner hin] at hle'
    exact absurd hlt (not_lt_of_ge hle')
  · exact .inl hstays

/-- Applying a list of distinct addresses leaves the nodes with exactly these addresses, of which
those that were there before are the same nodes in the same state. Their order in every ranking is
kept; the owner of a block changes only if it has left, or to a new node that outranks it. No
ranking depends on the order of the nodes. -/
theorem apply_moves_minimally (c c' : Cluster Addr) (now : Nat) (addrs : List Addr)
    (hc : Placed c.heap c.fresh c.nodes) (hb : addrs.Nodup) (h : c.apply now addrs = c') :
    Placed c'.heap c'.fresh c'.nodes ∧ (c'.nodes.map fun id => (c'.heap id).addr).Perm addrs ∧
    (∀ id ∈ c.nodes, (c.heap id).addr ∈ addrs → id ∈ c'.nodes ∧ c'.heap id = c.heap id) ∧
    ∀ object block : Nat,
      (c'.rank object block).filter (· ∈ c.nodes) = (c.rank object block).filter (· ∈ c'.nodes) ∧
      (∀ owner, (c.rank object block).head? = some owner → (c'.rank object block).head? ≠ some owner →
        (c.heap owner).addr ∉ addrs ∨ ∃ new, (c'.rank object block).head? = some new ∧
          (∀ old ∈ c.nodes, (c.heap old).addr ≠ (c'.heap new).addr) ∧
          rankKey c'.heap object block new < rankKey c'.heap object block owner) ∧
      ∀ nodes : List NodeId, nodes.Perm c.nodes → Ranked.new c.heap nodes object block =
        c.rank object block := by
  have ha := apply_spec hc hb h
  refine ⟨ha.placed, ha.members, fun id hid haddr => ⟨ha.kept id hid haddr, ha.same id hid⟩,
    fun object block => ?_⟩
  refine ⟨rank_common hc ha object block, fun owner howner => owner_moves ha howner, fun nodes hperm => ?_⟩
  exact rankBy_eq_of_perm (hc.keyed object block) hperm

end Cluster

end

section

open RouteSample

/-- Three nodes, at the addresses 1, 2 and 3. -/
def sampleCluster : Cluster Nat :=
  ⟨ClusterConfig.default, fun id => Node.new (id + 1) ClusterConfig.default 0, 3, [0, 1, 2]⟩

theorem Cluster.apply_moves_sample :
    (sampleCluster.apply 9 [4, 2, 3]).nodes = [1, 2, 3] ∧
    (((sampleCluster.apply 9 [4, 2, 3]).rank 0 0).filter (· ∈ sampleCluster.nodes)) =
      (sampleCluster.rank 0 0).filter (· ∈ (sampleCluster.apply 9 [4, 2, 3]).nodes) := by
  have hplaced : Placed sampleCluster.heap sampleCluster.fresh sampleCluster.nodes := ⟨by decide, by decide⟩
  have h := Cluster.apply_moves_minimally sampleCluster _ 9 [4, 2, 3] hplaced (by decide) rfl
  exact ⟨by decide, (h.2.2.2 0 0).1⟩

end

end Nestor.Client
