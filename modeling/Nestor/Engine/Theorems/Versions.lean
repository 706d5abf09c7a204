import Mathlib.Data.List.Induction
import Nestor.Engine.Lemmas.Lifetime
import Nestor.Read.Lemmas.Stale

/-!
# One version per read

Whatever the tasks of a lifetime do and however the origin changes meanwhile, the blocks of an
object in an etag namespace are those of the version their key names, and a stream yields bytes of
one version.
-/

namespace Nestor

open Lib

theorem yieldedBytes_single (o : Op) (r : Resp o) :
    yieldedBytes [⟨o, r⟩] = [] ∨ ∃ known chunk, o = .item known (.ok chunk) ∧
    yieldedBytes [⟨o, r⟩] = chunk := by
  cases o
  case item known item =>
    cases item with
    | ok chunk => exact .inr ⟨known, chunk, rfl, List.append_nil chunk⟩
    | error e => exact .inl rfl
  all_goals exact .inl rfl

theorem Held.broken_after {g : Held} (o : Op) (r : Resp o) (h : g.seen.broken = true) :
    (g.after o r).seen.broken = true := by
  obtain heq | ⟨slot, e, -, heq⟩ | ⟨range, known, -, heq⟩ | ⟨known, item, -, heq⟩ := g.seen_cases o r
  · rw [heq]
    exact h
  · rw [heq]
    change (g.seen.broken || (e.isStale && g.seen.yielded)) = true
    rw [h, Bool.true_or]
  · rw [heq]
    exact h
  · rw [heq]
    cases item <;> exact h

section

variable [TagHash] {T : Terms}

theorem Terms.no_bytes_of_broken {g : Held} {tr : Trace} (h : T.spec.Kept g tr)
    (hb : g.seen.broken = true) : yieldedBytes tr = [] := by
  induction tr generalizing g with
  | nil => rfl
  | cons d tr ih =>
      obtain ⟨o, r⟩ := d
      refine (yieldedBytes_append [⟨o, r⟩] tr).trans ?_
      rw [ih h.2 (Held.broken_after o r hb), List.append_nil]
      obtain hnone | ⟨known, chunk, rfl, -⟩ := yieldedBytes_single o r
      · exact hnone
      · exact absurd (h.1.2.symm.trans hb) (by simp)

/-- What a read has yielded is a part of one version from the start of its range on. -/
theorem Terms.bytes_of_kept {ns : NamespaceState} {object : Bytes} {request : ReadRange}
    {policy : FetchPolicy} {tr : Trace} (h : T.spec.Kept (.start (.get ns object request policy)) tr) :
    yieldedBytes tr = [] ∨ ∃ tag before, before <+: tr ∧
      T.law.Bound (T.spec.ghost (.start (.get ns object request policy)) before) ns object tag ∧
      (T.law.Coherent ns.id object → ∀ v, T.law.Has ns.id object v → T.law.Matches ns.id tag v →
        ∃ a b, yieldedBytes tr = slice v.data a b ∧
          ∀ range, request.resolve v.data.length = .ok range → a = range.start ∧ b ≤ range.stop) := by
  induction tr using List.reverseRecOn with
  | nil => exact .inl rfl
  | append_singleton tr d ih =>
      obtain ⟨o, r⟩ := d
      obtain ⟨hkept, hguar, -⟩ := T.spec.kept_append.mp h
      rw [yieldedBytes_append]
      obtain hnone | ⟨known, chunk, rfl, hchunk⟩ := yieldedBytes_single o r
      · rw [hnone, List.append_nil]
        exact (ih hkept).imp id fun ⟨tag, before, hbefore, h⟩ => ⟨tag, before,
          hbefore.trans (List.prefix_append _ _), h⟩
      · obtain ⟨ns', object', request', policy', tag, htask, hbound, -, hpart⟩ := hguar.1
        rw [ghost_task] at htask
        cases htask
        rw [(T.ghost_seen _ tr).1] at hpart
        rw [hchunk]
        exact .inr ⟨tag, tr, List.prefix_append _ _, hbound, hpart⟩

/-- A read starts anew only as long as it has not yielded anything. -/
theorem Terms.silent_of_lookup {task : Task} {before after : Trace} {key : ObjectKey}
    {ttl : Option Nat} {found : MetaLookup}
    (h : T.spec.Kept (.start task) (before ++ ⟨.metaLookup key ttl, found⟩ :: after)) :
    yieldedItem before = false := by
  obtain ⟨-, hguar, -⟩ := T.spec.kept_append.mp h
  have hyielded := (T.ghost_seen (.start task) before).2.2
  rw [hguar.2] at hyielded
  exact hyielded.symm

theorem Terms.no_bytes_of_stale {task : Task} {before after : Trace} {slot : Slot} {e : NestorError}
    (h : T.spec.Kept (.start task) (before ++ ⟨.wait slot, (.error e : BlockResult)⟩ :: after))
    (hs : e.isStale) (hy : yieldedItem before) : yieldedBytes after = [] := by
  obtain ⟨-, -, hafter⟩ := T.spec.kept_append.mp h
  refine no_bytes_of_broken hafter ?_
  change (_ || (e.isStale && (T.spec.ghost (.start task) before).seen.yielded)) = true
  rw [(T.ghost_seen (.start task) before).2.2, hs, hy, Bool.or_true, Bool.and_true, Bool.or_true]

namespace World

/-- In a state of a lifetime, whose events bring in the given versions: if equal tags mean equal
contents for an object of an etag namespace, every cached block of it is the block of a version with
the tag of its key; what a stream has yielded is a part of one version, from the start of its range
on; a read looks up the metadata anew only before it has yielded anything. If a block is stale, the
stream does not end before the read has looked up the metadata anew or yielded an error; after an
item it yields no more bytes and ends with an error only. -/
theorem one_version_per_read {versions : Bytes → Bytes → Version → Prop} {fuel : Nat} {es : List Event}
    {w : World} (hrun : Run (step fuel) (fun w e => w.Brings versions e ∧ w.OneLife e) init es w)
    {ns : NamespaceState} (hns : ns ∈ w.shared.registry.states)
    (hetag : ns.config.consistency.isImmutable = false) {object : Bytes}
    (htags : ∀ v v', versions ns.name object v → versions ns.name object v' → v.tag = v'.tag →
      v.data = v'.data) :
    (∀ tag index block, (⟨ns.id, tag, index, object⟩, block) ∈ w.shared.blocks →
      ∃ v, versions ns.name object v ∧ v.tag = tag ∧ v.Names block.meta ∧
        block.data = blockOf ns.config.blockSize v.data index) ∧
    ∀ th ∈ w.threads, ∀ request policy, th.task = .get ns object request policy →
      (yieldedBytes th.trace = [] ∨ ∃ v a b, versions ns.name object v ∧
        yieldedBytes th.trace = slice v.data a b ∧ ∀ range, request.resolve v.data.length = .ok range →
        a = range.start ∧ b ≤ range.stop) ∧
      (∀ before after key ttl found, th.trace = before ++ ⟨.metaLookup key ttl, found⟩ :: after →
        yieldedItem before = false) ∧
      ∀ before after slot e, th.trace = before ++ ⟨.wait slot, (.error e : BlockResult)⟩ :: after →
        e.isStale →
        (⟨.ended, ()⟩ ∈ after → yieldedError after ∨ ∃ key ttl found, ⟨.metaLookup key ttl, found⟩ ∈ after) ∧
        (yieldedItem before → yieldedBytes after = [] ∧ (⟨.ended, ()⟩ ∈ after → yieldedError after)) := by
  obtain ⟨hsound, hnumbered⟩ := lifetime_sound hrun
  have hget := hnumbered.get hns
  have hcoherent := Registry.coherent_universeOf hget hetag htags
  refine ⟨fun tag index block hb => ?_, fun th hth request policy htask => ?_⟩
  · obtain ⟨bs, v, ⟨ns', hns', rfl⟩, hv, ht, hn, hd⟩ :=
      (hsound.inv.blocks _ block hb).eq_blockOf fun _ _ => hcoherent.one
    rw [Registry.has_universeOf hget] at hv
    rw [Registry.matches_universeOf hget hetag] at ht
    rw [hget] at hns'
    cases hns'
    exact ⟨v, hv, ht, hn, hd⟩
  · have hruns := (hsound.threads th hth).runs
    have hkept := (hsound.threads th hth).kept
    rw [htask] at hkept hruns
    refine ⟨?_, fun before after key ttl found heq => ?_, fun before after slot e heq hs => ?_⟩
    · obtain hnone | ⟨tag, before, -, hbound, hpart⟩ := Terms.bytes_of_kept hkept
      · exact .inl hnone
      · obtain ⟨v, hv, ht⟩ := hbound.right.resolve_left fun hi => Registry.mutable_universeOf hget hetag hi.2
        obtain ⟨a, b, heq, hab⟩ := hpart hcoherent v hv (.inr ht)
        exact .inr ⟨v, a, b, (Registry.has_universeOf hget v).mp hv, heq, hab⟩
    · rw [heq] at hkept
      exact Terms.silent_of_lookup hkept
    · rw [heq] at hkept hruns
      have hanswered := Stale.answered_of_runs hruns hs
      refine ⟨hanswered, fun hy => ⟨Terms.no_bytes_of_stale hkept hs hy, fun hend => ?_⟩⟩
      refine (hanswered hend).resolve_right fun ⟨key, ttl, found, hin⟩ => ?_
      obtain ⟨mid, rest, rfl⟩ := List.append_of_mem hin
      rw [← List.cons_append, ← List.append_assoc] at hkept
      have hsilent := Terms.silent_of_lookup hkept
      rw [yieldedItem, List.any_append, Bool.or_eq_false_iff] at hsilent
      exact absurd hy (Bool.eq_false_iff.mp hsilent.1)

end World

end

namespace World

open Sample

/-- An object is inserted, changes at the origin, and is read. -/
def overwrittenEvents : List Event :=
  [.call 0 (.insert [111] (some [9]) [1, 2]), .run 0 .go, .run 0 .go, .run 0 .go, .run 0 .go,
    .overwrite [97] [111] (some ⟨[3], some [8]⟩), .call 0 (.get [111] .full FetchPolicy.default), .run 1 .go,
    .run 1 .go, .run 1 .go, .run 1 (.found 0 (some ⟨⟨2, some [9], some 0⟩, [1, 2]⟩)), .run 1 .go, .run 1 .go]

abbrev overwrittenVersions (_ _ : Bytes) (v : Version) : Prop := v = ⟨[1, 2], some [9]⟩ ∨ v = ⟨[3], some [8]⟩

def overwrittenNamespace : NamespaceState := ⟨0, [97], NamespaceConfig.default⟩

/-- The task reads the object. -/
def readsSample : Task → Bool
  | .get ns object _ _ => decide (ns = overwrittenNamespace ∧ object = [111])
  | _ => false

/-- Where the events lead, with the conditions of the run checked on the way. -/
def overwrittenRun : Option World :=
  runEvents (checked (fun w e => decide (Brings overwrittenVersions w e ∧ OneLife w e)) (step 5)) init
    (.register [97] NamespaceConfig.default :: overwrittenEvents)

theorem overwritten_tags : ∀ v v', overwrittenVersions [97] [111] v → overwrittenVersions [97] [111] v' →
    v.tag = v'.tag → v.data = v'.data := by
  rintro v v' (rfl | rfl) (rfl | rfl) ht <;> first | rfl | exact absurd ht (by decide)

theorem one_version_per_read_overwritten : ∃ w : World, ∃ th ∈ w.threads, yieldedBytes th.trace = [1, 2] ∧
    ∃ v a b, overwrittenVersions [97] [111] v ∧ yieldedBytes th.trace = slice v.data a b := by
  obtain ⟨w, hw, hns, th, hth, hreads, hbytes⟩ : ∃ w ∈ overwrittenRun,
      overwrittenNamespace ∈ w.shared.registry.states ∧ ∃ th ∈ w.threads[1]?, readsSample th.task = true ∧
        yieldedBytes th.trace = [1, 2] := by
    decide
  refine ⟨w, th, List.mem_of_getElem? hth, hbytes, ?_⟩
  cases htask : th.task with
  | get ns object request policy =>
      rw [htask] at hreads
      obtain ⟨rfl, rfl⟩ := of_decide_eq_true hreads
      obtain hnone | ⟨v, a, b, hv, heq, -⟩ :=
        ((one_version_per_read (.of_decided hw) hns rfl overwritten_tags).2 th (List.mem_of_getElem? hth)
          request policy htask).1
      · rw [hbytes] at hnone
        cases hnone
      · exact ⟨v, a, b, hv, heq⟩
  | _ =>
      rw [htask] at hreads
      cases hreads

end World

end Nestor
