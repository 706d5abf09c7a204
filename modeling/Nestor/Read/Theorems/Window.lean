import Nestor.Read.Lemmas.Window
import Nestor.Read.Lemmas.Fill

/-!
# The window of a reader

A reader keeps three cursors: `emit`, the block it waits for next, `next`, the first block it has no
handle for, and the window between them. Every operation moves them in its own way. `Reader.Step`
lists the moves, from one point at which the reader has done what it set out to do to the next; a
call of `next` is a chain of them, unless a restart fails.
-/

namespace Nestor

open Lib

variable {ctx : ReadCtx} {fetched : List SlotHandle} {range : Range}

namespace Reader

/-- How many handles `fill` goes for. -/
def limit (r : Reader) : Nat :=
  if r.size.isSome then r.ctx.namespace.config.readWindow else r.ctx.namespace.config.fetchWindow

/-- The next block is the one waited for. -/
def pop (r : Reader) (window : List SlotHandle) : Reader := { r with window := window, emit := r.emit + 1 }

/-- The handle of a block that was cancelled is replaced. -/
def refetch (r : Reader) (index : Nat) (handles : List SlotHandle) : Reader :=
  { r with refetched := some index, emit := index, window := handles ++ r.window }

/-- The reader yields nothing any more. -/
def finish (r : Reader) : Reader := { r with done := true }

/-- A move of a reader, and the operations it takes. -/
inductive Step [TagHash] : Reader → Trace → Reader → Prop
  | learn {r r' tr} (m : Option ObjectMeta) : Runs (r.learn m) tr (pure r') → Step r tr r'
  | take {r r' tr} (more : Bool) : r.window.length < r.limit → r.next < r.stop →
      Runs (r.takeMore r.limit) tr (pure (r', more)) → Step r tr r'
  | pop {r} (handle : SlotHandle) (window : List SlotHandle) : r.window = handle :: window →
      Step r [] (r.pop window)
  | wait {r tr} (handle : SlotHandle) (result : BlockResult) : Runs handle.wait tr (pure result) → Step r tr r
  /-- The block that was waited for has been cancelled. -/
  | refetch {r tr tr'} (handle : SlotHandle) (window handles : List SlotHandle) (result : BlockResult) :
      r.window = handle :: window → Runs handle.wait tr (pure result) →
      Runs (schedule r.ctx ⟨r.emit, r.emit + 1⟩ .foreground) tr' (pure handles) →
      Step r (tr ++ tr') ((r.pop window).refetch r.emit handles)
  | restart {r r' tr} (fuel : Nat) : Runs (r.restart fuel) tr (pure (r', .ok ())) → Step r tr r'
  | deliver {r} (index : Nat) (block : Block) : Step r [] (r.deliver index block).1
  | sole {r tr} (answer : Bool) : Runs (perform .sole) tr (pure answer) → Step r tr r
  | finish {r} : Step r [] r.finish

/-- A chain of moves. -/
inductive Reaches [TagHash] : Reader → Trace → Reader → Prop
  | refl {r} : Reaches r [] r
  | tail {r r₁ r' tr tr'} : Reaches r tr r₁ → Step r₁ tr' r' → Reaches r (tr ++ tr') r'

/-- The cursors are in step: the window holds the handles of the blocks from `emit` up to `next`,
under the tag of the reader, and no more of them than the larger of the two windows. -/
structure InStep (r : Reader) (f : Sight) : Prop where
  cursors : r.emit + r.window.length = r.next
  handles : f.GivesFrom r.ctx r.emit r.window
  room : r.window.length ≤ max r.ctx.namespace.config.readWindow r.ctx.namespace.config.fetchWindow

/-- What the moves rest on beside that. -/
structure Sound (r : Reader) (f : Sight) : Prop extends r.InStep f where
  idle : f.gap = none
  alone : f.group = false
  below : r.stop ≤ maxU32
  windowed : 0 < r.ctx.namespace.config.fetchWindow

/-! ## The moves -/

variable {r r' : Reader} {f f' : Sight}

theorem Sound.of_same (h : r.Sound f) (hctx : r'.ctx = r.ctx) (hnext : r'.next = r.next)
    (hemit : r'.emit = r.emit) (hwindow : r'.window = r.window) (hstop : r'.stop ≤ r.stop) : r'.Sound f := by
  refine ⟨⟨?_, ?_, ?_⟩, h.idle, h.alone, hstop.trans h.below, ?_⟩
  · rw [hemit, hwindow, hnext]
    exact h.cursors
  · rw [hctx, hemit, hwindow]
    exact h.handles
  · rw [hwindow, hctx]
    exact h.room
  · rw [hctx]
    exact h.windowed

theorem Sound.grows (h : r.Sound f) (hg : f.Grows f') : r.Sound f' :=
  ⟨⟨h.cursors, h.handles.mono hg.stored hg.known, h.room⟩, hg.gap, hg.group.trans h.alone, h.below,
    h.windowed⟩

/-- A program that leaves the table alone, and gives a reader with the same window. -/
theorem Sound.plain {α : Type} {p : Program α} (h : r.Sound f) (hp : Plain p) :
    wp Sight.watch p (fun f' _ => r.Sound f') f :=
  wp_mono (Sight.plain_grows hp h.idle) fun _ _ hg => h.grows hg

theorem Sound.learnt (h : r.Sound f) (m : ObjectMeta) : (r.learnt m).Sound f :=
  h.of_same rfl rfl rfl rfl (Nat.min_le_left _ _)

theorem Sound.learn (h : r.Sound f) (m : Option ObjectMeta) :
    wp Sight.watch (r.learn m) (fun f' r' => r'.Sound f') f := by
  unfold Reader.learn
  cases r.known with
  | some known => exact h
  | none =>
      cases m with
      | some m => exact h.learnt m
      | none =>
          refine wp_then trivial fun answer _ => ?_
          cases answer with
          | none => exact h
          | some m => exact h.learnt m

theorem Sound.extend {take : Nat} {handles : List SlotHandle} (h : r.Sound f) (hlen : handles.length = take)
    (hgiven : f.GivesFrom r.ctx r.next handles)
    (hroom : r.window.length + take ≤ max r.ctx.namespace.config.readWindow
      r.ctx.namespace.config.fetchWindow) :
    (r.extend take handles).Sound f where
  cursors := by
    change r.emit + (r.window ++ handles).length = r.next + take
    rw [List.length_append, hlen, ← Nat.add_assoc, h.cursors]
  handles := h.handles.append (by rwa [h.cursors])
  room := by
    change (r.window ++ handles).length ≤ _
    rwa [List.length_append, hlen]
  idle := h.idle
  alone := h.alone
  below := h.below
  windowed := h.windowed

theorem limit_le : r.limit ≤ max r.ctx.namespace.config.readWindow r.ctx.namespace.config.fetchWindow := by
  unfold limit
  split
  · exact Nat.le_max_left _ _
  · exact Nat.le_max_right _ _

theorem limit_extend (take : Nat) (handles : List SlotHandle) : (r.extend take handles).limit = r.limit := by
  unfold limit
  rfl

theorem takeMore_limit (limit : Nat) : (r.takeMore limit).Yields fun out => out.1.limit = r.limit := by
  unfold Reader.takeMore
  dsimp only
  split
  · exact rfl
  · exact (Prog.Yields.trivial _).bind fun handles _ => limit_extend _ handles

theorem Sound.takeMore (h : r.Sound f) (hlt : r.next < r.stop) :
    wp Sight.watch (r.takeMore r.limit) (fun f' out => out.1.Sound f') f := by
  unfold Reader.takeMore
  dsimp only
  split
  · exact h
  · rename_i hroom
    refine wp_seq (Sight.schedule_given h.idle h.alone) fun f₁ handles h₁ => ?_
    obtain ⟨hg, hlen, hgiven⟩ := h₁
    refine (h.grows hg).extend (hlen.trans (Nat.add_sub_cancel_left _ _)) hgiven ?_
    obtain ⟨-, -, hfew⟩ := alignedTake_spec hlt h.below r.ctx.namespace.config.fetchWindow
    have hwindowed := h.windowed
    rcases eq_or_ne r.window [] with hempty | hne
    · rw [hempty, List.length_nil]
      omega
    · exact (Nat.le_of_not_lt fun hfull => hroom ⟨hne, hfull⟩).trans limit_le

theorem Sound.pop {handle : SlotHandle} {window : List SlotHandle} (h : r.Sound f)
    (hwindow : r.window = handle :: window) : (r.pop window).Sound f where
  cursors := by
    have hcursors := h.cursors
    rw [hwindow, List.length_cons] at hcursors
    change r.emit + 1 + window.length = r.next
    omega
  handles := by
    have hhandles := h.handles
    rw [hwindow, Sight.GivesFrom.cons_iff] at hhandles
    exact hhandles.2
  room := by
    have hroom := h.room
    rw [hwindow, List.length_cons] at hroom
    exact (Nat.le_succ _).trans hroom
  idle := h.idle
  alone := h.alone
  below := h.below
  windowed := h.windowed

theorem Sound.refetch {handle handle' : SlotHandle} {window : List SlotHandle} (h : r.Sound f)
    (hwindow : r.window = handle :: window) (hgiven : f.GivesFrom r.ctx r.emit [handle']) :
    ((r.pop window).refetch r.emit [handle']).Sound f where
  cursors := by
    have hcursors := h.cursors
    rwa [hwindow] at hcursors
  handles := by
    have hhandles := h.handles
    rw [hwindow, Sight.GivesFrom.cons_iff] at hhandles
    exact hgiven.append hhandles.2
  room := by
    have hroom := h.room
    rwa [hwindow] at hroom
  idle := h.idle
  alone := h.alone
  below := h.below
  windowed := h.windowed

theorem wait_plain (handle : SlotHandle) : Plain handle.wait := by
  cases handle with
  | resolved result => exact trivial
  | waiting slot => exact ⟨rfl, fun _ => trivial⟩

theorem sole_plain : Plain (perform .sole) := ⟨rfl, fun _ => trivial⟩

/-! ## Starting -/

/-- What the handles of a resolution set the cursors to, and how many there are. -/
theorem start_cursors {ns : NamespaceState} {name : Bytes} {request : ReadRange} {known : Option ObjectMeta}
    (hres : f.Resolved ns name request (.ok (ctx, fetched))) (hgives : request.Gives known range)
    (hwindowed : 0 < ns.config.fetchWindow) :
    (ns.config.blockSize.blocks range).start + fetched.length =
        addU32 (ns.config.blockSize.blocks range).start (toU32 fetched.length) ∧
      f.GivesFrom ctx (ns.config.blockSize.blocks range).start fetched ∧
      fetched.length ≤ max ns.config.readWindow ns.config.fetchWindow ∧
      (ns.config.blockSize.blocks range).stop ≤ maxU32 := by
  obtain ⟨⟨rfl, -⟩, hfetched, hsuffix⟩ := hres
  have hm : maxU32 = 2 ^ 32 - 1 := rfl
  have hfew := hfetched.few
  rw [ctx.namespace.config.blockSize.blocks_eq hgives.shape]
  dsimp only
  have hindex := (ctx.namespace.config.blockSize.index_le range.start).1
  have hstop := ctx.namespace.config.blockSize.count_le_maxU32 range.stop
  rcases eq_or_ne fetched [] with rfl | hne
  · refine ⟨?_, Sight.givesFrom_nil, Nat.zero_le _, hstop⟩
    rw [List.length_nil, show toU32 0 = 0 from rfl, addU32_of_lt (by omega)]
  · have hbelow := hfetched.below.resolve_left hne
    have hgiven := hfetched.given
    rw [← hgives.first _ fun len hl => hne (hsuffix len hl)] at hbelow hgiven
    refine ⟨?_, hgiven, by omega, hstop⟩
    rw [toU32, Nat.mod_eq_of_lt (by omega), addU32_of_lt (by omega)]

theorem Sound.new {ns : NamespaceState} {name : Bytes} {request : ReadRange}
    (hres : f.Resolved ns name request (.ok (ctx, fetched))) (hgives : request.Gives ctx.meta range)
    (hidle : f.gap = none) (halone : f.group = false) (hwindowed : 0 < ns.config.fetchWindow) :
    (Reader.new request ctx range fetched).Sound f := by
  obtain ⟨hcursors, hgiven, hfew, hstop⟩ := start_cursors hres hgives hwindowed
  obtain ⟨⟨rfl, -⟩, -, -⟩ := hres
  exact ⟨⟨hcursors, hgiven, hfew⟩, hidle, halone, hstop, hwindowed⟩

theorem Sound.repin {m : ObjectMeta} (h : r.Sound f)
    (hres : f.Resolved r.ctx.namespace r.ctx.name r.request (.ok (ctx, fetched)))
    (hrange : r.request.resolve m.size = .ok range) :
    (r.repin ctx m range fetched).Sound f := by
  obtain ⟨hcursors, hgiven, hfew, hstop⟩ := start_cursors hres (.of_resolve hrange) h.windowed
  have hwindowed := h.windowed
  obtain ⟨⟨hns, -⟩, -, -⟩ := hres
  rw [← hns] at hcursors hgiven hfew hstop hwindowed
  exact ⟨⟨hcursors, hgiven, hfew⟩, h.idle, h.alone, hstop, hwindowed⟩

section

variable [TagHash] {fuel : Nat}

theorem Sound.restart (h : r.Sound f) :
    wp Sight.watch (r.restart fuel) (fun f' out => out.2 = .ok () → out.1.Sound f' ∧
      out.1.ctx.At (.of r.ctx.namespace r.ctx.name) ∧ out.1.emit = out.1.first) f := by
  unfold Reader.restart
  refine wp_seq (Sight.resolveCtx_given h.idle) fun f₁ out h₁ => ?_
  obtain ⟨hg, hres⟩ := h₁
  obtain e | ⟨ctx, fetched⟩ := out
  · exact nofun
  · dsimp only
    split
    · exact nofun
    · rename_i m _
      cases hrange : r.request.resolve m.size with
      | error e => exact nofun
      | ok range =>
          intro _
          have h₁ := (h.grows hg).repin hres hrange
          exact ⟨h₁.of_same rfl rfl rfl rfl (Nat.le_refl _), hres.1.2, rfl⟩

/-- Every move keeps the cursors in step. -/
theorem Step.sound {tr : Trace} (hstep : Step r tr r') (h : r.Sound f)
    (hrely : ∀ d ∈ tr, Sight.rely d.1 d.2) : r'.Sound (Sight.watch.ghost f tr) := by
  have hruns {α : Type} {p : Program α} {a : α} {Q : Sight → α → Prop} {tr : Trace} {f : Sight}
      (hp : wp Sight.watch p Q f) (hr : Runs p tr (pure a)) (hrely : ∀ d ∈ tr, Sight.rely d.1 d.2) :
      Q (Sight.watch.ghost f tr) a :=
    (wp_runs_of (fun _ _ _ _ hd => hd) hp hr hrely).2
  cases hstep with
  | learn m hr => exact hruns (h.learn m) hr hrely
  | take more _ hlt hr => exact hruns (h.takeMore hlt) hr hrely
  | pop handle window hwindow => exact h.pop hwindow
  | wait handle result hr => exact hruns (h.plain (wait_plain handle)) hr hrely
  | refetch handle window handles result hwindow hr hr' =>
      rename_i tr₁ tr₂
      have h₁ : r.Sound (Sight.watch.ghost f tr₁) :=
        hruns (h.plain (wait_plain handle)) hr fun d hd => hrely d (List.mem_append_left _ hd)
      obtain ⟨hg, hlen, hgiven⟩ := hruns (Sight.schedule_given h₁.idle h₁.alone) hr' fun d hd =>
        hrely d (List.mem_append_right _ hd)
      rw [Spec.ghost_append]
      obtain ⟨handle', rfl⟩ := List.length_eq_one_iff.mp (hlen.trans (Nat.add_sub_cancel_left _ _))
      exact (h₁.grows hg).refetch hwindow hgiven
  | restart fuel hr => exact (hruns h.restart hr hrely rfl).1
  | deliver index block =>
      obtain ⟨done, result, hd, -, -⟩ := r.deliver_eq index block
      rw [hd]
      exact h.of_same rfl rfl rfl rfl (Nat.le_refl _)
  | sole answer hr => exact hruns (h.plain sole_plain) hr hrely
  | finish => exact h.of_same rfl rfl rfl rfl (Nat.le_refl _)

theorem Reaches.sound {tr : Trace} (hreach : Reaches r tr r') (h : r.Sound f)
    (hrely : ∀ d ∈ tr, Sight.rely d.1 d.2) : r'.Sound (Sight.watch.ghost f tr) := by
  induction hreach with
  | refl => exact h
  | tail _ hstep ih =>
      rw [Spec.ghost_append]
      exact hstep.sound (ih fun d hd => hrely d (List.mem_append_left _ hd)) fun d hd =>
        hrely d (List.mem_append_right _ hd)

/-! ## The moves of a call of `next` -/

variable {tr tr' : Trace}

theorem Reaches.single (h : Step r tr r') : Reaches r tr r' := .tail .refl h

theorem Reaches.trans {r₁ : Reader} (h : Reaches r tr r₁) (h' : Reaches r₁ tr' r') :
    Reaches r (tr ++ tr') r' := by
  induction h' with
  | refl => rwa [List.append_nil]
  | tail _ hstep ih =>
      rw [← List.append_assoc]
      exact .tail ih hstep

theorem fillLoop_reaches (h : Runs (fillLoop r.limit fuel r) tr (pure r')) : Reaches r tr r' := by
  induction fuel generalizing r tr with
  | zero => exact absurd h not_runs_hang
  | succ fuel ih =>
      unfold fillLoop at h
      split at h
      · rename_i hgo
        obtain ⟨tr₁, tr₂, ⟨r₁, more⟩, rfl, htake, hrest⟩ := Runs.of_bind h
        have hstep : Step r tr₁ r₁ := .take more hgo.1 hgo.2 htake
        cases more with
        | true =>
            rw [← (takeMore_limit r.limit).of_runs htake] at hrest
            exact (Reaches.single hstep).trans (ih hrest)
        | false =>
            obtain ⟨rfl, rfl⟩ := Runs.of_pure hrest
            rw [List.append_nil]
            exact .single hstep
      · obtain ⟨rfl, rfl⟩ := Runs.of_pure h
        exact .refl

theorem fill_reaches (h : Runs (r.fill fuel) tr (pure r')) : Reaches r tr r' := by
  obtain ⟨tr₁, tr₂, r₁, rfl, hlearn, hloop⟩ := Runs.of_bind h
  exact (Reaches.single (.learn none hlearn)).trans (fillLoop_reaches hloop)

/-- A restart has failed: the window was cleared, the cursors were not set again, and the reader is
done. -/
inductive RestartFailed : Reader → Trace → Reader → Prop
  | intro {r r₁ r₂ tr tr'} (fuel : Nat) (e : NestorError) : Reaches r tr r₁ →
      Runs (r₁.restart fuel) tr' (pure (r₂, .error e)) → RestartFailed r (tr ++ tr') r₂.finish

theorem RestartFailed.after {r₁ : Reader} (h : Reaches r tr r₁) (h' : RestartFailed r₁ tr' r') :
    RestartFailed r (tr ++ tr') r' := by
  obtain ⟨fuel, e, hreach, hrestart⟩ := h'
  rw [← List.append_assoc]
  exact .intro fuel e (h.trans hreach) hrestart

theorem RestartFailed.done (h : RestartFailed r tr r') : r'.done = true := by
  cases h
  rfl

theorem nextItem_reaches {item : Option (Except NestorError Bytes)}
    (h : Runs (r.nextItem fuel) tr (pure (r', item))) : Reaches r tr r' ∨ RestartFailed r tr r' := by
  induction fuel generalizing r tr with
  | zero => exact absurd h not_runs_hang
  | succ fuel ih =>
      unfold nextItem at h
      split at h
      · obtain ⟨rfl, heq⟩ := Runs.of_pure h
        cases heq
        exact .inl .refl
      · obtain ⟨tr₁, tr₂, r₁, rfl, hfill, h⟩ := Runs.of_bind h
        have h₁ := fill_reaches hfill
        split at h
        · obtain ⟨rfl, heq⟩ := Runs.of_pure h
          cases heq
          exact .inl (h₁.tail .finish)
        · rename_i handle window hwindow
          obtain ⟨tr₃, tr₄, result, rfl, hwait, h⟩ := Runs.of_bind h
          have h₂ : Reaches r (tr₁ ++ tr₃) (r₁.pop window) := by
            have := (h₁.tail (.pop handle window hwindow)).tail (.wait handle result hwait)
            rwa [List.append_nil] at this
          rw [← List.append_assoc]
          cases result with
          | ok block =>
              obtain ⟨tr₅, tr₆, r₂, rfl, hlearn, h⟩ := Runs.of_bind h
              obtain ⟨rfl, heq⟩ := Runs.of_pure h
              have hr := congrArg Prod.fst heq
              dsimp only at hr
              rw [← hr, ← List.append_assoc]
              exact .inl ((h₂.tail (.learn _ hlearn)).tail (.deliver r₁.emit block))
          | error e =>
              dsimp only at h
              split at h
              · obtain ⟨tr₅, tr₆, handles, rfl, hschedule, h⟩ := Runs.of_bind h
                have h₃ := h₁.tail (.refetch handle window handles _ hwindow hwait hschedule)
                rw [List.append_assoc tr₁, ← List.append_assoc tr₃, ← List.append_assoc tr₁]
                exact (ih h).imp h₃.trans (.after h₃)
              · split at h
                · obtain ⟨tr₅, tr₆, ⟨r₂, out⟩, rfl, hrestart, h⟩ := Runs.of_bind h
                  rw [← List.append_assoc]
                  obtain e' | ⟨⟩ := out
                  · obtain ⟨rfl, heq⟩ := Runs.of_pure h
                    cases heq
                    rw [List.append_nil]
                    exact .inr (.intro fuel e' h₂ hrestart)
                  · have h₃ := h₂.tail (.restart fuel hrestart)
                    exact (ih h).imp h₃.trans (.after h₃)
                · obtain ⟨tr₅, tr₆, sole, rfl, hsole, h⟩ := Runs.of_bind h
                  obtain ⟨rfl, heq⟩ := Runs.of_pure h
                  cases heq
                  rw [← List.append_assoc]
                  exact .inl ((h₂.tail (.sole sole hsole)).tail .finish)

/-- From the handles a read is resolved with, the cursors are in step after every move of the
reader; and a call of `next` consists of moves, unless a restart fails, which leaves the reader
done. -/
theorem window_in_step {ns : NamespaceState} {name : Bytes} {request : ReadRange} {policy : FetchPolicy}
    {ctx : ReadCtx} {fetched : List SlotHandle} {range : Range} {seen tr : Trace} {r : Reader}
    (hwindowed : 0 < ns.config.readWindow ∧ 0 < ns.config.fetchWindow)
    (hres : Runs (resolveCtx fuel ns name request policy) seen (pure (.ok (ctx, fetched))))
    (hrange : readRange ctx request = some (.ok range))
    (hreach : Reaches (Reader.new request ctx range fetched) tr r)
    (hrely : ∀ d ∈ seen ++ tr, Sight.rely d.1 d.2) :
    r.InStep (Sight.watch.ghost ⟨false, [], [], [], none⟩ (seen ++ tr)) ∧
      ∀ (fuel : Nat) (tr' : Trace) (r' : Reader) (item : Option (Except NestorError Bytes)),
        Runs (r.nextItem fuel) tr' (pure (r', item)) → Reaches r tr' r' ∨ RestartFailed r tr' r' ∧
        r'.done = true := by
  have hidle : (Sight.mk false [] [] [] none).gap = none := rfl
  obtain ⟨hg, hresolved⟩ := (wp_runs_of (fun _ _ _ _ hd => hd) (Sight.resolveCtx_given hidle) hres
    fun d hd => hrely d (List.mem_append_left _ hd)).2
  have hstart := Sound.new hresolved (.of_readRange hrange) hg.gap hg.group hwindowed.2
  rw [Spec.ghost_append]
  refine ⟨(hreach.sound hstart fun d hd => hrely d (List.mem_append_right _ hd)).toInStep, ?_⟩
  exact fun fuel tr' r' item hnext => (nextItem_reaches hnext).imp_right fun h => ⟨h, h.done⟩

end

section

open Sample

/-- The answers to a read of two blocks whose object is replaced by an empty one before the first of
them comes. -/
def replacedAnswers : Strategy Op Resp := fun tr o =>
  match o with
  | .metaLookup _ _ => some (if tr = [] then .missing else .fresh ⟨0, some [50], none⟩)
  | .clock => some 0
  | .sendGet name object options => some ⟨name, object, options, 0⟩
  | .awaitGet _ _ _ =>
      some (.ready (.answered 0 (.ok ⟨⟨2 * BlockSize.default.bytes, some [49], none⟩,
        ⟨0, 2 * BlockSize.default.bytes⟩, []⟩)))
  | .metaPut _ _ | .spawn _ => some ()
  | .register key => some (.owner ⟨key, 0⟩)
  | .wait _ => some (.error .stale)
  | _ => none

theorem rely_replacedAnswers {tr : Trace} {o : Op} {r : Resp o} (h : replacedAnswers tr o = some r) :
    Sight.rely o r := by
  cases o
  case register =>
    cases h
    exact rfl
  all_goals exact trivial

def replacedRequest : ReadRange := .bounded ⟨0, 2 * BlockSize.default.bytes⟩

def replacedCtx : ReadCtx :=
  ReadCtx.new ⟨0, [97], NamespaceConfig.default⟩ ⟨0, [111]⟩ [111]
    (some ⟨2 * BlockSize.default.bytes, some [49], none⟩) FetchPolicy.default

/-- The reader, with the handles of both blocks. -/
def replacedReader : Reader :=
  Reader.new replacedRequest replacedCtx ⟨0, 2 * BlockSize.default.bytes⟩
    [.waiting ⟨BlockKey.new replacedCtx.key replacedCtx.tag 0, 0⟩,
      .waiting ⟨BlockKey.new replacedCtx.key replacedCtx.tag 1, 0⟩]

/-- Where the restart finds that the range cannot be satisfied any more, `emit` is behind the first
block, the window is empty and `next` is still behind the second one. -/
theorem failed_restart_out_of_step : ∃ seen tr r item,
    Runs (resolveCtx 2 ⟨0, [97], NamespaceConfig.default⟩ [111] replacedRequest FetchPolicy.default) seen
      (pure (.ok (replacedCtx, replacedReader.window))) ∧
    readRange replacedCtx replacedRequest = some (.ok ⟨0, 2 * BlockSize.default.bytes⟩) ∧
    Runs (replacedReader.nextItem 2) tr (pure (r, item)) ∧
    (∀ d ∈ seen ++ tr, Sight.rely d.1 d.2) ∧
    r.emit + r.window.length ≠ r.next := by
  obtain ⟨seen, hseen, hres, hans, -⟩ := Prog.follow_runs replacedAnswers []
    (resolveCtx 2 ⟨0, [97], NamespaceConfig.default⟩ [111] replacedRequest FetchPolicy.default)
  obtain ⟨tr, -, hnext, hans', -⟩ := Prog.follow_runs replacedAnswers [⟨.clock, 0⟩]
    (replacedReader.nextItem 2)
  refine ⟨seen, tr, _, _, hres, by decide, hnext, fun d hd => ?_, ?_⟩
  · rcases List.mem_append.mp hd with hd | hd
    · obtain ⟨before, he⟩ := hans d hd
      exact rely_replacedAnswers he
    · obtain ⟨before, he⟩ := hans' d hd
      exact rely_replacedAnswers he
  · decide

/-- Before that, while it waits for the first block, they are in step. -/
theorem window_in_step_two_blocks : ∃ seen,
    Runs (resolveCtx 2 ⟨0, [97], NamespaceConfig.default⟩ [111] replacedRequest FetchPolicy.default) seen
      (pure (.ok (replacedCtx, replacedReader.window))) ∧
    (replacedReader.pop replacedReader.window.tail).InStep
      (Sight.watch.ghost ⟨false, [], [], [], none⟩ (seen ++ [])) := by
  obtain ⟨seen, hseen, hres, hans, -⟩ := Prog.follow_runs replacedAnswers []
    (resolveCtx 2 ⟨0, [97], NamespaceConfig.default⟩ [111] replacedRequest FetchPolicy.default)
  have hreach : Reaches replacedReader [] (replacedReader.pop replacedReader.window.tail) :=
    .single (.pop _ _ rfl)
  refine ⟨seen, hres, (window_in_step ⟨by decide, by decide⟩ hres rfl hreach fun d hd => ?_).1⟩
  rw [List.append_nil] at hd
  obtain ⟨before, he⟩ := hans d hd
  exact rely_replacedAnswers he

end

end Reader

end Nestor
