import Nestor.Engine.Duty
import Nestor.Read.Lemmas.PastEnd
import Nestor.Read.Theorems.Window

/-!
# Where the bytes of a read come from

If every block that a read finds or waits for is in the cache, then so are the blocks it has yielded
parts of: its chunks are cut out of consecutive blocks under one tag. The tag may change before the
first chunk, when the reader starts over, and not after it.
-/

namespace Nestor

open Lib

/-! ## What is not seen of a read -/

/-- All operations but the waits for blocks, the items of the stream and its end; a read inserts
nothing. -/
def Op.unseen : Op → Bool
  | .wait _ | .blocksInsert _ _ | .item _ _ | .ended => false
  | _ => true

abbrev Unseen {α : Type} (p : Program α) : Prop := p.Only (·.unseen = true)

theorem Inner.unseen {α : Type} {p : Program α} (h : Inner p) : Unseen p :=
  h.mono fun o ho => by cases o <;> first | rfl | cases ho

theorem Blind.unseen {α : Type} {p : Program α} (h : Blind p) : Unseen p :=
  h.mono fun o ho => by cases o <;> first | rfl | cases ho

section

variable [TagHash] {ns : NamespaceState} {name : Bytes} {request : ReadRange} {policy : FetchPolicy}
  {known : Option ObjectMeta} {fuel : Nat}

omit [TagHash] in
theorem cachedMeta_unseen {key : ObjectKey} : Unseen (cachedMeta ns key request) := by
  refine .step rfl fun answer => ?_
  rcases answer with ⟨i, _ | block⟩ | _ | _
  · trivial
  · exact .step rfl fun _ => trivial
  · exact only_hang rfl
  · exact only_hang rfl

theorem resolveAtOrigin_unseen : Unseen (resolveAtOrigin fuel ns name request known policy) := by
  unfold resolveAtOrigin
  dsimp only
  split
  · exact .step rfl fun now => (probeLoop_blind _).unseen
  · refine .bind (.step rfl fun now => (headLoop_heads _).blind.unseen) fun out => ?_
    obtain _ | e | m := out
    · exact only_hang rfl
    · trivial
    · trivial

theorem resolveCtx_unseen : Unseen (resolveCtx fuel ns name request policy) := by
  have hmissing (known : Option ObjectMeta) : Unseen (resolveMissing fuel ns name request policy known) := by
    unfold resolveMissing
    dsimp only
    split
    · split
      · refine cachedMeta_unseen.bind fun out => ?_
        cases out with
        | some m => trivial
        | none => exact resolveAtOrigin_unseen
      · trivial
    · exact resolveAtOrigin_unseen
  refine .step rfl fun found => ?_
  cases found with
  | fresh m => trivial
  | stale m => exact hmissing (some m)
  | missing => exact hmissing none

end

/-! ## The contract -/

/-- The blocks that an operation gives or takes are in the cache; one that is waited for may be
empty instead. -/
def Supplies (C : BlockKey → Block → Prop) : (o : Op) → Resp o → Prop
  | .blocksInsert key block, _ => C key block
  | .blocksGet keys, .ready (i, some block) => ∀ key, keys[i]? = some key → C key block
  | .wait slot, .ok block => C slot.key block ∨ block.data = []
  | _, _ => True

theorem Supplies.mono {C C' : BlockKey → Block → Prop} (hC : ∀ key block, C key block → C' key block) {o : Op}
    {r : Resp o} (h : Supplies C o r) : Supplies C' o r := by
  cases o
  case blocksInsert key block => exact hC key block h
  case blocksGet keys =>
    rcases r with ⟨i, _ | block⟩ | _ | _
    case ready.some => exact fun key hk => hC key block (h key hk)
    all_goals trivial
  case wait slot =>
    cases r with
    | error e => trivial
    | ok block => exact h.imp_left (hC slot.key block)
  all_goals trivial

def CutOut (C : BlockKey → Block → Prop) (key : BlockKey) (chunk : Bytes) : Prop :=
  ∃ block a b, C key block ∧ chunk = slice block.data a b

namespace Brought

/-- The chunks are cut out of consecutive blocks of the object under one tag. -/
def Cut (C : BlockKey → Block → Prop) (object : ObjectKey) (chunks : List Bytes) : Prop :=
  ∃ tag first, ∀ k chunk, chunks[k]? = some chunk → CutOut C (BlockKey.new object tag (first + k)) chunk

def note (chunks : List Bytes) : Op → List Bytes
  | .item _ (.ok chunk) => chunks ++ [chunk]
  | _ => chunks

/-- The chunks yielded are as `G` says, and no block is inserted. -/
def spec (C : BlockKey → Block → Prop) (G : List Bytes → Prop) : Spec Op Resp (Sight × List Bytes) where
  guar g o := G g.2 ∧ ∀ key block, o ≠ .blocksInsert key block
  rely _ o r := Sight.rely o r ∧ Supplies C o r
  next g o r := (g.1.after o r, note g.2 o)

variable {C : BlockKey → Block → Prop} {G : List Bytes → Prop} {object : ObjectKey} {f : Sight}
  {chunks : List Bytes}

theorem cut_nil : Cut C object [] := ⟨0, 0, nofun⟩

/-- What a task has seen in the cache is in the cache. -/
def Stored (C : BlockKey → Block → Prop) (f : Sight) : Prop := ∀ p ∈ f.stored, C p.1 p.2

theorem stored_after {o : Op} {r : Resp o} (h : Stored C f) (hr : Supplies C o r) :
    Stored C (f.after o r) := by
  cases o
  case blocksInsert key block => exact List.forall_mem_cons.mpr ⟨hr, h⟩
  case blocksGet keys =>
    rcases r with ⟨i, found⟩ | _ | _
    · change Stored C ((keys[i]?).elim f (f.looked · found))
      cases hi : keys[i]? with
      | none => exact h
      | some key =>
          cases found with
          | none => exact h
          | some block => exact List.forall_mem_cons.mpr ⟨hr key hi, h⟩
    · exact h
    · exact h
  case register => cases r <;> exact h
  all_goals exact h

theorem note_unseen {o : Op} (ho : o.unseen = true) :
    note chunks o = chunks ∧ ∀ key block, o ≠ .blocksInsert key block := by
  cases o
  case blocksInsert | item => cases ho
  all_goals exact ⟨rfl, nofun⟩

/-- What a program sees, while it yields nothing. -/
theorem unseen_wp {α : Type} {p : Program α} {Q : Sight → α → Prop} (ho : Unseen p) (h : wp Sight.watch p Q f)
    (hf : Stored C f) (hc : G chunks) :
    wp (spec C G) p (fun g a => Q g.1 a ∧ Stored C g.1 ∧ g.2 = chunks) (f, chunks) := by
  induction p generalizing f with
  | pure a => exact ⟨h, hf, rfl⟩
  | op o k ih =>
      obtain ⟨hnote, hno⟩ := note_unseen ho.1
      refine ⟨⟨hc, hno⟩, fun r hr => ?_⟩
      change wp (spec C G) (k r) _ (f.after o r, note chunks o)
      rw [hnote]
      exact ih r (ho.2 r) (h.2 r hr.1) (stored_after hf hr.2)

theorem hang_wp {α : Type} {Q : Sight × List Bytes → α → Prop} {g : Sight × List Bytes} (hc : G g.2) :
    wp (spec C G) hang Q g := ⟨⟨hc, nofun⟩, nofun⟩

theorem wait_wp {key : BlockKey} {handle : SlotHandle} (hg : f.Gives key handle) (hf : Stored C f)
    (hc : G chunks) :
    wp (spec C G) handle.wait
      (fun g result => g = (f, chunks) ∧ ∀ block, result = .ok block → C key block ∨ block.data = [])
      (f, chunks) := by
  cases handle with
  | resolved result =>
      obtain ⟨block, rfl, hb⟩ := hg
      refine ⟨rfl, ?_⟩
      rintro _ ⟨⟩
      exact .inl (hf _ hb)
  | waiting slot =>
      obtain ⟨-, rfl⟩ := hg
      refine wp_call.mpr ⟨⟨hc, nofun⟩, fun result hr => ⟨rfl, ?_⟩⟩
      rintro block rfl
      exact hr.2

end Brought

def yielded (tr : Trace) : List Bytes := tr.filterMap fun
  | ⟨.item _ (.ok chunk), _⟩ => some chunk
  | _ => none

namespace Brought

variable {C : BlockKey → Block → Prop} {G : List Bytes → Prop}

theorem ghost_yielded (f : Sight) (chunks : List Bytes) (tr : Trace) :
    ((spec C G).ghost (f, chunks) tr).2 = chunks ++ yielded tr := by
  induction tr generalizing f chunks with
  | nil => exact (List.append_nil _).symm
  | cons d tr ih =>
      obtain ⟨o, r⟩ := d
      refine (ih (f.after o r) (note chunks o)).trans ?_
      cases o
      case item known item =>
        cases item with
        | error e => rfl
        | ok chunk => exact List.append_assoc ..
      all_goals rfl

theorem of_runs {p q : Program Unit} {f : Sight} {tr : Trace} (h : wp (spec C G) p (fun g _ => G g.2) (f, []))
    (hruns : Runs p tr q) (hsight : ∀ d ∈ tr, Sight.rely d.1 d.2)
    (hsupplies : ∀ d ∈ tr, (∀ key block, d.1 ≠ .blocksInsert key block) → Supplies C d.1 d.2) :
    G (yielded tr) := by
  have hrely (g : Sight × List Bytes) (o : Op) (r : Resp o) (hguar : (spec C G).guar g o)
      (ha : Sight.rely o r ∧ ((∀ key block, o ≠ .blocksInsert key block) → Supplies C o r)) :
      (spec C G).rely g o r :=
    ⟨ha.1, ha.2 hguar.2⟩
  have hend := (wp_runs_of hrely h hruns fun d hd => ⟨hsight d hd, hsupplies d hd⟩).2
  rw [← List.nil_append (yielded tr), ← ghost_yielded f]
  cases q with
  | pure u => exact hend
  | op o k => exact hend.1.1

end Brought

/-! ## The reader -/

namespace Reader

variable {r : Reader} {f : Sight} {fuel : Nat}

theorem Sound.fillLoop (h : r.Sound f) :
    wp Sight.watch (Reader.fillLoop r.limit fuel r) (fun f' r' => r'.Sound f') f := by
  induction fuel generalizing r f with
  | zero => exact Sight.watch_hang
  | succ fuel ih =>
      unfold Reader.fillLoop
      split
      · rename_i hgo
        refine wp_seq (wp_yields (h.takeMore hgo.2) (takeMore_limit r.limit)) fun f₁ out h₁ => ?_
        obtain ⟨r₁, more⟩ := out
        obtain ⟨h₁, hlimit⟩ := h₁
        cases more with
        | true =>
            rw [← hlimit]
            exact ih h₁
        | false => exact h₁
      · exact h

theorem Sound.fill (h : r.Sound f) : wp Sight.watch (r.fill fuel) (fun f' r' => r'.Sound f') f :=
  wp_seq (h.learn none) fun _ _ h₁ => h₁.fillLoop

theorem learn_unseen (m : Option ObjectMeta) : Unseen (r.learn m) := by
  unfold Reader.learn
  split
  · trivial
  · trivial
  · refine .step rfl fun answer => ?_
    cases answer <;> trivial

theorem fill_unseen : Unseen (r.fill fuel) := (learn_unseen none).bind fun _ => fillLoop_inner.unseen

theorem restart_unseen [TagHash] : Unseen (r.restart fuel) := by
  refine resolveCtx_unseen.bind fun out => ?_
  rcases out with e | ⟨ctx, fetched⟩
  · trivial
  · dsimp only
    split
    · trivial
    · split <;> trivial

/-- Learning metadata and filling the window leave the rest of the reader alone. -/
structure SameRead (r r' : Reader) : Prop where
  ctx : r'.ctx = r.ctx
  first : r'.first = r.first
  emit : r'.emit = r.emit

theorem SameRead.trans {r₁ r₂ : Reader} (h : r.SameRead r₁) (h' : r₁.SameRead r₂) : r.SameRead r₂ :=
  ⟨h'.ctx.trans h.ctx, h'.first.trans h.first, h'.emit.trans h.emit⟩

theorem learn_same (m : Option ObjectMeta) : (r.learn m).Yields r.SameRead := by
  unfold Reader.learn
  split
  · exact ⟨rfl, rfl, rfl⟩
  · exact ⟨rfl, rfl, rfl⟩
  · refine .step fun answer => ?_
    cases answer <;> exact ⟨rfl, rfl, rfl⟩

theorem fill_same : (r.fill fuel).Yields r.SameRead := by
  refine (learn_same none).bind fun r₁ h₁ => fillLoop_same.mono fun r₂ h₂ => h₁.trans ?_
  obtain ⟨next, window, rfl⟩ := h₂
  exact ⟨rfl, rfl, rfl⟩

end Reader

/-! ## Chunks of some block

Without any condition on the windows, every chunk is cut out of a block that was supplied. -/

namespace Brought

/-- The handles of the reader are those it was given. -/
structure Handed (f : Sight) (r : Reader) : Prop where
  idle : f.gap = none
  alone : f.group = false
  window : ∀ handle ∈ r.window, ∃ key, f.Gives key handle

def Cuts (C : BlockKey → Block → Prop) (chunks : List Bytes) : Prop :=
  ∀ chunk ∈ chunks, ∃ key, CutOut C key chunk

variable {C : BlockKey → Block → Prop} {f f' : Sight} {chunks : List Bytes} {r r' : Reader} {fuel first : Nat}
    {ctx : ReadCtx} {handles : List SlotHandle}

theorem gives_of_from (h : f.GivesFrom ctx first handles) :
    ∀ handle ∈ handles, ∃ key, f.Gives key handle := by
  induction handles generalizing first with
  | nil => exact List.forall_mem_nil _
  | cons handle handles ih =>
      obtain ⟨hg, h⟩ := Sight.GivesFrom.cons_iff.mp h
      exact List.forall_mem_cons.mpr ⟨⟨_, hg⟩, ih h⟩

theorem Handed.grows (h : Handed f r) (hg : f.Grows f') (hw : r'.window = r.window) : Handed f' r' where
  idle := hg.gap
  alone := hg.group.trans h.alone
  window := by
    rw [hw]
    exact fun handle hh => (h.window handle hh).imp fun key hk => hk.mono hg.stored hg.known

theorem Handed.replace (h : Handed f r) (hh : ∀ handle ∈ handles, ∃ key, f.Gives key handle)
    (hw : r'.window = handles) :
    Handed f r' := ⟨h.idle, h.alone, hw ▸ hh⟩

theorem Handed.learn (h : Handed f r) (m : Option ObjectMeta) :
    wp Sight.watch (r.learn m) (fun f' r' => Handed f' r') f := by
  unfold Reader.learn
  split
  · exact h
  · exact h.replace h.window rfl
  · refine wp_then trivial fun answer _ => ?_
    cases answer with
    | none => exact h
    | some m => exact h.replace h.window rfl

theorem Handed.takeMore {limit : Nat} (h : Handed f r) :
    wp Sight.watch (r.takeMore limit) (fun f' out => Handed f' out.1) f := by
  unfold Reader.takeMore
  dsimp only
  split
  · exact h
  · refine wp_seq (Sight.schedule_given h.idle h.alone) fun f₁ handles h₁ => ?_
    have h₀ := h.grows h₁.1 rfl
    exact h₀.replace (List.forall_mem_append.mpr ⟨h₀.window, gives_of_from h₁.2.2⟩) rfl

theorem Handed.fill (h : Handed f r) : wp Sight.watch (r.fill fuel) (fun f' r' => Handed f' r') f := by
  have hloop {limit : Nat} {r : Reader} {f : Sight} (h : Handed f r) :
      wp Sight.watch (Reader.fillLoop limit fuel r) (fun f' r' => Handed f' r') f := by
    induction fuel generalizing r f with
    | zero => exact Sight.watch_hang
    | succ fuel ih =>
        unfold Reader.fillLoop
        split
        · refine wp_seq h.takeMore fun f₁ out h₁ => ?_
          obtain ⟨r₁, _ | _⟩ := out
          · exact h₁
          · exact ih h₁
        · exact h
  exact wp_seq (h.learn none) fun _ _ h₁ => hloop h₁

theorem cutOut_of_deliver {key : BlockKey} {block : Block} {index : Nat} {chunk : Bytes}
    (hb : C key block ∨ block.data = []) (h : (r.deliver index block).2 = some (.ok chunk)) :
    CutOut C key chunk := by
  unfold Reader.deliver at h
  dsimp only at h
  split at h
  · split at h <;> cases h
  · rename_i hshort
    cases h
    exact ⟨block, _, _, hb.resolve_right fun hempty => hshort (.inl hempty), rfl⟩

section

variable [TagHash]

theorem Handed.restart (h : Handed f r) :
    wp Sight.watch (r.restart fuel) (fun f' out => Handed f' out.1) f := by
  unfold Reader.restart
  refine wp_seq (Sight.resolveCtx_given h.idle) fun f₁ out h₁ => ?_
  obtain ⟨hg, hres⟩ := h₁
  have hnone {r' : Reader} (hw : r'.window = []) : Handed f₁ r' :=
    (h.grows hg rfl).replace (List.forall_mem_nil _) hw
  obtain e | ⟨ctx, fetched⟩ := out
  · exact hnone rfl
  · dsimp only
    split
    · exact hnone rfl
    · split
      · exact hnone rfl
      · exact (h.grows hg rfl).replace (gives_of_from hres.2.1.given) rfl

theorem Handed.nextItem (h : Handed f r) (hf : Stored C f) (hc : Cuts C chunks) :
    wp (spec C (Cuts C)) (r.nextItem fuel) (fun g out => g.2 = chunks ∧ Stored C g.1 ∧ Handed g.1 out.1 ∧
      ∀ chunk, out.2 = some (.ok chunk) → ∃ key, CutOut C key chunk) (f, chunks) := by
  induction fuel generalizing r f with
  | zero => exact hang_wp hc
  | succ fuel ih =>
      unfold Reader.nextItem
      split
      · exact ⟨rfl, hf, h, by simp⟩
      · refine wp_seq (unseen_wp Reader.fill_unseen h.fill hf hc) fun g₁ r₁ h₁ => ?_
        obtain ⟨f₁, chunks₁⟩ := g₁
        obtain ⟨h₁, hf₁, rfl⟩ := h₁
        cases hwindow : r₁.window with
        | nil => exact ⟨rfl, hf₁, h₁.replace (List.forall_mem_nil _) rfl, by simp⟩
        | cons handle window =>
            obtain ⟨⟨key, hgives⟩, hrest⟩ := List.forall_mem_cons.mp (hwindow ▸ h₁.window)
            have hpopped : Handed f₁ { r₁ with window := window, emit := r₁.emit + 1 } := h₁.replace hrest rfl
            refine wp_seq (wait_wp hgives hf₁ hc) fun g₂ result h₂ => ?_
            obtain ⟨rfl, hblock⟩ := h₂
            cases result with
            | ok block =>
                refine wp_seq (unseen_wp (Reader.learn_unseen _) (hpopped.learn (some block.meta)) hf₁ hc)
                  fun g₃ r₃ h₃ => ?_
                obtain ⟨f₃, chunks₃⟩ := g₃
                obtain ⟨h₃, hf₃, rfl⟩ := h₃
                obtain ⟨done, item, heq, -, -⟩ := r₃.deliver_eq r₁.emit block
                refine ⟨rfl, hf₃, ?_, fun chunk hchunk => ⟨key, cutOut_of_deliver (hblock block rfl) hchunk⟩⟩
                rw [heq]
                exact h₃.replace h₃.window rfl
            | error e =>
                dsimp only
                split
                · refine wp_seq (unseen_wp (schedule_inner _ _ _).unseen
                    (Sight.schedule_given hpopped.idle hpopped.alone) hf₁ hc) fun g₃ handles h₃ => ?_
                  obtain ⟨f₃, chunks₃⟩ := g₃
                  obtain ⟨⟨hgrows, -, hgiven⟩, hf₃, rfl⟩ := h₃
                  have h₃ := hpopped.grows hgrows rfl
                  exact ih (h₃.replace (List.forall_mem_append.mpr ⟨gives_of_from hgiven, h₃.window⟩) rfl) hf₃
                · split
                  · refine wp_seq (unseen_wp Reader.restart_unseen hpopped.restart hf₁ hc) fun g₃ out h₃ => ?_
                    obtain ⟨f₃, chunks₃⟩ := g₃
                    obtain ⟨h₃, hf₃, rfl⟩ := h₃
                    obtain ⟨r₃, e' | ⟨⟩⟩ := out
                    · exact ⟨rfl, hf₃, h₃.replace h₃.window rfl, by simp⟩
                    · exact ih h₃ hf₃
                  · exact wp_then ⟨hc, by simp⟩ fun sole _ => ⟨rfl, hf₁,
                      hpopped.replace hpopped.window rfl, by simp⟩

theorem Handed.stream {rounds : Nat} (h : Handed f r) (hf : Stored C f) (hc : Cuts C chunks) :
    wp (spec C (Cuts C)) (Reader.stream fuel rounds r) (fun g _ => Cuts C g.2) (f, chunks) := by
  induction rounds generalizing r f chunks with
  | zero => exact hang_wp hc
  | succ rounds ih =>
      refine wp_seq (h.nextItem hf hc) fun g₁ out h₁ => ?_
      obtain ⟨f₁, chunks₁⟩ := g₁
      obtain ⟨r₁, item⟩ := out
      obtain ⟨heq, hf₁, h₁, hcut⟩ := h₁
      obtain rfl : chunks₁ = chunks := heq
      obtain _ | e | chunk := item
      · exact ⟨⟨hc, nofun⟩, fun _ _ => hc⟩
      · exact wp_then ⟨hc, nofun⟩ fun _ _ => ih h₁ hf₁ hc
      · refine wp_then ⟨hc, nofun⟩ fun _ _ => ih h₁ hf₁ ?_
        exact List.forall_mem_append.mpr ⟨hc, List.forall_mem_singleton.mpr (hcut chunk rfl)⟩

theorem getOpts_of_stream {G : List Bytes → Prop} {ns : NamespaceState} {object : Bytes} {request : ReadRange}
    {policy : FetchPolicy} (hnil : G []) (hstream : ∀ f ctx fetched range, f.gap = none → f.group = false →
      Stored C f → Sight.Resolved f ns object request (.ok (ctx, fetched)) → readRange ctx request =
        some (.ok range) →
      wp (spec C G) ((Reader.new request ctx range fetched).stream fuel fuel) (fun g _ => G g.2) (f, [])) :
    wp (spec C G) (getOpts fuel ns object request policy) (fun g _ => G g.2)
    (⟨false, [], [], [], none⟩, []) := by
  unfold getOpts
  refine wp_seq (unseen_wp resolveCtx_unseen (Sight.resolveCtx_given rfl) (List.forall_mem_nil _) hnil)
    fun g₁ out h₁ => ?_
  obtain ⟨f₁, chunks₁⟩ := g₁
  obtain ⟨⟨hgrows, hres⟩, hf₁, hnone⟩ := h₁
  obtain rfl : chunks₁ = [] := hnone
  rcases out with e | ⟨ctx, fetched⟩
  · exact ⟨⟨hnil, nofun⟩, fun _ _ => hnil⟩
  · dsimp only
    cases hrange : readRange ctx request with
    | none => exact hang_wp hnil
    | some answer =>
        cases answer with
        | error e => exact ⟨⟨hnil, nofun⟩, fun _ _ => hnil⟩
        | ok range =>
            have hopen : wp (spec C G) (perform (.opened range ctx.meta) >>= fun _ =>
                (Reader.new request ctx range fetched).stream fuel fuel) (fun g _ => G g.2) (f₁, []) :=
              wp_then ⟨hnil, nofun⟩ fun _ _ => hstream f₁ ctx fetched range hgrows.gap hgrows.group
                hf₁ hres hrange
            dsimp only
            split
            · refine wp_then ⟨hnil, nofun⟩ fun sequential _ => ?_
              split
              · refine wp_seq (unseen_wp (spawnReadahead_easy ns ctx range).inner.unseen
                  (Q := fun f' _ => f' = f₁) ?_ hf₁ hnil) fun g₂ _ h₂ => ?_
                · unfold spawnReadahead
                  dsimp only
                  split
                  · exact rfl
                  · exact ⟨trivial, fun _ _ => rfl⟩
                · obtain ⟨f₂, chunks₂⟩ := g₂
                  obtain ⟨hsight, -, hnone⟩ := h₂
                  obtain rfl : f₂ = f₁ := hsight
                  obtain rfl : chunks₂ = [] := hnone
                  exact hopen
              · exact hopen
            · exact hopen

/-- Whatever a read yields is cut out of the blocks it is given. -/
theorem getOpts_cuts {ns : NamespaceState} {object : Bytes} {request : ReadRange} {policy : FetchPolicy} :
    wp (spec C (Cuts C)) (getOpts fuel ns object request policy) (fun g _ => Cuts C g.2)
      (⟨false, [], [], [], none⟩, []) := by
  refine getOpts_of_stream (List.forall_mem_nil _) fun f ctx fetched range hgap hgroup hf hres _ => ?_
  exact Handed.stream ⟨hgap, hgroup, gives_of_from hres.2.1.given⟩ hf (List.forall_mem_nil _)

end

end Brought

/-! ## Yielding -/

namespace Brought

/-- The reader of the object has yielded these chunks, one of each block from the first on. -/
structure Yielded (C : BlockKey → Block → Prop) (home : Home) (chunks : List Bytes) (r : Reader) : Prop where
  ctx : r.ctx.At home
  emit : r.emit = r.first + chunks.length
  cuts : ∀ k chunk, chunks[k]? = some chunk → CutOut C (BlockKey.new r.ctx.key r.ctx.tag (r.first + k)) chunk

variable {C : BlockKey → Block → Prop} {home : Home} {f : Sight} {chunks : List Bytes} {r r' : Reader}
  {fuel : Nat}

theorem Yielded.cut (h : Yielded C home chunks r) : Cut C home.key chunks :=
  ⟨r.ctx.tag, r.first, h.ctx.key ▸ h.cuts⟩

theorem Yielded.of_same (h : Yielded C home chunks r) (hsame : r.SameRead r') : Yielded C home chunks r' := by
  obtain ⟨hctx, hfirst, hemit⟩ := hsame
  refine ⟨?_, ?_, ?_⟩
  · rw [hctx]
    exact h.ctx
  · rw [hemit, hfirst]
    exact h.emit
  · rw [hctx, hfirst]
    exact h.cuts

def After (C : BlockKey → Block → Prop) (home : Home) (f : Sight) (chunks : List Bytes) (r : Reader) :
    Option (Except NestorError Bytes) → Prop
  | some (.ok chunk) => r.Sound f ∧ Stored C f ∧ Yielded C home (chunks ++ [chunk]) r
  | some (.error _) => r.done = true
  | none => True

theorem after_deliver {block : Block} {index : Nat} (h : r.Sound f) (hf : Stored C f) (hctx : r.ctx.At home)
    (hcuts : ∀ k chunk, chunks[k]? = some chunk → CutOut C (BlockKey.new r.ctx.key r.ctx.tag (r.first + k))
      chunk)
    (hindex : index = r.first + chunks.length) (hemit : r.emit = index + 1)
    (hb : C (BlockKey.new r.ctx.key r.ctx.tag index) block ∨ block.data = []) :
    After C home f chunks (r.deliver index block).1 (r.deliver index block).2 := by
  unfold Reader.deliver
  dsimp only
  split
  · split
    · exact rfl
    · trivial
  · rename_i hshort
    have hb := hb.resolve_right fun hempty => hshort (.inl hempty)
    refine ⟨h.of_same rfl rfl rfl rfl (Nat.le_refl _), hf, hctx, ?_, fun k chunk hk => ?_⟩
    · rw [List.length_append, List.length_singleton]
      change r.emit = r.first + (chunks.length + 1)
      omega
    · rw [List.getElem?_append] at hk
      split at hk
      · exact hcuts k chunk hk
      · rename_i hlen
        rw [List.getElem?_singleton] at hk
        split at hk
        · cases hk
          obtain rfl : k = chunks.length := by omega
          rw [← hindex]
          exact ⟨block, _, _, hb, rfl⟩
        · cases hk

variable [TagHash]

theorem nextItem_wp (h : r.Sound f) (hf : Stored C f) (hy : Yielded C home chunks r) :
    wp (spec C (Cut C home.key)) (r.nextItem fuel)
    (fun g out => g.2 = chunks ∧ After C home g.1 chunks out.1 out.2) (f, chunks) := by
  induction fuel generalizing r f with
  | zero => exact hang_wp hy.cut
  | succ fuel ih =>
      unfold Reader.nextItem
      split
      · exact ⟨rfl, trivial⟩
      · refine wp_seq (wp_yields (unseen_wp Reader.fill_unseen h.fill hf hy.cut) Reader.fill_same)
          fun g₁ r₁ h₁ => ?_
        obtain ⟨f₁, chunks₁⟩ := g₁
        obtain ⟨⟨h₁, hf₁, rfl⟩, hsame⟩ := h₁
        have hy₁ := hy.of_same hsame
        cases hwindow : r₁.window with
        | nil => exact ⟨rfl, trivial⟩
        | cons handle window =>
            have hgives := h₁.handles
            rw [hwindow, Sight.GivesFrom.cons_iff] at hgives
            have hpopped := h₁.pop hwindow
            refine wp_seq (wait_wp hgives.1 hf₁ hy₁.cut) fun g₂ result h₂ => ?_
            obtain ⟨rfl, hblock⟩ := h₂
            cases result with
            | ok block =>
                refine wp_seq (wp_yields (unseen_wp (Reader.learn_unseen _) (hpopped.learn (some block.meta))
                  hf₁ hy₁.cut) (Reader.learn_same _)) fun g₃ r₃ h₃ => ?_
                obtain ⟨f₃, chunks₃⟩ := g₃
                obtain ⟨⟨h₃, hf₃, rfl⟩, hctx, hfirst, hemit⟩ := h₃
                have hctx : r₃.ctx = r₁.ctx := hctx
                have hfirst : r₃.first = r₁.first := hfirst
                refine ⟨rfl, after_deliver h₃ hf₃ ?_ ?_ ?_ hemit ?_⟩
                · rw [hctx]
                  exact hy₁.ctx
                · rw [hctx, hfirst]
                  exact hy₁.cuts
                · rw [hfirst]
                  exact hy₁.emit
                · rw [hctx]
                  exact hblock block rfl
            | error e =>
                dsimp only
                split
                · -- the block was cancelled: it is scheduled again, at the same place
                  refine wp_seq (unseen_wp (schedule_inner _ _ _).unseen
                    (Sight.schedule_given h₁.idle h₁.alone) hf₁ hy₁.cut) fun g₃ handles h₃ => ?_
                  obtain ⟨f₃, chunks₃⟩ := g₃
                  obtain ⟨⟨hgrows, hlen, hgiven⟩, hf₃, rfl⟩ := h₃
                  obtain ⟨handle₃, rfl⟩ := List.length_eq_one_iff.mp
                    (hlen.trans (Nat.add_sub_cancel_left _ _))
                  exact ih ((h₁.grows hgrows).refetch hwindow hgiven) hf₃ ⟨hy₁.ctx, hy₁.emit, hy₁.cuts⟩
                · split
                  · rename_i hstale
                    have hnone : chunks₁ = [] := by
                      have hemit : r₁.emit = r₁.first + chunks₁.length := hy₁.emit
                      have hfirst : r₁.emit = r₁.first := hstale.2.2
                      exact List.length_eq_zero_iff.mp (by omega)
                    subst hnone
                    refine wp_seq (unseen_wp Reader.restart_unseen hpopped.restart hf₁ hy₁.cut)
                      fun g₃ out h₃ => ?_
                    obtain ⟨f₃, chunks₃⟩ := g₃
                    obtain ⟨r₃, e' | ⟨⟩⟩ := out
                    · exact ⟨h₃.2.2, rfl⟩
                    · obtain ⟨h₃, hf₃, rfl⟩ := h₃
                      obtain ⟨h₃, hat, hemit⟩ := h₃ rfl
                      have hhome : Home.of r₁.ctx.namespace r₁.ctx.name = home := hy₁.ctx.home
                      exact ih h₃ hf₃ ⟨hhome ▸ hat, hemit, by simp⟩
                  · exact wp_then ⟨hy₁.cut, by simp⟩ fun sole _ => ⟨rfl, rfl⟩

theorem stream_wp {rounds : Nat} (h : r.done = true ∨ r.Sound f ∧ Stored C f ∧ Yielded C home chunks r)
    (hc : Cut C home.key chunks) :
    wp (spec C (Cut C home.key)) (Reader.stream fuel rounds r) (fun g _ => Cut C home.key g.2)
    (f, chunks) := by
  induction rounds generalizing r f chunks with
  | zero => exact hang_wp hc
  | succ rounds ih =>
      rcases h with hdone | ⟨h, hf, hy⟩
      · cases fuel with
        | zero => exact ⟨⟨hc, by simp⟩, nofun⟩
        | succ fuel =>
            unfold Reader.stream Reader.nextItem
            rw [if_pos hdone]
            exact ⟨⟨hc, by simp⟩, fun _ _ => hc⟩
      · refine wp_seq (nextItem_wp h hf hy) fun g₁ out h₁ => ?_
        obtain ⟨f₁, chunks₁⟩ := g₁
        obtain ⟨r₁, _ | e | chunk⟩ := out
        all_goals
          obtain ⟨heq, h₁⟩ := h₁
          obtain rfl : chunks₁ = chunks := heq
        · exact ⟨⟨hc, by simp⟩, fun _ _ => hc⟩
        · exact wp_then ⟨hc, by simp⟩ fun _ _ => ih (.inl h₁) hc
        · exact wp_then ⟨hc, by simp⟩ fun _ _ => ih (.inr h₁) h₁.2.2.cut

theorem getOpts_wp {ns : NamespaceState} {object : Bytes} {request : ReadRange} {policy : FetchPolicy}
    (hwindowed : 0 < ns.config.fetchWindow) :
    wp (spec C (Cut C ⟨ns.id, object⟩)) (getOpts fuel ns object request policy)
    (fun g _ => Cut C ⟨ns.id, object⟩ g.2)
      (⟨false, [], [], [], none⟩, []) := by
  refine getOpts_of_stream cut_nil fun f ctx fetched range hgap hgroup hf hres hrange => ?_
  have hsound := Reader.Sound.new hres (.of_readRange hrange) hgap hgroup hwindowed
  have hyielded : Yielded C (.of ns object) [] (Reader.new request ctx range fetched) :=
    ⟨hres.1.2, rfl, by simp⟩
  exact stream_wp (.inr ⟨hsound, hf, hyielded⟩) cut_nil

end Brought

end Nestor
