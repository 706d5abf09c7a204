import Nestor.Fetch.Lemmas.Aside
import Nestor.Fetch.Lemmas.Lookup
import Nestor.Read.Lemmas.Fill
import Nestor.Read.Theorems

/-!
# Reads of an origin that works

A read with an origin that answers: a GET inside the object succeeds, one past its end fails or is
answered, a HEAD succeeds, and a block somebody fetches arrives. Its context is always resolved
then.
-/

namespace Nestor

open Lib

variable {α : Type} {o : Op} {deadline : Nat} {ctx : ReadCtx}

/-- The caller does not see the operation, it does not ask for metadata, and it is no wait for a
block. -/
def Op.inner : Op → Bool
  | .metaLookup _ _ | .metaAny _ | .wait _ | .blocksInsert _ _ | .failed _ | .item _ _ | .ended => false
  | _ => true

abbrev Inner {α : Type} (p : Program α) : Prop := p.Only (·.inner = true)

theorem Easy.inner {p : Program α} (h : Easy p) : Inner p :=
  h.mono fun o ho => by cases o <;> first | rfl | cases ho

/-! ## Scheduling is not seen -/

theorem hang_inner : Inner (hang : Program α) := ⟨rfl, nofun⟩

theorem lookups_inner (n : Nat) (keys : List BlockKey) (found : List (BlockKey × Option Block)) :
    Inner (lookups n keys found) := by
  induction n generalizing keys found with
  | zero => trivial
  | succ n ih =>
      refine .step rfl fun answer => ?_
      rcases answer with ⟨i, block⟩ | _ | _
      · dsimp only
        split
        · exact ih _ _
        · exact hang_inner
      · trivial
      · trivial

theorem joinAll_inner (keys : List BlockKey) : Inner (joinAll keys) := by
  refine (lookups_inner _ _ _).bind fun found => ?_
  cases found <;> trivial

theorem registerMisses_easy (results : List (BlockKey × Option Block)) : Easy (registerMisses results) := by
  induction results with
  | nil => trivial
  | cons result results ih =>
      obtain ⟨key, found⟩ := result
      unfold registerMisses
      cases found with
      | some block => exact ih.bind fun _ => trivial
      | none =>
          refine .step rfl fun registration => ?_
          cases registration <;> exact ih.bind fun _ => trivial

theorem resolveLanded_easy (landed : List (Slot × Option Block)) : Easy (resolveLanded landed) := by
  induction landed with
  | nil => trivial
  | cons pair landed ih =>
      obtain ⟨slot, found⟩ := pair
      unfold resolveLanded
      cases found with
      | some block => exact (settle_easy _ _).bind fun _ => ih
      | none => exact ih.bind fun _ => trivial

theorem spawnGroups_easy (ctx : ReadCtx) (priority : Priority) (groups : List FetchGroup)
    (owners : List Slot) :
    Easy (spawnGroups ctx priority groups owners) := by
  induction groups generalizing owners with
  | nil => trivial
  | cons group groups ih => exact .step rfl fun _ => ih _

theorem schedule_inner (ctx : ReadCtx) (indexes : Range) (priority : Priority) :
    Inner (schedule ctx indexes priority) := by
  refine (joinAll_inner _).bind fun out => ?_
  cases out with
  | none => exact hang_inner
  | some results =>
      refine (registerMisses_easy results).inner.bind fun out => ?_
      obtain ⟨handles, owners⟩ := out
      dsimp only
      split
      · trivial
      · refine (joinAll_inner _).bind fun landed => ?_
        cases landed with
        | none => exact (resolveAll_easy _ _).inner.bind fun _ => hang_inner
        | some landed =>
            exact (resolveLanded_easy _).inner.bind fun owners => (spawnGroups_easy _ _ _ _).inner.bind
              fun _ => trivial

namespace Reader

variable {r : Reader} {limit fuel : Nat}

theorem takeMore_inner : Inner (r.takeMore limit) := by
  unfold Reader.takeMore
  dsimp only
  split
  · trivial
  · exact (schedule_inner _ _ _).bind fun _ => trivial

theorem fillLoop_inner : Inner (fillLoop limit fuel r) := by
  induction fuel generalizing r with
  | zero => exact hang_inner
  | succ fuel ih =>
      unfold fillLoop
      split
      · refine takeMore_inner.bind fun out => ?_
        obtain ⟨r', more⟩ := out
        cases more with
        | true => exact ih
        | false => trivial
      · trivial

theorem takeMore_same : (r.takeMore limit).Yields fun out =>
    ∃ next window, out.1 = { r with next := next, window := window } := by
  unfold Reader.takeMore
  dsimp only
  split
  · exact ⟨_, _, rfl⟩
  · exact (Prog.Yields.trivial _).bind fun handles _ => ⟨_, _, rfl⟩

theorem fillLoop_same : (fillLoop limit fuel r).Yields fun r' =>
    ∃ next window, r' = { r with next := next, window := window } := by
  induction fuel generalizing r with
  | zero => exact hang_yields
  | succ fuel ih =>
      unfold fillLoop
      split
      · refine takeMore_same.bind fun out hout => ?_
        obtain ⟨r₁, more⟩ := out
        obtain ⟨next, window, hr₁⟩ := hout
        dsimp only at hr₁
        subst hr₁
        cases more with
        | true => exact ih (r := { r with next := next, window := window })
        | false => exact ⟨next, window, rfl⟩
      · exact ⟨r.next, r.window, rfl⟩

end Reader

theorem spawnReadahead_easy (ns : NamespaceState) (ctx : ReadCtx) (range : Range) :
    Easy (spawnReadahead ns ctx range) := by
  unfold spawnReadahead
  dsimp only
  split
  · trivial
  · exact ⟨rfl, fun _ => trivial⟩

/-! ## Resolving -/

/-- A lookup of blocks comes to an answer. -/
def Op.landed : (o : Op) → Resp o → Prop
  | .blocksGet keys, .ready (i, _) => i < keys.length
  | .blocksGet _, _ => False
  | _, _ => True

/-- What a read does that is shown to nobody. It does not stop in the middle if it `lasts`. -/
def Op.Steady (lasts : Prop) : Op → Prop
  | .clock | .sendGet _ _ _ | .hedge _ | .sendHead _ _ | .awaitHead _ _ | .metaPut _ _ | .register _
  | .unregister _
  | .publish _ _ | .spawn _ => True
  | .awaitGet requests _ _ => requests ≠ []
  | .blocksGet keys => keys ≠ []
  | .hang => ¬ lasts
  | _ => False

variable {lasts : Prop}

theorem Op.Steady.inner (h : o.Steady lasts) : o.inner = true := by
  cases o <;> first | rfl | exact h.elim

theorem Op.steady_of_easy (h : o.easy = true) : o.Steady lasts := by
  cases o <;> first | exact trivial | cases h

variable [TagHash]

/-- The answers of an origin that works, and of fetches that end well. -/
def Works (origin : Bytes → Bytes → Version) (ns : NamespaceState) : (o : Op) → Resp o → Prop
  | .awaitGet requests _ _, .ready (.answered i (.error e)) => ∃ req, requests[i]? = some req ∧
      (e = .notModified ∧ req.options.ifNoneMatch.isSome ∨
        e = .io ∧ ∃ range, req.options.range = some range ∧
          (origin req.namespace req.object).data.length ≤ range.start)
  | .awaitGet _ _ _, .timeout => False
  | .awaitGet _ _ _, .dropped => False
  | .awaitHead _ _, .ready (.error _) => False
  | .awaitHead _ _, .timeout => False
  | .awaitHead _ _, .dropped => False
  | .wait _, .error _ => False
  | o, r => Serves origin ns o r

variable {origin : Bytes → Bytes → Version} {ns : NamespaceState} {name : Bytes} {options : GetOptions}

theorem Works.serves {r : Resp o} (h : Works origin ns o r) : Serves origin ns o r := by
  cases o
  case awaitGet => rcases r with (⟨i, e | r⟩ | _) | _ | _ <;> first | exact h | exact trivial
  case awaitHead => rcases r with (e | m) | _ | _ <;> first | exact h | exact trivial
  case wait => cases r <;> first | exact h | exact trivial
  all_goals exact h

/-- Such an origin and such a cache can answer everything. -/
theorem Op.Steady.answered (h : o.Steady True) : ∃ r, Works origin ns o r ∧ o.landed r := by
  have hnames (v : Version) : v.Names ⟨v.data.length, v.etag, none⟩ := ⟨rfl, rfl⟩
  cases o
  case clock => exact ⟨0, trivial, trivial⟩
  case sendGet ns object options => exact ⟨⟨ns, object, options, 0⟩, ⟨rfl, rfl, rfl⟩, trivial⟩
  case hedge => exact ⟨none, trivial, trivial⟩
  case sendHead ns object => exact ⟨⟨ns, object, 0⟩, ⟨rfl, rfl⟩, trivial⟩
  case awaitHead => exact ⟨.ready (.ok _), hnames _, trivial⟩
  case register key => exact ⟨.waiter ⟨key, 0⟩, rfl, trivial⟩
  case awaitGet requests _ _ =>
    obtain ⟨req, requests, rfl⟩ := List.exists_cons_of_ne_nil h
    exact ⟨.ready (.answered 0 (.ok ⟨_, ⟨0, 0⟩, []⟩)), ⟨req, rfl, hnames _, List.nil_prefix⟩, trivial⟩
  case blocksGet => exact ⟨.ready (0, none), trivial, List.length_pos_of_ne_nil h⟩
  case hang => exact absurd trivial h
  case metaPut | unregister | publish | spawn => exact ⟨(), trivial, trivial⟩
  all_goals exact h.elim

/-- What is shown to nobody, of such an origin; if it `lasts`, the lookups of blocks are answered
too. -/
def workSpec (origin : Bytes → Bytes → Version) (ns : NamespaceState) (lasts : Prop) : Spec Op Resp Unit where
  guar := fun _ o => o.Steady lasts
  rely := fun _ o r => Works origin ns o r ∧ (lasts → o.landed r)
  next := fun _ _ _ => ()

theorem Easy.works {p : Program α} (h : Easy p) : wp (workSpec origin ns lasts) p (fun _ _ => True) () :=
  h.wp (I := fun _ => True) (fun _ _ _ ho => ⟨Op.steady_of_easy ho, fun _ => trivial⟩) trivial

/-- The request is one for the object. -/
def GetRequest.For (req : GetRequest) (ns : NamespaceState) (name : Bytes) (options : GetOptions) : Prop :=
  req.namespace = ns.name ∧ req.object = name ∧ req.options = options

/-- What a GET comes to. -/
def Got (origin : Bytes → Bytes → Version) (ns : NamespaceState) (name : Bytes) (options : GetOptions) :
    Awaited (Except OriginError GetResponse) → Prop
  | .ready (.ok r) => (origin ns.name name).Names r.meta
  | .ready (.error e) => e = .notModified ∧ options.ifNoneMatch.isSome ∨
      e = .io ∧ ∃ range, options.range = some range ∧ (origin ns.name name).data.length ≤ range.start
  | _ => False

theorem got_answered {requests : List GetRequest} {hedge : Bool} {i : Nat}
    {result : Except OriginError GetResponse} (hfor : ∀ req ∈ requests, req.For ns name options)
    (h : Works origin ns (.awaitGet requests hedge deadline) (.ready (.answered i result))) :
    Got origin ns name options (.ready result) := by
  cases result with
  | ok r =>
      have h : ∃ req, requests[i]? = some req ∧ r.Of (origin req.namespace req.object) := h
      obtain ⟨req, hreq, hof⟩ := h
      obtain ⟨hns, hname, -⟩ := hfor req (List.mem_of_getElem? hreq)
      rw [hns, hname] at hof
      exact hof.1
  | error e =>
      obtain ⟨req, hreq, hwhy⟩ := h
      obtain ⟨hns, hname, hoptions⟩ := hfor req (List.mem_of_getElem? hreq)
      rwa [hns, hname, hoptions] at hwhy

theorem awaitLast_works {req : GetRequest} (hfor : req.For ns name options) :
    wp (workSpec origin ns lasts) (awaitLast req deadline)
    (fun _ out => Got origin ns name options out) () := by
  refine wp_then (List.cons_ne_nil _ _) fun answer hworks => ?_
  rcases answer with (⟨i, result⟩ | _) | _ | _
  · exact got_answered (fun req' hreq => List.mem_singleton.mp hreq ▸ hfor) hworks.1
  · cases hworks.1
  · exact hworks.1
  · exact hworks.1

theorem awaitBoth_works {primary secondary : GetRequest} (hprimary : primary.For ns name options)
    (hsecondary : secondary.For ns name options) :
    wp (workSpec origin ns lasts) (awaitBoth primary secondary deadline)
    (fun _ out => Got origin ns name options out) () := by
  have hfor : ∀ req ∈ [primary, secondary], req.For ns name options :=
    List.forall_mem_cons.mpr ⟨hprimary, fun req hreq => List.mem_singleton.mp hreq ▸ hsecondary⟩
  refine wp_then (List.cons_ne_nil _ _) fun answer hworks => ?_
  replace hworks : Works origin ns _ answer := hworks.1
  rcases answer with (⟨i, e | r⟩ | _) | _ | _
  · dsimp only
    split
    · split
      · exact awaitLast_works hsecondary
      · exact awaitLast_works hprimary
    · exact got_answered hfor hworks
  · exact got_answered hfor hworks
  · cases hworks
  · exact hworks
  · exact hworks

theorem getHedged_works (hns : ctx.namespace = ns) (hname : ctx.name = name) :
    wp (workSpec origin ns lasts) (getHedged ctx options deadline)
    (fun _ out => Got origin ns name options out) () := by
  refine wp_then trivial fun primary hsent => ?_
  have hprimary : primary.For ns name options := by
    have hsent : primary.namespace = ctx.namespace.name ∧ primary.object = ctx.name ∧ primary.options =
      options := hsent.1
    obtain ⟨h₁, h₂, h₃⟩ := hsent
    exact ⟨h₁.trans (congrArg _ hns), h₂.trans hname, h₃⟩
  refine wp_then (List.cons_ne_nil _ _) fun answer hworks => ?_
  rcases answer with (⟨i, result⟩ | _) | _ | _
  · exact got_answered (fun req hreq => List.mem_singleton.mp hreq ▸ hprimary) hworks.1
  · refine wp_then trivial fun second hhedge => ?_
    cases second with
    | none => exact awaitLast_works hprimary
    | some secondary =>
        have hhedge : secondary.namespace = primary.namespace ∧ secondary.object = primary.object ∧
          secondary.options = primary.options := hhedge.1
        obtain ⟨h₁, h₂, h₃⟩ := hhedge
        exact awaitBoth_works hprimary ⟨h₁.trans hprimary.1, h₂.trans hprimary.2.1, h₃.trans hprimary.2.2⟩
  · exact hworks.1
  · exact hworks.1

theorem originGet_works (hns : ctx.namespace = ns) (hname : ctx.name = name) :
    wp (workSpec origin ns lasts) (originGet ctx options deadline)
    (fun _ out => Got origin ns name options out) () := by
  refine wp_then trivial fun started _ => ?_
  refine wp_seq (getHedged_works hns hname) fun _ out hgot => ?_
  cases out with
  | ready result => exact hgot
  | timeout => exact hgot.elim
  | dropped => exact hgot.elim

theorem head_works {fuel : Nat} {key : ObjectKey} (hfuel : lasts → 0 < fuel) :
    wp (workSpec origin ns lasts) (head fuel ns key name)
      (fun _ out => ∃ m, out = some (.ok m) ∧ (origin ns.name name).Names m) () := by
  refine wp_then trivial fun now _ => ?_
  cases fuel with
  | zero => exact ⟨fun hl => absurd (hfuel hl) (Nat.lt_irrefl 0), nofun⟩
  | succ fuel =>
      refine wp_then trivial fun started _ => ?_
      refine wp_then trivial fun request hsent => ?_
      refine wp_then trivial fun answer hworks => ?_
      rcases answer with (e | m) | _ | _
      · exact hworks.1.elim
      · have hsent : request.namespace = ns.name ∧ request.object = name := hsent.1
        obtain ⟨h₁, h₂⟩ := hsent
        have hnames : (origin request.namespace request.object).Names m := hworks.1
        rw [h₁, h₂] at hnames
        exact ⟨trivial, fun _ _ => ⟨m, rfl, hnames⟩⟩
      · exact hworks.1.elim
      · exact hworks.1.elim

theorem pastEnd_works {fuel start : Nat} {key : ObjectKey}
    (hstart : (origin ns.name name).data.length ≤ start) (hfuel : lasts → 0 < fuel) :
    wp (workSpec origin ns lasts) (pastEnd fuel ns key name start)
      (fun _ out => ∃ m, out = some (some m) ∧ (origin ns.name name).Names m) () := by
  refine wp_seq (head_works hfuel) fun _ out hout => ?_
  obtain ⟨m, rfl, hnames⟩ := hout
  refine ⟨m, ?_, hnames⟩
  rw [if_pos (hnames.1.trans_le hstart)]

/-- The context of a read is resolved with the metadata of the object. -/
def Resolved (origin : Bytes → Bytes → Version) (ns : NamespaceState) (name : Bytes)
    (out : Except NestorError (ReadCtx × List SlotHandle)) : Prop :=
  ∃ ctx fetched m, out = .ok (ctx, fetched) ∧ ctx.meta = some m ∧ (origin ns.name name).Names m

theorem buildCtx_works {policy : FetchPolicy} {m : ObjectMeta}
    {f : ReadCtx → Program (Except NestorError (ReadCtx × List SlotHandle))}
    {Q : Unit → Except NestorError (ReadCtx × List SlotHandle) → Prop}
    (h : ∀ ctx, ctx.meta = some m → wp (workSpec origin ns lasts) (f ctx) Q ()) :
    wp (workSpec origin ns lasts) (buildCtx ns name policy m >>= f) Q () :=
  ⟨trivial, fun _ _ => h _ rfl⟩

theorem probe_works {fuel : Nat} {indexes : Range} {known : Option ObjectMeta} {policy : FetchPolicy}
    (hknown : ∀ m, known = some m → (origin ns.name name).Names m) (hfuel : lasts → 1 < fuel) :
    wp (workSpec origin ns lasts) (probe fuel ns name indexes known policy)
      (fun _ out => Resolved origin ns name out) () := by
  refine wp_then trivial fun now _ => ?_
  cases fuel with
  | zero => exact ⟨fun hl => absurd (hfuel hl) (Nat.not_lt_zero 1), nofun⟩
  | succ fuel =>
      refine wp_then trivial fun now _ => ?_
      refine wp_seq (originGet_works rfl rfl) fun _ out hgot => ?_
      rcases out with (e | r) | _ | _
      · rcases hgot with ⟨rfl, hasked⟩ | ⟨rfl, range, hrange, hpast⟩
        · cases known with
          | none => cases hasked
          | some m => exact buildCtx_works fun ctx hctx => ⟨ctx, [], m, rfl, hctx, hknown m rfl⟩
        · cases hrange
          refine wp_seq (pastEnd_works hpast fun hl => Nat.lt_of_succ_lt_succ (hfuel hl)) fun _ out hout => ?_
          obtain ⟨m, rfl, hnames⟩ := hout
          exact buildCtx_works fun ctx hctx => ⟨ctx, [], m, rfl, hctx, hnames⟩
      · refine buildCtx_works fun ctx hctx => ?_
        exact wp_seq (adoptResponse_easy ctx indexes r).works fun _ fetched _ =>
          ⟨ctx, fetched, r.meta, rfl, hctx, hgot⟩
      · exact hgot.elim
      · exact hgot.elim

/-! ## Taking up blocks -/

theorem looks_works : Looks (workSpec origin ns lasts) (fun _ => True) (fun _ => ¬ lasts) (fun _ => True)
    fun _ _ _ => True where
  asks := fun _ hne _ => hne
  finds := fun _ _ _ => ⟨trivial, trivial, fun _ _ => id⟩
  strays := fun _ hr hi hl => absurd (hr.2 hl) (Nat.not_lt.mpr (List.getElem?_eq_none_iff.mp hi))
  fails := by
    rintro _ keys _ - hr (rfl | rfl) hl <;> exact hr.2 hl

theorem schedule_works {indexes : Range} {priority : Priority} :
    wp (workSpec origin ns lasts) (schedule ctx indexes priority) (fun _ _ => True) () := by
  refine wp_seq (looks_works.joinAll_wp (fun _ _ => trivial) trivial) fun _ out h => ?_
  cases out with
  | none => exact ⟨h, nofun⟩
  | some results =>
      refine wp_seq (registerMisses_easy results).works fun _ out _ => ?_
      obtain ⟨handles, owners⟩ := out
      dsimp only
      split
      · exact trivial
      · refine wp_seq (looks_works.joinAll_wp (fun _ _ => trivial) trivial) fun _ out h => ?_
        cases out with
        | none => exact wp_seq (resolveAll_easy _ _).works fun _ _ _ => ⟨h, nofun⟩
        | some landed =>
            refine wp_seq (resolveLanded_easy _).works fun _ owners _ => ?_
            exact wp_seq (spawnGroups_easy _ _ _ _).works fun _ _ _ => trivial

theorem takeMore_works {r : Reader} {limit : Nat} :
    wp (workSpec origin ns lasts) (r.takeMore limit) (fun _ _ => True) () := by
  unfold Reader.takeMore
  dsimp only
  split
  · exact trivial
  · exact wp_seq schedule_works fun _ _ _ => trivial

/-- Each round takes up a block, so there are no more of them than blocks in the window. -/
theorem fillLoop_works {r : Reader} {limit fuel : Nat} (hstop : r.stop ≤ maxU32)
    (hfuel : limit ≤ r.window.length + fuel) :
    wp (workSpec origin ns lasts) (Reader.fillLoop limit (fuel + 1) r) (fun _ _ => True) () := by
  induction fuel generalizing r with
  | zero =>
      unfold Reader.fillLoop
      rw [if_neg fun h => absurd h.1 (Nat.not_lt.mpr hfuel)]
      exact trivial
  | succ fuel ih =>
      unfold Reader.fillLoop
      split
      · rename_i hgo
        refine wp_seq (wp_yields takeMore_works (Reader.takeMore_yields hgo.2 hstop)) fun _ out hout => ?_
        obtain ⟨r₁, _ | _⟩ := out
        · exact trivial
        · obtain ⟨-, -, heq, hmore⟩ := hout
          have hmore : r.window.length < r₁.window.length := hmore rfl
          exact ih (heq.trans_le hstop) (by omega)
      · exact trivial

end Nestor
