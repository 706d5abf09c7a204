import Nestor.Engine.Inflight
import Nestor.Lib.Runs

/-!
# One owner for every key in flight

Whatever the order in which slots are registered, resolved, dropped and waited for, the table holds
the entries of the slots that have yet to remove theirs, and of nobody else; what a handle observes
is the first result its slot was settled with.
-/

namespace Nestor.Inflight

open Lib

variable {slot : Slot} {c : Channel} {settled : Option BlockResult} {n i rx : Nat}

variable {hash : BlockKey → Nat}

/-- The slot has published its result. -/
def Slot.published (slot : Slot) : Bool :=
  match slot.stage with
  | .settle _ _ => slot.resolved
  | .release | .gone => true
  | _ => false

/-- The steps that the code of a slot which was given up has left to take. -/
def Slot.left (slot : Slot) : Nat :=
  let after (dropping : Bool) : Nat := if dropping then 1 else 2
  match slot.stage with
  | .held | .gone => 0
  | .settle _ dropping => (if slot.resolved then 1 else 3) + after dropping
  | .remove _ dropping => 2 + after dropping
  | .publish _ dropping => 1 + after dropping
  | .release => 1

/-- The event is about handles only. -/
def Event.quiet : Event → Bool
  | .resolved _ | .clone _ | .wait _ => true
  | _ => false

theorem Slot.left_le (slot : Slot) : slot.left ≤ 5 := by
  obtain ⟨key, tx, resolved, stage⟩ := slot
  cases stage with
  | held | release | gone => simp [Slot.left]
  | settle result dropping => cases resolved <;> cases dropping <;> simp [Slot.left]
  | remove result dropping | publish result dropping => cases dropping <;> simp [Slot.left]

/-- What the channel of a slot carries at each stage, given the first result the slot is settled
with. -/
def Slot.Ok (slot : Slot) (c : Channel) (settled : Option BlockResult) : Prop :=
  match slot.stage with
  | .held => slot.resolved = false ∧ settled = none ∧ c = .new none
  | .settle result dropping =>
      (slot.resolved = false ∧ settled = some result ∧ c = .new none) ∨
      (slot.resolved = true ∧ dropping = true ∧ ∃ r, settled = some r ∧ c = (Channel.new none).send r)
  | .remove result _ | .publish result _ => slot.resolved = true ∧ settled = some result ∧ c = .new none
  | .release => slot.resolved = true ∧ ∃ r, settled = some r ∧ c = (Channel.new none).send r
  | .gone => ∃ r, settled = some r ∧ c = ((Channel.new none).send r).close

/-- An empty channel is one that nothing was sent to, and it is open. -/
structure Channel.Ok (c : Channel) : Prop where
  opened : c.value = none → c.closed = false
  unsent : c.value = none → c.version = 0

/-- A handle waits for a channel that was empty when it looked, or has returned its value. -/
def Handle.Ok (handle : Handle) (c : Channel) : Prop :=
  match handle.wait with
  | .start | .look => True
  | .changed seen => seen = 0 ∧ (c.value = none ∨ c.version ≠ 0)
  | .returned result => c.value = some result

structure State.Inv (es : List Event) (s : State hash) : Prop where
  slots : ∀ (i : Nat) (slot : Slot), s.slots[i]? = some slot →
    ∃ c, s.channels[slot.tx]? = some c ∧ slot.Ok c (firstSettled es i)
  unsettled : ∀ i, s.slots.length ≤ i → firstSettled es i = none
  own : ∀ (i j : Nat) (a b : Slot), s.slots[i]? = some a → s.slots[j]? = some b → a.tx = b.tx → i = j
  entry : ∀ (key : BlockKey) (rx : Nat), s.table.get key = some rx ↔
    ∃ (i : Nat) (slot : Slot), s.slots[i]? = some slot ∧ slot.key = key ∧ slot.tx = rx ∧ slot.removed = false
  handles : ∀ (n : Nat) (handle : Handle), s.handles[n]? = some handle →
    ∃ c, s.channels[handle.rx]? = some c ∧ handle.Ok c
  channels : ∀ (n : Nat) (c : Channel), s.channels[n]? = some c → c.Ok

theorem firstSettled_snoc (es : List Event) (e : Event) (i : Nat) :
    firstSettled (es ++ [e]) i = (firstSettled es i).or (e.settles i) := by
  simp [firstSettled, List.findSome?_append]

theorem firstSettled_quiet {es : List Event} {e : Event} (h : ∀ i, e.settles i = none) (i : Nat) :
    firstSettled (es ++ [e]) i = firstSettled es i := by
  rw [firstSettled_snoc, h, Option.or_none]

theorem Slot.Ok.published (h : slot.Ok c settled)
    (hp : slot.published) : ∃ r, settled = some r ∧ c.value = some r ∧ c.version = 1 := by
  unfold Slot.Ok at h
  unfold Slot.published at hp
  cases hs : slot.stage with
  | held | remove result dropping | publish result dropping => simp [hs] at hp
  | settle result dropping =>
      simp only [hs] at h hp
      obtain ⟨hr, -⟩ | ⟨-, -, r, hr, rfl⟩ := h
      · simp [hr] at hp
      · exact ⟨r, hr, rfl, rfl⟩
  | release =>
      simp only [hs] at h
      obtain ⟨-, r, hr, rfl⟩ := h
      exact ⟨r, hr, rfl, rfl⟩
  | gone =>
      simp only [hs] at h
      obtain ⟨r, hr, rfl⟩ := h
      exact ⟨r, hr, rfl, rfl⟩

/-- What a channel carries is what its slot was settled with first. -/
theorem Slot.Ok.value (h : slot.Ok c settled) {r : BlockResult} (hr : c.value = some r) :
    settled = some r:= by
  by_cases hp : slot.published
  · obtain ⟨r', hs, hv, -⟩ := h.published hp
    rw [hs, ← hv, hr]
  · have hnew : c = .new none := by
      unfold Slot.Ok at h
      unfold Slot.published at hp
      cases hs : slot.stage <;> simp_all
    rw [hnew] at hr
    cases hr

namespace State

theorem new_inv (shards : Nat) : (new shards : State hash).Inv [] where
  slots := by simp [new]
  unsettled := fun _ _ => rfl
  own := by simp [new]
  entry := by simp [new]
  handles := by simp [new]
  channels := by simp [new]

variable {s s' : State hash} {es : List Event} {e : Event}

theorem getElem?_snoc {α : Type} {l : List α} {x y : α} (h : (l ++ [x])[n]? = some y) :
    l[n]? = some y ∨ n = l.length ∧ y = x := by
  rw [List.getElem?_append] at h
  split at h
  · exact .inl h
  · rw [List.getElem?_singleton] at h
    split at h
    · cases h
      exact .inr ⟨by omega, rfl⟩
    · cases h

theorem getElem?_keep {α : Type} {l l' : List α} {x : α} (h : l[n]? = some x) :
    (l ++ l')[n]? = some x := by
  rwa [List.getElem?_append_left (List.getElem?_eq_some_iff.mp h).1]

namespace Inv

theorem unique (h : s.Inv es) {j : Nat} {a b : Slot} (ha : s.slots[i]? = some a) (hb : s.slots[j]? = some b)
    (hkey : a.key = b.key) (hra : a.removed = false) (hrb : b.removed = false) : i = j := by
  have hea := (h.entry a.key a.tx).mpr ⟨i, a, ha, rfl, rfl, hra⟩
  have heb := (h.entry a.key b.tx).mpr ⟨j, b, hb, hkey.symm, rfl, hrb⟩
  exact h.own i j a b ha hb (Option.some.inj (hea.symm.trans heb))

theorem join (h : s.Inv es) (he : ∀ i, e.settles i = none) (hc : s.channels[rx]? = some c) :
    Inv (es ++ [e]) { s with handles := s.handles ++ [⟨rx, .start⟩] } where
  slots := by simpa only [firstSettled_quiet he] using h.slots
  unsettled := by simpa only [firstSettled_quiet he] using h.unsettled
  own := h.own
  entry := h.entry
  handles := by
    intro n handle hn
    obtain hn | ⟨-, rfl⟩ := getElem?_snoc hn
    · exact h.handles n handle hn
    · exact ⟨c, hc, trivial⟩
  channels := h.channels

theorem channel (h : s.Inv es) (hc : c.Ok) : Inv es { s with channels := s.channels ++ [c] } where
  slots := by
    intro i slot hi
    obtain ⟨c, hc, hok⟩ := h.slots i slot hi
    exact ⟨c, getElem?_keep hc, hok⟩
  unsettled := h.unsettled
  own := h.own
  entry := h.entry
  handles := by
    intro n handle hn
    obtain ⟨c, hc, hok⟩ := h.handles n handle hn
    exact ⟨c, getElem?_keep hc, hok⟩
  channels := by
    intro n c' hn
    obtain hn | ⟨-, rfl⟩ := getElem?_snoc hn
    · exact h.channels n c' hn
    · exact hc

theorem tx_lt (h : s.Inv es) (hi : s.slots[i]? = some slot) : slot.tx < s.channels.length := by
  obtain ⟨c, hc, -⟩ := h.slots i slot hi
  exact (List.getElem?_eq_some_iff.mp hc).1

theorem register (h : s.Inv es) (key : BlockKey) : (s.register key).Inv (es ++ [.register key]) := by
  have he : ∀ i, (Event.register key).settles i = none := fun _ => rfl
  unfold State.register
  cases hget : s.table.get key with
  | some rx =>
      obtain ⟨i, slot, hi, -, rfl, -⟩ := (h.entry key rx).mp hget
      obtain ⟨c, hc, -⟩ := h.slots i slot hi
      exact h.join he hc
  | none =>
      have hchannel := h.channel (c := .new none) ⟨fun _ => rfl, fun _ => rfl⟩
      have hlast : (s.channels ++ [Channel.new none])[s.channels.length]? = some (.new none) := by simp
      refine ⟨?_, ?_, ?_, ?_, ?_, hchannel.channels⟩
      · intro i slot hi
        rw [firstSettled_quiet he]
        obtain hi | ⟨rfl, rfl⟩ := getElem?_snoc hi
        · exact hchannel.slots i slot hi
        · exact ⟨.new none, hlast, rfl, h.unsettled _ (Nat.le_refl _), rfl⟩
      · intro i hi
        rw [firstSettled_quiet he]
        rw [List.length_append] at hi
        exact h.unsettled i (by omega)
      · intro i j a b ha hb htx
        -- the number of the new channel is not that of another slot's
        obtain ha | ⟨rfl, rfl⟩ := getElem?_snoc ha
        · obtain hb | ⟨rfl, rfl⟩ := getElem?_snoc hb
          · exact h.own i j a b ha hb htx
          · exact absurd htx (Nat.ne_of_lt (h.tx_lt ha))
        · obtain hb | ⟨rfl, -⟩ := getElem?_snoc hb
          · exact absurd htx.symm (Nat.ne_of_lt (h.tx_lt hb))
          · rfl
      · intro k rx
        simp only [Sharded.get_insert]
        constructor
        · intro hk
          split at hk
          · cases hk
            exact ⟨s.slots.length, ⟨key, _, false, .held⟩, by simp, by simp [*], rfl, rfl⟩
          · obtain ⟨i, slot, hi, hrest⟩ := (h.entry k rx).mp hk
            exact ⟨i, slot, getElem?_keep hi, hrest⟩
        · rintro ⟨i, slot, hi, rfl, rfl, hr⟩
          obtain hi | ⟨-, rfl⟩ := getElem?_snoc hi
          · have hold := (h.entry slot.key slot.tx).mpr ⟨i, slot, hi, rfl, rfl, hr⟩
            split
            · rename_i hk
              rw [hk, hget] at hold
              cases hold
            · exact hold
          · exact if_pos rfl
      · intro n handle hn
        obtain hn | ⟨-, rfl⟩ := getElem?_snoc hn
        · exact hchannel.handles n handle hn
        · exact ⟨.new none, hlast, trivial⟩

/-- How a slot may move on: its channel and the table change with it, and its stage stays right. -/
structure Moves (s : State hash) (slot slot' : Slot) (settled settled' : Option BlockResult)
    (f : Channel → Channel) (table : Sharded BlockKey Nat hash) : Prop where
  key : slot'.key = slot.key
  tx : slot'.tx = slot.tx
  ok : ∀ c, slot.Ok c settled → slot'.Ok (f c) settled'
  handle : ∀ c handle, slot.Ok c settled → Handle.Ok handle c → handle.Ok (f c)
  channel : ∀ c, slot.Ok c settled → c.Ok → (f c).Ok
  table : slot'.removed = slot.removed ∧ table = s.table ∨
    slot.removed = false ∧ slot'.removed = true ∧ table = s.table.erase slot.key

theorem entry_move (h : s.Inv es) {slot' : Slot} {settled' : Option BlockResult}
    {f : Channel → Channel} {table : Sharded BlockKey Nat hash} (hi : s.slots[i]? = some slot)
    (hm : Moves s slot slot' settled settled' f table) (key : BlockKey) (rx : Nat) :
    table.get key = some rx ↔ ∃ (j : Nat) (b : Slot), (s.slots.set i slot')[j]? = some b ∧ b.key = key ∧
      b.tx = rx ∧ b.removed = false := by
  have hlt := (List.getElem?_eq_some_iff.mp hi).1
  have hset : (s.slots.set i slot')[i]? = some slot' := List.getElem?_set_self hlt
  have hrest : ∀ j, j ≠ i → (s.slots.set i slot')[j]? = s.slots[j]? :=
    fun j hj => List.getElem?_set_ne (Ne.symm hj)
  obtain ⟨hr, rfl⟩ | ⟨hr, hr', rfl⟩ := hm.table
  · rw [h.entry]
    constructor
    · rintro ⟨j, b, hj, hb⟩
      by_cases hji : j = i
      · subst j
        cases hi.symm.trans hj
        exact ⟨i, slot', hset, by rwa [hm.key, hm.tx, hr]⟩
      · exact ⟨j, b, (hrest j hji).trans hj, hb⟩
    · rintro ⟨j, b, hj, hb⟩
      by_cases hji : j = i
      · subst j
        cases hset.symm.trans hj
        exact ⟨i, slot, hi, by rwa [hm.key, hm.tx, hr] at hb⟩
      · exact ⟨j, b, (hrest j hji).symm.trans hj, hb⟩
  · rw [Sharded.get_erase]
    constructor
    · intro hk
      split at hk
      · cases hk
      · rename_i hne
        obtain ⟨j, b, hj, hb⟩ := (h.entry key rx).mp hk
        refine ⟨j, b, (hrest j ?_).trans hj, hb⟩
        rintro rfl
        cases hi.symm.trans hj
        exact hne hb.1.symm
    · rintro ⟨j, b, hj, rfl, rfl, hb⟩
      have hji : j ≠ i := by
        rintro rfl
        cases hset.symm.trans hj
        rw [hr'] at hb
        cases hb
      have hj := (hrest j hji).symm.trans hj
      rw [if_neg fun hk => hji (h.unique hj hi hk hb hr)]
      exact (h.entry b.key b.tx).mpr ⟨j, b, hj, rfl, rfl, hb⟩

theorem move (h : s.Inv es) (slot' : Slot) {f : Channel → Channel} (hi : s.slots[i]? = some slot)
    (hother : ∀ j, j ≠ i → e.settles j = none)
    (hm : Moves s slot slot' (firstSettled es i) (firstSettled (es ++ [e]) i) f s'.table)
    (hslots : s'.slots = s.slots.set i slot') (hchannels : s'.channels = s.channels.modify slot.tx f)
    (hhandles : s'.handles = s.handles) : s'.Inv (es ++ [e]) := by
  have hlt := (List.getElem?_eq_some_iff.mp hi).1
  obtain ⟨c, hc, hok⟩ := h.slots i slot hi
  have hnew : s'.channels[slot.tx]? = some (f c) := by
    rw [hchannels, List.getElem?_modify_eq, hc]
    rfl
  have hkeep : ∀ n, n ≠ slot.tx → s'.channels[n]? = s.channels[n]? := by
    intro n hn
    rw [hchannels, List.getElem?_modify_ne _ _ (Ne.symm hn)]
  have hquiet : ∀ j, j ≠ i → firstSettled (es ++ [e]) j = firstSettled es j := by
    intro j hj
    rw [firstSettled_snoc, hother j hj, Option.or_none]
  have hslot : ∀ (j : Nat) (b : Slot), s'.slots[j]? = some b → j = i ∧ b = slot' ∨ j ≠ i ∧
      s.slots[j]? = some b := by
    intro j b hj
    rw [hslots, List.getElem?_set] at hj
    split at hj
    · exact .inl ⟨by omega, (Option.some.inj hj).symm⟩
    · exact .inr ⟨by omega, hj⟩
  refine ⟨?_, ?_, ?_, ?_, ?_, ?_⟩
  · intro j b hj
    obtain ⟨rfl, rfl⟩ | ⟨hji, hj⟩ := hslot j b hj
    · rw [hm.tx]
      exact ⟨f c, hnew, hm.ok c hok⟩
    · rw [hkeep b.tx fun heq => hji (h.own j i b slot hj hi heq), hquiet j hji]
      exact h.slots j b hj
  · intro j hj
    rw [hslots, List.length_set] at hj
    rw [hquiet j (by omega)]
    exact h.unsettled j hj
  · intro j k a b ha hb htx
    obtain ⟨rfl, rfl⟩ | ⟨-, ha⟩ := hslot j a ha
    · obtain ⟨rfl, -⟩ | ⟨-, hb⟩ := hslot k b hb
      · rfl
      · exact h.own j k slot b hi hb (hm.tx ▸ htx)
    · obtain ⟨rfl, rfl⟩ | ⟨-, hb⟩ := hslot k b hb
      · exact h.own j k a slot ha hi (hm.tx ▸ htx)
      · exact h.own j k a b ha hb htx
  · rw [hslots]
    exact h.entry_move hi hm
  · intro n handle hn
    rw [hhandles] at hn
    obtain ⟨c', hc', hok'⟩ := h.handles n handle hn
    by_cases hrx : handle.rx = slot.tx
    · rw [hrx] at hc' ⊢
      cases hc.symm.trans hc'
      exact ⟨f c, hnew, hm.handle c handle hok hok'⟩
    · exact ⟨c', (hkeep _ hrx).trans hc', hok'⟩
  · intro n c' hn
    by_cases hrx : n = slot.tx
    · rw [hrx, hnew] at hn
      cases hn
      exact hm.channel c hok (h.channels _ _ hc)
    · exact h.channels n c' ((hkeep n hrx).symm.trans hn)

theorem move_quiet (h : s.Inv es) {slot' : Slot} (hi : s.slots[i]? = some slot)
    (hslots : s'.slots = s.slots.set i slot') (hchannels : s'.channels = s.channels)
    (hhandles : s'.handles = s.handles) (hother : ∀ j, j ≠ i → e.settles j = none)
    (hkey : slot'.key = slot.key) (htx : slot'.tx = slot.tx)
    (hok : ∀ c, slot.Ok c (firstSettled es i) → slot'.Ok c (firstSettled (es ++ [e]) i))
    (htable : slot'.removed = slot.removed ∧ s'.table = s.table ∨
      slot.removed = false ∧ slot'.removed = true ∧ s'.table = s.table.erase slot.key) :
      s'.Inv (es ++ [e]) := by
  have hid : s'.channels = s.channels.modify slot.tx id := by rw [List.modify_id, hchannels]
  refine h.move slot' hi hother ⟨hkey, htx, hok, ?_, ?_, htable⟩ hslots hid hhandles
  · exact fun c handle _ hh => hh
  · exact fun c _ hc => hc

theorem give (h : s.Inv es) {result : BlockResult} {dropping : Bool}
    (hs : s.give i result dropping = some s') (he : ∀ j, e.settles j = if i = j then some result else none) :
    s'.Inv (es ++ [e]) := by
  unfold State.give at hs
  split at hs
  · rename_i key tx resolved hi
    cases hs
    refine h.move_quiet hi rfl rfl rfl (fun j hj => ?_) rfl rfl (fun c hok => ?_) (.inl ⟨?_, rfl⟩)
    · rw [he, if_neg (Ne.symm hj)]
    · obtain ⟨hr, hsettled, hc⟩ := hok
      refine .inl ⟨hr, ?_, hc⟩
      rw [firstSettled_snoc, hsettled, he, if_pos rfl]
      rfl
    · obtain ⟨c, -, hr, -⟩ := h.slots i _ hi
      exact hr
  · cases hs

theorem settle (h : s.Inv es) (hs : s.settle i = some s') : s'.Inv (es ++ [.settle i]) := by
  have he : ∀ j, j ≠ i → (Event.settle i).settles j = none := fun _ _ => rfl
  have hfirst : firstSettled (es ++ [.settle i]) i = firstSettled es i := firstSettled_quiet (fun _ => rfl) i
  unfold State.settle at hs
  split at hs
  · rename_i key tx resolved result dropping hi
    obtain ⟨c, -, hslot⟩ := h.slots i _ hi
    split at hs
    · rename_i hr
      cases hs
      obtain rfl : resolved = true := hr
      -- only the `drop` after a `resolve` finds the slot resolved
      obtain ⟨hr, -⟩ | ⟨-, hd, -⟩ := hslot
      · cases hr
      · obtain rfl : dropping = true := hd
        refine h.move_quiet hi rfl rfl rfl he rfl rfl (fun c hok => ?_) (.inl ⟨rfl, rfl⟩)
        rw [hfirst]
        obtain ⟨hr, -⟩ | ⟨hr, -, hok⟩ := hok
        · cases hr
        · exact ⟨hr, hok⟩
    · rename_i hr
      cases hs
      obtain rfl : resolved = false := by simpa using hr
      refine h.move_quiet hi rfl rfl rfl he rfl rfl (fun c hok => ?_) (.inl ⟨rfl, rfl⟩)
      rw [hfirst]
      obtain ⟨-, hok⟩ | ⟨hr, -⟩ := hok
      · exact ⟨rfl, hok⟩
      · cases hr
  · rename_i key tx resolved result dropping hi
    cases hs
    refine h.move_quiet hi rfl rfl rfl he rfl rfl (fun c hok => ?_) (.inr ⟨rfl, rfl, rfl⟩)
    rw [hfirst]
    exact hok
  · rename_i key tx resolved result dropping hi
    cases hs
    obtain ⟨-, -, hr, -⟩ := h.slots i _ hi
    obtain rfl : resolved = true := hr
    refine h.move ⟨key, tx, true, .after dropping⟩ hi he ⟨rfl, rfl, ?_, ?_, ?_, .inl ⟨?_, rfl⟩⟩ rfl rfl rfl
    · intro c hok
      rw [hfirst]
      obtain ⟨-, hsettled, rfl⟩ := hok
      cases dropping with
      | true => exact ⟨rfl, result, hsettled, rfl⟩
      | false => exact .inr ⟨rfl, rfl, result, hsettled, rfl⟩
    · rintro c ⟨rx, wait⟩ ⟨-, -, rfl⟩ hh
      cases wait with
      | start | look => trivial
      | changed seen => exact ⟨hh.1, .inr (by simp [Channel.new, Channel.send])⟩
      | returned result => cases hh
    · intro c _ _
      exact ⟨by simp [Channel.send], by simp [Channel.send]⟩
    · cases dropping <;> rfl
  · rename_i key tx resolved hi
    cases hs
    refine h.move ⟨key, tx, resolved, .gone⟩ hi he ⟨rfl, rfl, ?_, ?_, ?_, .inl ⟨rfl, rfl⟩⟩ rfl rfl rfl
    · intro c hok
      rw [hfirst]
      obtain ⟨-, r, hr, rfl⟩ := hok
      exact ⟨r, hr, rfl⟩
    · exact fun c handle _ hh => hh
    · rintro c ⟨-, r, -, rfl⟩ _
      exact ⟨by simp [Channel.send, Channel.close], by simp [Channel.send, Channel.close]⟩
  · cases hs

/-- A handle never falls back on its channel being closed. -/
theorem poll_ok {wait next : Wait} (hc : c.Ok) (h : Handle.Ok ⟨rx, wait⟩ c)
    (hp : poll c wait = some next) : Handle.Ok ⟨rx, next⟩ c := by
  cases wait with
  | start =>
      cases hp
      trivial
  | look =>
      simp only [poll] at hp
      split at hp
      · rename_i result hresult
        cases hp
        exact hresult
      · rename_i hnone
        cases hp
        exact ⟨hc.unsent hnone, .inl hnone⟩
  | changed seen =>
      obtain ⟨rfl, hempty⟩ := h
      simp only [poll] at hp
      split at hp
      · cases hp
        trivial
      · rename_i hversion
        simp [hc.opened (hempty.resolve_right hversion)] at hp
  | returned result => cases hp

theorem wait (h : s.Inv es) (hs : s.wait n = some s') : s'.Inv (es ++ [.wait n]) := by
  have he : ∀ i, (Event.wait n).settles i = none := fun _ => rfl
  unfold State.wait at hs
  obtain ⟨⟨rx, wait⟩, hn, hs⟩ := Option.bind_eq_some_iff.mp hs
  obtain ⟨c, hc, hs⟩ := Option.bind_eq_some_iff.mp hs
  obtain ⟨next, hp, hs⟩ := Option.bind_eq_some_iff.mp hs
  cases hs
  refine ⟨?_, ?_, h.own, h.entry, ?_, h.channels⟩
  · simpa only [firstSettled_quiet he] using h.slots
  · simpa only [firstSettled_quiet he] using h.unsettled
  · intro m handle hm
    rw [List.getElem?_set] at hm
    split at hm
    · split at hm
      · cases hm
        obtain ⟨c', hc', hok⟩ := h.handles n _ hn
        cases hc.symm.trans hc'
        exact ⟨c, hc, poll_ok (h.channels _ _ hc) hok hp⟩
      · cases hm
    · exact h.handles m handle hm

theorem step (h : s.Inv es) (hs : s.step e = some s') : s'.Inv (es ++ [e]) := by
  cases e with
  | register key =>
      cases hs
      exact h.register key
  | resolve i result => exact h.give hs fun _ => rfl
  | drop i => exact h.give hs fun _ => rfl
  | settle i => exact h.settle hs
  | resolved result =>
      cases hs
      have hc : (Channel.new (some result)).close.Ok := ⟨by simp [Channel.new, Channel.close], fun _ => rfl⟩
      exact (h.channel hc).join (c := (Channel.new (some result)).close) (fun _ => rfl) (by simp)
  | clone n =>
      simp only [State.step] at hs
      split at hs
      · rename_i rx hn
        cases hs
        obtain ⟨c, hc, -⟩ := h.handles n _ hn
        exact h.join (fun _ => rfl) hc
      · cases hs
  | wait n => exact h.wait hs

/-- Once its slot has published, a handle returns the result in two steps at most. -/
theorem observes (h : s.Inv es) {handle : Handle} (hn : s.handles[n]? = some handle)
    (hi : s.slots[i]? = some slot) (hrx : handle.rx = slot.tx) (hp : slot.published) :
    ∃ r, firstSettled es i = some r ∧ ∃ k ≤ 2, ∃ s', runEvents State.step s (List.replicate k (.wait n)) =
      some s' ∧ s'.handles[n]? = some ⟨handle.rx, .returned r⟩ := by
  obtain ⟨c, hc, hok⟩ := h.slots i slot hi
  obtain ⟨r, hr, hv, hversion⟩ := hok.published hp
  rw [← hrx] at hc
  obtain ⟨rx, wait⟩ := handle
  obtain ⟨c', hc', hwait⟩ := h.handles n _ hn
  cases hc.symm.trans hc'
  have hlt := (List.getElem?_eq_some_iff.mp hn).1
  let after (w : Wait) : State hash := { s with handles := s.handles.set n ⟨rx, w⟩ }
  have hafter : (after (.returned r)).handles[n]? = some ⟨rx, .returned r⟩ := List.getElem?_set_self hlt
  have hlook : poll c .look = some (.returned r) := by simp [poll, hv]
  have htwo : poll c wait = some .look → runEvents State.step s [.wait n, .wait n] =
      some (after (.returned r)) := by
    intro hnext
    have hone : s.step (.wait n) = some (after .look) := by
      simp [after, State.step, State.wait, hn, hc, hnext]
    have htwo : (after .look).step (.wait n) = some (after (.returned r)) := by
      simp [after, State.step, State.wait, hlt, hc, hlook]
    simp only [runEvents, hone, htwo, Option.bind_some]
  refine ⟨r, hr, ?_⟩
  cases wait with
  | start => exact ⟨2, Nat.le_refl _, _, htwo rfl, hafter⟩
  | look =>
      refine ⟨1, by omega, after (.returned r), ?_, hafter⟩
      simp [runEvents, after, State.step, State.wait, hn, hc, hlook]
  | changed seen =>
      obtain ⟨rfl, -⟩ := hwait
      exact ⟨2, Nat.le_refl _, _, htwo (by simp [poll, hversion]), hafter⟩
  | returned result =>
      obtain rfl : result = r := Option.some.inj (hwait.symm.trans hv)
      exact ⟨0, by omega, s, rfl, hn⟩

/-- The slot has steps left to take until it is gone, and each of them can be taken. -/
theorem settle_next (h : s.Inv es) (hi : s.slots[i]? = some slot) (hleft : 0 < slot.left) :
    ∃ s' slot', s.step (.settle i) = some s' ∧ s'.slots[i]? = some slot' ∧ slot'.key = slot.key ∧
      slot'.tx = slot.tx ∧ slot'.left + 1 = slot.left := by
  have hlt := (List.getElem?_eq_some_iff.mp hi).1
  have hset (slot' : Slot) : (s.slots.set i slot')[i]? = some slot' := List.getElem?_set_self hlt
  obtain ⟨key, tx, resolved, stage⟩ := slot
  simp only [State.step, State.settle, hi]
  cases stage with
  | held => cases hleft
  | settle result dropping =>
      cases resolved <;> exact ⟨_, _, rfl, hset _, rfl, rfl, by cases dropping <;> rfl⟩
  | remove result dropping => exact ⟨_, _, rfl, hset _, rfl, rfl, by cases dropping <;> rfl⟩
  | publish result dropping =>
      obtain ⟨c, -, hr, -⟩ := h.slots i _ hi
      obtain rfl : resolved = true := hr
      exact ⟨_, _, rfl, hset _, rfl, rfl, by cases dropping <;> rfl⟩
  | release => exact ⟨_, _, rfl, hset _, rfl, rfl, rfl⟩
  | gone => cases hleft

/-- By induction on the steps it has left, a slot that was given up comes to its end. -/
theorem settles (h : s.Inv es) {r : BlockResult} (hi : s.slots[i]? = some slot)
    (hr : firstSettled es i = some r) :
    ∃ s' slot', runEvents State.step s (List.replicate slot.left (.settle i)) = some s' ∧
      s'.slots[i]? = some slot' ∧ slot'.stage = .gone ∧ s'.table.get slot.key ≠ some slot.tx ∧
      (s'.channels[slot.tx]?).bind (·.value) = some r := by
  induction hleft : slot.left generalizing s es slot with
  | zero =>
      obtain ⟨c, hc, hok⟩ := h.slots i slot hi
      obtain ⟨key, tx, resolved, stage⟩ := slot
      rw [hr] at hok
      cases stage with
      | held => cases hok.2.1
      | gone =>
          obtain ⟨_, ⟨⟩, rfl⟩ := hok
          refine ⟨s, _, rfl, hi, rfl, fun hget => ?_, by rw [hc]; rfl⟩
          obtain ⟨j, slot, hj, -, htx, hremoved⟩ := (h.entry key tx).mp hget
          obtain rfl := h.own i j _ _ hi hj htx.symm
          cases hi.symm.trans hj
          cases hremoved
      | settle result dropping => cases resolved <;> cases dropping <;> cases hleft
      | remove result dropping => cases dropping <;> cases hleft
      | publish result dropping => cases dropping <;> cases hleft
      | release => cases hleft
  | succ n ih =>
      obtain ⟨s₁, slot₁, hs, hi₁, hkey, htx, hnext⟩ := h.settle_next hi (by omega)
      obtain ⟨s', slot', hrun, hend⟩ := ih (h.step hs) hi₁ (by rw [firstSettled_quiet fun _ => rfl]; exact hr)
        (by omega)
      rw [hkey, htx] at hend
      refine ⟨s', slot', ?_, hend⟩
      rw [List.replicate_succ, runEvents, hs]
      exact hrun

end Inv

theorem give_move {result : BlockResult} {dropping : Bool} (hs : s.give i result dropping = some s') :
    ∃ slot slot', s.slots[i]? = some slot ∧ slot'.key = slot.key ∧ slot'.tx = slot.tx ∧
    s' = s.setSlot i slot' := by
  unfold give at hs
  split at hs <;> cases hs
  rename_i hi
  exact ⟨_, ⟨_, _, _, .settle result dropping⟩, hi, rfl, rfl, rfl⟩

/-- Handles come and go on, and a channel without a slot may be added. -/
theorem step_quiet (hs : s.step e = some s') (he : e.quiet = true) :
    ∃ channels handles, s' = ⟨s.table, s.channels ++ channels, s.slots, handles⟩ := by
  have hold (handles : List Handle) : ∃ channels handles',
      (⟨s.table, s.channels, s.slots, handles⟩ : State hash) = ⟨s.table, s.channels ++ channels, s.slots,
      handles'⟩ := ⟨[], handles, by rw [List.append_nil]⟩
  cases e with
  | register | resolve | drop | settle => cases he
  | resolved result => exact ⟨_, _, (Option.some.inj hs).symm⟩
  | clone n =>
      simp only [step] at hs
      split at hs <;> cases hs
      exact hold _
  | wait n =>
      simp only [step, wait] at hs
      obtain ⟨handle, -, hs⟩ := Option.bind_eq_some_iff.mp hs
      obtain ⟨c, -, hs⟩ := Option.bind_eq_some_iff.mp hs
      obtain ⟨next, -, hs⟩ := Option.bind_eq_some_iff.mp hs
      cases hs
      exact hold _

theorem slot_stays (hs : s.step e = some s') (hi : s.slots[i]? = some slot)
    (he : ∀ r, e ≠ .resolve i r) (hdrop : e ≠ .drop i) (hsettle : e ≠ .settle i) :
    s'.slots[i]? = some slot := by
  have hset {j : Nat} (slot' : Slot) (hj : j ≠ i) : (s.slots.set j slot')[i]? = some slot := by
    rw [List.getElem?_set_ne hj, hi]
  have hgive {j : Nat} {result : BlockResult} {dropping : Bool} (hs : s.give j result dropping = some s')
      (hj : j ≠ i) : s'.slots[i]? = some slot := by
    obtain ⟨_, slot', -, -, -, rfl⟩ := give_move hs
    exact hset slot' hj
  cases e with
  | register key =>
      cases hs
      unfold State.register
      cases s.table.get key with
      | some rx => exact hi
      | none => exact getElem?_keep hi
  | resolve j result => exact hgive hs fun hj => he result (hj ▸ rfl)
  | drop j => exact hgive hs fun hj => hdrop (hj ▸ rfl)
  | settle j =>
      have hj : j ≠ i := fun hj => hsettle (hj ▸ rfl)
      simp only [step, settle] at hs
      split at hs
      · split at hs <;> cases hs <;> exact hset _ hj
      all_goals cases hs
      all_goals exact hset _ hj
  | resolved | clone | wait =>
      obtain ⟨channels, handles, rfl⟩ := step_quiet hs rfl
      exact hi

/-- What a step does to the table: a slot is entered where there is no entry, or removes its own. -/
theorem table_step (hs : s.step e = some s') :
    s'.table = s.table ∨ (∃ key rx, s.table.get key = none ∧ s'.table = s.table.insert key rx) ∨
    ∃ (i : Nat) (slot : Slot), e = .settle i ∧ s.slots[i]? = some slot ∧ slot.removed = false ∧
      s'.table = s.table.erase slot.key := by
  cases e with
  | register key =>
      cases hs
      unfold State.register
      cases hget : s.table.get key with
      | some rx => exact .inl rfl
      | none => exact .inr (.inl ⟨key, s.channels.length, hget, rfl⟩)
  | resolve | drop =>
      obtain ⟨_, _, -, -, -, rfl⟩ := give_move hs
      exact .inl rfl
  | settle i =>
      simp only [step, settle] at hs
      split at hs
      · split at hs <;> cases hs <;> exact .inl rfl
      · rename_i hi
        cases hs
        exact .inr (.inr ⟨i, _, rfl, hi, rfl, rfl⟩)
      · cases hs
        exact .inl rfl
      · cases hs
        exact .inl rfl
      · cases hs
  | resolved | clone | wait =>
      obtain ⟨channels, handles, rfl⟩ := step_quiet hs rfl
      exact .inl rfl

theorem Inv.removes (h : s.Inv es) (hs : s.step e = some s') {key : BlockKey}
    (hget : s.table.get key = some rx) (hgone : s'.table.get key ≠ some rx) :
    ∃ (i : Nat) (slot : Slot), e = .settle i ∧ s.slots[i]? = some slot ∧ slot.key = key ∧ slot.tx = rx := by
  obtain htable | ⟨k, new, hnone, htable⟩ | ⟨i, slot, he, hi, hr, htable⟩ := table_step hs
  · rw [htable] at hgone
    exact absurd hget hgone
  · rw [htable, Sharded.get_insert] at hgone
    split at hgone
    · subst key
      rw [hnone] at hget
      cases hget
    · exact absurd hget hgone
  · rw [htable, Sharded.get_erase] at hgone
    split at hgone
    · subst key
      have hentry := (h.entry slot.key slot.tx).mpr ⟨i, slot, hi, rfl, rfl, hr⟩
      exact ⟨i, slot, he, hi, rfl, Option.some.inj (hentry.symm.trans hget)⟩
    · exact absurd hget hgone

/-- What holds of the table in a state that the events `es` lead to. -/
structure Coherent (es : List Event) (s : State hash) : Prop where
  /-- A key has at most one slot that has yet to remove its entry. -/
  one : ∀ (i j : Nat) (a b : Slot), s.slots[i]? = some a → s.slots[j]? = some b → a.key = b.key →
    a.removed = false → b.removed = false → i = j
  /-- The entry of a key is the one of that slot. -/
  entry : ∀ (key : BlockKey) (rx : Nat), s.table.get key = some rx ↔
    ∃ (i : Nat) (slot : Slot), s.slots[i]? = some slot ∧ slot.key = key ∧ slot.tx = rx ∧ slot.removed = false
  /-- A registration gives a handle on the channel of that slot. -/
  joins : ∀ key s', s.step (.register key) = some s' → ∃ (i : Nat) (slot : Slot), s'.slots[i]? = some slot ∧
    slot.key = key ∧ slot.removed = false ∧ s'.handles = s.handles ++ [⟨slot.tx, .start⟩]
  /-- An entry goes away in no step but one of the slot it belongs to. -/
  removes : ∀ e s' key rx, s.step e = some s' → s.table.get key = some rx → s'.table.get key ≠ some rx →
    ∃ (i : Nat) (slot : Slot), e = .settle i ∧ s.slots[i]? = some slot ∧ slot.key = key ∧ slot.tx = rx
  /-- What a handle has returned is the first result its slot was settled with. -/
  first : ∀ (n i : Nat) (handle : Handle) (slot : Slot) r, s.handles[n]? = some handle →
    s.slots[i]? = some slot → handle.rx = slot.tx → handle.wait = .returned r → firstSettled es i = some r
  /-- Once the slot has published, a handle that is waited on returns. -/
  returns : ∀ (n i : Nat) (handle : Handle) (slot : Slot), s.handles[n]? = some handle →
    s.slots[i]? = some slot → handle.rx = slot.tx → slot.published → ∃ r, firstSettled es i = some r ∧
      ∃ k ≤ 2, ∃ s', runEvents step s (List.replicate k (.wait n)) = some s' ∧
        s'.handles[n]? = some ⟨handle.rx, .returned r⟩
  /-- A slot that was resolved or dropped is gone after at most five more steps of its code. Its
  entry is out of the table then, and its channel has the first result. -/
  settles : ∀ (i : Nat) (slot : Slot) r, s.slots[i]? = some slot → firstSettled es i = some r →
    ∃ k ≤ 5, ∃ s' slot', runEvents step s (List.replicate k (.settle i)) = some s' ∧
      s'.slots[i]? = some slot' ∧ slot'.stage = .gone ∧ s'.table.get slot.key ≠ some slot.tx ∧
      (s'.channels[slot.tx]?).bind (·.value) = some r
  /-- Only its owner and its own code change a slot, so those steps may be taken at any time. -/
  stays : ∀ e s' (i : Nat) (slot : Slot), s.step e = some s' → s.slots[i]? = some slot →
    (∀ r, e ≠ .resolve i r) → e ≠ .drop i → e ≠ .settle i → s'.slots[i]? = some slot
  /-- When all slots are gone, the table is empty. -/
  empty : (∀ slot ∈ s.slots, slot.stage = .gone) → s.table.len = 0

theorem Inv.coherent (h : s.Inv es) : s.Coherent es where
  one := fun _ _ _ _ => h.unique
  entry := h.entry
  joins := by
    intro key s' hs
    have hinv := h.step hs
    cases hs
    unfold State.register at hinv ⊢
    cases hget : s.table.get key with
    | some rx =>
        obtain ⟨i, slot, hi, hkey, rfl, hr⟩ := (h.entry key rx).mp hget
        exact ⟨i, slot, hi, hkey, hr, rfl⟩
    | none => exact ⟨s.slots.length, ⟨key, s.channels.length, false, .held⟩, by simp, rfl, rfl, rfl⟩
  removes := fun _ _ _ _ hs hget hgone => h.removes hs hget hgone
  first := by
    intro n i handle slot r hn hi hrx hret
    obtain ⟨c, hc, hok⟩ := h.slots i slot hi
    obtain ⟨c', hc', hwait⟩ := h.handles n handle hn
    rw [hrx] at hc'
    cases hc.symm.trans hc'
    rw [Handle.Ok, hret] at hwait
    exact hok.value hwait
  returns := fun _ _ _ _ => h.observes
  settles := fun i slot r hi hr => ⟨slot.left, slot.left_le, h.settles hi hr⟩
  stays := fun _ _ _ _ hs hi => slot_stays hs hi
  empty := by
    intro hall
    refine Sharded.len_eq_zero fun key => ?_
    cases hget : s.table.get key with
    | none => rfl
    | some rx =>
        obtain ⟨i, slot, hi, -, -, hr⟩ := (h.entry key rx).mp hget
        rw [Slot.removed, hall slot (List.mem_of_getElem? hi)] at hr
        cases hr

/-- The table is coherent in every state that is reached. -/
theorem table_coherent (shards : Nat) {es : List Event} {s : State hash}
    (h : Run step (fun _ _ => True) (new shards) es s) : s.Coherent es := by
  have hinv : s.Inv ([] ++ es) := h.invariant_events (fun _ _ _ _ hi _ hs => hi.step hs) (new_inv shards)
  exact hinv.coherent

/-- A slot is registered, joined and resolved, its key is registered anew before the result is
published, and the second slot is dropped; the first handle has returned, and the table is empty in
the end. -/
def sampleEvents : List Event :=
  let key : BlockKey := ⟨0, 0, 1, []⟩
  [.register key, .register key, .wait 1, .wait 1, .resolve 0 (.ok ⟨⟨1, none, none⟩, [7]⟩), .settle 0,
    .settle 0, .register key, .settle 0, .settle 0, .settle 0, .wait 1, .wait 1, .drop 1, .settle 1,
    .settle 1, .settle 1, .settle 1]

theorem table_coherent_sample : ∃ s : State (fun _ => 3), runEvents step (new 3) sampleEvents = some s ∧
    s.handles.map (·.wait) = [.start, .returned (.ok ⟨⟨1, none, none⟩, [7]⟩), .start] ∧ s.table.len = 0 := by
  have hrun : (runEvents step (new 3 : State fun _ => 3) sampleEvents).any (fun s =>
      s.handles.map (·.wait) = [.start, .returned (.ok ⟨⟨1, none, none⟩, [7]⟩), .start] ∧
      ∀ slot ∈ s.slots, slot.stage = .gone) = true := by
    decide +kernel
  obtain ⟨s, hs, hend⟩ := (Option.any_eq_true _ _).mp hrun
  obtain ⟨hw, hgone⟩ := of_decide_eq_true hend
  exact ⟨s, hs, hw, (table_coherent 3 (.of_events hs fun _ _ _ => trivial)).empty hgone⟩

end State

end Nestor.Inflight
