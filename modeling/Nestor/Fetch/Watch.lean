import Nestor.Engine.Law

/-!
# Fetches on a clock

A script says how long each operation takes. A sleep takes exactly its length, an await that takes
longer than its timeout allows is cut off by it, and everything else takes no time. A `Watch`
follows a fetch: it reads the clock, and it notes for how long requests wait for their headers and
which slots are not settled yet.
-/

namespace Nestor

open Lib

/-- When the operation ends at the latest, if it takes time. -/
def Op.until : Op → Option Nat
  | .awaitGet _ _ deadline | .awaitHead _ deadline | .awaitBody _ _ deadline | .awaitStream deadline
  | .sleep deadline => some deadline
  | _ => none

/-- The operation lasts until then. -/
def Op.expires : (o : Op) → Resp o → Bool
  | .sleep _, _ => true
  | .awaitGet _ _ _, .timeout | .awaitHead _ _, .timeout | .awaitBody _ _ _, .timeout
  | .awaitStream _, .timeout => true
  | _, _ => false

/-- The backup of the body has been requested and not answered. -/
def HedgedBody.opening (b : HedgedBody) : Waiting → Bool
  | .opening _ => true
  | .race => match b.backup with
      | .opening _ => true
      | _ => false
  | .primary => false

/-- Requests wait for their headers meanwhile. -/
def Op.awaitsHeaders : Op → Bool
  | .awaitGet _ _ _ | .awaitHead _ _ => true
  | .awaitBody b waiting _ => b.opening waiting
  | _ => false

structure Watch where
  /-- How many operations have been done. -/
  step : Nat
  now : Nat
  /-- When the requests that wait for headers were sent. -/
  sent : List Nat
  /-- For how long requests have been waiting for headers. -/
  waits : List Nat
  /-- A HEAD is under way, or about to be repeated. -/
  heading : Bool
  /-- The slots to be settled. -/
  pending : List Slot
  turns : Nat

namespace Watch

/-- A watch started with the slots to be settled. -/
def start (now : Nat) (slots : List Slot) : Watch := ⟨0, now, [], [], false, slots, 0⟩

/-- When the operation is answered. -/
def later (script : Nat → Nat) (w : Watch) (o : Op) (r : Resp o) : Nat :=
  match o.until with
  | none => w.now
  | some deadline => if o.expires r then max w.now deadline else w.now + script w.step

/-- The requests that wait for headers after the operation, answered at `t`. -/
def sentAfter (w : Watch) (t : Nat) : (o : Op) → Resp o → List Nat
  | .sendGet _ _ _, _ | .sendHead _ _, _ => [t]
  | .hedge _, some _ => w.sent ++ [t]
  | .awaitGet _ _ _, .ready (.answered i _) => w.sent.eraseIdx i
  -- the stall of a body opens its backup
  | .awaitBody _ _ _, .ready (.stalled true) => [t]
  | _, _ => w.sent

def headingAfter (w : Watch) : Op → Bool
  | .sendHead _ _ => true
  | .sendGet _ _ _ | .metaPut _ _ | .metaRemove _ => false
  | _ => w.heading

def pendingAfter (w : Watch) : (o : Op) → Resp o → List Slot
  | .register _, .owner slot => slot :: w.pending
  | .publish slot _, _ => w.pending.filter (· ≠ slot)
  | .spawn task, _ => w.pending.filter (· ∉ task.slots)
  | _, _ => w.pending

def after (script : Nat → Nat) (w : Watch) (o : Op) (r : Resp o) : Watch where
  step := w.step + 1
  now := w.later script o r
  sent := w.sentAfter (w.later script o r) o r
  waits := (if o.awaitsHeaders then w.sent.map (w.later script o r - ·) else []) ++ w.waits
  heading := w.headingAfter o
  pending := w.pendingAfter o r
  turns := w.turns + o.turns r

/-- The answer comes in time, or else the timeout. -/
def InTime {α : Type} (script : Nat → Nat) (w : Watch) (deadline : Nat) : Awaited α → Prop
  | .ready _ => w.now + script w.step ≤ max w.now deadline
  | .timeout => deadline ≤ w.now + script w.step
  | .dropped => False

/-- The answers on this clock, to a future that nobody drops. -/
def Elapses (script : Nat → Nat) (w : Watch) : (o : Op) → Resp o → Prop
  | .clock, t => t = w.now
  | .awaitGet _ hedge deadline, answer =>
      w.InTime script deadline answer ∧ (answer = .ready .stalled → hedge = true)
  | .awaitHead _ deadline, answer => w.InTime script deadline answer
  | .awaitBody b waiting deadline, answer =>
      w.InTime script deadline answer ∧ ∀ ev, answer = .ready ev → b.expects waiting ev = true
  | .awaitStream deadline, answer => w.InTime script deadline answer
  | .sleep _, answer => answer = .ready ()
  | _, _ => True

/-- Of the requests for the metadata and for the backup of a body: it has its headers after
`firstByte`, and what is waited for the metadata ends by the limit. -/
def Prompt (script : Nat → Nat) (limit firstByte : Nat) (w : Watch) : (o : Op) → Resp o → Prop
  | .awaitHead request deadline, r =>
      (∀ s ∈ w.sent, w.later script (.awaitHead request deadline) r ≤ s + firstByte) ∧
        w.later script (.awaitHead request deadline) r ≤ limit
  | .awaitBody b waiting deadline, r => b.opening waiting = true →
      ∀ s ∈ w.sent, w.later script (.awaitBody b waiting deadline) r ≤ s + firstByte
  | .sleep deadline, _ => w.heading = true → deadline ≤ limit
  | _, _ => True

/-- The watch after the operations of a trace. -/
def follow (script : Nat → Nat) (w : Watch) (tr : Trace) : Watch :=
  tr.foldl (fun w d => w.after script d.1 d.2) w

/-- Every answer of the trace meets `P` when it comes. -/
def Along (script : Nat → Nat) (P : Watch → (o : Op) → Resp o → Prop) : Watch → Trace → Prop
  | _, [] => True
  | w, ⟨o, r⟩ :: tr => P w o r ∧ Along script P (w.after script o r) tr

/-- The clock has not passed the limit, and no request has waited longer for headers than it may. -/
def Keeps (w : Watch) (limit firstByte : Nat) : Prop := w.now ≤ limit ∧ ∀ d ∈ w.waits, d ≤ firstByte

end Watch

end Nestor
