import Nestor.S3.Error
import Nestor.Store.Error

/-!
# What a client sees of a shared error

Readers that wait for one fetch share its error, and each of them may get it in a wrapper. The store
bindings see through the wrapper; the endpoint does so only for objects that are missing or have
changed.
-/

namespace Nestor

/-- The error, shared `n` times over. -/
def NestorError.sharedBy : Nat → NestorError → NestorError
  | 0, e => e
  | n + 1, e => .shared (sharedBy n e)

/-- The endpoint has an answer of its own for the error, and looks for it by its outermost form. -/
def NestorError.hasForm : NestorError → Bool
  | .range _ _ | .unknownNamespace | .closed | .origin (.timeout _) => true
  | _ => false

namespace NestorError

variable {e : NestorError} {n : Nat}

theorem isNotFound_sharedBy : (e.sharedBy n).isNotFound = e.isNotFound := by
  induction n with
  | zero => rfl
  | succ n ih => exact ih

theorem isStale_sharedBy : (e.sharedBy n).isStale = e.isStale := by
  induction n with
  | zero => rfl
  | succ n ih => exact ih

end NestorError

namespace S3

open Store

variable {text : S3Error.ErrorText} {e : NestorError} {n : Nat} {key : Bytes} {status : Option Nat}

/-- The store bindings see through the wrapper. -/
theorem toStore_variant_sharedBy : (toStore status (e.sharedBy n)).variant = (toStore status e).variant := by
  have hgeneric {e' : NestorError} (hf : e'.isNotFound = false) (hs : e'.isStale = false) :
      (toStore status e').variant = .generic none := by
    unfold toStore
    rw [hf, hs]
    rcases e' with _ | _ | _ | _ | (_ | _ | _ | _ | _ | _) | _ | _ | _ | _ <;> rfl
  cases hf : e.isNotFound with
  | true =>
      unfold toStore
      rw [NestorError.isNotFound_sharedBy, hf]
      rfl
  | false =>
      cases hs : e.isStale with
      | true =>
          unfold toStore
          rw [NestorError.isNotFound_sharedBy, NestorError.isStale_sharedBy, hf, hs]
          rfl
      | false =>
          rw [hgeneric hf hs, hgeneric (NestorError.isNotFound_sharedBy.trans hf)
            (NestorError.isStale_sharedBy.trans hs)]

/-- What the endpoint says of an error that it has no answer of its own for. -/
theorem fromNestor_of_not_hasForm (hf : e.isNotFound = false) (hs : e.isStale = false)
    (h : e.hasForm = false) :
    S3Error.fromNestor text e key = S3Error.badGateway (text.nestor e) := by
  unfold S3Error.fromNestor
  rw [hf, hs]
  rcases e with _ | _ | _ | _ | (_ | _ | _ | _ | _ | _) | _ | _ | _ | _ <;> first | rfl | cases h

theorem fromNestor_sharedBy (h : e.hasForm = false) :
    (S3Error.fromNestor text (e.sharedBy n) key).status = (S3Error.fromNestor text e key).status ∧
      (S3Error.fromNestor text (e.sharedBy n) key).code = (S3Error.fromNestor text e key).code := by
  have hn : (e.sharedBy n).hasForm = false := by
    cases n with
    | zero => exact h
    | succ n => rfl
  cases hf : e.isNotFound with
  | true =>
      unfold S3Error.fromNestor
      rw [NestorError.isNotFound_sharedBy, hf]
      exact ⟨rfl, rfl⟩
  | false =>
      cases hs : e.isStale with
      | true =>
          unfold S3Error.fromNestor
          rw [NestorError.isNotFound_sharedBy, NestorError.isStale_sharedBy, hf, hs]
          exact ⟨rfl, rfl⟩
      | false =>
          rw [fromNestor_of_not_hasForm hf hs h, fromNestor_of_not_hasForm
            (NestorError.isNotFound_sharedBy.trans hf) (NestorError.isStale_sharedBy.trans hs) hn]
          exact ⟨rfl, rfl⟩

/-- An error with an answer of its own loses it when it is shared. -/
theorem fromNestor_shared_of_hasForm (h : e.hasForm = true) :
    (S3Error.fromNestor text (e.sharedBy (n + 1)) key).status ≠ (S3Error.fromNestor text e key).status := by
  have hkind : e.isNotFound = false ∧ e.isStale = false := by
    rcases e with _ | _ | _ | _ | (_ | _ | _ | _ | _ | _) | _ | _ | _ | _
      <;> first | exact ⟨rfl, rfl⟩ | cases h
  have hshared : S3Error.fromNestor text (e.sharedBy (n + 1)) key = S3Error.badGateway
      (text.nestor (e.sharedBy (n + 1))) :=
    fromNestor_of_not_hasForm (NestorError.isNotFound_sharedBy.trans hkind.1)
      (NestorError.isStale_sharedBy.trans hkind.2) rfl
  rw [hshared]
  rcases e with _ | _ | _ | _ | (_ | _ | _ | _ | _ | _) | _ | _ | _ | _ <;>
    first | exact Nat.ne_of_beq_eq_false rfl | cases h

/-- Sharing an error changes what a client sees exactly where the endpoint has an answer for the
error alone. -/
theorem sharing_keeps_meaning_iff (text : S3Error.ErrorText) (status : Option Nat) (e : NestorError) (n : Nat)
    (key : Bytes) :
    ((S3Error.fromNestor text (e.sharedBy n) key).status = (S3Error.fromNestor text e key).status ∧
      (S3Error.fromNestor text (e.sharedBy n) key).code = (S3Error.fromNestor text e key).code ∧
      (toStore status (e.sharedBy n)).variant = (toStore status e).variant) ↔ n = 0 ∨ e.hasForm = false := by
  constructor
  · rintro ⟨hstatus, -, -⟩
    cases n with
    | zero => exact .inl rfl
    | succ n =>
        refine .inr (Bool.eq_false_iff.mpr fun h => ?_)
        exact fromNestor_shared_of_hasForm h hstatus
  · rintro (rfl | h)
    · exact ⟨rfl, rfl, rfl⟩
    · exact ⟨(fromNestor_sharedBy h).1, (fromNestor_sharedBy h).2, toStore_variant_sharedBy⟩

/-- A timeout that two blocks of a fetch share is not told as one. -/
theorem shared_timeout_badGateway :
    (S3Error.fromNestor ⟨fun _ => [], fun _ => []⟩ (.origin (.timeout 20000000)) [107]).status = 504 ∧
      (S3Error.fromNestor ⟨fun _ => [], fun _ => []⟩ (.shared (.origin (.timeout 20000000))) [107]).status =
        502 :=
  ⟨rfl, rfl⟩

end S3

end Nestor
