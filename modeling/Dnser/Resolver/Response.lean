import Dnser.Proto.Message

/-!
# Responses from upstream

How the resolver fails, and the check every upstream response has to pass, over UDP and
over TCP alike.
-/

namespace Dnser

open Abort

/-- `ResolveError`. What an I/O error says is not modelled. -/
inductive ResolveError where
  | write (e : WriteError)
  | parse (e : ParseError)
  | io
  | timeout
  | noUpstreams
  | allFailed
  | invalidResponse
  | idSpaceExhausted
  deriving DecidableEq

/-- `?`, with the conversion of the error that goes with it. -/
def liftAbort {δ ε α : Type} (f : δ → ε) : Except (Abort δ) α → Except (Abort ε) α
  | .ok a => .ok a
  | .error (.err e) => .error (.err (f e))
  | .error .panic => .error .panic

theorem liftAbort_eq_ok_iff {δ ε α : Type} {f : δ → ε} {m : Except (Abort δ) α} {a : α} :
    liftAbort f m = .ok a ↔ m = .ok a := by
  unfold liftAbort
  split <;> simp

/-- `parse_validated_response`. -/
def parseValidatedResponse (bytes : List UInt8) (query : Message) (originalId : UInt16) :
    Except (Abort ResolveError) Message := do
  let msg ← liftAbort .parse (Message.parse bytes)
  if msg.header.isResponse = false ∨ msg.questions ≠ query.questions then
    .error (.err .invalidResponse)
  else .ok { msg with header := { msg.header with id := originalId } }

theorem parseValidatedResponse_eq_ok_iff {bytes : List UInt8} {query msg : Message} {id : UInt16} :
    parseValidatedResponse bytes query id = .ok msg ↔
      ∃ wire, Message.parse bytes = .ok wire ∧ wire.header.isResponse = true ∧
        wire.questions = query.questions ∧ msg = { wire with header := { wire.header with id } } := by
  unfold parseValidatedResponse
  constructor
  · intro h
    obtain ⟨wire, hwire, h⟩ := bind_eq_ok_iff.mp h
    split at h
    · cases h
    · rename_i hok
      simp only [not_or, Bool.not_eq_false, not_not] at hok
      cases h
      exact ⟨wire, liftAbort_eq_ok_iff.mp hwire, hok.1, hok.2, rfl⟩
  · intro h
    obtain ⟨wire, hwire, hqr, hquestions, rfl⟩ := h
    refine bind_eq_ok_iff.mpr ⟨wire, liftAbort_eq_ok_iff.mpr hwire, ?_⟩
    rw [if_neg (by simp [hqr, hquestions])]

end Dnser
