import Mathlib.Logic.Function.Basic

/-!
# Maps whose entries expire

The abstract purpose of a cache: a map from keys to values, each good from the time it was
put there until some later time. A store that may forget entries, and may put off removing
the ones that have expired, is right about such a map when it is *below* it (it holds nothing
the map does not hold) and, as long as it forgets nothing else, when it *covers* it (it holds
everything that has not expired).
-/

namespace TimedMap

/-- A value, and the time it is good for. -/
structure Entry (ν : Type) where
  value : ν
  since : Nat
  /-- The first instant at which the entry is no longer good. -/
  expires : Nat

end TimedMap

/-- A map from keys to values with a lifetime. -/
abbrev TimedMap (κ ν : Type) := κ → Option (TimedMap.Entry ν)

namespace TimedMap

variable {κ ν : Type}

/-- The map without entries. -/
def empty : TimedMap κ ν := fun _ => none

/-- Later entries replace earlier ones. -/
def put [DecidableEq κ] (m : TimedMap κ ν) (k : κ) (e : Entry ν) : TimedMap κ ν :=
  Function.update m k (some e)

/-- Everything the store holds, the map holds. -/
def Below (store m : TimedMap κ ν) : Prop := ∀ k e, store k = some e → m k = some e

/-- Everything the map holds that has not expired at `now`, the store holds. -/
def Covers (now : Nat) (store m : TimedMap κ ν) : Prop :=
  ∀ k e, m k = some e → now < e.expires → store k = some e

variable {store store' m : TimedMap κ ν} {now now' : Nat}

theorem covers_empty : Covers now store (empty : TimedMap κ ν) := by
  intro k e h
  cases h

/-- Forgetting is always sound. -/
theorem Below.trans (h : Below store m) (hf : Below store' store) : Below store' m :=
  fun k e he => h k e (hf k e he)

theorem Below.put [DecidableEq κ] (h : Below store m) (k : κ) (e : Entry ν) :
    Below (put store k e) (put m k e) := by
  intro k' e' he'
  by_cases hk : k' = k
  · subst hk
    simpa [TimedMap.put] using he'
  · rw [TimedMap.put, Function.update_of_ne hk] at he' ⊢
    exact h k' e' he'

/-- Time only takes away from what has to be covered. -/
theorem Covers.later (h : Covers now store m) (hn : now ≤ now') : Covers now' store m :=
  fun k e he hlt => h k e he (Nat.lt_of_le_of_lt hn hlt)

theorem Covers.put [DecidableEq κ] (h : Covers now store m) (k : κ) (e : Entry ν) :
    Covers now (put store k e) (put m k e) := by
  intro k' e' he' hlt
  by_cases hk : k' = k
  · subst hk
    simpa [TimedMap.put] using he'
  · rw [TimedMap.put, Function.update_of_ne hk] at he' ⊢
    exact h k' e' he' hlt

/-- Reaping removes nothing that still counts. -/
theorem Covers.reap (h : Covers now store m)
    (hr : ∀ k e, store k = some e → now < e.expires → store' k = some e) :
    Covers now store' m :=
  fun k e he hlt => hr k e (h k e he hlt) hlt

end TimedMap
