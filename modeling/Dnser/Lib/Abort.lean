import Mathlib.Data.List.Basic

/-!
# Functions that can fail or panic

A Rust function that returns `Result<T, E>` has three ways to end: with a value,
with an error, or with a panic, when it indexes out of bounds, slices past the
end, unwraps a `None` or underflows. `Abort` keeps the last two apart, so that
"this never panics" is a statement about a definition and not about its reader.

Code that threads a mutable object through such calls is a `StateT` over
`Except (Abort ε)`. Whatever a failed call did to the object is lost, which is
what happens to it in the source too: every caller propagates the error with `?`
and drops the object.
-/

/-- Why a call did not return a value. -/
inductive Abort (ε : Type) where
  /-- The function returned `Err`. -/
  | err (e : ε)
  /-- It panicked. -/
  | panic
  deriving DecidableEq, Repr

namespace Abort

/-- Outcomes can be compared. -/
instance decEqExcept {δ β : Type} [DecidableEq δ] [DecidableEq β] : DecidableEq (Except δ β)
  | .ok a, .ok b => decidable_of_iff (a = b) ⟨congrArg _, Except.ok.inj⟩
  | .error a, .error b => decidable_of_iff (a = b) ⟨congrArg _, Except.error.inj⟩
  | .ok _, .error _ => isFalse nofun
  | .error _, .ok _ => isFalse nofun

variable {ε α β σ : Type}

/-- `buf[i]`. -/
def index (buf : List UInt8) (i : Nat) : Except (Abort ε) UInt8 :=
  match buf[i]? with
  | some b => .ok b
  | none => .error .panic

/-- `&buf[a..b]`. -/
def slice (buf : List UInt8) (a b : Nat) : Except (Abort ε) (List UInt8) :=
  if a ≤ b ∧ b ≤ buf.length then .ok ((buf.drop a).take (b - a)) else .error .panic

/-- `a - b` on `usize`. -/
def sub (a b : Nat) : Except (Abort ε) Nat :=
  if b ≤ a then .ok (a - b) else .error .panic

/-- `buf.get(a..b)`. -/
def getRange (buf : List UInt8) (a b : Nat) : Option (List UInt8) :=
  if a ≤ b ∧ b ≤ buf.length then some ((buf.drop a).take (b - a)) else none

/-- `r.map_err(f)`. -/
def mapErr {δ : Type} (f : δ → ε) : Except δ α → Except (Abort ε) α
  | .ok a => .ok a
  | .error e => .error (.err (f e))

theorem index_eq_ok_iff {buf : List UInt8} {i : Nat} {b : UInt8} :
    (index buf i : Except (Abort ε) UInt8) = .ok b ↔ buf[i]? = some b := by
  unfold index
  cases buf[i]? with
  | none => simp
  | some c => simp

theorem slice_of_le {buf : List UInt8} {a b : Nat} (hab : a ≤ b) (hb : b ≤ buf.length) :
    (slice buf a b : Except (Abort ε) (List UInt8)) = .ok ((buf.drop a).take (b - a)) := by
  rw [slice, if_pos ⟨hab, hb⟩]

theorem sub_of_le {a b : Nat} (h : b ≤ a) : (sub a b : Except (Abort ε) Nat) = .ok (a - b) := by
  rw [sub, if_pos h]

theorem mapErr_eq_ok_iff {δ : Type} {f : δ → ε} {m : Except δ α} {a : α} :
    mapErr f m = .ok a ↔ m = .ok a := by
  cases m with
  | error e => simp [mapErr]
  | ok b => simp [mapErr]

/-! ## Sequencing -/

theorem map_eq_ok_iff {m : Except ε α} {f : α → β} {b : β} :
    f <$> m = .ok b ↔ ∃ a, m = .ok a ∧ f a = b := by
  cases m with
  | error e => simp
  | ok a => simp

theorem bind_eq_ok_iff {m : Except ε α} {k : α → Except ε β} {b : β} :
    m >>= k = .ok b ↔ ∃ a, m = .ok a ∧ k a = .ok b := by
  cases m with
  | error e => simp [bind, Except.bind]
  | ok a => simp [bind, Except.bind]

/-- A sequence of two calls panics only if one of them does. -/
theorem bind_ne_panic {m : Except (Abort ε) α} {k : α → Except (Abort ε) β} (h : m ≠ .error .panic)
    (hk : ∀ a, m = .ok a → k a ≠ .error .panic) : m >>= k ≠ .error .panic := by
  cases m with
  | error e =>
      intro hpanic
      cases hpanic
      exact h rfl
  | ok a => exact hk a rfl

/-- **A sequence of two calls succeeds when both do**, the second from where the first left off. -/
theorem stateT_bind_eq_ok_iff {m : StateT σ (Except ε) α} {k : α → StateT σ (Except ε) β}
    {s : σ} {r : β × σ} :
    (m >>= k) s = .ok r ↔ ∃ a s', m s = .ok (a, s') ∧ k a s' = .ok r := by
  change StateT.bind m k s = _ ↔ _
  unfold StateT.bind
  rw [bind_eq_ok_iff]
  exact Prod.exists

theorem stateT_bind_of_ok {m : StateT σ (Except ε) α} {k : α → StateT σ (Except ε) β}
    {s s' : σ} {a : α} (h : m s = .ok (a, s')) : (m >>= k) s = k a s' := by
  change StateT.bind m k s = _
  unfold StateT.bind
  rw [h]
  rfl

theorem stateT_bind_of_error {m : StateT σ (Except ε) α} {k : α → StateT σ (Except ε) β}
    {s : σ} {e : ε} (h : m s = .error e) : (m >>= k) s = .error e := by
  change StateT.bind m k s = _
  unfold StateT.bind
  rw [h]
  rfl

@[simp] theorem stateT_pure_apply (a : α) (s : σ) :
    (pure a : StateT σ (Except ε) α) s = .ok (a, s) := rfl

end Abort
