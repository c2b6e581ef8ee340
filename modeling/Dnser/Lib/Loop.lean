/-!
# Loops with a variant

An imperative `loop { .. }` is modelled by its **body**: one turn either goes
round again with new locals, leaves with a value, or fails. The loop itself is
the iteration of that body, and it is only ever built together with a *variant*,
a natural number that every turn which goes round again makes smaller. So a loop
of this library terminates by construction, needs no "out of fuel" result, and
still evaluates, because the recursion is structural.

Proofs about a loop use two facts and nothing else: `loop_eq`, which unfolds one
turn, and `loop_induct`, which carries a property of a final state backwards
through every turn (`loop_induct_ok` where only what is returned matters).
-/

namespace Loop

/-- What one turn of a loop body decides, when it does not fail. -/
inductive Turn (σ α : Type) where
  /-- Go round again with these locals. -/
  | again (s : σ)
  /-- Leave the loop with this value. -/
  | done (a : α)

variable {σ ε α : Type}

/-- Every turn that goes round again makes the variant smaller. -/
def Decreases (body : σ → Except ε (Turn σ α)) (variant : σ → Nat) : Prop :=
  ∀ s s', body s = .ok (.again s') → variant s' < variant s

/-- At most `fuel` turns, which the bound says is enough. -/
def run (body : σ → Except ε (Turn σ α)) (variant : σ → Nat) (hv : Decreases body variant) :
    (fuel : Nat) → (s : σ) → variant s < fuel → Except ε α
  | 0, _, h => absurd h (Nat.not_lt_zero _)
  | fuel + 1, s, h =>
      match hb : body s with
      | .error e => .error e
      | .ok (.done a) => .ok a
      | .ok (.again s') => run body variant hv fuel s'
          (Nat.lt_of_lt_of_le (hv s s' hb) (Nat.le_of_lt_succ h))

/-- Turn after turn, until the body leaves or fails. -/
def loop (body : σ → Except ε (Turn σ α)) (variant : σ → Nat) (hv : Decreases body variant)
    (s : σ) : Except ε α :=
  run body variant hv (variant s + 1) s (Nat.lt_succ_self _)

variable {body : σ → Except ε (Turn σ α)} {variant : σ → Nat} {hv : Decreases body variant}

/-- The number of turns allowed does not matter once it is enough. -/
theorem run_fuel : ∀ (n m : Nat) (s : σ) (hn : variant s < n) (hm : variant s < m),
    run body variant hv n s hn = run body variant hv m s hm
  | 0, _, _, hn, _ => absurd hn (Nat.not_lt_zero _)
  | _, 0, _, _, hm => absurd hm (Nat.not_lt_zero _)
  | n + 1, m + 1, s, hn, hm => by
      rw [run, run]
      split
      · rfl
      · rfl
      · exact run_fuel n m _ _ _

/-- **One turn.** A loop is its body, followed by itself. -/
theorem loop_eq (s : σ) :
    loop body variant hv s =
      match body s with
      | .error e => .error e
      | .ok (.done a) => .ok a
      | .ok (.again s') => loop body variant hv s' := by
  rw [loop, run]
  split
  · rename_i hb; rw [hb]
  · rename_i hb; rw [hb]
  · rename_i s' hb
    refine (run_fuel _ (variant s' + 1) s' _ (Nat.lt_succ_self _)).trans ?_
    rw [hb]
    rfl

theorem loop_of_error {s : σ} {e : ε} (h : body s = .error e) :
    loop body variant hv s = .error e := by
  rw [loop_eq, h]

theorem loop_of_done {s : σ} {a : α} (h : body s = .ok (.done a)) :
    loop body variant hv s = .ok a := by
  rw [loop_eq, h]

theorem loop_of_again {s s' : σ} (h : body s = .ok (.again s')) :
    loop body variant hv s = loop body variant hv s' := by
  rw [loop_eq, h]

/--
**The loop rule.** A relation between locals and outcomes holds of the whole loop
when it holds of the turns that leave, and every turn that goes round again hands
it back from the next locals to the current ones.
-/
theorem loop_induct {P : σ → Except ε α → Prop}
    (fail : ∀ s e, body s = .error e → P s (.error e))
    (done : ∀ s a, body s = .ok (.done a) → P s (.ok a))
    (again : ∀ s s' r, body s = .ok (.again s') → P s' r → P s r) :
    ∀ s, P s (loop body variant hv s) := by
  intro s
  induction hn : variant s using Nat.strongRecOn generalizing s with
  | ind n ih =>
      cases hb : body s with
      | error e => rw [loop_of_error hb]; exact fail s e hb
      | ok t =>
          cases t with
          | done a => rw [loop_of_done hb]; exact done s a hb
          | again s' =>
              rw [loop_of_again hb]
              exact again s s' _ hb (ih _ (hn ▸ hv s s' hb) s' rfl)

/-- The same for what a loop returns: nothing is to be shown of one that fails. -/
theorem loop_induct_ok {P : σ → α → Prop} (done : ∀ s a, body s = .ok (.done a) → P s a)
    (again : ∀ s s' a, body s = .ok (.again s') → P s' a → P s a) {s : σ} {a : α}
    (h : loop body variant hv s = .ok a) : P s a := by
  refine loop_induct (P := fun s out => ∀ a, out = .ok a → P s a) ?_ ?_ ?_ s a h
  · intro s e _ a ha
    cases ha
  · intro s a hb a' ha
    cases ha
    exact done s a hb
  · intro s s' out hb ih a ha
    exact again s s' a hb (ih a ha)

end Loop
