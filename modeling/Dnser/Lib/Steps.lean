import Mathlib.Logic.Basic

/-!
# Transition systems

States that can be reached from an initial one by labelled steps, where every step on the
way meets a condition. The condition is on the state before the step and its label; without
one, it is `fun _ _ => True`.
-/

namespace Steps

variable {σ α : Type}

/-- Reached from `init` by steps that all meet `ok`. -/
inductive Reachable (init : σ) (Step : σ → α → σ → Prop) (ok : σ → α → Prop) : σ → Prop where
  | init : Reachable init Step ok init
  | step {s s' : σ} {a : α} : Reachable init Step ok s → ok s a → Step s a s' →
      Reachable init Step ok s'

variable {init : σ} {Step : σ → α → σ → Prop} {ok : σ → α → Prop}

/-- **The invariant rule.** What holds initially and survives every step that meets the condition
holds throughout. -/
theorem Reachable.invariant_of_ok {P : σ → Prop} (h0 : P init)
    (hstep : ∀ s a s', P s → ok s a → Step s a s' → P s') {s : σ} (h : Reachable init Step ok s) :
    P s := by
  induction h with
  | init => exact h0
  | step _ hok hs ih => exact hstep _ _ _ ih hok hs

/-- The same for what survives any step. -/
theorem Reachable.invariant {P : σ → Prop} (h0 : P init)
    (hstep : ∀ s a s', P s → Step s a s' → P s') {s : σ} (h : Reachable init Step ok s) : P s :=
  h.invariant_of_ok h0 fun s a s' hP _ hs => hstep s a s' hP hs

/-- A weaker condition reaches more. -/
theorem Reachable.mono {ok' : σ → α → Prop} {s : σ} (h : Reachable init Step ok s)
    (hok : ∀ s a, ok s a → ok' s a) : Reachable init Step ok' s := by
  induction h with
  | init => exact .init
  | step _ hstep hs ih => exact ih.step (hok _ _ hstep) hs

/-- **The simulation rule.** What is seen of the states, where every step is seen as a step of another
system or not at all, is a run of that system. -/
theorem Reachable.simulate_of_ok {τ β : Type} {Step' : τ → β → τ → Prop} {ok' : τ → β → Prop}
    {I : σ → Prop} (f : σ → τ) (h0 : I init) (hinv : ∀ s a s', I s → Step s a s' → I s')
    (hstep : ∀ s a s', I s → Step s a s' →
      f s' = f s ∨ ∃ b, ok' (f s) b ∧ Step' (f s) b (f s')) {s : σ}
    (h : Reachable init Step ok s) : Reachable (f init) Step' ok' (f s) := by
  induction h with
  | init => exact .init
  | step hreach hok hs ih =>
      rcases hstep _ _ _ (hreach.invariant h0 hinv) hs with hsame | ⟨b, hb, hs'⟩
      · rw [hsame]
        exact ih
      · exact ih.step hb hs'

/-- The same where any step will do. -/
theorem Reachable.simulate {τ β : Type} {Step' : τ → β → τ → Prop} {I : σ → Prop} (f : σ → τ)
    (h0 : I init) (hinv : ∀ s a s', I s → Step s a s' → I s')
    (hstep : ∀ s a s', I s → Step s a s' → f s' = f s ∨ ∃ b, Step' (f s) b (f s')) {s : σ}
    (h : Reachable init Step ok s) : Reachable (f init) Step' (fun _ _ => True) (f s) :=
  h.simulate_of_ok f h0 hinv fun s a s' hI hs =>
    (hstep s a s' hI hs).imp_right fun ⟨b, hb⟩ => ⟨b, trivial, hb⟩

/-! ## Runs -/

/-- From one state to another by steps with these labels, which all meet `ok`. -/
inductive Run (Step : σ → α → σ → Prop) (ok : σ → α → Prop) : σ → List α → σ → Prop where
  | nil {s : σ} : Run Step ok s [] s
  | cons {s s' s'' : σ} {a : α} {as : List α} : ok s a → Step s a s' → Run Step ok s' as s'' →
      Run Step ok s (a :: as) s''

/-- What survives any step survives a run. -/
theorem Run.invariant {P : σ → Prop} (hstep : ∀ s a s', P s → Step s a s' → P s') {s s' : σ}
    {as : List α} (h : Run Step ok s as s') (hs : P s) : P s' := by
  induction h with
  | nil => exact hs
  | cons _ hstep' _ ih => exact ih (hstep _ _ _ hs hstep')

/-- A run goes on from a state that was reached, and what holds of all its labels is known of every
step. -/
theorem Reachable.run {P : α → Prop} {s s' : σ} {as : List α}
    (h : Reachable init Step (fun s a => ok s a ∧ P a) s) (hrun : Run Step ok s as s')
    (hall : ∀ a ∈ as, P a) : Reachable init Step (fun s a => ok s a ∧ P a) s' := by
  induction hrun with
  | nil => exact h
  | @cons s s₁ _ a as hok hs _ ih =>
      exact ih (h.step ⟨hok, hall a List.mem_cons_self⟩ hs) fun a' ha' =>
        hall a' (List.mem_cons_of_mem _ ha')

theorem Run.append {s s' s'' : σ} {as bs : List α} (h : Run Step ok s as s')
    (h' : Run Step ok s' bs s'') : Run Step ok s (as ++ bs) s'' := by
  induction h with
  | nil => exact h'
  | cons hok hs _ ih => exact .cons hok hs (ih h')

/-- A condition on labels is met by all of them. -/
theorem Run.label {P : α → Prop} {s s' : σ} {as : List α} (h : Run Step (fun _ a => P a) s as s') :
    ∀ a ∈ as, P a := by
  induction h with
  | nil => simp
  | cons hok _ _ ih => exact List.forall_mem_cons.mpr ⟨hok, ih⟩

theorem Run.mono {ok' : σ → α → Prop} {s s' : σ} {as : List α} (h : Run Step ok s as s')
    (hok : ∀ s a, ok s a → ok' s a) : Run Step ok' s as s' := by
  induction h with
  | nil => exact .nil
  | cons hstep hs _ ih => exact .cons (hok _ _ hstep) hs ih

theorem Reachable.exists_run {s : σ} (h : Reachable init Step ok s) :
    ∃ as, Run Step ok init as s := by
  induction h with
  | init => exact ⟨[], .nil⟩
  | step _ hok hs ih =>
      obtain ⟨as, hrun⟩ := ih
      exact ⟨_, hrun.append (.cons hok hs .nil)⟩

theorem Run.of_append {s s'' : σ} {as bs : List α} (h : Run Step ok s (as ++ bs) s'') :
    ∃ s', Run Step ok s as s' ∧ Run Step ok s' bs s'' := by
  induction as generalizing s with
  | nil => exact ⟨s, .nil, h⟩
  | cons a as ih =>
      cases h with
      | cons hok hs hrest =>
          obtain ⟨s', h₁, h₂⟩ := ih hrest
          exact ⟨s', .cons hok hs h₁, h₂⟩

/-- **The variant rule.** Steps of one kind make a number smaller, and those of another kind larger
by no more than `c`. Then there are only so many of the first kind. -/
theorem Run.countP_add_le {I : σ → Prop} {μ : σ → Nat} {p q : α → Bool} {c : Nat}
    (hstep : ∀ s a s', I s → ok s a → Step s a s' →
      I s' ∧ μ s' + (if p a then 1 else 0) ≤ μ s + (if q a then c else 0)) {s s' : σ} {as : List α}
    (h : Run Step ok s as s') (hs : I s) : as.countP p + μ s' ≤ μ s + c * as.countP q := by
  induction h with
  | nil => simp
  | @cons _ _ _ a as hok hs' _ ih =>
      obtain ⟨hI, hle⟩ := hstep _ _ _ hs hok hs'
      have hrest := ih hI
      have hmul : c * (as.countP q + if q a then 1 else 0) =
          c * as.countP q + if q a then c else 0 := by
        split <;> simp [Nat.mul_add]
      rw [List.countP_cons, List.countP_cons, hmul]
      omega

/-- Where every step makes a number smaller, a run is no longer than the number. -/
theorem Run.length_add_le {I : σ → Prop} {μ : σ → Nat}
    (hstep : ∀ s a s', I s → ok s a → Step s a s' → I s' ∧ μ s' < μ s) {s s' : σ} {as : List α}
    (h : Run Step ok s as s') (hs : I s) : as.length + μ s' ≤ μ s := by
  have hone : ∀ s a s', I s → ok s a → Step s a s' →
      I s' ∧ μ s' + (if true then 1 else 0) ≤ μ s + (if false then 0 else 0) := by
    intro s a s' hI hok hs
    exact hstep s a s' hI hok hs
  have hcount := h.countP_add_le (p := fun _ => true) (q := fun _ => false) (c := 0) hone hs
  rw [List.countP_true, Nat.zero_mul] at hcount
  exact hcount

/-! ## Partial functions -/

/-- A sequence of steps of a partial function, if they can all happen and meet the condition. -/
def attempt (step : σ → α → Option σ) (ok : σ → α → Prop) [∀ s a, Decidable (ok s a)] :
    σ → List α → Option σ
  | s, [] => some s
  | s, a :: as => if ok s a then (step s a).bind fun s' => attempt step ok s' as else none

theorem Reachable.attempt {step : σ → α → Option σ} [∀ s a, Decidable (ok s a)] {s s' : σ}
    (h : Reachable init (fun s a s' => step s a = some s') ok s) (as : List α)
    (has : attempt step ok s as = some s') :
    Reachable init (fun s a s' => step s a = some s') ok s' := by
  induction as generalizing s with
  | nil =>
      cases has
      exact h
  | cons a as ih =>
      unfold Steps.attempt at has
      split at has
      · rename_i hok
        obtain ⟨s₁, hs₁, hrest⟩ := Option.bind_eq_some_iff.mp has
        exact ih (h.step hok hs₁) hrest
      · cases has

theorem reachable_attempt {step : σ → α → Option σ} [∀ s a, Decidable (ok s a)] (s : σ)
    (as : List α) (has : (attempt step ok s as).isSome) :
    Reachable s (fun s a s' => step s a = some s') ok ((attempt step ok s as).get has) :=
  Reachable.attempt .init as (Option.some_get has).symm

theorem run_attempt {step : σ → α → Option σ} [∀ s a, Decidable (ok s a)] {s s' : σ} (as : List α)
    (has : attempt step ok s as = some s') : Run (fun s a s' => step s a = some s') ok s as s' := by
  induction as generalizing s with
  | nil =>
      cases has
      exact .nil
  | cons a as ih =>
      unfold attempt at has
      split at has
      · rename_i hok
        obtain ⟨s₁, hs₁, hrest⟩ := Option.bind_eq_some_iff.mp has
        exact .cons hok hs₁ (ih hrest)
      · cases has

/-! ## Runs of a function -/

/-- Every event of the run meets `ok` in the state it finds. -/
def Along (step : σ → α → σ) (ok : σ → α → Prop) : σ → List α → Prop
  | _, [] => True
  | s, a :: as => ok s a ∧ Along step ok (step s a) as

/-- **What each step keeps exactly when it meets a condition, a run keeps exactly when all its
steps do.** -/
theorem foldl_iff_along {step : σ → α → σ} {I P : σ → Prop} {V : α → Prop}
    (hI : ∀ s a, I s → V a → I (step s a))
    (hP : ∀ s a, I s → V a → (P (step s a) ↔ P s ∧ ok s a)) (as : List α) (s : σ)
    (hs : I s) (hvalid : ∀ a ∈ as, V a) : P (as.foldl step s) ↔ P s ∧ Along step ok s as := by
  induction as generalizing s with
  | nil => simp [Along]
  | cons a as ih =>
      have ha := hvalid a List.mem_cons_self
      have hrest := ih (step s a) (hI s a hs ha) fun a' ha' => hvalid a' (List.mem_cons_of_mem _ ha')
      rw [List.foldl_cons, hrest, hP s a hs ha, Along, and_assoc]

end Steps
