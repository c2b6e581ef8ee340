import Dnser.Proof.Alone

/-!
# Calls come to their end

Threads that insert and reap wait for each other's locks. A thread takes a lock only while it holds
none, so whoever waits, waits for a thread that does not: there is no chain of waiting threads, let
alone a cycle. And every step brings its call closer to its end (`Phase.togo`), whatever the other
threads did to the cache in the meantime. So calls cannot block each other for good, and without
new ones the cache comes to rest.
-/

namespace Dnser.Cache

open Family
open Steps (Run)

namespace Phase

/-- The most steps that are left of a call. -/
def togo : Phase → Nat
  | idle => 0
  | add => 1
  | put _ => 2
  | subHeld _ => 3
  | relock _ => 3
  | subFree _ => 4
  | scan _ is => is.length + 4
  | evict _ => numShards + 5
  | check _ => numShards + 6
  | lock _ => numShards + 7
  | reap _ is => 2 * is.length + 1
  | reapSub _ _ _ is => 2 * is.length + 2

end Phase

/-- **A step is a step towards the end of the call.** -/
theorem togo_advance (c : Cache) {p : Phase} (hp : p ≠ .idle) : (c.advance p).2.togo < p.togo := by
  have hshards : (List.finRange numShards).length = numShards := List.length_finRange
  cases p with
  | idle => exact absurd rfl hp
  | lock ins => simp [advance, Phase.togo]
  | check ins =>
      simp only [advance]
      split
      · simp [Phase.togo]
      · simp only [Phase.togo]
        omega
  | evict ins =>
      rcases advance_evict_cases c ins with ⟨-, h⟩ | ⟨shard, -, -, h⟩
      · rw [h]
        simp only [Phase.togo]
        omega
      · rw [h]
        simp only [Phase.togo]
        omega
  | subHeld ins => simp [advance, Phase.togo]
  | scan ins is =>
      cases is with
      | nil => simp [advance, Phase.togo]
      | cons i is =>
          rcases advance_scan_cases c ins i is with ⟨-, h⟩ | ⟨shard, -, -, -, h⟩
          · rw [h]
            simp [Phase.togo]
          · rw [h]
            simp [Phase.togo]
  | subFree ins => simp [advance, Phase.togo]
  | relock ins => simp [advance, Phase.togo]
  | put ins =>
      simp only [advance]
      split <;> simp [Phase.togo]
  | add => simp [advance, Phase.togo]
  | reap now is =>
      cases is with
      | nil => simp [advance, Phase.togo]
      | cons i is => simp only [advance, Phase.togo, List.length_cons]; omega
  | reapSub now i removed is => simp [advance, Phase.togo]

namespace Shared

variable {n : Nat} {s s' : Shared n} {t : Fin n}

/-- A thread that holds a lock takes no other one, and so does not wait. -/
theorem ready_of_holds {i : Fin numShards} (h : (s.threads t).holds = some i) : s.ready t = true := by
  unfold ready
  split
  · rename_i j hj
    rw [Phase.holds_of_acquires hj] at h
    cases h
  · rfl

/-- A thread that is not ready waits for a lock that somebody holds. -/
theorem held_of_not_ready (h : s.ready t = false) :
    ∃ i u, (s.threads t).acquires = some i ∧ (s.threads u).holds = some i := by
  unfold ready at h
  split at h
  · rename_i i hi
    have hheld : ¬ ∀ u, (s.threads u).holds ≠ some i := by
      rw [← free_iff, h]
      simp
    simp only [not_forall, not_not] at hheld
    obtain ⟨u, hu⟩ := hheld
    exact ⟨i, u, hi, hu⟩
  · cases h

/-- **Whoever waits, waits for a thread that does not.** -/
theorem waits_for_ready (hp : s.threads t ≠ .idle) :
    (∃ s', s.Step (.next t) s') ∨ ∃ i u, (s.threads t).acquires = some i ∧
      (s.threads u).holds = some i ∧ ∃ s', s.Step (.next u) s' := by
  cases hready : s.ready t with
  | true => exact .inl ⟨_, step_of_ready hp hready⟩
  | false =>
      obtain ⟨i, u, hi, hu⟩ := held_of_not_ready hready
      have hne : s.threads u ≠ .idle := by
        intro hidle
        rw [hidle] at hu
        cases hu
      exact .inr ⟨i, u, hi, hu, _, step_of_ready hne (ready_of_holds hu)⟩

/-- What the step of a thread does. -/
theorem step_next (hs : s.Step (.next t) s') : s.threads t ≠ .idle ∧
    s' = ⟨(s.cache.advance (s.threads t)).1,
      Function.update s.threads t (s.cache.advance (s.threads t)).2⟩ := by
  unfold Step Shared.step at hs
  dsimp only at hs
  split at hs
  · cases hs
  · rename_i hne
    split at hs
    · exact ⟨hne, (Option.some.inj hs).symm⟩
    · cases hs

/-- The most steps that are left of all calls together. -/
def togo (s : Shared n) : Nat := tally Phase.togo s.threads

theorem togo_step (hs : s.Step (.next t) s') : s'.togo < s.togo := by
  obtain ⟨hne, rfl⟩ := step_next hs
  have hsum := tally_update Phase.togo s.threads t (s.cache.advance (s.threads t)).2
  have hlt := togo_advance s.cache hne
  show tally Phase.togo (Function.update s.threads t _) < tally Phase.togo s.threads
  omega

/-- No call is longer than the reaper's way through all shards. -/
def Bounded (s : Shared n) : Prop := ∀ t, (s.threads t).togo ≤ 2 * numShards + 1

theorem Bounded.step {a : Act n} (h : s.Bounded) (hs : s.Step a s') : s'.Bounded := by
  have hupdate : ∀ {c : Cache} {t : Fin n} {p : Phase}, p.togo ≤ 2 * numShards + 1 →
      Bounded ⟨c, Function.update s.threads t p⟩ := by
    intro c t p hp u
    show (Function.update s.threads t p u).togo ≤ _
    by_cases hu : u = t
    · rw [hu, Function.update_self]
      exact hp
    · rw [Function.update_of_ne hu]
      exact h u
  rcases step_cases hs with ⟨t, ins, -, rfl⟩ | ⟨t, now, -, rfl⟩ | ⟨t, rfl, -, rfl⟩
  · exact hupdate (by simp [Phase.togo, numShards])
  · exact hupdate (by simp [Phase.togo])
  · obtain ⟨hne, -⟩ := step_next hs
    have hlt := togo_advance s.cache hne
    have hle := h t
    exact hupdate (by omega)

/-- How many calls are in progress. -/
def inProgress (s : Shared n) : Nat := tally (fun p => if p = .idle then 0 else 1) s.threads

theorem togo_le (h : s.Bounded) : s.togo ≤ (2 * numShards + 1) * s.inProgress := by
  unfold togo inProgress tally
  rw [Finset.mul_sum]
  refine Finset.sum_le_sum fun t _ => ?_
  by_cases hidle : s.threads t = .idle
  · simp [hidle, Phase.togo]
  · simpa [hidle] using h t

/--
**Calls neither deadlock nor go on for ever.** However many threads insert and reap, and however
their steps were interleaved so far: a thread that cannot make its next step waits for a lock whose
holder can. And without new calls the threads make at most 129 steps for each call in progress, in
whatever order, and where none of them can make another one, every call has come to its end.
-/
theorem calls_complete (n : Nat) (hashing : Hashing) (capacity : UInt64) (cap : UInt32)
    (s : Shared n)
    (h : Steps.Reachable (init n hashing capacity cap) Step (fun _ _ => True) s) :
    (∀ t, s.threads t ≠ .idle → (∃ s', s.Step (.next t) s') ∨
      ∃ i u, (s.threads t).acquires = some i ∧ (s.threads u).holds = some i ∧
        ∃ s', s.Step (.next u) s') ∧
    ∀ as s', Run Step (fun _ a => ∃ t, a = .next t) s as s' →
      as.length ≤ 129 * s.inProgress ∧
        ((∀ t s'', ¬ s'.Step (.next t) s'') → s'.Quiescent) := by
  have hbounded : s.Bounded :=
    Steps.Reachable.invariant (fun _ => Nat.zero_le _) (fun _ _ _ h hs => h.step hs) h
  refine ⟨fun t ht => waits_for_ready ht, fun as s' hrun => ⟨?_, fun hstuck => ?_⟩⟩
  · have hdecreases : ∀ (s : Shared n) a s', True → (∃ t, a = .next t) → s.Step a s' →
        True ∧ s'.togo < s.togo := by
      rintro s a s' - ⟨t, rfl⟩ hs
      exact ⟨trivial, togo_step hs⟩
    have hlen := hrun.length_add_le hdecreases trivial
    have hle := togo_le hbounded
    have h129 : 2 * numShards + 1 = 129 := rfl
    rw [h129] at hle
    omega
  · -- a call in progress would have a step, its own or that of the thread it waits for
    intro t
    by_contra hne
    rcases waits_for_ready hne with ⟨s'', hs''⟩ | ⟨i, u, -, -, s'', hs''⟩
    · exact hstuck t s'' hs''
    · exact hstuck u s'' hs''

/-- One thread is done with its shard, the other one holds it. -/
theorem busy_completes : busy.threads one ≠ .idle ∧ (busy.threads other).acquires = none ∧
    ((∃ s', busy.Step (.next one) s') ∨
      ∃ i u, (busy.threads one).acquires = some i ∧ (busy.threads u).holds = some i ∧
        ∃ s', busy.Step (.next u) s') :=
  ⟨by decide +kernel, by decide +kernel,
    (calls_complete 2 plainHashing 1 300 busy busy_reachable).1 one (by decide +kernel)⟩

end Shared

end Dnser.Cache
