import Dnser.Resolver.InFlight

/-!
# Taking an id

`allocate_and_insert` draws sixteen ids and then scans all of them from a random start. Neither
loop touches the map before it returns, and the scan passes every id, so nothing but a full map
makes it fail. What it does to the map is what the step relation says of an allocation
(`step_allocateAndInsert`), and every id the relation allows can be drawn.
-/

namespace Dnser

namespace InFlight

open Abort

variable {σ : Type} {map : Senders σ} {tx : σ} {ids : List UInt16}

/-- The two ways through a loop: no id of it is vacant, or the first that is gets filled. -/
theorem fillVacant_cases (map : Senders σ) (tx : σ) (ids : List UInt16) :
    (fillVacant map (some tx) ids = none ∧ ∀ id ∈ ids, map id ≠ none) ∨
      ∃ id ∈ ids, map id = none ∧
        fillVacant map (some tx) ids = some (.ok id, Function.update map id (some tx)) := by
  induction ids with
  | nil => exact .inl ⟨rfl, by simp⟩
  | cons id ids ih =>
      cases hid : map id with
      | none => exact .inr ⟨id, List.mem_cons_self, hid, by simp [fillVacant, hid]⟩
      | some other =>
          have hnext : fillVacant map (some tx) (id :: ids) = fillVacant map (some tx) ids := by
            simp [fillVacant, hid]
          rw [hnext]
          rcases ih with ⟨hnone, hall⟩ | ⟨id', hmem, hvacant, hfill⟩
          · exact .inl ⟨hnone, by simpa [hid] using hall⟩
          · exact .inr ⟨id', List.mem_cons_of_mem _ hmem, hvacant, hfill⟩

/-- **The scan passes every id**, wherever it starts. -/
theorem mem_scan (start id : UInt16) : id ∈ scan start := by
  -- the offset is how far `id` is ahead of `start`, going round
  refine List.mem_map.mpr ⟨(id - start).toNat, List.mem_range.mpr (id - start).toNat_lt, ?_⟩
  rw [UInt16.ofNat_toNat, UInt16.add_comm, UInt16.sub_add_cancel]

/-- The two ways through `allocate_and_insert`. -/
theorem allocateAndInsert_cases (map : Senders σ) (tx : σ) (rng : Nat → UInt16) :
    (∃ id, map id = none ∧
      allocateAndInsert map tx rng = (.ok id, Function.update map id (some tx))) ∨
      (∀ id, map id ≠ none) ∧
        allocateAndInsert map tx rng = (.error (.err .idSpaceExhausted), map) := by
  unfold allocateAndInsert
  rcases fillVacant_cases map tx (attempts rng) with ⟨hnone, -⟩ | ⟨id, -, hvacant, hfill⟩
  · rw [hnone]
    rcases fillVacant_cases map tx (scan (rng randomIdAttempts)) with
      ⟨hnone, hall⟩ | ⟨id, -, hvacant, hfill⟩
    · rw [hnone]
      exact .inr ⟨fun id => hall id (mem_scan _ id), rfl⟩
    · rw [hfill]
      exact .inl ⟨id, hvacant, rfl⟩
  · rw [hfill]
    exact .inl ⟨id, hvacant, rfl⟩

/--
**Allocation is complete and atomic.** Whatever is drawn, `allocate_and_insert` returns an id that
was vacant and adds the sender under it, or it returns an error and leaves the map alone; and it
returns the error exactly if there is no vacant id.
-/
theorem allocateAndInsert_complete (map : Senders σ) (tx : σ) (rng : Nat → UInt16) :
    ((∃ id, map id = none ∧
        allocateAndInsert map tx rng = (.ok id, Function.update map id (some tx))) ∨
      allocateAndInsert map tx rng = (.error (.err .idSpaceExhausted), map)) ∧
    ((allocateAndInsert map tx rng).1 = .error (.err .idSpaceExhausted) ↔
      ∀ id, map id ≠ none) := by
  rcases allocateAndInsert_cases map tx rng with ⟨id, hvacant, hrun⟩ | ⟨hfull, hrun⟩
  · refine ⟨.inl ⟨id, hvacant, hrun⟩, ?_⟩
    rw [hrun]
    exact iff_of_false (by simp) fun hfull => hfull id hvacant
  · exact ⟨.inr hrun, iff_of_true (by rw [hrun]) hfull⟩

/-! ## The step it is -/

/-- A query that gets an id takes an allocation step, and the map it leaves is that of the step. -/
theorem step_allocateAndInsert {s : State} {q : Nat} {rng : Nat → UInt16} {id : UInt16}
    (hnew : s.assigned q = none) (h : (allocateAndInsert s.map q rng).1 = .ok id) :
    Step s (.allocate q id) (s.register q id) ∧
      (allocateAndInsert s.map q rng).2 = (s.register q id).map := by
  rcases allocateAndInsert_cases s.map q rng with ⟨id', hvacant, hrun⟩ | ⟨-, hrun⟩
  · rw [hrun] at h ⊢
    cases h
    exact ⟨.allocate hnew hvacant, rfl⟩
  · rw [hrun] at h
    cases h

/-- Every allocation step is one that a draw can lead to. -/
theorem exists_rng_of_step {s s' : State} {q : Nat} {id : UInt16}
    (h : Step s (.allocate q id) s') :
    ∃ rng, allocateAndInsert s.map q rng = (.ok id, s'.map) := by
  obtain ⟨-, hvacant⟩ := h
  refine ⟨fun _ => id, ?_⟩
  have hfirst : attempts (fun _ => id) = id :: List.replicate 15 id := rfl
  simp [allocateAndInsert, hfirst, fillVacant, hvacant, State.register]

end InFlight

end Dnser
