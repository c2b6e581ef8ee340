import Mathlib.Data.List.AList

/-!
# Hash tables, as far as order does not matter

A finite map from `κ` to `ν`, with the operations of a hash table that Mathlib's `AList`
does not have: its size, keeping the entries that pass a test, and walking over the
entries in an order nobody promises anything about.
-/

/-- A finite map. Keys are distinct by construction. -/
abbrev Table (κ ν : Type) := AList fun _ : κ => ν

namespace Table

variable {κ ν : Type}

/-- `HashMap::len`. -/
def size (t : Table κ ν) : Nat := t.entries.length

/-- `HashMap::retain`. -/
def retain (p : κ → ν → Bool) (t : Table κ ν) : Table κ ν :=
  ⟨t.entries.filter fun e => p e.1 e.2, t.nodupKeys.sublist List.filter_sublist⟩

/-- The order in which an iterator visits the entries: any rearrangement of them. -/
structure IterOrder (κ ν : Type) where
  /-- The entries as they are visited. -/
  visit : List (Σ _ : κ, ν) → List (Σ _ : κ, ν)
  /-- Each is visited exactly once. -/
  perm : ∀ es, (visit es).Perm es

/-- The order of insertion, as good as any. -/
def IterOrder.asStored : IterOrder κ ν := ⟨id, fun _ => .refl _⟩

/-- The entries under keys that pass a test, and then the others. -/
def IterOrder.first (p : κ → Bool) : IterOrder κ ν :=
  ⟨fun es => es.filter (fun e => p e.1) ++ es.filter fun e => !p e.1,
    fun es => List.filter_append_perm (fun e => p e.1) es⟩

@[simp] theorem size_empty : size (∅ : Table κ ν) = 0 := rfl

theorem size_eq_keys (t : Table κ ν) : t.size = t.keys.length := by
  simp [size, AList.keys, List.keys]

section
variable [DecidableEq κ]

theorem mem_entries_iff {t : Table κ ν} {k : κ} {v : ν} :
    (⟨k, v⟩ : Σ _ : κ, ν) ∈ t.entries ↔ t.lookup k = some v :=
  (AList.mem_lookup_iff (s := t)).symm

theorem size_insert (t : Table κ ν) (k : κ) (v : ν) :
    size (t.insert k v) = if (t.lookup k).isSome then t.size else t.size + 1 := by
  rw [size_eq_keys, AList.keys_insert, List.length_cons, size_eq_keys]
  by_cases h : k ∈ t
  · have hpos := List.length_pos_of_mem (AList.mem_keys.mp h)
    rw [if_pos (AList.lookup_isSome.mpr h), List.length_erase_of_mem (AList.mem_keys.mp h)]
    omega
  · rw [if_neg (by rwa [AList.lookup_isSome]),
      List.erase_of_not_mem (fun hk => h (AList.mem_keys.mpr hk))]

theorem size_erase {t : Table κ ν} {k : κ} (h : (t.lookup k).isSome) :
    size (t.erase k) + 1 = t.size := by
  have hk := AList.mem_keys.mp (AList.lookup_isSome.mp h)
  have hpos := List.length_pos_of_mem hk
  rw [size_eq_keys, AList.keys_erase, List.length_erase_of_mem hk, size_eq_keys]
  omega

theorem lookup_retain_eq_some_iff {p : κ → ν → Bool} {t : Table κ ν} {k : κ} {v : ν} :
    (t.retain p).lookup k = some v ↔ t.lookup k = some v ∧ p k v = true := by
  rw [← mem_entries_iff, ← mem_entries_iff, retain, List.mem_filter]

end

theorem size_retain_le (p : κ → ν → Bool) (t : Table κ ν) : (t.retain p).size ≤ t.size :=
  List.length_filter_le _ _

end Table
