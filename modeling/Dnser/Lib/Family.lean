import Mathlib.Algebra.BigOperators.Fin
import Mathlib.Algebra.Order.BigOperators.Group.Finset

/-!
# Families of which one member changes at a time

The shards of a table, or threads that are each in a phase of their own. Two kinds of facts are
needed about such a family over and over. What all members contribute to a number is a sum, and
when one member changes the sum changes by that member's difference. And a lock is held by the
member that says so; it stays with one of them as long as it is only taken when it is free.
-/

namespace Family

variable {ι α β : Type} {members : ι → α} {i : ι} {a : α}

/-! ## Sums -/

section
variable [Fintype ι]

/-- What the members contribute, all together. -/
def tally (f : α → Nat) (members : ι → α) : Nat := ∑ i, f (members i)

variable {f : α → Nat}

/-- **One member changes**, and with it how contributions are counted, but not those of the
others. -/
theorem tally_update_of_eq [DecidableEq ι] {g : α → Nat}
    (hother : ∀ j, j ≠ i → g (members j) = f (members j)) (a : α) :
    tally g (Function.update members i a) + f (members i) = tally f members + g a := by
  have hrest : ∀ j ∈ Finset.univ.erase i, g (Function.update members i a j) = f (members j) := by
    intro j hj
    rw [Function.update_of_ne (Finset.ne_of_mem_erase hj), hother j (Finset.ne_of_mem_erase hj)]
  have hnew := Finset.add_sum_erase Finset.univ (fun j => g (Function.update members i a j))
    (Finset.mem_univ i)
  have hold := Finset.add_sum_erase Finset.univ (fun j => f (members j)) (Finset.mem_univ i)
  rw [Finset.sum_congr rfl hrest] at hnew
  simp only [Function.update_self] at hnew
  unfold tally
  omega

theorem tally_update [DecidableEq ι] (f : α → Nat) (members : ι → α) (i : ι) (a : α) :
    tally f (Function.update members i a) + f (members i) = tally f members + f a :=
  tally_update_of_eq (fun _ _ => rfl) a

theorem le_tally (f : α → Nat) (members : ι → α) (i : ι) : f (members i) ≤ tally f members :=
  Finset.single_le_sum (f := fun j => f (members j)) (fun _ _ => Nat.zero_le _) (Finset.mem_univ i)

theorem tally_eq_zero (h : ∀ j, f (members j) = 0) : tally f members = 0 :=
  Finset.sum_eq_zero fun j _ => h j

/-- Only one member contributes. -/
theorem tally_eq_single (h : ∀ j, j ≠ i → f (members j) = 0) : tally f members = f (members i) :=
  Finset.sum_eq_single i (fun j _ hj => h j hj) fun hi => absurd (Finset.mem_univ i) hi

end

/-! ## Lists -/

/-- What the members of a list weigh, all together. -/
def weigh (f : α → Nat) (l : List α) : Nat := (l.map f).sum

@[simp] theorem weigh_nil (f : α → Nat) : weigh f [] = 0 := rfl

@[simp] theorem weigh_cons (f : α → Nat) (a : α) (l : List α) :
    weigh f (a :: l) = f a + weigh f l := by
  simp [weigh]

@[simp] theorem weigh_append (f : α → Nat) (l l' : List α) :
    weigh f (l ++ l') = weigh f l + weigh f l' := by
  simp [weigh]

/-- One member changes. -/
theorem weigh_set {f : α → Nat} {l : List α} {k : Nat} {b : α} (h : l[k]? = some b) (a : α) :
    weigh f (l.set k a) + f b = weigh f l + f a := by
  induction l generalizing k with
  | nil => simp at h
  | cons x l ih =>
      cases k with
      | zero =>
          obtain rfl : x = b := by simpa using h
          simp only [List.set_cons_zero, weigh_cons]
          omega
      | succ k =>
          have hrest := ih (k := k) (by simpa using h)
          simp only [List.set_cons_succ, weigh_cons]
          omega

/-- One member goes. -/
theorem weigh_eraseIdx {f : α → Nat} {l : List α} {k : Nat} {b : α} (h : l[k]? = some b) :
    weigh f (l.eraseIdx k) + f b = weigh f l := by
  induction l generalizing k with
  | nil => simp at h
  | cons x l ih =>
      cases k with
      | zero =>
          obtain rfl : x = b := by simpa using h
          simp only [List.eraseIdx_cons_zero, weigh_cons]
          omega
      | succ k =>
          have hrest := ih (k := k) (by simpa using h)
          simp only [List.eraseIdx_cons_succ, weigh_cons]
          omega

/-- All of them change, and weigh what they did. -/
theorem weigh_map {f : α → Nat} {g : α → α} (h : ∀ a, f (g a) = f a) (l : List α) :
    weigh f (l.map g) = weigh f l := by
  simp [weigh, Function.comp_def, h]

/-- Members that weigh one or nothing are counted. -/
theorem weigh_eq_length_filter {f : α → Nat} {p : α → Bool}
    (h : ∀ a, f a = if p a then 1 else 0) (l : List α) : weigh f l = (l.filter p).length := by
  induction l with
  | nil => rfl
  | cons a l ih =>
      rw [weigh_cons, ih, h a, List.filter_cons]
      split
      · rw [List.length_cons, Nat.add_comm]
      · rw [Nat.zero_add]

theorem le_weigh {f : α → Nat} {l : List α} {a : α} (h : a ∈ l) : f a ≤ weigh f l := by
  induction l with
  | nil => cases h
  | cons b l ih =>
      rw [weigh_cons]
      rcases List.mem_cons.mp h with rfl | h
      · exact Nat.le_add_right _ _
      · exact Nat.le_trans (ih h) (Nat.le_add_left _ _)

/-- What is picked out of a list is no more than its members weigh, if only those are picked that
weigh something. -/
theorem length_filterMap_le_weigh {f : α → Nat} {g : α → Option β}
    (h : ∀ a, g a ≠ none → 0 < f a) (l : List α) : (l.filterMap g).length ≤ weigh f l := by
  induction l with
  | nil => exact Nat.zero_le _
  | cons a l ih =>
      rw [weigh_cons, List.filterMap_cons]
      cases hg : g a with
      | none => exact Nat.le_trans ih (Nat.le_add_left _ _)
      | some b =>
          have hpos := h a (by simp [hg])
          rw [List.length_cons]
          omega

/-- **Where there is one at most, it is in one place.** -/
theorem eq_of_tally_weigh_le_one [Fintype ι] [DecidableEq ι] {f : α → Nat} {lists : ι → List α}
    {i j : ι} {k l : Nat} {a b : α} (h : tally (weigh f) lists ≤ 1) (hi : (lists i)[k]? = some a)
    (ha : 0 < f a) (hj : (lists j)[l]? = some b) (hb : 0 < f b) : i = j ∧ k = l := by
  -- nothing is left without the first one
  have herase := weigh_eraseIdx (f := f) hi
  have hsum := tally_update (weigh f) lists i ((lists i).eraseIdx k)
  have hleft := le_tally (weigh f) (Function.update lists i ((lists i).eraseIdx k)) j
  have hgone : b ∉ Function.update lists i ((lists i).eraseIdx k) j := by
    intro hmem
    have hle := le_weigh (f := f) hmem
    omega
  by_cases hij : j = i
  · subst hij
    refine ⟨rfl, ?_⟩
    by_contra hkl
    rw [Function.update_self] at hgone
    exact hgone (List.mem_eraseIdx_iff_getElem?.mpr ⟨l, Ne.symm hkl, hj⟩)
  · rw [Function.update_of_ne hij] at hgone
    exact absurd (List.mem_of_getElem? hj) hgone

/-! ## Locks -/

/-- No two members hold the same lock. -/
def Exclusive (holds : α → Option β) (members : ι → α) : Prop :=
  ∀ i j l, holds (members i) = some l → holds (members j) = some l → i = j

variable {holds : α → Option β}

/-- A member changes, and takes no lock but one that is free or its own. -/
theorem Exclusive.update [DecidableEq ι] (h : Exclusive holds members)
    (hnew : ∀ l, holds a = some l →
      holds (members i) = some l ∨ ∀ j, holds (members j) ≠ some l) :
    Exclusive holds (Function.update members i a) := by
  -- nobody else holds what this one holds now
  have key : ∀ j l, j ≠ i → holds a = some l → holds (members j) ≠ some l := by
    intro j l hj ha hl
    rcases hnew l ha with hi | hfree
    · exact hj (h j i l hl hi)
    · exact hfree j hl
  intro j k l hj hk
  by_cases hji : j = i
  · by_cases hki : k = i
    · rw [hji, hki]
    · rw [hji, Function.update_self] at hj
      rw [Function.update_of_ne hki] at hk
      exact absurd hk (key k l hki hj)
  · rw [Function.update_of_ne hji] at hj
    by_cases hki : k = i
    · rw [hki, Function.update_self] at hk
      exact absurd hj (key j l hji hk)
    · rw [Function.update_of_ne hki] at hk
      exact h j k l hj hk

end Family
