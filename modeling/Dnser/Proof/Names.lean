import Dnser.Proof.ReadName
import Dnser.Proto.Writer

/-!
# Dotted names and their labels

The reader joins labels with dots, the writer takes the string apart at dots again.
This file is about the string in between: what its labels are (`labelsOf`), that
joining them gives the string back, that they are strings themselves, and how many
there can be in a name of bounded length.
-/

namespace Dnser

open Utf8 (Str IsUtf8)

/-- The labels of a dotted name. The empty name has none, and no other name has. -/
def labelsOf (bs : List UInt8) : List (List UInt8) := if bs.isEmpty then [] else splitDots bs

/-- The length of a label, as the writer checks it. -/
def ValidLabel (l : List UInt8) : Prop := 1 ≤ l.length ∧ l.length ≤ 63

instance (l : List UInt8) : Decidable (ValidLabel l) := inferInstanceAs (Decidable (_ ∧ _))

/-- Labels, joined by dots. -/
def joinDots (ls : List (List UInt8)) : List UInt8 := [dot].intercalate ls

@[simp] theorem joinDots_nil : joinDots [] = [] := rfl

@[simp] theorem joinDots_singleton (l : List UInt8) : joinDots [l] = l :=
  List.intercalate_singleton

theorem joinDots_cons_cons (l l' : List UInt8) (ls : List (List UInt8)) :
    joinDots (l :: l' :: ls) = l ++ dot :: joinDots (l' :: ls) := by
  simp [joinDots, List.intercalate_cons_cons]

/-- A string that is joined from labels stays one without its first label. -/
theorem isUtf8_joinDots_tail {l l' : List UInt8} {ls : List (List UInt8)}
    (h : IsUtf8 (joinDots (l :: l' :: ls))) : IsUtf8 (joinDots (l' :: ls)) := by
  rw [joinDots_cons_cons] at h
  exact ((Utf8.isUtf8_append_cons dot_lt).mp h).2

@[simp] theorem joinDots_splitDots (bs : List UInt8) : joinDots (splitDots bs) = bs :=
  List.intercalate_splitOn dot

theorem splitDots_joinDots {ls : List (List UInt8)} (hd : ∀ l ∈ ls, dot ∉ l) (hne : ls ≠ []) :
    splitDots (joinDots ls) = ls :=
  List.splitOn_intercalate dot hd hne

theorem splitDots_ne_nil (bs : List UInt8) : splitDots bs ≠ [] := List.splitOn_ne_nil dot bs

/-- No piece of a split string holds a dot. -/
theorem dot_notMem_of_mem_splitDots {bs l : List UInt8} (h : l ∈ splitDots bs) : dot ∉ l := by
  induction bs generalizing l with
  | nil =>
      have : l = [] := by simpa [splitDots] using h
      simp [this]
  | cons b bs ih =>
      rw [splitDots, List.splitOn_cons_eq_if_modifyHead] at h
      obtain ⟨p, ps, hps⟩ := List.exists_cons_of_ne_nil (splitDots_ne_nil bs)
      have hps' : List.splitOn dot bs = p :: ps := hps
      split at h
      · rcases List.mem_cons.mp h with rfl | h
        · simp
        · exact ih h
      · rename_i hb
        rw [hps', List.modifyHead_cons] at h
        rcases List.mem_cons.mp h with rfl | h
        · have hp : dot ∉ p := ih (by rw [hps]; exact List.mem_cons_self)
          intro hmem
          rcases List.mem_cons.mp hmem with heq | hmem
          · exact hb (by simp [heq])
          · exact hp hmem
        · exact ih (by rw [hps]; exact List.mem_cons_of_mem _ h)

theorem joinDots_labelsOf (bs : List UInt8) : joinDots (labelsOf bs) = bs := by
  unfold labelsOf
  split
  · rename_i h
    exact (List.isEmpty_iff.mp h).symm
  · exact joinDots_splitDots bs

/-! ## Labels are strings -/

/-- The pieces of a string between dots are strings. -/
theorem isUtf8_of_mem_joinDots {ls : List (List UInt8)} (h : IsUtf8 (joinDots ls)) :
    ∀ l ∈ ls, IsUtf8 l := by
  induction ls with
  | nil => simp
  | cons l ls ih =>
      cases ls with
      | nil =>
          intro l' hl'
          rw [List.mem_singleton.mp hl']
          simpa using h
      | cons l' ls =>
          rw [joinDots_cons_cons] at h
          obtain ⟨h1, h2⟩ := (Utf8.isUtf8_append_cons dot_lt).mp h
          intro x hx
          rcases List.mem_cons.mp hx with rfl | hx
          · exact h1
          · exact ih h2 x hx

/-- The labels of a string, as strings. -/
theorem exists_str_labels {ls : List (List UInt8)} (h : ∀ l ∈ ls, IsUtf8 l) :
    ∃ labels : List Str, labels.map Str.bytes = ls := by
  induction ls with
  | nil => exact ⟨[], rfl⟩
  | cons l ls ih =>
      obtain ⟨labels, rfl⟩ := ih (fun x hx => h x (List.mem_cons_of_mem _ hx))
      exact ⟨⟨l, h l List.mem_cons_self⟩ :: labels, rfl⟩

/-! ## Joining gives the string back -/

theorem bytes_appendLabel {name l : Str} (h : name.bytes ≠ []) :
    (appendLabel name l).bytes = name.bytes ++ dot :: l.bytes := by
  have hne : name.isEmpty = false := by
    simpa [Str.isEmpty] using h
  simp [appendLabel, hne, Str.pushStr, Str.pushAscii]

theorem bytes_joinOnto {name : Str} {labels : List Str} (h : name.bytes ≠ []) :
    (joinOnto name labels).bytes = joinDots (name.bytes :: labels.map Str.bytes) := by
  induction labels generalizing name with
  | nil => simp
  | cons l ls ih =>
      have hb := bytes_appendLabel (l := l) h
      rw [joinOnto_cons, ih (by rw [hb]; simp), hb, List.map_cons, joinDots_cons_cons]
      cases ls with
      | nil => simp
      | cons l' ls => simp [joinDots_cons_cons]

/-- What `read_name` builds out of nonempty labels is the labels joined by dots. -/
theorem bytes_joinLabels {labels : List Str} (h : ∀ l ∈ labels, l.bytes ≠ []) :
    (joinLabels labels).bytes = joinDots (labels.map Str.bytes) := by
  cases labels with
  | nil => rfl
  | cons l ls =>
      have hl : (appendLabel Str.empty l) = l := Str.ext rfl
      rw [joinLabels, joinOnto_cons, hl, bytes_joinOnto (h l List.mem_cons_self)]
      rfl

/-! ## How many labels fit -/

/-- Between two nonempty labels there is a dot, so at most every other byte starts one. -/
theorem length_le_joinDots {ls : List (List UInt8)} (h : ∀ l ∈ ls, 1 ≤ l.length) :
    2 * ls.length ≤ (joinDots ls).length + 1 := by
  induction ls with
  | nil => simp
  | cons l ls ih =>
      have hl := h l List.mem_cons_self
      have ih := ih (fun x hx => h x (List.mem_cons_of_mem _ hx))
      cases ls with
      | nil => simp; omega
      | cons l' ls =>
          simp only [joinDots_cons_cons, List.length_append, List.length_cons] at ih ⊢
          omega

/-! ## Trailing dots -/

theorem isUtf8_trimEndDots {bs : List UInt8} (h : IsUtf8 bs) : IsUtf8 (trimEndDots bs) := by
  induction bs using List.reverseRecOn with
  | nil => simpa [trimEndDots] using h
  | append_singleton bs b ih =>
      unfold trimEndDots
      by_cases hb : b = dot
      · subst hb
        rw [List.rdropWhile_concat_pos _ _ _ (by simp)]
        exact ih ((Utf8.isUtf8_append_cons dot_lt).mp h).1
      · rw [List.rdropWhile_concat_neg _ _ _ (by simpa using hb)]
        exact h

/-- A name without its trailing dots. -/
def trimName (name : Str) : Str := ⟨trimEndDots name.bytes, isUtf8_trimEndDots name.utf8⟩

theorem len_trimName_le (name : Str) : (trimName name).len ≤ name.len :=
  (List.rdropWhile_prefix (· == dot) name.bytes).length_le

/-- A name whose labels are all nonempty has no trailing dot. -/
theorem trimEndDots_of_labels {bs : List UInt8} (h : ∀ l ∈ labelsOf bs, l ≠ []) :
    trimEndDots bs = bs := by
  rw [trimEndDots, List.rdropWhile_eq_self_iff]
  intro hne hlast
  have hlast : bs.getLast hne = dot := by simpa using hlast
  have hbs : bs = bs.dropLast ++ dot :: [] := by
    rw [← hlast, List.dropLast_append_getLast hne]
  have hmem : [] ∈ labelsOf bs := by
    rw [labelsOf, if_neg (by simpa using hne), splitDots, hbs, List.splitOn_append_cons_self]
    simp
  exact h [] hmem rfl

end Dnser
