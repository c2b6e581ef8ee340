import Dnser.Cache.Key
import Dnser.Proof.Wire

/-!
# Names that are taken for each other

On the wire a name is a list of labels, and a label may hold any byte, the dot included. The program
keeps a name as one string, with a dot between any two labels, and takes it apart at dots when it
writes it. What gets lost on the way is which dots were there before. Two names have the same string
exactly if their labels, cut at dots, leave the same pieces (`name_eq_iff_pieces`); so the labels are
kept exactly if none of them holds a dot.
-/

namespace Dnser

open Utf8 (Str)
open Bytes Abort

/-! ## Pieces -/

/-- No label holds a dot. -/
def DotFree (ls : Labels) : Prop := ∀ l ∈ ls, dot ∉ l

instance (ls : Labels) : Decidable (DotFree ls) := inferInstanceAs (Decidable (∀ l ∈ ls, _))

/-- Labels without dots are their own pieces. -/
theorem DotFree.flatMap_splitDots {ls : Labels} (h : DotFree ls) : ls.flatMap splitDots = ls := by
  induction ls with
  | nil => rfl
  | cons l ls ih =>
      have hl : splitDots l = [l] := by
        have hone : splitDots (joinDots [l]) = [l] :=
          splitDots_joinDots (by simpa using h l List.mem_cons_self) (by simp)
        rwa [joinDots_singleton] at hone
      rw [List.flatMap_cons, hl, ih fun x hx => h x (List.mem_cons_of_mem _ hx)]
      rfl

theorem dotFree_labelsOf (bs : List UInt8) : DotFree (labelsOf bs) := by
  intro l hl
  unfold labelsOf at hl
  split at hl
  · cases hl
  · exact dot_notMem_of_mem_splitDots hl

/-- Joined labels without dots come apart as they were. -/
theorem DotFree.eq_of_joinDots_eq {ls ls' : Labels} (h : DotFree ls) (h' : DotFree ls')
    (hf : Filled ls) (hf' : Filled ls') (hjoin : joinDots ls = joinDots ls') : ls = ls' := by
  have hpieces := congrArg labelsOf hjoin
  rwa [labelsOf_joinDots hf, labelsOf_joinDots hf', h.flatMap_splitDots, h'.flatMap_splitDots]
    at hpieces

/-! ## The string of a name -/

section
variable {buf : List UInt8} {p : Nat} {name : Str} {r : Reader} {ls : Labels}

/-- What `read_name` returns, for the labels that stand on the wire. -/
theorem bytes_of_nameAt (h : readName ⟨buf, p⟩ = .ok (name, r)) (hls : NameAt buf p ls r.pos) :
    name.bytes = joinDots ls := by
  obtain ⟨-, ls', hls', hbytes⟩ := readName_at h
  rw [hbytes, (hls'.unique hls).1]

theorem NameAt.valid {stop : Nat} (h : NameAt buf p ls stop) : ∀ l ∈ ls, ValidLabel l := by
  obtain ⟨jumps, h⟩ := h
  exact h.label_length

/-- **The string keeps the pieces of the labels, and no more.** -/
theorem name_eq_iff_pieces {name' : Str} {ls' : Labels} (hfilled : Filled ls)
    (hfilled' : Filled ls') (hbytes : name.bytes = joinDots ls) (hbytes' : name'.bytes = joinDots ls') :
    name = name' ↔ ls.flatMap splitDots = ls'.flatMap splitDots := by
  have hlabels := labelsOf_joinDots hfilled
  have hlabels' := labelsOf_joinDots hfilled'
  rw [← hbytes] at hlabels
  rw [← hbytes'] at hlabels'
  rw [← hlabels, ← hlabels']
  constructor
  · intro hname
    rw [hname]
  · intro hpieces
    apply Str.ext
    rw [← joinDots_labelsOf name.bytes, hpieces, joinDots_labelsOf]

/-- Writing the name, to any writer whose table is right, spells the labels again. -/
def Respelled (name : Str) (ls : Labels) : Prop :=
  ∀ w, TableOk w → ∃ w' stop, writeName name w = .ok ((), w') ∧ NameAt w'.buf w.buf.length ls stop

/-- **A name is written with the labels it was read with exactly if they hold no dot.** -/
theorem respelled_iff (hvalid : ∀ l ∈ ls, ValidLabel l) (hbytes : name.bytes = joinDots ls) :
    Respelled name ls ↔ DotFree ls := by
  constructor
  · intro h
    obtain ⟨w', stop, hrun, hat⟩ := h Writer.new tableOk_new
    obtain ⟨bs, table, hrun', hwritten⟩ :=
      writeName_spec tableOk_new (encodable_of_writeName tableOk_new hrun)
    rw [hrun] at hrun'
    cases hrun'
    -- what was written are pieces of the string, and these hold no dot
    obtain ⟨jumps, -, hsp⟩ := hwritten.spells
    obtain ⟨rfl, -⟩ := hat.unique ⟨jumps, hsp⟩
    exact dotFree_labelsOf _
  · intro hfree w hT
    have hfilled : Filled ls := fun l hl => (hvalid l hl).1
    have hlabels : labelsOf name.bytes = ls := by
      rw [hbytes, labelsOf_joinDots hfilled, hfree.flatMap_splitDots]
    have htrim : trimName name = name := by
      refine Str.ext (trimEndDots_of_labels fun l hl => ?_)
      rw [hlabels] at hl
      exact List.ne_nil_of_length_pos (hfilled l hl)
    have hencodable : Encodable name := by
      unfold Encodable
      rw [htrim, hlabels]
      exact hvalid
    obtain ⟨bs, table, hrun, hwritten⟩ := writeName_spec hT hencodable
    obtain ⟨jumps, -, hsp⟩ := hwritten.spells
    rw [htrim, hlabels] at hsp
    exact ⟨_, _, hrun, jumps, hsp⟩

end

/-! ## Cache keys -/

/-- Labels in lower case. -/
def lowercase (ls : Labels) : Labels := ls.map fun l => l.map Utf8.toAsciiLowercase

/-- A dot is a dot in lower case, and nothing else is. -/
theorem toAsciiLowercase_eq_dot_iff (b : UInt8) : Utf8.toAsciiLowercase b = dot ↔ b = dot := by
  have h : ∀ n : Fin 256, Utf8.toAsciiLowercase (UInt8.ofFin n) = dot ↔ UInt8.ofFin n = dot := by
    decide +kernel
  exact h b.toFin

theorem map_joinDots (ls : Labels) :
    (joinDots ls).map Utf8.toAsciiLowercase = joinDots (lowercase ls) := by
  induction ls with
  | nil => rfl
  | cons l ls ih =>
      cases ls with
      | nil => simp [lowercase]
      | cons l' ls =>
          have hdot : Utf8.toAsciiLowercase dot = dot := rfl
          rw [joinDots_cons_cons, List.map_append, List.map_cons, ih, hdot]
          exact (joinDots_cons_cons _ _ _).symm

theorem DotFree.lowercase {ls : Labels} (h : DotFree ls) : DotFree (lowercase ls) := by
  intro l hl hdot
  obtain ⟨l₀, hl₀, rfl⟩ := List.mem_map.mp hl
  obtain ⟨b, hb, hlower⟩ := List.mem_map.mp hdot
  rw [(toAsciiLowercase_eq_dot_iff b).mp hlower] at hb
  exact h l₀ hl₀ hb

theorem Filled.lowercase {ls : Labels} (h : Filled ls) : Filled (lowercase ls) := by
  intro l hl
  obtain ⟨l₀, hl₀, rfl⟩ := List.mem_map.mp hl
  rw [List.length_map]
  exact h l₀ hl₀

/-! ## Two names -/

/-- Two strings that stand for two names, with the labels the names have on the wire, are not taken
for each other. -/
structure ToldApart (name : Str) (ls : Labels) (name' : Str) (ls' : Labels) : Prop where
  /-- The same string, the same labels. -/
  strings : name = name' → ls = ls'
  /-- A question that is equal to another asks for the same labels. -/
  questions : ∀ q q' : Question, q.name = name → q'.name = name' → q = q' → ls = ls'
  /-- One that has the same cache key does so up to letter case. -/
  keys : ∀ q q' : Question, q.name = name → q'.name = name' →
    CacheKey.fromQuestion q = CacheKey.fromQuestion q' → lowercase ls = lowercase ls'
  /-- What is sent on has the labels that came in. -/
  respelled : Respelled name ls ∧ Respelled name' ls'

theorem toldApart_of_dotFree {name name' : Str} {ls ls' : Labels}
    (hvalid : ∀ l ∈ ls, ValidLabel l) (hvalid' : ∀ l ∈ ls', ValidLabel l)
    (hbytes : name.bytes = joinDots ls) (hbytes' : name'.bytes = joinDots ls')
    (hfree : DotFree ls) (hfree' : DotFree ls') : ToldApart name ls name' ls' := by
  have hfilled : Filled ls := fun l hl => (hvalid l hl).1
  have hfilled' : Filled ls' := fun l hl => (hvalid' l hl).1
  have hstrings : name = name' → ls = ls' := by
    intro hname
    refine hfree.eq_of_joinDots_eq hfree' hfilled hfilled' ?_
    rw [← hbytes, ← hbytes', hname]
  refine ⟨hstrings, ?_, ?_, (respelled_iff hvalid hbytes).mpr hfree,
    (respelled_iff hvalid' hbytes').mpr hfree'⟩
  · rintro q q' rfl rfl hq
    exact hstrings (congrArg Question.name hq)
  · rintro q q' rfl rfl hkey
    have hlower : q.name.bytes.map Utf8.toAsciiLowercase = q'.name.bytes.map Utf8.toAsciiLowercase :=
      congrArg (fun k : CacheKey => k.name.bytes) hkey
    rw [hbytes, hbytes', map_joinDots, map_joinDots] at hlower
    exact hfree.lowercase.eq_of_joinDots_eq hfree'.lowercase hfilled.lowercase hfilled'.lowercase hlower

/--
**Names are told apart exactly if no label holds a dot.** For any two names that are read from any two
buffers, the strings, the questions and the cache keys made of them keep them apart, and writing them
again gives the labels they were read with, if and only if there is no dot in a label of either. Their
strings alone are equal exactly if the pieces of their labels between dots are.
-/
theorem names_told_apart_iff (buf buf' : List UInt8) (p p' : Nat) (name name' : Str) (r r' : Reader)
    (ls ls' : Labels) (h : readName ⟨buf, p⟩ = .ok (name, r))
    (h' : readName ⟨buf', p'⟩ = .ok (name', r')) (hls : NameAt buf p ls r.pos)
    (hls' : NameAt buf' p' ls' r'.pos) :
    (ToldApart name ls name' ls' ↔ (∀ l ∈ ls, dot ∉ l) ∧ ∀ l ∈ ls', dot ∉ l) ∧
      (name = name' ↔ ls.flatMap splitDots = ls'.flatMap splitDots) := by
  have hbytes := bytes_of_nameAt h hls
  have hbytes' := bytes_of_nameAt h' hls'
  refine ⟨⟨fun happart => ?_, fun hfree => ?_⟩, ?_⟩
  · exact ⟨(respelled_iff hls.valid hbytes).mp happart.respelled.1,
      (respelled_iff hls'.valid hbytes').mp happart.respelled.2⟩
  · exact toldApart_of_dotFree hls.valid hls'.valid hbytes hbytes' hfree.1 hfree.2
  · exact name_eq_iff_pieces hls.filled hls'.filled hbytes hbytes'

/-- The label `a.c`. -/
def oneLabel : List UInt8 := [3, 97, dot, 99, 0]

/-- The labels `a` and `c`. -/
def twoLabels : List UInt8 := [1, 97, 1, 99, 0]

/-- The label `c`, and behind it the label `a` with a pointer to the first. -/
def pointedLabels : List UInt8 := [1, 99, 0, 1, 97, 0xC0, 0]

theorem nameAt_oneLabel : NameAt oneLabel 0 [[97, dot, 99]] 5 :=
  ⟨0, .label rfl (by decide) (by decide) rfl ⟨[0], rfl⟩ (.root rfl)⟩

theorem nameAt_twoLabels : NameAt twoLabels 0 [[97], [99]] 5 :=
  ⟨0, .label rfl (by decide) (by decide) rfl ⟨[1, 99, 0], rfl⟩
    (.label rfl (by decide) (by decide) rfl ⟨[0], rfl⟩ (.root rfl))⟩

theorem nameAt_pointedLabels : NameAt pointedLabels 3 [[97], [99]] 7 :=
  ⟨1, .label rfl (by decide) (by decide) rfl ⟨[0xC0, 0], rfl⟩
    (.pointer rfl (by decide) rfl (by decide)
      (.label rfl (by decide) (by decide) rfl ⟨[0, 1, 97, 0xC0, 0], rfl⟩ (.root rfl)))⟩

/-- The string all of them are read as. -/
def dottedName : Str := ⟨[97, dot, 99], by decide⟩

/-- The two labels are the same name with and without the pointer. -/
theorem twoLabels_told_apart :
    readName ⟨twoLabels, 0⟩ = .ok (dottedName, ⟨twoLabels, 5⟩) ∧
      readName ⟨pointedLabels, 3⟩ = .ok (dottedName, ⟨pointedLabels, 7⟩) ∧
      ToldApart dottedName [[97], [99]] dottedName [[97], [99]] := by
  have hread : readName ⟨twoLabels, 0⟩ = .ok (dottedName, ⟨twoLabels, 5⟩) := by decide +kernel
  have hread' : readName ⟨pointedLabels, 3⟩ = .ok (dottedName, ⟨pointedLabels, 7⟩) := by
    decide +kernel
  obtain ⟨happart, -⟩ := names_told_apart_iff _ _ _ _ _ _ _ _ _ _ hread hread' nameAt_twoLabels
    nameAt_pointedLabels
  exact ⟨hread, hread', happart.mpr ⟨by decide, by decide⟩⟩

/-- One label `a.c` and two labels `a` and `c` are read as the same string. -/
theorem oneLabel_confused :
    readName ⟨oneLabel, 0⟩ = .ok (dottedName, ⟨oneLabel, 5⟩) ∧
      readName ⟨twoLabels, 0⟩ = .ok (dottedName, ⟨twoLabels, 5⟩) ∧
      NameAt oneLabel 0 [[97, dot, 99]] 5 ∧ NameAt twoLabels 0 [[97], [99]] 5 ∧
      [[97, dot, 99]] ≠ ([[97], [99]] : Labels) :=
  ⟨by decide +kernel, by decide +kernel, nameAt_oneLabel, nameAt_twoLabels, by decide⟩

end Dnser
