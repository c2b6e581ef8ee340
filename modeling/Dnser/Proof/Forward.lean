import Dnser.Proof.Wire

/-!
# Forwarding what was parsed

A parsed message is written out again and parsed once more: by the next server, and by
the client. It comes through unchanged unless a label in the buffer has a dot at its start or
at its end, or two dots in a row. Such a label is nothing special on the wire, but the string
made of it has an empty piece, and `write_name` either refuses it or takes the dots at its end
for decoration.
-/

namespace Dnser

open Utf8 (Str)
open Bytes Abort

/-! ## Names that survive -/

theorem RData.eq_of_mapNames_eq_self {f : Str → Str} {rd : RData} (h : rd.mapNames f = rd) :
    ∀ n ∈ rd.names, f n = n := by
  cases rd <;> simp_all [RData.mapNames, RData.names]

theorem ResourceRecord.eq_of_mapNames_eq_self {f : Str → Str} {rr : ResourceRecord}
    (h : rr.mapNames f = rr) : ∀ n ∈ rr.names, f n = n := by
  intro n hn
  rcases List.mem_cons.mp hn with rfl | hn
  · exact congrArg ResourceRecord.name h
  · exact RData.eq_of_mapNames_eq_self (congrArg ResourceRecord.rdata h) n hn

theorem eq_of_map_eq_self {α : Type} {g : α → α} {xs : List α} (h : xs.map g = xs) :
    ∀ x ∈ xs, g x = x :=
  List.map_inj_left.mp (h.trans (List.map_id xs).symm)

theorem Message.eq_of_mapNames_eq_self {f : Str → Str} {m : Message} (h : m.mapNames f = m) :
    ∀ n ∈ m.names, f n = n := by
  refine Message.names_of_sections (fun q hq => ?_) (fun rr hrr => ?_)
  · exact congrArg Question.name (eq_of_map_eq_self (congrArg Message.questions h) q hq)
  · refine ResourceRecord.eq_of_mapNames_eq_self ?_
    rcases List.mem_append.mp hrr with hrr | hrr
    · rcases List.mem_append.mp hrr with hrr | hrr
      · exact eq_of_map_eq_self (congrArg Message.answers h) rr hrr
      · exact eq_of_map_eq_self (congrArg Message.authority h) rr hrr
    · exact eq_of_map_eq_self (congrArg Message.additional h) rr hrr

/-- No two dots next to each other, none in front and none at the end. -/
def NoEmptyPiece (name : Str) : Prop := [] ∉ labelsOf name.bytes

instance (name : Str) : Decidable (NoEmptyPiece name) := inferInstanceAs (Decidable (¬ _))

theorem ReadableName.wellFormed {name : Str} (h : ReadableName name) (hne : NoEmptyPiece name) :
    WellFormedName name := by
  refine ⟨fun l hl => ⟨List.length_pos_of_ne_nil ?_, h.2 l hl⟩, h.1⟩
  intro hsame
  subst hsame
  exact hne hl

/-- A name that was read, and that the writer takes, is read back without its trailing dots. -/
theorem ReadableName.transmissible {name : Str} (h : ReadableName name) (hv : Encodable name) :
    Transmissible name :=
  ⟨hv, Nat.le_trans (len_trimName_le name) h.1⟩

theorem Encodable.noEmptyPiece {name : Str} (hv : Encodable name) (ht : trimName name = name) :
    NoEmptyPiece name := by
  intro hmem
  have := (hv [] (by rw [ht]; exact hmem)).1
  exact absurd this (by decide)

/-- What was parsed can be forwarded exactly when no name has an empty piece. -/
theorem forward_iff_names {b : List UInt8} {m : Message} (h : Message.parse b = .ok m) :
    (∃ b', m.toBytes = .ok b' ∧ Message.parse b' = .ok m) ↔ ∀ n ∈ m.names, NoEmptyPiece n := by
  obtain ⟨hfits, -⟩ := fits_of_parse h
  constructor
  · intro hparts
    obtain ⟨b', hb', hp⟩ := hparts
    have hE := (encodes_of_toBytes hb').1
    obtain ⟨b'', hb'', hp'⟩ := parse_toBytes_of_fits
      (hfits.imp fun n hn hr => hr.transmissible (hE n hn))
    rw [hb'] at hb''
    cases hb''
    rw [hp] at hp'
    -- nothing was trimmed off any name
    have htrim := Message.eq_of_mapNames_eq_self (Except.ok.inj hp').symm
    exact fun n hn => (hE n hn).noEmptyPiece (htrim n hn)
  · -- with non-empty pieces, a readable name is a well-formed one and nothing is trimmed
    intro hne
    have hwf : ∀ n ∈ m.names, WellFormedName n := fun n hn =>
      (hfits.names n hn).wellFormed (hne n hn)
    have := parse_toBytes_of_fits (hfits.imp fun n hn _ => (hwf n hn).transmissible)
    rwa [Message.mapNames_eq_self fun n hn => (hwf n hn).trimName_eq] at this

/-! ## Labels that survive -/

/-- No dot in front, none at the end and no two next to each other. -/
def NoStrayDot (l : List UInt8) : Prop := [] ∉ splitDots l

theorem noEmptyPiece_iff {name : Str} {ls : Labels} (hls : Filled ls)
    (hbytes : name.bytes = joinDots ls) : NoEmptyPiece name ↔ ∀ l ∈ ls, NoStrayDot l := by
  rw [NoEmptyPiece, hbytes, mem_labelsOf_joinDots hls]
  simp [NoStrayDot]

/-- The names of a parsed message have no empty piece exactly when the labels in the buffer
have no stray dot. -/
theorem noStrayDot_iff {b : List UInt8} {m : Message} (h : Message.parse b = .ok m) :
    (∀ names, NamesIn b names → ∀ ls ∈ names, ∀ l ∈ ls, NoStrayDot l) ↔
      ∀ n ∈ m.names, NoEmptyPiece n := by
  obtain ⟨names, hnames, hbytes⟩ := names_of_parse h
  constructor
  · intro hdots n hn
    have hmem : n.bytes ∈ names.map joinDots := hbytes ▸ List.mem_map_of_mem hn
    obtain ⟨ls, hls, hn⟩ := List.mem_map.mp hmem
    exact (noEmptyPiece_iff (hnames.filled ls hls) hn.symm).mpr (hdots names hnames ls hls)
  · intro hne names' hnames' ls hls
    -- the buffer has one layout, so these are the names the parser read
    obtain rfl := hnames.unique hnames'
    have hmem : joinDots ls ∈ m.names.map Str.bytes := hbytes ▸ List.mem_map_of_mem hls
    obtain ⟨n, hn, hjoin⟩ := List.mem_map.mp hmem
    exact (noEmptyPiece_iff (hnames.filled ls hls) hjoin).mp (hne n hn)

/-- **What was parsed can be forwarded exactly when no label in the buffer has a stray dot.** -/
theorem forward_iff (b : List UInt8) (m : Message) (h : Message.parse b = .ok m) :
    (∃ b', m.toBytes = .ok b' ∧ Message.parse b' = .ok m) ↔
      ∀ names, NamesIn b names → ∀ ls ∈ names, ∀ l ∈ ls, NoStrayDot l := by
  rw [noStrayDot_iff h]
  exact forward_iff_names h

/-- A query for the addresses of `name`, with id 7. -/
def queryFor (name : Str) : Message :=
  { header := { id := 7, qdCount := 1 }
    questions := [{ name, qtype := .a, qclass := Class.IN }] }

/-- A query for the root. -/
def rootQuery : List UInt8 := [0, 7, 0, 0, 0, 1, 0, 0, 0, 0, 0, 0, 0, 0, 1, 0, 1]

/-- A query for the name with the single label `"."`. -/
def dotQuery : List UInt8 := [0, 7, 0, 0, 0, 1, 0, 0, 0, 0, 0, 0, 1, dot, 0, 0, 1, 0, 1]

theorem rootQuery_forwarded :
    ∃ b', (queryFor Str.empty).toBytes = .ok b' ∧
      Message.parse b' = .ok (queryFor Str.empty) :=
  (forward_iff rootQuery (queryFor Str.empty) rfl).mpr ((noStrayDot_iff rfl).mpr (by decide))

/-- A query for `"."` is forwarded as a query for the root. -/
theorem dotQuery_not_forwarded :
    ∃ m, Message.parse dotQuery = .ok m ∧
      ¬ ∃ b', m.toBytes = .ok b' ∧ Message.parse b' = .ok m := by
  refine ⟨queryFor ⟨[dot], by decide⟩, rfl, ?_⟩
  intro hparts
  obtain ⟨b', hb', hp⟩ := hparts
  have hb : (queryFor ⟨[dot], by decide⟩).toBytes = .ok rootQuery := rfl
  rw [hb] at hb'
  cases hb'
  have hroot : Message.parse rootQuery = .ok (queryFor Str.empty) := rfl
  rw [hroot] at hp
  exact absurd (Except.ok.inj hp) (by decide)

end Dnser
