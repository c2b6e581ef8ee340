import Dnser.Proof.Parsed

/-!
# Names on the wire

Where the names of a message stand in its buffer, and what labels they are made of, said of
the buffer alone: `NamesIn buf names` follows the counts of the header, the length of each
record's data and the type that says which names are in it, and never joins labels to a
string.

The parser does join them. `names_of_parse` says that this is all it does: the names of a
parsed message are those of the buffer, in order, with dots between their labels.
-/

namespace Dnser

open Utf8 (Str)
open Bytes Abort

/-! ## The layout -/

/-- A name as the wire has it. -/
abbrev Labels := List (List UInt8)

/-- The number in the two bytes at `p`. -/
def u16At (buf : List UInt8) (p : Nat) : UInt16 := ofBe16 (buf.getD p 0) (buf.getD (p + 1) 0)

/-- A name at `p`, whose own bytes end before `stop`. -/
def NameAt (buf : List UInt8) (p : Nat) (ls : Labels) (stop : Nat) : Prop :=
  ∃ jumps, Spells buf p ls jumps stop

/-- The record types with names in their data: NS, CNAME, SOA, PTR, MX and SRV. -/
def namedTypes : List UInt16 := [2, 5, 6, 12, 15, 33]

/-- The names in the data of a record of type `t` at `p`. -/
inductive RDataNames (buf : List UInt8) (p : Nat) : UInt16 → List Labels → Prop where
  | single {t : UInt16} {ls : Labels} {stop : Nat} : t ∈ [2, 5, 12] → NameAt buf p ls stop →
      RDataNames buf p t [ls]
  /-- The preference stands before the name. -/
  | mx {ls : Labels} {stop : Nat} : NameAt buf (p + 2) ls stop → RDataNames buf p 15 [ls]
  /-- Priority, weight and port stand before the name. -/
  | srv {ls : Labels} {stop : Nat} : NameAt buf (p + 6) ls stop → RDataNames buf p 33 [ls]
  /-- The second name starts where the first ends. -/
  | soa {ls ls' : Labels} {stop stop' : Nat} : NameAt buf p ls stop → NameAt buf stop ls' stop' →
      RDataNames buf p 6 [ls, ls']
  | other {t : UInt16} : t ∉ namedTypes → RDataNames buf p t []

/-- A question: a name, a type and a class. -/
inductive QuestionAt (buf : List UInt8) : Nat → List Labels → Nat → Prop where
  | mk {p stop : Nat} {ls : Labels} : NameAt buf p ls stop → QuestionAt buf p [ls] (stop + 4)

/-- A record: a name, ten bytes with the type in front and the length at the end, and data of
that type and length. -/
inductive RecordAt (buf : List UInt8) : Nat → List Labels → Nat → Prop where
  | mk {p stop : Nat} {ls : Labels} {names : List Labels} : NameAt buf p ls stop →
      RDataNames buf (stop + 10) (u16At buf stop) names →
      RecordAt buf p (ls :: names) (stop + 10 + (u16At buf (stop + 8)).toNat)

/-- So many items, one after the other. -/
inductive SectionAt (Item : Nat → List Labels → Nat → Prop) : Nat → Nat → List Labels → Nat → Prop
    where
  | nil {p : Nat} : SectionAt Item 0 p [] p
  | cons {k p p' stop : Nat} {names names' : List Labels} : Item p names p' →
      SectionAt Item k p' names' stop → SectionAt Item (k + 1) p (names ++ names') stop

/-- The names of the message in `buf`, in order. -/
def NamesIn (buf : List UInt8) (names : List Labels) : Prop :=
  ∃ qd p₁ an p₂ ns p₃ ar p₄, SectionAt (QuestionAt buf) (u16At buf 4).toNat 12 qd p₁ ∧
    SectionAt (RecordAt buf) (u16At buf 6).toNat p₁ an p₂ ∧
    SectionAt (RecordAt buf) (u16At buf 8).toNat p₂ ns p₃ ∧
    SectionAt (RecordAt buf) (u16At buf 10).toNat p₃ ar p₄ ∧
    names = qd ++ (an ++ ns ++ ar)

/-! ## The layout is determined by the buffer -/

theorem Spells.unique {buf : List UInt8} {p jumps jumps' stop stop' : Nat} {ls ls' : Labels}
    (h : Spells buf p ls jumps stop) (h' : Spells buf p ls' jumps' stop') :
    ls = ls' ∧ stop = stop' := by
  -- the first byte says which rule applies
  induction h generalizing ls' jumps' stop' with
  | root h0 =>
      cases h' with
      | root _ => exact ⟨rfl, rfl⟩
      | label hn h1 =>
          rw [h0] at hn
          cases hn
          exact absurd h1 (by decide)
      | pointer hb h192 =>
          rw [h0] at hb
          cases hb
          exact absurd h192 (by decide)
  | label hn h1 h63 hl hseg _ ih =>
      cases h' with
      | root h0 =>
          rw [hn] at h0
          cases h0
          exact absurd h1 (by decide)
      | label hn' _ _ hl' hseg' hrest' =>
          rw [hn] at hn'
          cases hn'
          obtain rfl := hseg.unique hseg' (by omega)
          obtain ⟨rfl, rfl⟩ := ih hrest'
          exact ⟨rfl, rfl⟩
      | pointer hb h192 =>
          rw [hn] at hb
          cases hb
          omega
  | pointer hb h192 hlow _ _ ih =>
      cases h' with
      | root h0 =>
          rw [hb] at h0
          cases h0
          exact absurd h192 (by decide)
      | label hn _ h63 =>
          rw [hb] at hn
          cases hn
          omega
      | pointer hb' _ hlow' _ hrest' =>
          rw [hb] at hb'
          rw [hlow] at hlow'
          cases hb'
          cases hlow'
          exact ⟨(ih hrest').1, rfl⟩

theorem NameAt.unique {buf : List UInt8} {p stop stop' : Nat} {ls ls' : Labels}
    (h : NameAt buf p ls stop) (h' : NameAt buf p ls' stop') : ls = ls' ∧ stop = stop' := by
  obtain ⟨_, h⟩ := h
  obtain ⟨_, h'⟩ := h'
  exact h.unique h'

theorem named_of_single {t : UInt16} (h : t ∈ [2, 5, 12]) : t ∈ namedTypes := by
  simp only [List.mem_cons, List.not_mem_nil, or_false] at h
  rcases h with rfl | rfl | rfl
  · exact List.mem_cons_self
  · exact List.mem_cons_of_mem _ List.mem_cons_self
  · simp [namedTypes]

theorem RDataNames.unique {buf : List UInt8} {p : Nat} {t : UInt16} {names names' : List Labels}
    (h : RDataNames buf p t names) (h' : RDataNames buf p t names') : names = names' := by
  cases h with
  | single ht h =>
      cases h' with
      | single _ h' => rw [(h.unique h').1]
      | mx _ => exact absurd ht (by decide)
      | srv _ => exact absurd ht (by decide)
      | soa _ _ => exact absurd ht (by decide)
      | other hn => exact absurd (named_of_single ht) hn
  | mx h =>
      cases h' with
      | single ht _ => exact absurd ht (by decide)
      | mx h' => rw [(h.unique h').1]
      | other hn => exact absurd (by decide) hn
  | srv h =>
      cases h' with
      | single ht _ => exact absurd ht (by decide)
      | srv h' => rw [(h.unique h').1]
      | other hn => exact absurd (by decide) hn
  | soa h₁ h₂ =>
      cases h' with
      | single ht _ => exact absurd ht (by decide)
      | soa h₁' h₂' =>
          obtain ⟨rfl, rfl⟩ := h₁.unique h₁'
          rw [(h₂.unique h₂').1]
      | other hn => exact absurd (by decide) hn
  | other hn =>
      cases h' with
      | single ht _ => exact absurd (named_of_single ht) hn
      | mx _ => exact absurd (by decide) hn
      | srv _ => exact absurd (by decide) hn
      | soa _ _ => exact absurd (by decide) hn
      | other _ => rfl

theorem QuestionAt.unique {buf : List UInt8} {p stop stop' : Nat} {names names' : List Labels}
    (h : QuestionAt buf p names stop) (h' : QuestionAt buf p names' stop') :
    names = names' ∧ stop = stop' := by
  obtain ⟨h⟩ := h
  obtain ⟨h'⟩ := h'
  obtain ⟨rfl, rfl⟩ := h.unique h'
  exact ⟨rfl, rfl⟩

theorem RecordAt.unique {buf : List UInt8} {p stop stop' : Nat} {names names' : List Labels}
    (h : RecordAt buf p names stop) (h' : RecordAt buf p names' stop') :
    names = names' ∧ stop = stop' := by
  obtain ⟨h, hdata⟩ := h
  obtain ⟨h', hdata'⟩ := h'
  obtain ⟨rfl, rfl⟩ := h.unique h'
  rw [hdata.unique hdata']
  exact ⟨rfl, rfl⟩

theorem SectionAt.unique {Item : Nat → List Labels → Nat → Prop} {k p stop stop' : Nat}
    {names names' : List Labels} (h : SectionAt Item k p names stop)
    (h' : SectionAt Item k p names' stop')
    (hitem : ∀ p names stop names' stop', Item p names stop → Item p names' stop' →
      names = names' ∧ stop = stop') : names = names' ∧ stop = stop' := by
  induction h generalizing names' stop' with
  | nil =>
      cases h'
      exact ⟨rfl, rfl⟩
  | cons h _ ih =>
      cases h' with
      | cons h' hrest' =>
          obtain ⟨rfl, rfl⟩ := hitem _ _ _ _ _ h h'
          obtain ⟨rfl, rfl⟩ := ih hrest'
          exact ⟨rfl, rfl⟩

/-- **A buffer has one layout.** -/
theorem NamesIn.unique {buf : List UInt8} {names names' : List Labels} (h : NamesIn buf names)
    (h' : NamesIn buf names') : names = names' := by
  obtain ⟨qd, p₁, an, p₂, ns, p₃, ar, p₄, hqd, han, hns, har, rfl⟩ := h
  obtain ⟨qd', p₁', an', p₂', ns', p₃', ar', p₄', hqd', han', hns', har', rfl⟩ := h'
  obtain ⟨rfl, rfl⟩ := hqd.unique hqd' fun _ _ _ _ _ => QuestionAt.unique
  obtain ⟨rfl, rfl⟩ := han.unique han' fun _ _ _ _ _ => RecordAt.unique
  obtain ⟨rfl, rfl⟩ := hns.unique hns' fun _ _ _ _ _ => RecordAt.unique
  obtain ⟨rfl, rfl⟩ := har.unique har' fun _ _ _ _ _ => RecordAt.unique
  rfl

/-! ## Labels are not empty -/

/-- A name without empty labels. -/
def Filled (ls : Labels) : Prop := ∀ l ∈ ls, 1 ≤ l.length

theorem NameAt.filled {buf : List UInt8} {p stop : Nat} {ls : Labels}
    (h : NameAt buf p ls stop) : Filled ls := by
  obtain ⟨_, h⟩ := h
  exact fun l hl => (h.label_length l hl).1

theorem RDataNames.filled {buf : List UInt8} {p : Nat} {t : UInt16} {names : List Labels}
    (h : RDataNames buf p t names) : ∀ ls ∈ names, Filled ls := by
  cases h with
  | single _ h => simpa using h.filled
  | mx h => simpa using h.filled
  | srv h => simpa using h.filled
  | soa h h' => simpa using ⟨h.filled, h'.filled⟩
  | other _ => simp

theorem QuestionAt.filled {buf : List UInt8} {p stop : Nat} {names : List Labels}
    (h : QuestionAt buf p names stop) : ∀ ls ∈ names, Filled ls := by
  obtain ⟨h⟩ := h
  simpa using h.filled

theorem RecordAt.filled {buf : List UInt8} {p stop : Nat} {names : List Labels}
    (h : RecordAt buf p names stop) : ∀ ls ∈ names, Filled ls := by
  obtain ⟨h, hdata⟩ := h
  simpa using ⟨h.filled, hdata.filled⟩

theorem SectionAt.filled {Item : Nat → List Labels → Nat → Prop} {k p stop : Nat}
    {names : List Labels} (h : SectionAt Item k p names stop)
    (hitem : ∀ p names stop, Item p names stop → ∀ ls ∈ names, Filled ls) :
    ∀ ls ∈ names, Filled ls := by
  induction h with
  | nil => simp
  | cons h _ ih =>
      intro ls hls
      rcases List.mem_append.mp hls with hls | hls
      · exact hitem _ _ _ h ls hls
      · exact ih ls hls

theorem NamesIn.filled {buf : List UInt8} {names : List Labels} (h : NamesIn buf names) :
    ∀ ls ∈ names, Filled ls := by
  obtain ⟨qd, p₁, an, p₂, ns, p₃, ar, p₄, hqd, han, hns, har, rfl⟩ := h
  intro ls hls
  simp only [List.mem_append] at hls
  rcases hls with hls | (hls | hls) | hls
  · exact hqd.filled (fun _ _ _ => QuestionAt.filled) ls hls
  · exact han.filled (fun _ _ _ => RecordAt.filled) ls hls
  · exact hns.filled (fun _ _ _ => RecordAt.filled) ls hls
  · exact har.filled (fun _ _ _ => RecordAt.filled) ls hls

/-! ## What the parser makes of it -/

/-- The word that stands at `p`. -/
theorem u16At_of_segment {buf : List UInt8} {p : Nat} {v : UInt16} (h : Segment buf p (be16 v)) :
    u16At buf p = v := by
  obtain ⟨hhigh, h⟩ := segment_cons_iff.mp h
  obtain ⟨hlow, -⟩ := segment_cons_iff.mp h
  rw [u16At, List.getD_eq_getElem?_getD, List.getD_eq_getElem?_getD, hhigh, hlow]
  exact ofBe16_be16 v

theorem readU16_at {r r' : Reader} {v : UInt16} (h : readU16 r = .ok (v, r')) :
    r' = ⟨r.buf, r.pos + 2⟩ ∧ r.pos + 2 ≤ r.buf.length ∧ v = u16At r.buf r.pos := by
  obtain ⟨hseg, rfl⟩ := segment_of_readU16 h
  have hend := hseg.le_length (hseg.start_le (List.cons_ne_nil _ _))
  rw [length_be16] at hend
  exact ⟨rfl, hend, (u16At_of_segment hseg).symm⟩

theorem readName_at {r r' : Reader} {name : Str} (h : readName r = .ok (name, r')) :
    r'.buf = r.buf ∧ ∃ ls, NameAt r.buf r.pos ls r'.pos ∧ name.bytes = joinDots ls := by
  obtain ⟨ls, jumps, hsp, hbuf, -, hbytes⟩ := bytes_of_readName h
  exact ⟨hbuf, ls, ⟨jumps, hsp⟩, hbytes⟩

/--
Every successful run of `p` reads an item of the layout, and the names in what it returns are
the item's, with dots between their labels.
-/
def Joins {α : Type} (p : ReadM α) (Item : List UInt8 → Nat → List Labels → Nat → Prop)
    (names : α → List Str) : Prop :=
  ∀ r a r', p r = .ok (a, r') → r.pos ≤ r.buf.length →
    r'.buf = r.buf ∧ r'.pos ≤ r.buf.length ∧
      ∃ ns, Item r.buf r.pos ns r'.pos ∧ (names a).map Str.bytes = ns.map joinDots

/-- Record data without names in it. -/
theorem names_of_not_named {t : UInt16} {rd : RData} (ht : t ∉ namedTypes)
    (h : rd.typeNumber = t) : rd.names = [] := by
  subst h
  cases rd with
  | ns _ => exact absurd (show (2 : UInt16) ∈ namedTypes by decide) ht
  | cname _ => exact absurd (show (5 : UInt16) ∈ namedTypes by decide) ht
  | soa _ _ _ _ _ _ _ => exact absurd (show (6 : UInt16) ∈ namedTypes by decide) ht
  | ptr _ => exact absurd (show (12 : UInt16) ∈ namedTypes by decide) ht
  | mx _ _ => exact absurd (show (15 : UInt16) ∈ namedTypes by decide) ht
  | srv _ _ _ _ => exact absurd (show (33 : UInt16) ∈ namedTypes by decide) ht
  | _ => rfl

/-- One name after a fixed number of bytes. -/
theorem name_after (k : Nat) (mk : Str → RData) {r r' : Reader} {rd : RData}
    (h : (readName >>= fun name => pure (mk name)) ⟨r.buf, r.pos + k⟩ = .ok (rd, r')) :
    ∃ name ls stop, rd = mk name ∧ NameAt r.buf (r.pos + k) ls stop ∧
      name.bytes = joinDots ls := by
  obtain ⟨name, r₁, hname, h⟩ := stateT_bind_eq_ok_iff.mp h
  cases h
  obtain ⟨-, ls, hls, hbytes⟩ := readName_at hname
  exact ⟨name, ls, _, rfl, hls, hbytes⟩

/-- **The names of record data**, type by type. -/
theorem rdataNames_of_parseInner {t rdlen : UInt16} {r r' : Reader} {rd : RData}
    (h : RData.parseInner t rdlen r = .ok (rd, r')) (hle : r.pos ≤ r.buf.length) :
    ∃ ns, RDataNames r.buf r.pos t ns ∧ rd.names.map Str.bytes = ns.map joinDots := by
  by_cases ht : t ∈ namedTypes
  · simp only [namedTypes, List.mem_cons, List.not_mem_nil, or_false] at ht
    rcases ht with rfl | rfl | rfl | rfl | rfl | rfl
    · obtain ⟨name, ls, stop, rfl, hls, hb⟩ := name_after 0 .ns h
      exact ⟨[ls], .single (by decide) hls, by simp [RData.names, hb]⟩
    · obtain ⟨name, ls, stop, rfl, hls, hb⟩ := name_after 0 .cname h
      exact ⟨[ls], .single (by decide) hls, by simp [RData.names, hb]⟩
    · obtain ⟨mname, r₁, hm, h⟩ := stateT_bind_eq_ok_iff.mp h
      obtain ⟨rname, r₂, hr, h⟩ := stateT_bind_eq_ok_iff.mp h
      obtain ⟨hbuf, ls, hls, hb⟩ := readName_at hm
      obtain ⟨-, ls', hls', hb'⟩ := readName_at hr
      rw [hbuf] at hls'
      obtain ⟨serial, r₃, -, h⟩ := stateT_bind_eq_ok_iff.mp h
      obtain ⟨refresh, r₄, -, h⟩ := stateT_bind_eq_ok_iff.mp h
      obtain ⟨retry, r₅, -, h⟩ := stateT_bind_eq_ok_iff.mp h
      obtain ⟨expire, r₆, -, h⟩ := stateT_bind_eq_ok_iff.mp h
      obtain ⟨minimum, r₇, -, h⟩ := stateT_bind_eq_ok_iff.mp h
      cases h
      exact ⟨[ls, ls'], .soa hls hls', by simp [RData.names, hb, hb']⟩
    · obtain ⟨name, ls, stop, rfl, hls, hb⟩ := name_after 0 .ptr h
      exact ⟨[ls], .single (by decide) hls, by simp [RData.names, hb]⟩
    · obtain ⟨preference, r₁, hp, h⟩ := stateT_bind_eq_ok_iff.mp h
      obtain ⟨rfl, -⟩ := readU16_at hp
      obtain ⟨name, ls, stop, rfl, hls, hb⟩ := name_after 2 (.mx preference) h
      exact ⟨[ls], .mx hls, by simp [RData.names, hb]⟩
    · obtain ⟨priority, r₁, hp, h⟩ := stateT_bind_eq_ok_iff.mp h
      obtain ⟨weight, r₂, hw, h⟩ := stateT_bind_eq_ok_iff.mp h
      obtain ⟨port, r₃, ho, h⟩ := stateT_bind_eq_ok_iff.mp h
      obtain ⟨rfl, -⟩ := readU16_at hp
      obtain ⟨rfl, -⟩ := readU16_at hw
      obtain ⟨rfl, -⟩ := readU16_at ho
      obtain ⟨name, ls, stop, rfl, hls, hb⟩ := name_after 6 (.srv priority weight port) h
      exact ⟨[ls], .srv hls, by simp [RData.names, hb]⟩
  · -- every other type, known or not, has data without names
    obtain ⟨-, -, -, hparsed⟩ := Reads.parseInner t rdlen _ _ _ h hle
    exact ⟨[], .other ht, by rw [names_of_not_named ht hparsed.typeNumber]; rfl⟩

theorem joins_question : Joins Question.parse QuestionAt fun q => [q.name] := by
  intro r q r' h hle
  obtain ⟨n, hr', hn, -⟩ := Reads.question r q r' h hle
  obtain ⟨name, r₁, hname, h⟩ := stateT_bind_eq_ok_iff.mp h
  obtain ⟨hbuf, ls, hls, hb⟩ := readName_at hname
  obtain ⟨t, r₂, ht, h⟩ := stateT_bind_eq_ok_iff.mp h
  obtain ⟨rfl, -⟩ := readU16_at ht
  cases hqtype : RecordType.tryFrom t with
  | error n =>
      simp only [hqtype] at h
      cases h
  | ok qtype =>
      simp only [hqtype] at h
      obtain ⟨cls, r₃, hcls, h⟩ := stateT_bind_eq_ok_iff.mp h
      obtain ⟨rfl, -⟩ := readU16_at hcls
      split at h
      · cases h
      · cases h
        exact ⟨hbuf, by rw [hr']; exact hn, [ls], .mk hls, by simp [hb]⟩

theorem readU32_at {r r' : Reader} {v : UInt32} (h : readU32 r = .ok (v, r')) :
    r' = ⟨r.buf, r.pos + 4⟩ := by
  unfold readU32 at h
  split at h
  · cases h
  · cases h
    rfl
  · cases h

theorem joins_record : Joins ResourceRecord.parse RecordAt ResourceRecord.names := by
  intro r rr r' h hle
  obtain ⟨name, ⟨buf, stop⟩, hname, h⟩ := stateT_bind_eq_ok_iff.mp h
  obtain ⟨hbuf, ls, hls, hb⟩ := readName_at hname
  obtain rfl : buf = r.buf := hbuf
  obtain ⟨t, r₂, ht, h⟩ := stateT_bind_eq_ok_iff.mp h
  obtain ⟨rfl, -, rfl⟩ := readU16_at ht
  obtain ⟨cls, r₃, hcls, h⟩ := stateT_bind_eq_ok_iff.mp h
  obtain ⟨rfl, -⟩ := readU16_at hcls
  obtain ⟨ttl, r₄, httl, h⟩ := stateT_bind_eq_ok_iff.mp h
  obtain rfl := readU32_at httl
  obtain ⟨rdlen, r₅, hrdlen, h⟩ := stateT_bind_eq_ok_iff.mp h
  obtain ⟨rfl, hpos, rfl⟩ := readU16_at hrdlen
  obtain ⟨rd, r₆, hrd, h⟩ := stateT_bind_eq_ok_iff.mp h
  cases h
  -- the data ends where its length says, whatever its names point to
  obtain ⟨n, rfl, hn, rfl, -⟩ := Reads.rdataParse _ _ _ _ _ hrd hpos
  obtain ⟨hinner, -⟩ := measured_eq_ok_iff.mp hrd
  obtain ⟨ns, hns, hb'⟩ := rdataNames_of_parseInner hinner hpos
  exact ⟨rfl, hn, ls :: ns, .mk hls hns, by simp [ResourceRecord.names, hb, hb']⟩

/-- A section joins the names of its items. -/
theorem Joins.parseSection {α : Type} {p : ReadM α}
    {Item : List UInt8 → Nat → List Labels → Nat → Prop} {names : α → List Str}
    (h : Joins p Item names) (k : Nat) :
    Joins (parseSection p k) (fun buf => SectionAt (Item buf) k) fun as => as.flatMap names := by
  induction k with
  | zero =>
      intro r as r' hrun hle
      cases hrun
      exact ⟨rfl, hle, [], .nil, rfl⟩
  | succ k ih =>
      intro r as r' hrun hle
      obtain ⟨a, ⟨buf, p₁⟩, ha, hrun⟩ := stateT_bind_eq_ok_iff.mp hrun
      obtain ⟨as', r₂, has, hrun⟩ := stateT_bind_eq_ok_iff.mp hrun
      cases hrun
      obtain ⟨hbuf, hp₁, ns, hitem, hb⟩ := h _ _ _ ha hle
      obtain rfl : buf = r.buf := hbuf
      obtain ⟨hbuf, hp₂, ns', hsec, hb'⟩ := ih _ _ _ has hp₁
      exact ⟨hbuf, hp₂, ns ++ ns', .cons hitem hsec, by simp [hb, hb']⟩

/-- The header leaves the reader behind its twelve bytes, with the numbers that stand there. -/
theorem header_at {buf : List UInt8} {r' : Reader} {h : Header}
    (hrun : Header.parse ⟨buf, 0⟩ = .ok (h, r')) :
    r' = ⟨buf, 12⟩ ∧ 12 ≤ buf.length ∧ h.qdCount = u16At buf 4 ∧ h.anCount = u16At buf 6 ∧
      h.nsCount = u16At buf 8 ∧ h.arCount = u16At buf 10 ∧ h.flags = u16At buf 2 ∧
      h.id = u16At buf 0 := by
  obtain ⟨id, r₁, h₁, hrun⟩ := stateT_bind_eq_ok_iff.mp hrun
  obtain ⟨rfl, -, rfl⟩ := readU16_at h₁
  obtain ⟨flags, r₂, h₂, hrun⟩ := stateT_bind_eq_ok_iff.mp hrun
  obtain ⟨rfl, -, rfl⟩ := readU16_at h₂
  split at hrun
  · cases hrun
  obtain ⟨qd, r₃, h₃, hrun⟩ := stateT_bind_eq_ok_iff.mp hrun
  obtain ⟨rfl, -, rfl⟩ := readU16_at h₃
  obtain ⟨an, r₄, h₄, hrun⟩ := stateT_bind_eq_ok_iff.mp hrun
  obtain ⟨rfl, -, rfl⟩ := readU16_at h₄
  obtain ⟨ns, r₅, h₅, hrun⟩ := stateT_bind_eq_ok_iff.mp hrun
  obtain ⟨rfl, -, rfl⟩ := readU16_at h₅
  obtain ⟨ar, r₆, h₆, hrun⟩ := stateT_bind_eq_ok_iff.mp hrun
  obtain ⟨rfl, hle, rfl⟩ := readU16_at h₆
  cases hrun
  exact ⟨rfl, hle, rfl, rfl, rfl, rfl, rfl, rfl⟩

/-- A message starts with its id, and its flags stand behind it. -/
theorem header_of_parse {bytes : List UInt8} {m : Message} (h : Message.parse bytes = .ok m) :
    m.header.id = u16At bytes 0 ∧ m.header.flags = u16At bytes 2 := by
  obtain ⟨⟨m', r⟩, hrun, rfl⟩ := map_eq_ok_iff.mp h
  obtain ⟨header, r₀, hheader, hrun⟩ := stateT_bind_eq_ok_iff.mp hrun
  obtain ⟨-, -, -, -, -, -, hflags, hid⟩ := header_at hheader
  obtain ⟨questions, r₁, -, hrun⟩ := stateT_bind_eq_ok_iff.mp hrun
  obtain ⟨answers, r₂, -, hrun⟩ := stateT_bind_eq_ok_iff.mp hrun
  obtain ⟨authority, r₃, -, hrun⟩ := stateT_bind_eq_ok_iff.mp hrun
  obtain ⟨additional, r₄, -, hrun⟩ := stateT_bind_eq_ok_iff.mp hrun
  cases hrun
  exact ⟨hid, hflags⟩

/-- **Parsing joins labels and does nothing else to names.** -/
theorem names_of_parse {b : List UInt8} {m : Message} (h : Message.parse b = .ok m) :
    ∃ names, NamesIn b names ∧ m.names.map Str.bytes = names.map joinDots := by
  obtain ⟨⟨m', r'⟩, hrun, rfl⟩ := map_eq_ok_iff.mp h
  obtain ⟨header, r₀, hheader, hrun⟩ := stateT_bind_eq_ok_iff.mp hrun
  obtain ⟨rfl, hle, hqd, han, hns, har, -⟩ := header_at hheader
  obtain ⟨qs, ⟨b₁, p₁⟩, hqs, hrun₁⟩ := stateT_bind_eq_ok_iff.mp hrun
  obtain ⟨hbuf, hp₁, ns₁, hsec₁, hb₁⟩ := joins_question.parseSection _ _ _ _ hqs hle
  obtain rfl : b₁ = b := hbuf
  obtain ⟨as, ⟨b₂, p₂⟩, has, hrun₂⟩ := stateT_bind_eq_ok_iff.mp hrun₁
  obtain ⟨hbuf, hp₂, ns₂, hsec₂, hb₂⟩ := joins_record.parseSection _ _ _ _ has hp₁
  obtain rfl : b₂ = b₁ := hbuf
  obtain ⟨aus, ⟨b₃, p₃⟩, haus, hrun₃⟩ := stateT_bind_eq_ok_iff.mp hrun₂
  obtain ⟨hbuf, hp₃, ns₃, hsec₃, hb₃⟩ := joins_record.parseSection _ _ _ _ haus hp₂
  obtain rfl : b₃ = b₂ := hbuf
  obtain ⟨ads, ⟨b₄, p₄⟩, hads, hrun₄⟩ := stateT_bind_eq_ok_iff.mp hrun₃
  obtain ⟨-, -, ns₄, hsec₄, hb₄⟩ := joins_record.parseSection _ _ _ _ hads hp₃
  cases hrun₄
  rw [hqd] at hsec₁
  rw [han] at hsec₂
  rw [hns] at hsec₃
  rw [har] at hsec₄
  refine ⟨_, ⟨ns₁, p₁, ns₂, p₂, ns₃, p₃, ns₄, p₄, hsec₁, hsec₂, hsec₃, hsec₄, rfl⟩, ?_⟩
  have hquestions : qs.map Question.name = qs.flatMap fun q => [q.name] := List.map_eq_flatMap
  simp only [Message.names, Message.records, List.map_append, List.flatMap_append]
  rw [hquestions, hb₁, hb₂, hb₃, hb₄]

end Dnser
