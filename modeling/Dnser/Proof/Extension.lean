import Dnser.Proof.Forward
import Dnser.Proof.Safety

/-!
# More input, and less

A read that succeeds has looked at bytes of the buffer only, and found them there. So it does the
same on every longer buffer: a bounds check that passed still passes, and a pointer leads to the same
place. `Stable` says this of a parser, and holds of the whole parser because of how it is built.

A message that was cut is the other side of the same coin. If the cut one parsed, so would the whole
one, and with the same cursor at the end; and that cursor is inside what was left.
-/

namespace Dnser

open Utf8 (Str)
open Bytes Abort Loop

/-- A successful run is the same on every extension of the buffer. -/
def Stable {α : Type} (p : ReadM α) : Prop :=
  ∀ buf pos a r, p ⟨buf, pos⟩ = .ok (a, r) →
    r.buf = buf ∧ ∀ more, p ⟨buf ++ more, pos⟩ = .ok (a, ⟨buf ++ more, r.pos⟩)

namespace Stable

variable {α β : Type} {p : ReadM α}

/-- **Sequencing.** -/
theorem bind {k : α → ReadM β} (h : Stable p) (hk : ∀ a, Stable (k a)) : Stable (p >>= k) := by
  intro buf pos b r hrun
  obtain ⟨a, ⟨buf₁, pos₁⟩, h₁, h₂⟩ := stateT_bind_eq_ok_iff.mp hrun
  obtain ⟨hbuf₁, hmore₁⟩ := h buf pos a _ h₁
  obtain rfl : buf₁ = buf := hbuf₁
  obtain ⟨hbuf₂, hmore₂⟩ := hk a _ _ b r h₂
  refine ⟨hbuf₂, fun more => ?_⟩
  rw [stateT_bind_of_ok (hmore₁ more)]
  exact hmore₂ more

theorem readU8 : Stable readU8 := by
  intro buf pos a r hrun
  unfold Dnser.readU8 at hrun
  split at hrun
  · rename_i hb
    cases hrun
    have hlt := (List.getElem?_eq_some_iff.mp hb).1
    refine ⟨rfl, fun more => ?_⟩
    have hb' : (buf ++ more)[pos]? = some a := (List.getElem?_append_left hlt).trans hb
    simp only [Dnser.readU8, hb']
  · cases hrun

/-- A range that is there stays where it is. -/
theorem getRange_append {buf bs : List UInt8} {i j : Nat} (h : getRange buf i j = some bs)
    (more : List UInt8) : getRange (buf ++ more) i j = some bs := by
  unfold getRange at h ⊢
  split at h
  · rename_i hle
    rw [if_pos ⟨hle.1, by rw [List.length_append]; omega⟩, ← h,
      List.drop_append_of_le_length (by omega),
      List.take_append_of_le_length (by rw [List.length_drop]; omega)]
  · cases h

theorem readU16 : Stable readU16 := by
  intro buf pos a r hrun
  unfold Dnser.readU16 at hrun
  split at hrun
  · cases hrun
  · rename_i hrange
    cases hrun
    refine ⟨rfl, fun more => ?_⟩
    simp only [Dnser.readU16, getRange_append hrange more]
  · cases hrun

theorem readU32 : Stable readU32 := by
  intro buf pos a r hrun
  unfold Dnser.readU32 at hrun
  split at hrun
  · cases hrun
  · rename_i hrange
    cases hrun
    refine ⟨rfl, fun more => ?_⟩
    simp only [Dnser.readU32, getRange_append hrange more]
  · cases hrun

theorem readBytes (n : Nat) : Stable (readBytes n) := by
  intro buf pos bs r hrun
  simp only [Dnser.readBytes] at hrun
  split at hrun
  · cases hrun
  rename_i hle
  rw [slice_of_le (by omega) (by omega)] at hrun
  cases hrun
  refine ⟨rfl, fun more => ?_⟩
  have hlen : (buf ++ more).length = buf.length + more.length := List.length_append
  simp only [Dnser.readBytes]
  rw [if_neg (by omega), slice_of_le (by omega) (by omega),
    List.drop_append_of_le_length (by omega),
    List.take_append_of_le_length (by rw [List.length_drop]; omega)]
  rfl

/-- What was spelled stays spelled. -/
theorem readName : Stable readName := by
  intro buf pos name r hrun
  obtain ⟨labels, jumps, stop, hsp, hj, hname, hlen, rfl⟩ := readName_eq_ok_iff.mp hrun
  refine ⟨rfl, fun more => readName_eq_ok_iff.mpr ⟨labels, jumps, stop, ?_, hj, hname, hlen, rfl⟩⟩
  exact hsp.mono (List.prefix_append _ _)

theorem toOctets (n : Nat) (bs : List UInt8) : Stable (toOctets n bs) := by
  intro buf pos a r hrun
  unfold Dnser.toOctets at hrun
  split at hrun
  · rename_i hlen
    cases hrun
    exact ⟨rfl, fun more => by rw [Dnser.toOctets, dif_pos hlen]⟩
  · cases hrun

/-- The item loop, turn by turn. -/
theorem readItems {η ι : Type} {headLen : Nat} {head : ReadM (η × Nat)} {mk : η → List UInt8 → ι}
    {hpos : 0 < headLen} (hhead : Stable head) (rdlen : Nat) :
    Stable (readItems headLen head mk hpos rdlen) := by
  let run := loop (readItemsBody headLen head mk) ItemLoop.remaining (readItemsBody_decreases hpos)
  let P (s : ItemLoop ι) (x : List ι × Reader) : Prop := x.2.buf = s.reader.buf ∧
    ∀ more, run ⟨s.items, s.remaining, ⟨s.reader.buf ++ more, s.reader.pos⟩⟩ =
      .ok (x.1, ⟨s.reader.buf ++ more, x.2.pos⟩)
  intro buf pos items r hitems
  refine loop_induct_ok (P := P) ?_ ?_ hitems
  · intro s x hbody
    obtain ⟨h0, rfl⟩ := readItemsBody_done_iff.mp hbody
    exact ⟨rfl, fun more => loop_of_done (readItemsBody_done_iff.mpr ⟨h0, rfl⟩)⟩
  · intro s s' x hbody ih
    obtain ⟨h0, h, len, data, ⟨buf₁, pos₁⟩, ⟨buf₂, pos₂⟩, hrun, hle, hdata, rfl⟩ :=
      readItemsBody_again_iff.mp hbody
    obtain ⟨hbuf₁, hmore₁⟩ := hhead _ _ _ _ hrun
    obtain rfl : buf₁ = s.reader.buf := hbuf₁
    obtain ⟨hbuf₂, hmore₂⟩ := readBytes len _ _ _ _ hdata
    obtain rfl : buf₂ = s.reader.buf := hbuf₂
    obtain ⟨hbuf₃, hmore₃⟩ := ih
    refine ⟨hbuf₃, fun more => ?_⟩
    -- the turn goes the same way on the longer buffer, and the rest does by induction
    have hturn : readItemsBody headLen head mk
        ⟨s.items, s.remaining, ⟨s.reader.buf ++ more, s.reader.pos⟩⟩ = .ok (.again
          ⟨s.items ++ [mk h data], s.remaining - (headLen + len), ⟨s.reader.buf ++ more, pos₂⟩⟩) :=
      readItemsBody_again_iff.mpr ⟨h0, h, len, data, _, _, hmore₁ more, hle, hmore₂ more, rfl⟩
    exact (loop_of_again hturn).trans (hmore₃ more)

theorem measured (h : Stable p) (n : Nat) : Stable (measured n p) := by
  intro buf pos a r hrun
  obtain ⟨hp, hpos⟩ := measured_eq_ok_iff.mp hrun
  obtain ⟨hbuf, hmore⟩ := h buf pos a r hp
  exact ⟨hbuf, fun more => measured_eq_ok_iff.mpr ⟨hmore more, hpos⟩⟩

end Stable

/-- **Every parser is stable.** -/
theorem Built.stable {α : Type} {p : ReadM α} (h : Built p) : Stable p := by
  induction h with
  | pure a =>
      intro buf pos a' r hrun
      cases hrun
      exact ⟨rfl, fun _ => rfl⟩
  | readErr e =>
      intro buf pos a r hrun
      cases hrun
  | readU8 => exact .readU8
  | readU16 => exact .readU16
  | readU32 => exact .readU32
  | readBytes n => exact .readBytes n
  | readOctets n => exact (Stable.readBytes n).bind fun bs => .toOctets n bs
  | readName => exact .readName
  | bind _ _ ih ihk => exact ih.bind ihk
  | readItems _ ih => exact ih.readItems _
  | measured n _ ih => exact ih.measured n

/-- What is left of a message parses only if nothing is cut off above the cursor. -/
theorem pos_le_of_parse_take {buf : List UInt8} {m m' : Message} {r : Reader} {k : Nat}
    (h : Message.parseM ⟨buf, 0⟩ = .ok (m, r)) (hcut : Message.parse (buf.take k) = .ok m') :
    r.pos ≤ k := by
  -- the whole parses as its part does, with a cursor that is still in it
  obtain ⟨⟨m'', r'⟩, hrun, -⟩ := map_eq_ok_iff.mp hcut
  obtain ⟨n, rfl, hn, -⟩ := Built.message.advances _ _ _ hrun (Nat.zero_le _)
  have hwhole := (Built.message.stable _ _ _ _ hrun).2 (buf.drop k)
  rw [List.take_append_drop, h] at hwhole
  cases hwhole
  rw [List.length_take] at hn
  exact Nat.le_trans hn (Nat.min_le_left _ _)

/--
**Trailing input changes nothing, and cut input is refused.** A buffer that parses is parsed the same,
down to where the cursor ends up, with anything behind it; and no part of it that ends before that
cursor parses.
-/
theorem parse_extension (buf : List UInt8) (m : Message) (r : Reader)
    (h : Message.parseM ⟨buf, 0⟩ = .ok (m, r)) :
    (∀ more, Message.parseM ⟨buf ++ more, 0⟩ = .ok (m, ⟨buf ++ more, r.pos⟩)) ∧
      ∀ k < r.pos, ∃ e, Message.parse (buf.take k) = .error (.err e) := by
  refine ⟨(Built.message.stable _ _ _ _ h).2, fun k hk => ?_⟩
  rcases parse_cases (buf.take k) with ⟨m', hm'⟩ | herr
  · exact absurd (pos_le_of_parse_take h hm') (Nat.not_le.mpr hk)
  · exact herr

/-- A query for the root, with two bytes more and with one less. -/
theorem rootQuery_extended :
    Message.parseM ⟨rootQuery ++ [1, 2], 0⟩ = .ok (queryFor Str.empty, ⟨rootQuery ++ [1, 2], 17⟩) ∧
      ∃ e, Message.parse (rootQuery.take 16) = .error (.err e) := by
  have h := parse_extension rootQuery (queryFor Str.empty) ⟨rootQuery, 17⟩ rfl
  exact ⟨h.1 [1, 2], h.2 16 (by decide)⟩

end Dnser
