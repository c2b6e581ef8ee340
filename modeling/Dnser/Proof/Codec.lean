import Dnser.Proof.Append

/-!
# Writing and reading the same thing

`EncodesIn n write parse a` says that whatever `write` appends, in at most `n` bytes
and to any writer whose table is right, `parse` reads back as `a` from any buffer that
goes on from there. It composes: a sequence of writes is read back by the sequence
of the parses (`EncodesIn.bind`), so the round trip of a format follows its syntax.
-/

namespace Dnser

open Utf8 (Str)
open Bytes Abort Loop

/-! ## Reading what stands in the buffer -/

section
variable {buf bs : List UInt8} {p : Nat}

theorem getRange_segment (h : Segment buf p bs) (hp : p ≤ buf.length) :
    getRange buf p (p + bs.length) = some bs := by
  have := h.le_length hp
  rw [getRange, if_pos (by omega), Nat.add_sub_cancel_left, h.take_drop]

theorem readU8_segment {v : UInt8} (h : Segment buf p [v]) :
    readU8 ⟨buf, p⟩ = .ok (v, ⟨buf, p + 1⟩) := by
  have hv := (segment_cons_iff.mp h).1
  simp only [readU8, hv]

theorem readU16_segment {v : UInt16} (h : Segment buf p (be16 v)) (hp : p ≤ buf.length) :
    readU16 ⟨buf, p⟩ = .ok (v, ⟨buf, p + 2⟩) := by
  have hr := getRange_segment h hp
  rw [length_be16] at hr
  simp only [readU16, hr, be16, ofBe16_be16]

theorem readU32_segment {v : UInt32} (h : Segment buf p (be32 v)) (hp : p ≤ buf.length) :
    readU32 ⟨buf, p⟩ = .ok (v, ⟨buf, p + 4⟩) := by
  have hr := getRange_segment h hp
  rw [length_be32] at hr
  simp only [readU32, hr, be32, ofBe32_be32]

theorem readBytes_segment (h : Segment buf p bs) (hp : p ≤ buf.length) :
    readBytes bs.length ⟨buf, p⟩ = .ok (bs, ⟨buf, p + bs.length⟩) := by
  have := h.le_length hp
  simp only [readBytes]
  rw [if_neg (by omega), slice_of_le (by omega) (by omega), Nat.add_sub_cancel_left, h.take_drop]
  rfl

variable {n : Nat} {r : Reader}

theorem segment_of_readU8 {v : UInt8} (h : readU8 ⟨buf, p⟩ = .ok (v, r)) :
    Segment buf p [v] ∧ r = ⟨buf, p + 1⟩ := by
  unfold readU8 at h
  split at h
  · rename_i hv
    cases h
    exact ⟨segment_cons_iff.mpr ⟨hv, List.nil_prefix⟩, rfl⟩
  · cases h

theorem segment_of_readU16 {v : UInt16} (h : readU16 ⟨buf, p⟩ = .ok (v, r)) :
    Segment buf p (be16 v) ∧ r = ⟨buf, p + 2⟩ := by
  unfold readU16 getRange at h
  split at h
  · cases h
  · rename_i a b hrange
    split at hrange
    · cases h
      have hseg := segment_take_drop buf p (p + 2 - p)
      rw [Option.some.inj hrange] at hseg
      exact ⟨be16_ofBe16 a b ▸ hseg, rfl⟩
    · cases hrange
  · cases h

theorem segment_of_readBytes (h : readBytes n ⟨buf, p⟩ = .ok (bs, r)) :
    Segment buf p bs ∧ bs.length = n ∧ r = ⟨buf, p + n⟩ := by
  simp only [readBytes] at h
  split at h
  · cases h
  rename_i hle
  rw [slice_of_le (by omega) (by omega), Nat.add_sub_cancel_left] at h
  cases h
  refine ⟨segment_take_drop buf p n, ?_, rfl⟩
  rw [List.length_take, List.length_drop]
  omega

end

/-- Bytes that were appended to a prefix of the buffer stand in it. -/
theorem segment_of_prefix {b bs buf : List UInt8} (h : b ++ bs <+: buf) :
    Segment buf b.length bs ∧ b.length ≤ buf.length := by
  have hseg := segment_append_right b bs []
  rw [List.append_nil] at hseg
  exact ⟨hseg.mono h, ((List.prefix_append _ _).trans h).length_le⟩

/-- A write appends one thing only. -/
theorem written_unique {m : WriteM Unit} {w : Writer} {bs bs' : List UInt8} {t t' : NameOffsets}
    (h : m w = .ok ((), ⟨w.buf ++ bs, t⟩)) (h' : m w = .ok ((), ⟨w.buf ++ bs', t'⟩)) :
    bs = bs' ∧ t = t' := by
  rw [h] at h'
  injection h' with h'
  injection h' with _ h'
  injection h' with hbuf ht
  exact ⟨List.append_cancel_left hbuf, ht⟩

/-! ## The relation -/

/-- What `write` appends, in at most `n` bytes, `parse` reads back as `a`. -/
def EncodesIn {α : Type} (n : Nat) (write : WriteM Unit) (parse : ReadM α) (a : α) : Prop :=
  ∀ w, TableOk w → ∃ bs table,
    write w = .ok ((), ⟨w.buf ++ bs, table⟩) ∧ TableOk ⟨w.buf ++ bs, table⟩ ∧ bs.length ≤ n ∧
      ∀ buf, w.buf ++ bs <+: buf →
        parse ⟨buf, w.buf.length⟩ = .ok (a, ⟨buf, w.buf.length + bs.length⟩)

namespace EncodesIn

variable {α β : Type} {n l : Nat} {m m' : WriteM Unit} {a : α} {b : β}

theorem mono {p : ReadM α} (h : EncodesIn n m p a) (hn : n ≤ l) : EncodesIn l m p a := by
  intro w hT
  obtain ⟨bs, table, h1, h2, h3, h4⟩ := h w hT
  exact ⟨bs, table, h1, h2, by omega, h4⟩

/-- Nothing is written, nothing is read. -/
theorem pure (a : α) : EncodesIn 0 (Pure.pure ()) (Pure.pure a) a := by
  intro w hT
  exact ⟨[], w.nameOffsets, by simp, by simpa using hT, by simp, fun buf _ => by simp⟩

/-- **Sequencing.** -/
theorem bind {p : ReadM α} {k : α → ReadM β} (h : EncodesIn n m p a)
    (h' : EncodesIn l m' (k a) b) : EncodesIn (n + l) (m >>= fun _ => m') (p >>= k) b := by
  intro w hT
  obtain ⟨bs, t, hm, hT₁, hn, hp⟩ := h w hT
  obtain ⟨bs', t', hm', hT₂, hn', hp'⟩ := h' ⟨w.buf ++ bs, t⟩ hT₁
  refine ⟨bs ++ bs', t', ?_, ?_, ?_, ?_⟩
  · rw [stateT_bind_of_ok hm, hm', List.append_assoc]
  · rw [← List.append_assoc]; exact hT₂
  · rw [List.length_append]; omega
  · -- the second parse starts where the first ended, and sees the same buffer
    intro buf hbuf
    rw [← List.append_assoc] at hbuf
    rw [stateT_bind_of_ok (hp buf ((List.prefix_append _ _).trans hbuf))]
    have := hp' buf hbuf
    rw [List.length_append] at this
    rw [this, List.length_append, Nat.add_assoc]

/-- A parse that ends by building its result. -/
theorem map {p : ReadM α} (f : α → β) (h : EncodesIn n m p a) :
    EncodesIn n m (p >>= fun x => Pure.pure (f x)) (f a) := by
  intro w hT
  obtain ⟨bs, t, h1, h2, h3, h4⟩ := h w hT
  refine ⟨bs, t, h1, h2, h3, fun buf hbuf => ?_⟩
  rw [stateT_bind_of_ok (h4 buf hbuf)]
  rfl

/-- Plain bytes, and anything that reads exactly them. -/
theorem ofBytes {p : ReadM α} {bs : List UInt8} (hm : ∀ w, m w = .ok ((), { w with buf := w.buf ++ bs }))
    (hp : ∀ buf q, Segment buf q bs → q ≤ buf.length →
      p ⟨buf, q⟩ = .ok (a, ⟨buf, q + bs.length⟩)) : EncodesIn bs.length m p a := by
  intro w hT
  refine ⟨bs, w.nameOffsets, hm w, hT.append bs, Nat.le_refl _, fun buf hbuf => ?_⟩
  obtain ⟨hseg, hq⟩ := segment_of_prefix hbuf
  exact hp buf _ hseg hq

theorem u16 (v : UInt16) : EncodesIn 2 (writeU16 v) readU16 v :=
  ofBytes (fun _ => rfl) (fun _ _ => readU16_segment)

theorem u32 (v : UInt32) : EncodesIn 4 (writeU32 v) readU32 v :=
  ofBytes (fun _ => rfl) (fun _ _ => readU32_segment)

/-- A name, without its trailing dots. -/
theorem name {name : Str} (hv : Encodable name) (hlen : (trimName name).len ≤ maxNameLen) :
    EncodesIn 255 (writeName name) readName (trimName name) := by
  intro w hT
  obtain ⟨bs, table, hw, hn⟩ := writeName_spec hT hv
  refine ⟨bs, table, hw, hn.table, ?_, fun buf => readName_of_written hn hv hlen⟩
  have := hn.length_le
  have : (trimName name).len ≤ 253 := hlen
  omega

end EncodesIn

/-! ## Lists -/

theorem writeAll_bytes {α : Type} {write : α → WriteM Unit} {enc : α → List UInt8} :
    ∀ {xs : List α},
      (∀ x ∈ xs, ∀ w, write x w = .ok ((), { w with buf := w.buf ++ enc x })) →
      ∀ w, writeAll write xs w = .ok ((), { w with buf := w.buf ++ xs.flatMap enc }) := by
  intro xs
  induction xs with
  | nil => intro _ w; simp [writeAll]
  | cons x xs ih =>
      intro h w
      rw [writeAll, stateT_bind_of_ok (h x List.mem_cons_self w),
        ih (fun y hy => h y (List.mem_cons_of_mem _ hy))]
      simp

section
variable {η ι : Type}

/--
How items are laid out: a head of `headLen` bytes, which `head` reads, and as much data as the head
says. `Fits x` says that the length of `x` can be written into a head.
-/
structure ItemFormat (headLen : Nat) (head : ReadM (η × Nat)) (mk : η → List UInt8 → ι)
    (encode : ι → List UInt8) (Fits : ι → Prop) : Prop where
  pos : 0 < headLen
  /-- A head that is read is the head of the item it announces. -/
  sound : ∀ {buf q h len r data}, head ⟨buf, q⟩ = .ok ((h, len), r) → data.length = len →
    Fits (mk h data) ∧ r = ⟨buf, q + headLen⟩ ∧
      ∃ hb, Segment buf q hb ∧ hb.length = headLen ∧ encode (mk h data) = hb ++ data
  /-- And the head of an item that fits is read. -/
  complete : ∀ x, Fits x → ∃ h hb data, mk h data = x ∧ encode x = hb ++ data ∧
    hb.length = headLen ∧ ∀ {buf q}, Segment buf q hb → q ≤ buf.length →
      head ⟨buf, q⟩ = .ok ((h, data.length), ⟨buf, q + headLen⟩)

variable {headLen : Nat} {head : ReadM (η × Nat)} {mk : η → List UInt8 → ι}
  {encode : ι → List UInt8} {Fits : ι → Prop} {hpos : 0 < headLen}

/-- What the loop from `s` on returns for what is left: items that stand in the buffer there, one
behind the other, and together take up `remaining`. -/
def SplitFrom (encode : ι → List UInt8) (Fits : ι → Prop) (s : ItemLoop ι)
    (out : Except (Abort ParseError) (List ι × Reader)) : Prop :=
  ∀ items r, out = .ok (items, r) → ∃ more, items = s.items ++ more ∧
    Segment s.reader.buf s.reader.pos (more.flatMap encode) ∧
    (more.flatMap encode).length = s.remaining ∧ (∀ x ∈ more, Fits x) ∧
    r = ⟨s.reader.buf, s.reader.pos + s.remaining⟩

/-- **What the loop accepts are items without remainder.** A turn takes an item off `remaining`, and
the cursor over the same bytes. -/
theorem ItemFormat.splitFrom (F : ItemFormat headLen head mk encode Fits) (s : ItemLoop ι) :
    SplitFrom encode Fits s (loop (readItemsBody headLen head mk) ItemLoop.remaining
      (readItemsBody_decreases F.pos) s) := by
  refine loop_induct (P := SplitFrom encode Fits) ?_ ?_ ?_ s
  · intro s e _ items r h
    cases h
  · intro s x hbody items r h
    obtain ⟨h0, rfl⟩ := readItemsBody_done_iff.mp hbody
    cases h
    exact ⟨[], by simp, List.nil_prefix, by simp [h0], by simp, by simp [h0]⟩
  · rintro ⟨taken, remaining, ⟨buf, q⟩⟩ s' out hbody ih items r hout
    obtain ⟨-, h, len, data, r₁, r₂, hrun, hle, hdata, rfl⟩ := readItemsBody_again_iff.mp hbody
    obtain ⟨hsegData, hlen, rfl⟩ := segment_of_readBytes hdata
    obtain ⟨hfits, rfl, hb, hsegHead, hheadLen, henc⟩ := F.sound hrun hlen
    obtain ⟨more, rfl, hseg, hsum, hall, rfl⟩ := ih items r hout
    have hitem : (encode (mk h data)).length = headLen + len := by
      rw [henc, List.length_append, hheadLen, hlen]
    dsimp only at hle hsum
    refine ⟨mk h data :: more, by simp, ?_, ?_, by simpa using ⟨hfits, hall⟩, ?_⟩
    · rw [List.flatMap_cons, segment_append_iff, hitem]
      refine ⟨?_, by rwa [← Nat.add_assoc]⟩
      rw [henc, segment_append_iff, hheadLen]
      exact ⟨hsegHead, hsegData⟩
    · rw [List.flatMap_cons, List.length_append, hitem, hsum]
      exact Nat.add_sub_of_le hle
    · congr 1
      dsimp only
      omega

/-- **And items that fit are read back.** A turn reads the first of them, and leaves the lengths of
the others. -/
theorem ItemFormat.loop_segment (F : ItemFormat headLen head mk encode Fits) {buf : List UInt8} :
    ∀ (items done : List ι) (q : Nat), (∀ x ∈ items, Fits x) →
      Segment buf q (items.flatMap encode) →
      loop (readItemsBody headLen head mk) ItemLoop.remaining (readItemsBody_decreases F.pos)
          ⟨done, (items.flatMap encode).length, ⟨buf, q⟩⟩ =
        .ok (done ++ items, ⟨buf, q + (items.flatMap encode).length⟩) := by
  have hpos := F.pos
  intro items
  induction items with
  | nil =>
      intro done q _ _
      rw [loop_of_done (readItemsBody_done_iff.mpr ⟨rfl, rfl⟩)]
      simp
  | cons x items ih =>
      intro done q hfits hseg
      obtain ⟨h, hb, data, hmk, henc, hlen, hhead⟩ := F.complete x (hfits x List.mem_cons_self)
      rw [List.flatMap_cons] at hseg ⊢
      obtain ⟨hsx, hsrest⟩ := segment_append_iff.mp hseg
      have hlenx : (encode x).length = headLen + data.length := by
        rw [henc, List.length_append, hlen]
      -- an item is not empty, so that it stands in the buffer says where it starts
      have hq : q ≤ buf.length := hsx.start_le (List.ne_nil_of_length_pos (by omega))
      have hqx := hsx.le_length hq
      rw [henc] at hsx
      obtain ⟨hshead, hsdata⟩ := segment_append_iff.mp hsx
      rw [hlen] at hsdata
      have hbody : readItemsBody headLen head mk
          ⟨done, (encode x ++ items.flatMap encode).length, ⟨buf, q⟩⟩ =
          .ok (.again ⟨done ++ [x], (items.flatMap encode).length,
            ⟨buf, q + (encode x).length⟩⟩) := by
        refine readItemsBody_again_iff.mpr ⟨?_, h, data.length, data, ⟨buf, q + headLen⟩,
          ⟨buf, q + headLen + data.length⟩, hhead hshead hq, ?_,
          readBytes_segment hsdata (by omega), ?_⟩
        · simp only [List.length_append]
          omega
        · simp only [List.length_append]
          omega
        · rw [hmk, List.length_append, hlenx, Nat.add_sub_cancel_left, Nat.add_assoc q]
      rw [loop_of_again hbody, ih _ _ (fun y hy => hfits y (List.mem_cons_of_mem _ hy)) hsrest]
      simp [Nat.add_assoc]

/-- **The loop accepts the data exactly if it splits into items without remainder.** -/
theorem ItemFormat.readItems_eq_ok_iff (F : ItemFormat headLen head mk encode Fits)
    {buf : List UInt8} {q rdlen : Nat} {items : List ι} {r : Reader} :
    readItems headLen head mk hpos rdlen ⟨buf, q⟩ = .ok (items, r) ↔
      Segment buf q (items.flatMap encode) ∧ (items.flatMap encode).length = rdlen ∧
        (∀ x ∈ items, Fits x) ∧ r = ⟨buf, q + rdlen⟩ := by
  constructor
  · intro hrun
    obtain ⟨more, rfl, hseg, hlen, hall, rfl⟩ := F.splitFrom ⟨[], rdlen, ⟨buf, q⟩⟩ items r hrun
    exact ⟨hseg, hlen, hall, rfl⟩
  · intro hparts
    obtain ⟨hseg, rfl, hall, rfl⟩ := hparts
    exact F.loop_segment items [] q hall hseg

end

/-- A counted section is read back record by record. -/
theorem EncodesIn.section {α : Type} {write : α → WriteM Unit} {parse : ReadM α} {f : α → α} :
    ∀ {xs : List α}, (∀ x ∈ xs, ∃ n, EncodesIn n (write x) parse (f x)) →
      ∃ n, EncodesIn n (writeAll write xs) (parseSection parse xs.length) (xs.map f) := by
  intro xs
  induction xs with
  | nil => intro _; exact ⟨0, EncodesIn.pure []⟩
  | cons x xs ih =>
      intro h
      obtain ⟨n, hx⟩ := h x List.mem_cons_self
      obtain ⟨n', hxs⟩ := ih (fun y hy => h y (List.mem_cons_of_mem _ hy))
      exact ⟨n + n', hx.bind (hxs.map (f x :: ·))⟩

end Dnser
