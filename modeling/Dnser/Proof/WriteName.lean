import Dnser.Proof.Names

/-!
# The compression table

The invariant of the writer: **every offset in the table is a place where the buffer
spells the suffix it is filed under** (`TableOk`). It also bounds the pointers a
reader has to follow from there by the number of labels, which is what keeps the
chains the writer builds under the reader's jump limit.

The invariant does not hold inside `write_name`: a suffix is filed before its bytes
are out. What saves the loop is that it only ever looks up suffixes *shorter* than
the ones it has filed and not finished, so it needs the invariant for those alone.
That is the shape of `writeLabels_spec`.
-/

namespace Dnser

open Utf8 (Str IsUtf8)
open Bytes Abort

/-- The offset `off` is a place where `buf` spells `suffix`, within as many jumps as a
pointer to it may cost. -/
def EntryOk (buf suffix : List UInt8) (off : UInt16) : Prop :=
  off.toNat ≤ maxPointer ∧ ∃ jumps stop,
    Spells buf off.toNat (splitDots suffix) jumps stop ∧ jumps < (splitDots suffix).length

/-- **The table invariant.** -/
def TableOk (w : Writer) : Prop :=
  ∀ s off, w.nameOffsets.lookup s = some off → EntryOk w.buf s off

theorem EntryOk.mono {buf buf' s : List UInt8} {off : UInt16} (h : EntryOk buf s off)
    (hb : buf <+: buf') : EntryOk buf' s off := by
  obtain ⟨hp, jumps, stop, hsp, hj⟩ := h
  exact ⟨hp, jumps, stop, hsp.mono hb, hj⟩

theorem tableOk_new : TableOk Writer.new := by
  intro s off h
  cases h

/-- Bytes that are not a name leave the invariant alone. -/
theorem TableOk.append {w : Writer} (h : TableOk w) (bs : List UInt8) :
    TableOk { w with buf := w.buf ++ bs } :=
  fun s off hs => (h s off hs).mono (List.prefix_append _ _)

/-! ## Pointers -/

theorem toNat_pointer {ptr : UInt16} (h : ptr.toNat ≤ maxPointer) :
    (0b1100000000000000 ||| ptr).toNat = 3 * 2 ^ 14 + ptr.toNat := by
  have hlt : ptr.toNat < 2 ^ 14 := Nat.lt_of_le_of_lt h (by decide)
  have h3 : (0b1100000000000000 : UInt16).toNat = 3 <<< 14 := by decide
  rw [UInt16.toNat_or, h3, ← Nat.shiftLeft_add_eq_or_of_lt hlt, Nat.shiftLeft_eq]

/-- A byte's low six bits, and the byte behind it, are the offset. -/
theorem pointerOffset_eq (byte low : UInt8) :
    pointerOffset byte low = byte.toNat % 64 * 256 + low.toNat := by
  have h6 : (byte &&& 0b00111111).toNat = byte.toNat % 64 := by
    rw [UInt8.toNat_and]
    exact Nat.and_two_pow_sub_one_eq_mod byte.toNat 6
  have hlow : low.toNat < 2 ^ 8 := low.toNat_lt
  rw [pointerOffset, h6, ← Nat.shiftLeft_add_eq_or_of_lt hlow, Nat.shiftLeft_eq]

/-- The two bytes `write_name` emits for an offset, read back. -/
theorem pointer_bytes {ptr : UInt16} (hp : ptr.toNat ≤ maxPointer) :
    ∃ hi low, be16 (0b1100000000000000 ||| ptr) = [hi, low] ∧ 192 ≤ hi.toNat ∧
      pointerOffset hi low = ptr.toNat := by
  have hlt : ptr.toNat ≤ 0x3FFF := hp
  refine ⟨_, _, rfl, ?_, ?_⟩
  · rw [toNat_pointer hp, UInt8.toNat_ofNat']
    omega
  · rw [toNat_pointer hp, pointerOffset_eq, UInt8.toNat_ofNat', UInt8.toNat_ofNat']
    omega

/-- The two bytes `write_name` emits for a table entry are a pointer to that entry. -/
theorem spells_pointer {buf : List UInt8} {p jumps stop : Nat} {ls : List (List UInt8)}
    {ptr : UInt16} (hp : ptr.toNat ≤ maxPointer)
    (hseg : Segment buf p (be16 (0b1100000000000000 ||| ptr)))
    (h : Spells buf ptr.toNat ls jumps stop) : Spells buf p ls (jumps + 1) (p + 2) := by
  obtain ⟨hi, low, hbytes, h192, ho⟩ := pointer_bytes hp
  rw [hbytes] at hseg
  obtain ⟨h1, h2⟩ := segment_cons_iff.mp hseg
  obtain ⟨h2, -⟩ := segment_cons_iff.mp h2
  refine .pointer h1 h192 h2 ?_ (by rw [ho]; exact h)
  rw [ho]
  have := h.bounds
  omega

/-! ## One turn of the label loop -/

/-- The suffix is a slice on a character boundary: everything before it ends with a dot. -/
theorem sliceFrom_append {pre rest : List UInt8} (h : IsUtf8 rest) (w : Writer) :
    sliceFrom (pre ++ rest) pre.length w = .ok (rest, w) := by
  have hb : Str.isCharBoundary (pre ++ rest) pre.length = true := by
    unfold Str.isCharBoundary
    rw [List.getElem?_append_right (Nat.le_refl _), Nat.sub_self]
    cases rest with
    | nil => simp
    | cons b rest => simp [h.head_not_continuation]
  unfold sliceFrom
  rw [if_pos ⟨by simp, hb⟩, List.drop_left]

/-- The table once `suffix` is filed at the current position, if a pointer can hold it. -/
def recorded (w : Writer) (suffix : List UInt8) : NameOffsets :=
  if w.buf.length ≤ maxPointer then (suffix, UInt16.ofNat w.buf.length) :: w.nameOffsets
  else w.nameOffsets

theorem recordOffset_eq (suffix : List UInt8) (w : Writer) :
    recordOffset suffix w = .ok ((), { w with nameOffsets := recorded w suffix }) := by
  unfold recordOffset recorded
  split <;> rfl

/-- Filing one suffix changes no other entry. -/
theorem lookup_recorded {w : Writer} {suffix s : List UInt8} {off : UInt16}
    (h : (recorded w suffix).lookup s = some off) :
    (s = suffix ∧ off.toNat = w.buf.length ∧ off.toNat ≤ maxPointer) ∨
      w.nameOffsets.lookup s = some off := by
  unfold recorded at h
  split at h
  · rename_i hle
    rw [List.lookup_cons] at h
    split at h
    · rename_i heq
      cases h
      have hle' : w.buf.length ≤ 0x3FFF := hle
      have hnat : (UInt16.ofNat w.buf.length).toNat = w.buf.length := by
        rw [UInt16.toNat_ofNat']
        omega
      exact .inl ⟨by simpa using heq, hnat, by rw [hnat]; exact hle⟩
    · exact .inr h
  · exact .inr h

theorem writeLabels_hit {pre : List UInt8} {l : List UInt8} {ls : List (List UInt8)} {w : Writer}
    {ptr : UInt16} (hu : IsUtf8 (joinDots (l :: ls)))
    (hget : w.nameOffsets.lookup (joinDots (l :: ls)) = some ptr) :
    writeLabels (pre ++ joinDots (l :: ls)) pre.length (l :: ls) w =
      .ok ((), { w with buf := w.buf ++ be16 (0b1100000000000000 ||| ptr) }) := by
  rw [writeLabels, stateT_bind_of_ok (sliceFrom_append hu w),
    stateT_bind_of_ok (show getOffset _ w = .ok (some ptr, w) by rw [getOffset, hget])]
  rfl

/-- The writer after one label was written out, its suffix filed. -/
def afterLabel (w : Writer) (suffix l : List UInt8) : Writer :=
  ⟨w.buf ++ UInt8.ofNat l.length :: l, recorded w suffix⟩

theorem writeLabels_miss {pre : List UInt8} {l : List UInt8} {ls : List (List UInt8)} {w : Writer}
    (hu : IsUtf8 (joinDots (l :: ls)))
    (hget : w.nameOffsets.lookup (joinDots (l :: ls)) = none) :
    writeLabels (pre ++ joinDots (l :: ls)) pre.length (l :: ls) w =
      if l.isEmpty then .error (.err .emptyLabel)
      else if l.length > 63 then .error (.err .labelTooLong)
      else writeLabels (pre ++ joinDots (l :: ls)) (pre.length + l.length + 1) ls
        (afterLabel w (joinDots (l :: ls)) l) := by
  rw [writeLabels, stateT_bind_of_ok (sliceFrom_append hu w),
    stateT_bind_of_ok (show getOffset _ w = .ok (none, w) by rw [getOffset, hget])]
  dsimp only
  rw [stateT_bind_of_ok (recordOffset_eq _ w)]
  split
  · rfl
  split
  · rfl
  · rw [stateT_bind_of_ok rfl, stateT_bind_of_ok rfl]
    simp only [afterLabel, List.append_assoc, List.singleton_append]

/-- The next turn starts behind the label and its dot. -/
theorem writeLabels_next (pre l l' : List UInt8) (ls : List (List UInt8)) (w : Writer) :
    writeLabels (pre ++ joinDots (l :: l' :: ls)) (pre.length + l.length + 1) (l' :: ls) w =
      writeLabels (pre ++ l ++ [dot] ++ joinDots (l' :: ls)) (pre ++ l ++ [dot]).length
        (l' :: ls) w := by
  simp [joinDots_cons_cons l, Nat.add_assoc]

/-! ## The whole loop -/

/-- The entries the label loop may still look up: those for suffixes no longer than `n`. -/
def TableOkUpTo (w : Writer) (n : Nat) : Prop :=
  ∀ s off, w.nameOffsets.lookup s = some off → s.length ≤ n → EntryOk w.buf s off

theorem TableOk.upTo {w : Writer} (h : TableOk w) (n : Nat) : TableOkUpTo w n :=
  fun s off hs _ => h s off hs

/-- What is left of a name is shorter than the suffix just filed, so nothing unfinished is
in reach. -/
theorem TableOkUpTo.afterLabel {w : Writer} {l l' : List UInt8} {ls : List (List UInt8)}
    (h : TableOkUpTo w (joinDots (l :: l' :: ls)).length) :
    TableOkUpTo (afterLabel w (joinDots (l :: l' :: ls)) l) (joinDots (l' :: ls)).length := by
  have hlen : (joinDots (l' :: ls)).length < (joinDots (l :: l' :: ls)).length := by
    simp only [joinDots_cons_cons l, List.length_append, List.length_cons]
    omega
  intro s off hs hn
  rcases lookup_recorded hs with ⟨rfl, -, -⟩ | hs
  · -- the unfinished suffix is longer than anything still looked up
    omega
  · exact (h s off hs (by omega)).mono (List.prefix_append _ _)

/-- What the label loop has done by the time it returns. -/
structure LabelsWritten (w : Writer) (ls : List (List UInt8)) (bs : List UInt8)
    (table : NameOffsets) : Prop where
  /-- The bytes it appended spell the labels. -/
  spells : ∃ jumps, jumps ≤ ls.length ∧
    Spells (w.buf ++ bs) w.buf.length ls jumps (w.buf.length + bs.length)
  /-- Every entry is an old one or a correct one. -/
  entries : ∀ s off, table.lookup s = some off →
    w.nameOffsets.lookup s = some off ∨ EntryOk (w.buf ++ bs) s off
  /-- Compression never costs space. -/
  length_le : bs.length ≤ (joinDots ls).length + 2

/-- A suffix that is already in the table costs one pointer. -/
theorem writeLabels_spec_hit {pre l : List UInt8} {ls : List (List UInt8)} {w : Writer}
    {ptr : UInt16} (hu : IsUtf8 (joinDots (l :: ls))) (hd : ∀ x ∈ l :: ls, dot ∉ x)
    (hT : TableOkUpTo w (joinDots (l :: ls)).length)
    (hget : w.nameOffsets.lookup (joinDots (l :: ls)) = some ptr) :
    ∃ bs table, writeLabels (pre ++ joinDots (l :: ls)) pre.length (l :: ls) w =
        .ok ((), ⟨w.buf ++ bs, table⟩) ∧ LabelsWritten w (l :: ls) bs table := by
  obtain ⟨hmax, jumps, stop, hsp, hj⟩ := hT _ ptr hget (Nat.le_refl _)
  rw [splitDots_joinDots hd (by simp)] at hsp hj
  refine ⟨_, _, writeLabels_hit hu hget, ⟨jumps + 1, hj, ?_⟩, fun s off hs => .inl hs, ?_⟩
  · -- one jump more than from the entry itself, which has at least one to spare
    have hseg := segment_append_right w.buf (be16 (0b1100000000000000 ||| ptr)) []
    rw [List.append_nil] at hseg
    exact spells_pointer hmax hseg (hsp.mono (List.prefix_append _ _))
  · simp

/-- A label in front of what the loop wrote for the rest. -/
theorem LabelsWritten.cons {w : Writer} {l : List UInt8} {ls : List (List UInt8)}
    {bs : List UInt8} {table : NameOffsets} (hd : ∀ x ∈ l :: ls, dot ∉ x) (hl : ValidLabel l)
    {jumps : Nat} (hj : jumps ≤ ls.length)
    (hsp : Spells (w.buf ++ UInt8.ofNat l.length :: l ++ bs)
      (w.buf.length + 1 + l.length) ls jumps (w.buf.length + 1 + l.length + bs.length))
    (hent : ∀ s off, table.lookup s = some off →
      (recorded w (joinDots (l :: ls))).lookup s = some off ∨
        EntryOk (w.buf ++ UInt8.ofNat l.length :: l ++ bs) s off)
    (hlen : 1 + l.length + bs.length ≤ (joinDots (l :: ls)).length + 2) :
    LabelsWritten w (l :: ls) (UInt8.ofNat l.length :: l ++ bs) table := by
  have hn : (UInt8.ofNat l.length).toNat = l.length := by
    have := hl.2
    rw [UInt8.toNat_ofNat']
    omega
  have hspells : Spells (w.buf ++ (UInt8.ofNat l.length :: l ++ bs)) w.buf.length (l :: ls) jumps
      (w.buf.length + (UInt8.ofNat l.length :: l ++ bs).length) := by
    have hseg := segment_append_right w.buf (UInt8.ofNat l.length :: l) bs
    obtain ⟨h1, h2⟩ := segment_cons_iff.mp hseg
    rw [← List.append_assoc]
    refine .label h1 (by rw [hn]; exact hl.1) (by rw [hn]; exact hl.2) hn.symm h2 ?_
    have hstop : w.buf.length + (UInt8.ofNat l.length :: l ++ bs).length =
        w.buf.length + 1 + l.length + bs.length := by
      simp only [List.cons_append, List.length_cons, List.length_append]
      omega
    rw [hstop]
    exact hsp
  refine ⟨⟨jumps, by simp only [List.length_cons]; omega, hspells⟩, ?_, ?_⟩
  · intro s off hs
    rw [← List.append_assoc]
    rcases hent s off hs with hs | hs
    · rcases lookup_recorded hs with ⟨rfl, hoff, hmax⟩ | hs
      · -- the suffix filed for this very label: its bytes are complete now
        refine .inr ⟨hmax, jumps, w.buf.length + (UInt8.ofNat l.length :: l ++ bs).length, ?_, ?_⟩
        · rw [splitDots_joinDots hd (by simp), hoff, List.append_assoc]
          exact hspells
        · rw [splitDots_joinDots hd (by simp), List.length_cons]
          omega
      · exact .inl hs
    · exact .inr hs
  · simp only [List.cons_append, List.length_cons, List.length_append]
    omega

/--
**The label loop writes its labels.** Induction on the labels; the pointer case ends
the loop with a suffix that is already there, and the label case hands the rest to the
induction hypothesis with every entry still within reach intact.
-/
theorem writeLabels_spec : ∀ (ls : List (List UInt8)) (l pre : List UInt8) (w : Writer),
    IsUtf8 (joinDots (l :: ls)) → (∀ x ∈ l :: ls, dot ∉ x) → (∀ x ∈ l :: ls, ValidLabel x) →
    TableOkUpTo w (joinDots (l :: ls)).length →
    ∃ bs table, writeLabels (pre ++ joinDots (l :: ls)) pre.length (l :: ls) w =
        .ok ((), ⟨w.buf ++ bs, table⟩) ∧ LabelsWritten w (l :: ls) bs table := by
  intro ls
  induction ls with
  | nil =>
      intro l pre w hu hd hv hT
      cases hget : w.nameOffsets.lookup (joinDots [l]) with
      | some ptr => exact writeLabels_spec_hit hu hd hT hget
      | none =>
          have hl := hv l List.mem_cons_self
          refine ⟨UInt8.ofNat l.length :: l ++ [0], recorded w (joinDots [l]), ?_, ?_⟩
          · rw [writeLabels_miss hu hget, if_neg (by simpa using List.ne_nil_of_length_pos hl.1),
              if_neg (by have := hl.2; omega)]
            simp [writeLabels, writeU8, writeBytes, afterLabel]
          · refine .cons hd hl (Nat.zero_le _) (.root ?_) (fun s off hs => .inl hs) ?_
            · simp [Nat.add_assoc, Nat.add_comm 1]
            · simp; omega
  | cons l' ls ih =>
      intro l pre w hu hd hv hT
      cases hget : w.nameOffsets.lookup (joinDots (l :: l' :: ls)) with
      | some ptr => exact writeLabels_spec_hit hu hd hT hget
      | none =>
          have hl := hv l List.mem_cons_self
          obtain ⟨bs, table, hrun, ⟨⟨jumps, hj, hsp⟩, hent, hlen⟩⟩ :=
            ih l' (pre ++ l ++ [dot]) (afterLabel w (joinDots (l :: l' :: ls)) l)
              (isUtf8_joinDots_tail hu) (fun x hx => hd x (List.mem_cons_of_mem _ hx))
              (fun x hx => hv x (List.mem_cons_of_mem _ hx)) hT.afterLabel
          refine ⟨UInt8.ofNat l.length :: l ++ bs, table, ?_, ?_⟩
          · rw [writeLabels_miss hu hget, if_neg (by simpa using List.ne_nil_of_length_pos hl.1),
              if_neg (by have := hl.2; omega), writeLabels_next, hrun]
            simp [afterLabel]
          · refine .cons hd hl hj ?_ hent ?_
            · have hbuf : (afterLabel w (joinDots (l :: l' :: ls)) l).buf.length =
                  w.buf.length + 1 + l.length := by
                simp [afterLabel]
                omega
              rw [hbuf] at hsp
              exact hsp
            · simp only [joinDots_cons_cons l, List.length_append, List.length_cons]
              omega

/-- A name found in the table is spelled there, so its labels are fine. -/
theorem valid_of_hit {l : List UInt8} {ls : List (List UInt8)} {w : Writer} {ptr : UInt16}
    (hd : ∀ x ∈ l :: ls, dot ∉ x) (hT : TableOkUpTo w (joinDots (l :: ls)).length)
    (hget : w.nameOffsets.lookup (joinDots (l :: ls)) = some ptr) :
    ∀ x ∈ l :: ls, ValidLabel x := by
  obtain ⟨-, jumps, stop, hsp, -⟩ := hT _ ptr hget (Nat.le_refl _)
  rw [splitDots_joinDots hd (by simp)] at hsp
  exact hsp.label_length

/-- A label that is written out has passed both checks. -/
theorem valid_of_miss {pre l : List UInt8} {ls : List (List UInt8)} {w : Writer}
    {r : Unit × Writer} (hu : IsUtf8 (joinDots (l :: ls)))
    (hget : w.nameOffsets.lookup (joinDots (l :: ls)) = none)
    (h : writeLabels (pre ++ joinDots (l :: ls)) pre.length (l :: ls) w = .ok r) :
    ValidLabel l ∧ writeLabels (pre ++ joinDots (l :: ls)) (pre.length + l.length + 1) ls
      (afterLabel w (joinDots (l :: ls)) l) = .ok r := by
  rw [writeLabels_miss hu hget] at h
  split at h
  · cases h
  rename_i hne
  split at h
  · cases h
  rename_i h63
  exact ⟨⟨List.length_pos_of_ne_nil (by simpa using hne), by omega⟩, h⟩

/--
**What the label loop accepts is encodable**: no label of a name that was written, in
full or through a pointer, is empty or too long.
-/
theorem writeLabels_valid : ∀ (ls : List (List UInt8)) (l pre : List UInt8) (w : Writer)
    (r : Unit × Writer),
    IsUtf8 (joinDots (l :: ls)) → (∀ x ∈ l :: ls, dot ∉ x) →
    TableOkUpTo w (joinDots (l :: ls)).length →
    writeLabels (pre ++ joinDots (l :: ls)) pre.length (l :: ls) w = .ok r →
    ∀ x ∈ l :: ls, ValidLabel x := by
  intro ls
  induction ls with
  | nil =>
      intro l pre w r hu hd hT h
      cases hget : w.nameOffsets.lookup (joinDots [l]) with
      | some ptr => exact valid_of_hit hd hT hget
      | none =>
          obtain ⟨hl, -⟩ := valid_of_miss hu hget h
          intro x hx
          rw [List.mem_singleton.mp hx]
          exact hl
  | cons l' ls ih =>
      intro l pre w r hu hd hT h
      cases hget : w.nameOffsets.lookup (joinDots (l :: l' :: ls)) with
      | some ptr => exact valid_of_hit hd hT hget
      | none =>
          obtain ⟨hl, h⟩ := valid_of_miss hu hget h
          rw [writeLabels_next] at h
          have := ih l' _ _ r (isUtf8_joinDots_tail hu)
            (fun x hx => hd x (List.mem_cons_of_mem _ hx)) hT.afterLabel h
          intro x hx
          rcases List.mem_cons.mp hx with rfl | hx
          · exact hl
          · exact this x hx

/-! ## Whole names -/

/-- A name the writer can encode: every label it splits into has between 1 and 63 bytes. -/
def Encodable (name : Str) : Prop := ∀ l ∈ labelsOf (trimName name).bytes, ValidLabel l

instance (name : Str) : Decidable (Encodable name) := inferInstanceAs (Decidable (∀ l ∈ _, _))

/-- The two ways through `write_name`. -/
theorem writeName_cases (name : Str) (w : Writer) :
    ((trimName name).bytes = [] ∧ writeName name w = .ok ((), { w with buf := w.buf ++ [0] })) ∨
      ∃ l ls, labelsOf (trimName name).bytes = l :: ls ∧ (trimName name).bytes = joinDots (l :: ls) ∧
        (∀ x ∈ l :: ls, dot ∉ x) ∧
        writeName name w = writeLabels (joinDots (l :: ls)) 0 (l :: ls) w := by
  by_cases h : (trimName name).bytes = []
  · refine .inl ⟨h, ?_⟩
    have h' : trimEndDots name.bytes = [] := h
    simp [writeName, h', writeU8, writeBytes]
  · have hlabels : labelsOf (trimName name).bytes = splitDots (trimName name).bytes := by
      rw [labelsOf, if_neg (by simpa using h)]
    obtain ⟨l, ls, hls⟩ := List.exists_cons_of_ne_nil (splitDots_ne_nil (trimName name).bytes)
    have hjoin : (trimName name).bytes = joinDots (l :: ls) := by
      rw [← hls, joinDots_splitDots]
    refine .inr ⟨l, ls, hlabels.trans hls, hjoin, ?_, ?_⟩
    · intro x hx
      exact dot_notMem_of_mem_splitDots (hls ▸ hx)
    · have h' : (trimEndDots name.bytes).isEmpty = false := by simpa [trimName] using h
      have hls' : splitDots (trimEndDots name.bytes) = l :: ls := hls
      have hjoin' : trimEndDots name.bytes = joinDots (l :: ls) := hjoin
      rw [writeName, h', hls', hjoin']
      rfl

/-- What `write_name` has done by the time it returns. -/
structure NameWritten (name : Str) (w : Writer) (bs : List UInt8) (table : NameOffsets) :
    Prop where
  /-- The table invariant holds again. -/
  table : TableOk ⟨w.buf ++ bs, table⟩
  /-- The bytes spell the name's labels, with fewer jumps than the name has labels. -/
  spells : ∃ jumps, jumps ≤ (labelsOf (trimName name).bytes).length ∧
    Spells (w.buf ++ bs) w.buf.length (labelsOf (trimName name).bytes) jumps
      (w.buf.length + bs.length)
  /-- They are at most two more than the name's own. -/
  length_le : bs.length ≤ (trimName name).len + 2

/-- **`write_name` writes every encodable name**, and keeps the table invariant. -/
theorem writeName_spec {name : Str} {w : Writer} (hT : TableOk w) (hv : Encodable name) :
    ∃ bs table, writeName name w = .ok ((), ⟨w.buf ++ bs, table⟩) ∧
      NameWritten name w bs table := by
  rcases writeName_cases name w with ⟨hnil, hrun⟩ | ⟨l, ls, hlabels, hjoin, hd, hrun⟩
  · refine ⟨[0], w.nameOffsets, hrun, hT.append [0], ⟨0, Nat.zero_le _, ?_⟩, by simp⟩
    rw [show labelsOf (trimName name).bytes = [] by simp [labelsOf, hnil]]
    exact .root (by simp)
  · have hu : IsUtf8 (joinDots (l :: ls)) := hjoin ▸ (trimName name).utf8
    obtain ⟨bs, table, hok, ⟨⟨jumps, hj, hsp⟩, hent, hlen⟩⟩ :=
      writeLabels_spec ls l [] w hu hd (hlabels ▸ hv) (hT.upTo _)
    refine ⟨bs, table, hrun.trans hok, ?_, ⟨jumps, ?_, ?_⟩, ?_⟩
    · -- nothing is unfinished any more
      intro s off hs
      rcases hent s off hs with hs | hs
      · exact (hT s off hs).mono (List.prefix_append _ _)
      · exact hs
    · rw [hlabels]; exact hj
    · rw [hlabels]; exact hsp
    · rw [Str.len, hjoin]; exact hlen

/-- **And no other name.** -/
theorem encodable_of_writeName {name : Str} {w : Writer} {r : Unit × Writer} (hT : TableOk w)
    (h : writeName name w = .ok r) : Encodable name := by
  rcases writeName_cases name w with ⟨hnil, -⟩ | ⟨l, ls, hlabels, hjoin, hd, hrun⟩
  · intro x hx
    simp [labelsOf, hnil] at hx
  · have hu : IsUtf8 (joinDots (l :: ls)) := hjoin ▸ (trimName name).utf8
    unfold Encodable
    rw [hlabels]
    exact writeLabels_valid ls l [] w r hu hd (hT.upTo _) (hrun ▸ h)

/--
**Reading a written name gives it back**, without its trailing dots. A name of at most
253 bytes has at most 127 labels, so the jumps stay below the reader's limit.
-/
theorem readName_of_written {name : Str} {w : Writer} {bs buf : List UInt8} {table : NameOffsets}
    (h : NameWritten name w bs table) (hv : Encodable name)
    (hlen : (trimName name).len ≤ maxNameLen) (hbuf : w.buf ++ bs <+: buf) :
    readName ⟨buf, w.buf.length⟩ = .ok (trimName name, ⟨buf, w.buf.length + bs.length⟩) := by
  obtain ⟨jumps, hj, hsp⟩ := h.spells
  have hjoin := joinDots_labelsOf (trimName name).bytes
  have hutf : ∀ l ∈ labelsOf (trimName name).bytes, IsUtf8 l := by
    apply isUtf8_of_mem_joinDots
    rw [hjoin]
    exact (trimName name).utf8
  obtain ⟨labels, hlabels⟩ := exists_str_labels hutf
  have hname : trimName name = joinLabels labels := by
    apply Str.ext
    rw [bytes_joinLabels, hlabels, hjoin]
    intro l hl hnil
    have := (hv l.bytes (hlabels ▸ List.mem_map_of_mem hl)).1
    rw [hnil] at this
    exact absurd this (by decide)
  -- every label has a byte, and all but the first a dot
  have hcount := length_le_joinDots (fun l hl => (hv l hl).1)
  rw [hjoin] at hcount
  have hlen' : (trimName name).bytes.length ≤ 253 := hlen
  have hjmax : jumps < 128 := by omega
  exact readName_eq_ok_iff.mpr
    ⟨labels, jumps, _, hlabels ▸ hsp.mono hbuf, hjmax, hname, hlen, rfl⟩

end Dnser
