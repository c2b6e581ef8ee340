import Dnser.Proof.CacheStep

/-!
# The entry counter

`Cache::len` is not the size of anything: it is a counter beside the tables, adjusted by
hand wherever an entry comes or goes. `Counted` says that it is right, modulo the size of
the counter; `Bounded` says that the tables hold no more than the capacity, which is what
rules out that the modulus ever matters.

The bound rests on one fact: a full cache that is asked to make room has something to throw
out, in some shard. It may not be the shard the new entry goes to.
-/

namespace Dnser

open Utf8 (Str)

namespace Cache

/-- The counter is the number of entries, up to wrap-around. -/
def Counted (c : Cache) : Prop := c.len = UInt64.ofNat c.total

/-- There are no more entries than the capacity allows. -/
def Bounded (c : Cache) : Prop := c.total ≤ c.capacity.toNat

theorem Counted.toNat_len {c : Cache} (hc : c.Counted) (hb : c.Bounded) : c.len.toNat = c.total := by
  have hlt := c.capacity.toNat_lt
  unfold Bounded at hb
  rw [hc, UInt64.toNat_ofNat']
  omega

/-! ## One step -/

/-- Exchanging a shard for one with `removed` entries less. -/
theorem Counted.shrink {c : Cache} (h : c.Counted) {i : Fin numShards} {s : Shard} {removed : Nat}
    (hs : s.size + removed = (c.shards i).size) :
    Counted { c with
      shards := Function.update c.shards i s, len := c.len - UInt64.ofNat removed } := by
  have ht := total_update c i s (c.len - UInt64.ofNat removed)
  unfold Counted at h ⊢
  have htotal : c.total = total { c with
      shards := Function.update c.shards i s, len := c.len - UInt64.ofNat removed } + removed := by
    omega
  -- modulo the size of the counter, so no bound on the total is needed yet
  rw [h, htotal, UInt64.ofNat_add]
  exact UInt64.add_sub_cancel _ _

theorem total_drop {c : Cache} {now : Nat} {i : Fin numShards} {k : CacheKey}
    (hv : Victim c now i k) : (c.drop i k).total + 1 = c.total := by
  obtain ⟨e, he⟩ := hv.present
  have hs := Table.size_erase (t := c.shards i) (k := k) (by rw [he]; rfl)
  have ht : (c.drop i k).total + (c.shards i).size =
      c.total + Table.size ((c.shards i).erase k) := total_update c i _ _
  omega

theorem Counted.drop {c : Cache} (h : c.Counted) {now : Nat} {i : Fin numShards} {k : CacheKey}
    (hv : Victim c now i k) : (c.drop i k).Counted := by
  obtain ⟨e, he⟩ := hv.present
  have hs : Table.size ((c.shards i).erase k) + 1 = (c.shards i).size :=
    Table.size_erase (by rw [he]; rfl)
  exact h.shrink hs

theorem total_store (c : Cache) (key : CacheKey) (entry : CacheEntry) :
    (c.store key entry).total = if (c.lookup key).isSome then c.total else c.total + 1 := by
  have ht : (c.store key entry).total + (c.shards (c.shardIndex key.hash)).size =
      c.total + Table.size ((c.shards (c.shardIndex key.hash)).insert key entry) :=
    total_update c _ _ _
  rw [Table.size_insert] at ht
  unfold lookup
  split at ht
  · rw [if_pos (by assumption)]
    omega
  · rw [if_neg (by assumption)]
    omega

theorem total_insert_le (c : Cache) (order : Fin numShards → ShardOrder) (response : Message)
    (now : Nat) : (c.insert order response now).total ≤ c.total + 1 := by
  rcases insert_cases c order response now with ⟨-, hrun⟩ | ⟨q, ttl, room, -, hrun, hroom⟩
  · rw [hrun]
    omega
  · have hroom' : room.total ≤ c.total := by
      rcases hroom with ⟨-, rfl⟩ | ⟨-, -, rfl⟩ | ⟨-, i, k, hv, rfl⟩
      · exact Nat.le_refl _
      · exact Nat.le_refl _
      · have := total_drop hv
        omega
    rw [hrun, total_store]
    split <;> omega

theorem Counted.store {c : Cache} (h : c.Counted) (key : CacheKey) (entry : CacheEntry) :
    (c.store key entry).Counted := by
  have hlen : (c.store key entry).len = if (c.lookup key).isNone then c.len + 1 else c.len := rfl
  unfold Counted at h ⊢
  rw [hlen, total_store, h]
  cases c.lookup key with
  | none => simp [UInt64.ofNat_add]
  | some e => simp

theorem Counted.reapShard {c : Cache} (h : c.Counted) (now : Nat) (i : Fin numShards) :
    (reapShard now c i).Counted := by
  refine h.shrink ?_
  have := Table.size_retain_le (fun _ e => now < e.expiresAt) (c.shards i)
  omega

theorem total_reapShard_le (c : Cache) (now : Nat) (i : Fin numShards) :
    (reapShard now c i).total ≤ c.total := by
  have hle := Table.size_retain_le (fun _ e => now < e.expiresAt) (c.shards i)
  have ht : (reapShard now c i).total + (c.shards i).size =
      c.total + ((c.shards i).retain fun _ e => now < e.expiresAt).size := total_update c i _ _
  omega

theorem counted_evictExpired {c : Cache} (h : c.Counted) (now : Nat) :
    (c.evictExpired now).Counted ∧ (c.evictExpired now).total ≤ c.total := by
  unfold evictExpired
  induction List.finRange numShards generalizing c with
  | nil => exact ⟨h, Nat.le_refl _⟩
  | cons i is ih =>
      obtain ⟨h1, h2⟩ := ih (h.reapShard now i)
      exact ⟨h1, Nat.le_trans h2 (total_reapShard_le c now i)⟩

/-! ## What the operations never change -/

/-- The parts of a cache that are fixed when it is made. -/
def SameConfig (c c' : Cache) : Prop :=
  c'.capacity = c.capacity ∧ c'.maxNegativeTtl = c.maxNegativeTtl ∧ c'.buildHasher = c.buildHasher

theorem sameConfig_evictExpired (c : Cache) (now : Nat) : SameConfig c (c.evictExpired now) := by
  unfold evictExpired
  induction List.finRange numShards generalizing c with
  | nil => exact ⟨rfl, rfl, rfl⟩
  | cons i is ih => exact ih (reapShard now c i)

theorem sameConfig_insert (c : Cache) (order : Fin numShards → ShardOrder) (response : Message)
    (now : Nat) : SameConfig c (c.insert order response now) := by
  rcases insert_cases c order response now with ⟨-, h⟩ | ⟨q, ttl, room, -, h, hroom⟩
  · rw [h]
    exact ⟨rfl, rfl, rfl⟩
  · rw [h]
    rcases hroom with ⟨-, rfl⟩ | ⟨-, -, rfl⟩ | ⟨-, i, k, -, rfl⟩ <;> exact ⟨rfl, rfl, rfl⟩

theorem sameConfig_step (c : Cache) (op : Nat × Op) : SameConfig c (c.step op) := by
  obtain ⟨now, op⟩ := op
  cases op with
  | get q => exact ⟨rfl, rfl, rfl⟩
  | insert order response => exact sameConfig_insert c order response now
  | evictExpired => exact sameConfig_evictExpired c now

theorem sameConfig_run (c : Cache) (ops : List (Nat × Op)) : SameConfig c (c.run ops) := by
  induction ops generalizing c with
  | nil => exact ⟨rfl, rfl, rfl⟩
  | cons op ops ih =>
      obtain ⟨h1, h2, h3⟩ := ih (c.step op)
      obtain ⟨h1', h2', h3'⟩ := sameConfig_step c op
      exact ⟨h1.trans h1', h2.trans h2', h3.trans h3'⟩

/-! ## Whole runs -/

/-- Everything the counter promises. -/
structure Sized (c : Cache) : Prop where
  counted : c.Counted
  bounded : c.Bounded
  /-- `Config::validate` rejects a capacity of zero. -/
  capacity_pos : 1 ≤ c.capacity.toNat

/-- After making room there is room. -/
theorem Sized.room {c room : Cache} {now : Nat} (h : c.Sized)
    (hroom : (c.len < c.capacity ∧ room = c) ∨ (c.capacity ≤ c.len ∧ c.total = 0 ∧ room = c) ∨
      (c.capacity ≤ c.len ∧ ∃ i k, Victim c now i k ∧ room = c.drop i k)) :
    room.Counted ∧ room.total < c.capacity.toNat := by
  have hlen := h.counted.toNat_len h.bounded
  have hb := h.bounded
  unfold Bounded at hb
  rcases hroom with ⟨hlt, rfl⟩ | ⟨hle, h0, rfl⟩ | ⟨hle, i, k, hv, rfl⟩
  · have : room.len.toNat < room.capacity.toNat := hlt
    exact ⟨h.counted, by omega⟩
  · -- full and empty at once would take a capacity of zero
    have hle : room.capacity.toNat ≤ room.len.toNat := hle
    have := h.capacity_pos
    omega
  · have := total_drop hv
    exact ⟨h.counted.drop hv, by omega⟩

theorem Sized.insert {c : Cache} (h : c.Sized) (order : Fin numShards → ShardOrder)
    (response : Message) (now : Nat) : (c.insert order response now).Sized := by
  have hcfg := (sameConfig_insert c order response now).1
  rcases insert_cases c order response now with ⟨-, hrun⟩ | ⟨q, ttl, room, -, hrun, hroom⟩
  · rw [hrun]
    exact h
  · obtain ⟨hcount, hlt⟩ := h.room hroom
    refine ⟨?_, ?_, by rw [hcfg]; exact h.capacity_pos⟩
    · rw [hrun]
      exact hcount.store _ _
    · -- at most one entry more than there was room for
      unfold Bounded
      rw [hcfg, hrun, total_store]
      split <;> omega

theorem Sized.step {c : Cache} (h : c.Sized) (op : Nat × Op) : (c.step op).Sized := by
  obtain ⟨now, op⟩ := op
  cases op with
  | get q => exact h
  | insert order response => exact h.insert order response now
  | evictExpired =>
      obtain ⟨hcount, hle⟩ := counted_evictExpired h.counted now
      have hcfg := (sameConfig_evictExpired c now).1
      refine ⟨hcount, ?_, ?_⟩
      · show (c.evictExpired now).total ≤ (c.evictExpired now).capacity.toNat
        rw [hcfg]
        exact Nat.le_trans hle h.bounded
      · show 1 ≤ (c.evictExpired now).capacity.toNat
        rw [hcfg]
        exact h.capacity_pos

theorem Sized.run {c : Cache} (h : c.Sized) (ops : List (Nat × Op)) : (c.run ops).Sized := by
  induction ops generalizing c with
  | nil => exact h
  | cons op ops ih => exact ih (h.step op)

theorem sized_new {hashing : Hashing} {capacity : UInt64} {cap : UInt32}
    (h : 1 ≤ capacity.toNat) : (new hashing capacity cap).Sized :=
  ⟨by rw [Counted, total_new]; rfl, by rw [Bounded, total_new]; exact Nat.zero_le _, h⟩

/-- Storing an entry leaves those under other keys alone. -/
theorem shards_store_of_ne (c : Cache) {key : CacheKey} (entry : CacheEntry) (i : Fin numShards)
    {k : CacheKey} (hk : k ≠ key) :
    ((c.store key entry).shards i).lookup k = (c.shards i).lookup k := by
  simp only [store]
  by_cases hi : i = c.shardIndex key.hash
  · rw [hi, Function.update_self, AList.lookup_insert_ne hk]
  · rw [Function.update_of_ne hi]

/-- What an insertion does to the entries under other keys. -/
theorem shards_insert {c : Cache} (order : Fin numShards → ShardOrder) {response : Message}
    (now : Nat) {q : Question} {ttl : UInt32}
    (hadm : admits c.maxNegativeTtl response = some (q, ttl)) :
    ∃ victim : Option (Fin numShards × CacheKey),
      (∀ i k, k ≠ CacheKey.fromQuestion q →
        ((c.insert order response now).shards i).lookup k =
          if victim = some (i, k) then none else (c.shards i).lookup k) ∧
      (victim.isSome → c.capacity ≤ c.len) ∧
      ∀ i k, victim = some (i, k) → Victim c now i k := by
  rcases insert_cases c order response now with ⟨hnone, -⟩ | ⟨q', ttl', room, hadm', hrun, hroom⟩
  · rw [hadm] at hnone
    cases hnone
  rw [hadm] at hadm'
  cases hadm'
  rw [hrun]
  rcases hroom with ⟨-, rfl⟩ | ⟨-, -, rfl⟩ | ⟨hle, i, v, hv, rfl⟩
  · exact ⟨none, fun i k hk => by simpa using shards_store_of_ne _ _ i hk, by simp, by simp⟩
  · exact ⟨none, fun i k hk => by simpa using shards_store_of_ne _ _ i hk, by simp, by simp⟩
  · refine ⟨some (i, v), fun j k hk => ?_, fun _ => hle, ?_⟩
    · rw [shards_store_of_ne _ _ j hk, shards_drop]
      by_cases hj : j = i
      · subst hj
        rw [Function.update_self]
        by_cases hkv : k = v
        · subst hkv
          simp
        · rw [AList.lookup_erase_ne hkv, if_neg (by simpa using Ne.symm hkv)]
      · rw [Function.update_of_ne hj, if_neg (by simp [Ne.symm hj])]
    · rintro i' k' h
      cases h
      exact hv

/--
**The counter is right, the capacity is kept, and eviction is modest**: after every call of
every run, `len` is the number of entries and at most the capacity; an insertion that is
admitted takes out at most one entry under another key, only from a full cache, and never a
good one from a shard with an expired one.
-/
theorem cache_accounting (hashing : Hashing) (capacity : UInt64) (cap : UInt32)
    (hcap : 1 ≤ capacity.toNat) (ops : List (Nat × Op)) :
    let c := (new hashing capacity cap).run ops
    c.len.toNat = c.total ∧ c.len ≤ capacity ∧
      ∀ order response now q ttl, admits cap response = some (q, ttl) →
        ∃ victim : Option (Fin numShards × CacheKey),
          (∀ i k, k ≠ CacheKey.fromQuestion q →
            ((c.insert order response now).shards i).lookup k =
              if victim = some (i, k) then none else (c.shards i).lookup k) ∧
          (victim.isSome → capacity ≤ c.len) ∧
          ∀ i k, victim = some (i, k) → ∃ e, (c.shards i).lookup k = some e ∧
            ((∃ k' e', (c.shards i).lookup k' = some e' ∧ e'.expiresAt ≤ now) →
              e.expiresAt ≤ now) := by
  intro c
  have hsized : c.Sized := (sized_new hcap).run ops
  obtain ⟨hcapacity, hcfg, -⟩ := sameConfig_run (new hashing capacity cap) ops
  have hcapacity : c.capacity = capacity := hcapacity
  have hlen := hsized.counted.toNat_len hsized.bounded
  refine ⟨hlen, ?_, ?_⟩
  · show c.len.toNat ≤ capacity.toNat
    rw [hlen, ← hcapacity]
    exact hsized.bounded
  · intro order response now q ttl hadm
    rw [show cap = c.maxNegativeTtl from hcfg.symm] at hadm
    obtain ⟨victim, h1, h2, h3⟩ := shards_insert order now hadm
    refine ⟨victim, h1, fun h => hcapacity ▸ h2 h, fun i k hv => ?_⟩
    obtain ⟨⟨e, he⟩, hexp⟩ := h3 i k hv
    exact ⟨e, he, fun ⟨k', e', he', hexp'⟩ => hexp e k' e' he he' hexp'⟩

/-! ## A cache of one entry -/

/-- Hashers that look at the number of writes only. -/
def plainHashing : Hashing :=
  { shard := fun ws => UInt64.ofNat ws.length
    finds := fun _ ws ws' => ws == ws'
    finds_self := fun _ ws => beq_self_eq_true ws }

/-- An address for `name`, good for `ttl` seconds. -/
def answerFor (name : Str) (ttl : UInt32) : Message :=
  { header := { id := 7, flags := Header.QR, qdCount := 1, anCount := 1 }
    questions := [{ name, qtype := .a, qclass := Class.IN }]
    answers := [{ name, cls := Class.IN, ttl, rdata := .a ⟨[127, 0, 0, 1], rfl⟩ }] }

theorem cache_accounting_one :
    let c := (new plainHashing 1 300).run
      [(0, .insert (fun _ => .asStored) (answerFor Str.empty 60))]
    c.len.toNat = c.total ∧ c.len ≤ 1 ∧
      ∃ victim : Option (Fin numShards × CacheKey), victim.isSome → 1 ≤ c.len := by
  obtain ⟨hlen, hle, hins⟩ := cache_accounting plainHashing 1 300 (by decide)
    [(0, .insert (fun _ => .asStored) (answerFor Str.empty 60))]
  obtain ⟨victim, -, hv, -⟩ := hins (fun _ => .asStored) (answerFor ⟨[97], by decide⟩ 60) 1
    { name := ⟨[97], by decide⟩, qtype := .a, qclass := Class.IN } 60 rfl
  exact ⟨hlen, hle, victim, hv⟩

end Cache

end Dnser
