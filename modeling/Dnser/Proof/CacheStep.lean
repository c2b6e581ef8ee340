import Dnser.Cache.Store
import Dnser.Lib.Family

/-!
# What each cache operation does

One lemma per operation that says everything it can do, so that nothing above has to look
into a scan or a loop again: `evictOne_cases`, `makeRoom_cases`, `lookup_store`,
`lookup_evictExpired_eq_some_iff`.

The tables are read through `Cache.lookup`, which looks for a key in the one shard it
belongs to. `Cache.Placed` says that this is no restriction: nothing is ever filed
anywhere else.
-/

namespace Dnser

open Utf8 (Str)

/-! ## The two kinds of keys -/

theorem map_toAsciiLowercase_of_zip {as bs : List UInt8} (hlen : as.length = bs.length) :
    ((as.zip bs).all fun ab => Utf8.toAsciiLowercase ab.1 == ab.2) = true ↔
      as.map Utf8.toAsciiLowercase = bs := by
  induction as generalizing bs with
  | nil =>
      cases bs with
      | nil => simp
      | cons b bs => simp at hlen
  | cons a as ih =>
      cases bs with
      | nil => simp at hlen
      | cons b bs => simp [ih (by simpa using hlen)]

/-- **A lookup is equivalent to one key only**: the one its question is filed under. -/
theorem equivalent_iff (q : Question) (k : CacheKey) :
    (Lookup.fromQuestion q).equivalent k = true ↔ CacheKey.fromQuestion q = k := by
  cases k with
  | mk name qtype qclass =>
      simp only [Lookup.equivalent, Lookup.fromQuestion, CacheKey.fromQuestion,
        CacheKey.mk.injEq, Bool.and_eq_true, beq_iff_eq, Str.len]
      constructor
      · intro hparts
        obtain ⟨⟨⟨ht, hc⟩, hlen⟩, hall⟩ := hparts
        exact ⟨Str.ext ((map_toAsciiLowercase_of_zip hlen).mp hall), ht, hc⟩
      · intro hparts
        obtain ⟨rfl, ht, hc⟩ := hparts
        have hlen : q.name.bytes.length = q.name.toAsciiLowercase.bytes.length := by
          simp [Str.toAsciiLowercase]
        exact ⟨⟨⟨ht, hc⟩, hlen⟩, (map_toAsciiLowercase_of_zip hlen).mpr rfl⟩

/-- **A lookup hashes like its key**, as long as the name fits the buffer it is lowercased into. -/
theorem hash_fromQuestion {q : Question} (h : q.name.len ≤ maxLookupName) :
    (Lookup.fromQuestion q).hash = (CacheKey.fromQuestion q).hash := by
  have hn : min q.name.bytes.length maxLookupName = q.name.bytes.length := Nat.min_eq_left h
  simp [Lookup.hash, Lookup.fromQuestion, CacheKey.hash, CacheKey.fromQuestion,
    Str.toAsciiLowercase, hn]

namespace Cache

/-! ## Reading the tables -/

/-- The entry filed under a key. -/
def lookup (c : Cache) (k : CacheKey) : Option CacheEntry :=
  (c.shards (c.shardIndex k.hash)).lookup k

/-- Every entry is in the shard its key belongs to. -/
def Placed (c : Cache) : Prop :=
  ∀ i k e, (c.shards i).lookup k = some e → i = c.shardIndex k.hash

/-- How many entries there are. -/
def total (c : Cache) : Nat := ∑ i, (c.shards i).size

theorem placed_new (h : Hashing) (capacity : UInt64) (cap : UInt32) :
    (new h capacity cap).Placed := by
  intro i k e he
  simp [new] at he

theorem lookup_new (h : Hashing) (capacity : UInt64) (cap : UInt32) (k : CacheKey) :
    (new h capacity cap).lookup k = none := by
  simp [lookup, new]

theorem total_new (h : Hashing) (capacity : UInt64) (cap : UInt32) :
    (new h capacity cap).total = 0 := by
  simp [total, new]

/-- Exchanging one shard changes the total by the difference of the two. -/
theorem total_update (c : Cache) (i : Fin numShards) (s : Shard) (len : UInt64) :
    total { c with shards := Function.update c.shards i s, len } + (c.shards i).size =
      c.total + s.size :=
  Family.tally_update Table.size c.shards i s

/-- The total is zero only when every shard is empty. -/
theorem total_eq_zero_of_empty {c : Cache} (h : ∀ i, (c.shards i).size = 0) : c.total = 0 := by
  unfold total
  simp [h]

/-! ## Eviction -/

/-- What the scan found: an expired key, or else nothing expired and the first key there is. -/
theorem scanVictim_cases (now : Nat) :
    ∀ (es : List (Σ _ : CacheKey, CacheEntry)) (first : Option CacheKey),
      (∃ k e, (⟨k, e⟩ : Σ _ : CacheKey, CacheEntry) ∈ es ∧ e.expiresAt ≤ now ∧
        (scanVictim now first es).1 = some k) ∨
      ((∀ ke ∈ es, now < ke.2.expiresAt) ∧
        scanVictim now first es = (none, first.or (es.head?.map Sigma.fst))) := by
  intro es
  induction es with
  | nil => intro first; exact .inr ⟨by simp, by simp [scanVictim]⟩
  | cons ke es ih =>
      obtain ⟨k, e⟩ := ke
      intro first
      by_cases hexp : e.expiresAt ≤ now
      · exact .inl ⟨k, e, List.mem_cons_self, hexp, by simp [scanVictim, hexp]⟩
      · rw [scanVictim, if_neg hexp]
        -- from here on `first` is set, so what comes later does not change it
        rcases ih (if first.isNone then some k else first) with ⟨k', e', hmem, hexp', hres⟩ | ⟨hall, hres⟩
        · exact .inl ⟨k', e', List.mem_cons_of_mem _ hmem, hexp', hres⟩
        · refine .inr ⟨?_, ?_⟩
          · simp only [List.mem_cons, forall_eq_or_imp]
            exact ⟨by omega, hall⟩
          · rw [hres]
            cases first <;> simp

/--
**`evict_one` takes an entry from every shard that has one**, and an expired one whenever
there is one.
-/
theorem evictOne_cases (order : ShardOrder) (s : Shard) (now : Nat) :
    (s.size = 0 ∧ evictOne order s now = (false, s)) ∨
      ∃ k e, s.lookup k = some e ∧ evictOne order s now = (true, s.erase k) ∧
        ∀ k' e', s.lookup k' = some e' → e'.expiresAt ≤ now → e.expiresAt ≤ now := by
  have hvisit : ∀ {k e}, (⟨k, e⟩ : Σ _ : CacheKey, CacheEntry) ∈ order.visit s.entries ↔
      s.lookup k = some e := fun {k e} => (order.perm _).mem_iff.trans Table.mem_entries_iff
  rcases scanVictim_cases now (order.visit s.entries) none with ⟨k, e, hmem, hexp, hres⟩ | ⟨hall, hres⟩
  · refine .inr ⟨k, e, hvisit.mp hmem, ?_, fun _ _ _ _ => hexp⟩
    simp only [evictOne, hres]
    rfl
  · -- nothing is expired: the first entry goes, if there is one
    cases hes : order.visit s.entries with
    | nil =>
        refine .inl ⟨?_, ?_⟩
        · rw [Table.size, ← (order.perm _).length_eq, hes]
          rfl
        · rw [hes] at hres
          simp [evictOne, hres, hes]
    | cons ke es =>
        obtain ⟨k, e⟩ := ke
        refine .inr ⟨k, e, hvisit.mp (by rw [hes]; exact List.mem_cons_self), ?_, ?_⟩
        · rw [hes] at hres
          simp [evictOne, hres, hes]
        · intro k' e' he' hexp'
          have := hall ⟨k', e'⟩ (hvisit.mpr he')
          dsimp only at this
          omega

/-- The entry that goes to make room: from which shard, and under which key. -/
structure Victim (c : Cache) (now : Nat) (i : Fin numShards) (k : CacheKey) : Prop where
  /-- It is there. -/
  present : ∃ e, (c.shards i).lookup k = some e
  /-- It is expired if anything in its shard is. -/
  expired : ∀ e k' e', (c.shards i).lookup k = some e → (c.shards i).lookup k' = some e' →
    e'.expiresAt ≤ now → e.expiresAt ≤ now

theorem Victim.of_lookup {c : Cache} {now : Nat} {i : Fin numShards} {k : CacheKey} {e : CacheEntry}
    (he : (c.shards i).lookup k = some e)
    (hexp : ∀ k' e', (c.shards i).lookup k' = some e' → e'.expiresAt ≤ now → e.expiresAt ≤ now) :
    Victim c now i k := by
  refine ⟨⟨e, he⟩, fun e₀ k' e' he₀ he' hexp' => ?_⟩
  rw [he] at he₀
  cases he₀
  exact hexp k' e' he' hexp'

/-- The scan of the other shards evicts one entry, unless all of them are empty. -/
theorem evictOther_cases (c : Cache) (order : Fin numShards → ShardOrder) (now : Nat)
    (target : Fin numShards) (is : List (Fin numShards)) :
    ((∀ i ∈ is, i ≠ target → (c.shards i).size = 0) ∧
      evictOther order now target is c.shards = (false, c.shards)) ∨
    ∃ i k, Victim c now i k ∧ evictOther order now target is c.shards =
      (true, Function.update c.shards i ((c.shards i).erase k)) := by
  induction is with
  | nil => exact .inl ⟨by simp, rfl⟩
  | cons i is ih =>
      by_cases hi : i = target
      · rw [evictOther, if_pos hi]
        rcases ih with ⟨hall, hres⟩ | h
        · refine .inl ⟨?_, hres⟩
          simp only [List.mem_cons, forall_eq_or_imp]
          exact ⟨fun h => absurd hi h, hall⟩
        · exact .inr h
      · rw [evictOther, if_neg hi]
        rcases evictOne_cases (order i) (c.shards i) now with ⟨h0, hone⟩ | ⟨k, e, he, hone, hexp⟩
        · rw [hone]
          simp only [Function.update_eq_self, Bool.false_eq_true, if_false]
          rcases ih with ⟨hall, hres⟩ | h
          · refine .inl ⟨?_, hres⟩
            simp only [List.mem_cons, forall_eq_or_imp]
            exact ⟨fun _ => h0, hall⟩
          · exact .inr h
        · rw [hone]
          exact .inr ⟨i, k, .of_lookup he hexp, rfl⟩

/-- The cache without one of its entries. -/
def drop (c : Cache) (i : Fin numShards) (k : CacheKey) : Cache :=
  { c with shards := Function.update c.shards i ((c.shards i).erase k), len := c.len - 1 }

theorem shards_drop (c : Cache) (i : Fin numShards) (k : CacheKey) :
    (c.drop i k).shards = Function.update c.shards i ((c.shards i).erase k) := rfl

/--
**Making room**: nothing happens below capacity; at capacity one entry goes, wherever it
has to come from, unless there is none at all.
-/
theorem makeRoom_cases (c : Cache) (order : Fin numShards → ShardOrder) (now : Nat)
    (target : Fin numShards) :
    (c.len < c.capacity ∧ c.makeRoom order now target = c) ∨
    (c.capacity ≤ c.len ∧ c.total = 0 ∧ c.makeRoom order now target = c) ∨
    (c.capacity ≤ c.len ∧ ∃ i k, Victim c now i k ∧ c.makeRoom order now target = c.drop i k) := by
  unfold makeRoom
  by_cases hcap : c.capacity ≤ c.len
  · rw [if_pos hcap]
    refine .inr ?_
    rcases evictOne_cases (order target) (c.shards target) now with
      ⟨h0, hone⟩ | ⟨k, e, he, hone, hexp⟩
    · rw [hone]
      simp only [Bool.false_eq_true, if_false]
      rcases evictOther_cases c order now target (List.finRange numShards) with
        ⟨hall, hres⟩ | ⟨i, k, hv, hres⟩
      · -- neither the target nor any other shard had anything
        rw [hres]
        refine .inl ⟨hcap, total_eq_zero_of_empty fun i => ?_, rfl⟩
        by_cases hi : i = target
        · rw [hi]; exact h0
        · exact hall i (List.mem_finRange i) hi
      · rw [hres]
        exact .inr ⟨hcap, i, k, hv, rfl⟩
    · rw [hone]
      exact .inr ⟨hcap, target, k, .of_lookup he hexp, rfl⟩
  · rw [if_neg hcap]
    exact .inl ⟨UInt64.not_le.mp hcap, rfl⟩

/-! ## What the operations leave in the tables -/

theorem lookup_update (c : Cache) (i : Fin numShards) (s : Shard) (len : UInt64) (k : CacheKey) :
    lookup { c with shards := Function.update c.shards i s, len } k =
      if c.shardIndex k.hash = i then s.lookup k else c.lookup k := by
  show (Function.update c.shards i s (c.shardIndex k.hash)).lookup k = _
  split
  · rename_i h
    rw [h, Function.update_self]
  · rename_i h
    rw [Function.update_of_ne h]
    rfl

/-- A table whose entries all belong into a shard may take that shard's place. -/
theorem Placed.update {c : Cache} (h : c.Placed) {i : Fin numShards} {s : Shard} {len : UInt64}
    (hs : ∀ k e, s.lookup k = some e → c.shardIndex k.hash = i) :
    Placed { c with shards := Function.update c.shards i s, len } := by
  intro j k e hk
  change (Function.update c.shards i s j).lookup k = some e at hk
  show j = c.shardIndex k.hash
  by_cases hj : j = i
  · rw [hj, Function.update_self] at hk
    rw [hj, hs k e hk]
  · rw [Function.update_of_ne hj] at hk
    exact h j k e hk

theorem lookup_erase_eq_some {s : Shard} {k k' : CacheKey} {e : CacheEntry}
    (h : (s.erase k).lookup k' = some e) : s.lookup k' = some e := by
  by_cases hk : k' = k
  · rw [hk, AList.lookup_erase] at h
    cases h
  · rwa [AList.lookup_erase_ne hk] at h

theorem Placed.drop {c : Cache} (h : c.Placed) (i : Fin numShards) (k : CacheKey) :
    (c.drop i k).Placed :=
  h.update fun k' e he => (h i k' e (lookup_erase_eq_some he)).symm

theorem lookup_drop {c : Cache} (h : c.Placed) {now : Nat} {i : Fin numShards} {k : CacheKey}
    (hv : Victim c now i k) (k' : CacheKey) :
    (c.drop i k).lookup k' = if k' = k then none else c.lookup k' := by
  obtain ⟨e, he⟩ := hv.present
  have hi := h i k e he
  rw [Cache.drop, lookup_update]
  by_cases hk : k' = k
  · rw [hk, if_pos hi.symm, if_pos rfl, AList.lookup_erase]
  · rw [if_neg hk]
    split
    · rename_i hk'
      rw [AList.lookup_erase_ne hk, ← hk']
      rfl
    · rfl

theorem Placed.store {c : Cache} (h : c.Placed) (key : CacheKey) (entry : CacheEntry) :
    (c.store key entry).Placed := by
  refine h.update fun k e he => ?_
  by_cases hk : k = key
  · rw [hk]
  · rw [AList.lookup_insert_ne hk] at he
    exact (h _ k e he).symm

theorem lookup_store (c : Cache) (key : CacheKey) (entry : CacheEntry) (k : CacheKey) :
    (c.store key entry).lookup k = if k = key then some entry else c.lookup k := by
  rw [Cache.store, lookup_update]
  by_cases hk : k = key
  · rw [hk, if_pos rfl, if_pos rfl, AList.lookup_insert]
  · rw [if_neg hk, AList.lookup_insert_ne hk]
    split
    · rename_i hk'
      rw [← hk']
      rfl
    · rfl

theorem Placed.reapShard {c : Cache} (h : c.Placed) (now : Nat) (i : Fin numShards) :
    (reapShard now c i).Placed :=
  h.update fun k e he => (h i k e (Table.lookup_retain_eq_some_iff.mp he).1).symm

theorem lookup_reapShard_eq_some_iff (c : Cache) (now : Nat) (i : Fin numShards) (k : CacheKey)
    (e : CacheEntry) :
    (reapShard now c i).lookup k = some e ↔
      c.lookup k = some e ∧ (c.shardIndex k.hash = i → now < e.expiresAt) := by
  rw [Cache.reapShard, lookup_update]
  split
  · rename_i hi
    rw [Table.lookup_retain_eq_some_iff, lookup, hi]
    simp
  · rename_i hi
    simp [hi]

/-- The reaper's loop, over the shards it has yet to visit. -/
theorem foldl_reapShard (now : Nat) (is : List (Fin numShards)) (c : Cache) (h : c.Placed) :
    (is.foldl (Cache.reapShard now) c).Placed ∧
      (is.foldl (Cache.reapShard now) c).buildHasher = c.buildHasher ∧
      ∀ k e, (is.foldl (Cache.reapShard now) c).lookup k = some e ↔
        c.lookup k = some e ∧ (c.shardIndex k.hash ∈ is → now < e.expiresAt) := by
  induction is generalizing c with
  | nil => exact ⟨h, rfl, by simp⟩
  | cons i is ih =>
      obtain ⟨h1, h2, h3⟩ := ih (Cache.reapShard now c i) (h.reapShard now i)
      refine ⟨h1, h2, fun k e => ?_⟩
      have hidx : (Cache.reapShard now c i).shardIndex k.hash = c.shardIndex k.hash := rfl
      rw [List.foldl_cons, h3 k e, lookup_reapShard_eq_some_iff, hidx, List.mem_cons]
      -- reaping leaves the hashers alone, so the shard of a key stays the same
      tauto

theorem Placed.evictExpired {c : Cache} (h : c.Placed) (now : Nat) : (c.evictExpired now).Placed :=
  (foldl_reapShard now _ c h).1

/-- **Reaping keeps exactly what has not expired.** -/
theorem lookup_evictExpired_eq_some_iff {c : Cache} (h : c.Placed) (now : Nat) (k : CacheKey)
    (e : CacheEntry) :
    (c.evictExpired now).lookup k = some e ↔ c.lookup k = some e ∧ now < e.expiresAt := by
  rw [Cache.evictExpired, (foldl_reapShard now _ c h).2.2 k e]
  simp

/-! ## Insertion, as a whole -/

/-- The entry an admitted response is stored as. -/
def newEntry (response : Message) (now : Nat) (ttl : UInt32) : CacheEntry :=
  { response, insertedAt := now, expiresAt := now + ttl.toNat * nanosPerSec }

/--
**Insertion**: a response that is not admitted changes nothing; one that is goes in, after
at most one entry went out.
-/
theorem insert_cases (c : Cache) (order : Fin numShards → ShardOrder) (response : Message)
    (now : Nat) :
    (admits c.maxNegativeTtl response = none ∧ c.insert order response now = c) ∨
    ∃ q ttl room, admits c.maxNegativeTtl response = some (q, ttl) ∧
      c.insert order response now =
        room.store (CacheKey.fromQuestion q) (newEntry response now ttl) ∧
      ((c.len < c.capacity ∧ room = c) ∨ (c.capacity ≤ c.len ∧ c.total = 0 ∧ room = c) ∨
        (c.capacity ≤ c.len ∧ ∃ i k, Victim c now i k ∧ room = c.drop i k)) := by
  unfold insert
  cases hadm : admits c.maxNegativeTtl response with
  | none => exact .inl ⟨rfl, rfl⟩
  | some qt =>
      obtain ⟨q, ttl⟩ := qt
      exact .inr ⟨q, ttl, _, rfl, rfl, makeRoom_cases c order now _⟩

theorem Placed.insert {c : Cache} (h : c.Placed) (order : Fin numShards → ShardOrder)
    (response : Message) (now : Nat) : (c.insert order response now).Placed := by
  rcases insert_cases c order response now with ⟨-, hrun⟩ | ⟨q, ttl, room, -, hrun, hroom⟩
  · rw [hrun]
    exact h
  · rw [hrun]
    rcases hroom with ⟨-, rfl⟩ | ⟨-, -, rfl⟩ | ⟨-, i, k, -, rfl⟩
    · exact h.store _ _
    · exact h.store _ _
    · exact (h.drop i k).store _ _

/-- What is in the cache after an insertion was there before, or is what was inserted. -/
theorem lookup_insert_cases {c : Cache} (h : c.Placed) {order : Fin numShards → ShardOrder}
    {response : Message} {now : Nat} {k : CacheKey} {e : CacheEntry}
    (hk : (c.insert order response now).lookup k = some e) :
    c.lookup k = some e ∨ ∃ q ttl, admits c.maxNegativeTtl response = some (q, ttl) ∧
      k = CacheKey.fromQuestion q ∧ e = newEntry response now ttl := by
  rcases insert_cases c order response now with ⟨-, hrun⟩ | ⟨q, ttl, room, hadm, hrun, hroom⟩
  · rw [hrun] at hk
    exact .inl hk
  · rw [hrun, lookup_store] at hk
    split at hk
    · rename_i hkey
      exact .inr ⟨q, ttl, hadm, hkey, (Option.some.inj hk).symm⟩
    · rcases hroom with ⟨-, rfl⟩ | ⟨-, -, rfl⟩ | ⟨-, i, v, hv, rfl⟩
      · exact .inl hk
      · exact .inl hk
      · rw [lookup_drop h hv] at hk
        split at hk
        · cases hk
        · exact .inl hk

/-- Only a response with exactly one question is admitted, and it is stored under it. -/
theorem questions_of_admits {cap : UInt32} {response : Message} {q : Question} {ttl : UInt32}
    (h : admits cap response = some (q, ttl)) : response.questions = [q] := by
  unfold admits at h
  split at h
  · rename_i q' hq
    split at h
    · cases h
    split at h
    · cases h
    split at h
    · cases h
    · cases h
      exact hq
  · cases h

end Cache

end Dnser
