import Dnser.Cache.Abstract
import Dnser.Proof.CacheSize

/-!
# The cache refines a timed map

Sixty-four tables, two kinds of keys, a reaper and an eviction policy, against the map of
`AbstractCache`. The tables, read as a timed map (`Cache.view`), are always below it: they
hold nothing that was not accepted, and never an old response in the place of a newer one.
As long as nothing is evicted for lack of room they also cover it, so that the cache answers
exactly as the map would. A name that does not fit the buffer it is lowercased into is the
exception: it hashes in one way as a key and in another as a lookup, and is not found again.
-/

namespace Dnser

open Utf8 (Str)

/-! ## Acceptance -/

theorem soaNegativeTtl_eq (authority : List ResourceRecord) :
    Cache.soaNegativeTtl authority = (AbstractCache.firstSoa authority).map fun s => min s.1 s.2 := by
  induction authority with
  | nil => rfl
  | cons rr rrs ih =>
      unfold Cache.soaNegativeTtl AbstractCache.firstSoa
      rw [List.findSome?_cons]
      cases rr.rdata <;> first | rfl | exact ih

theorem effectiveTtl_eq (cap : UInt32) (r : Message) :
    Cache.effectiveTtl cap r = AbstractCache.effectiveTtl cap r := by
  have hsoa : (Cache.soaNegativeTtl r.authority).map (min · cap) =
      (AbstractCache.firstSoa r.authority).map fun s => min (min s.1 s.2) cap := by
    rw [soaNegativeTtl_eq, Option.map_map]
    rfl
  unfold Cache.effectiveTtl AbstractCache.effectiveTtl
  cases r.header.rcode with
  | error e => rfl
  | ok rc =>
      cases rc with
      | noError =>
          cases r.answers with
          | nil => simpa using hsoa
          | cons a as =>
              show ((a :: as).map ResourceRecord.ttl).min? = _
              rw [List.map_cons, List.min?_cons', List.foldl_map]
      | nxDomain => exact hsoa
      | formErr => rfl
      | servFail => rfl
      | notImp => rfl
      | refused => rfl

/-- **The code admits exactly what the map accepts.** -/
theorem accepted_eq (cap : UInt32) (r : Message) :
    AbstractCache.accepted cap r =
      (Cache.admits cap r).map fun qt => (CacheKey.fromQuestion qt.1, qt.2) := by
  unfold AbstractCache.accepted Cache.admits
  rw [← effectiveTtl_eq]
  match r.questions with
  | [] => rfl
  | q :: q' :: qs => rfl
  | [q] =>
      cases Cache.effectiveTtl cap r with
      | none => by_cases htc : r.header.isTruncated <;> simp [htc]
      | some ttl =>
          have hpos : 0 < ttl ↔ ttl ≠ 0 := UInt32.pos_iff_ne_zero
          by_cases htc : r.header.flags &&& Header.TC = 0 <;> by_cases hz : ttl = 0 <;>
            simp [Header.isTruncated, htc, hz, hpos]

namespace Cache

/-! ## Reading the cache -/

/-- A probe for `q` goes to the shard where the key of `q` belongs, and comes across what is filed
under that key there. -/
def Leads (c : Cache) (q : Question) : Prop :=
  c.shardIndex (Lookup.fromQuestion q).hash = c.shardIndex (CacheKey.fromQuestion q).hash ∧
    c.buildHasher.finds (c.shardIndex (CacheKey.fromQuestion q).hash)
      (Lookup.fromQuestion q).hash (CacheKey.fromQuestion q).hash = true

/-- It does for every name of ordinary length. -/
theorem leads_of_len_le (c : Cache) {q : Question} (hq : q.name.len ≤ maxLookupName) :
    c.Leads q := by
  unfold Leads
  rw [hash_fromQuestion hq]
  exact ⟨rfl, c.buildHasher.finds_self _ _⟩

/-- Only the hashers matter. -/
theorem leads_congr {c c' : Cache} (h : c.buildHasher = c'.buildHasher) (q : Question) :
    c.Leads q ↔ c'.Leads q := by
  obtain ⟨shards, buildHasher, capacity, len, maxNegativeTtl⟩ := c
  cases h
  exact Iff.rfl

/-- **What a probe finds** is what is filed under the key of its question, if it is led there. -/
theorem probe_eq_some_iff {c : Cache} (h : c.Placed) {q : Question} {e : CacheEntry} :
    c.probe (Lookup.fromQuestion q) = some e ↔
      c.Leads q ∧ c.lookup (CacheKey.fromQuestion q) = some e := by
  -- whatever is found is equivalent to the lookup, and so is filed under that key and no other
  have hfound : ∀ {e'}, c.probe (Lookup.fromQuestion q) = some e' →
      c.Leads q ∧ c.lookup (CacheKey.fromQuestion q) = some e' := by
    intro e' hp
    obtain ⟨⟨k, e''⟩, hfind, rfl⟩ := Option.map_eq_some_iff.mp hp
    have hmem := Table.mem_entries_iff.mp (List.mem_of_find?_eq_some hfind)
    have hpred := List.find?_some hfind
    simp only [Bool.and_eq_true, equivalent_iff] at hpred
    obtain ⟨hfinds, rfl⟩ := hpred
    have hshard := h _ _ _ hmem
    rw [hshard] at hmem hfinds
    exact ⟨⟨hshard, hfinds⟩, hmem⟩
  refine ⟨hfound, fun hparts => ?_⟩
  obtain ⟨⟨hshard, hfinds⟩, hl⟩ := hparts
  have hsome : (c.probe (Lookup.fromQuestion q)).isSome := by
    unfold probe
    rw [Option.isSome_map, List.find?_isSome]
    refine ⟨⟨CacheKey.fromQuestion q, e⟩, ?_, ?_⟩
    · rw [Table.mem_entries_iff, hshard]
      exact hl
    · rw [hshard, hfinds, Bool.true_and]
      exact (equivalent_iff q _).mpr rfl
  obtain ⟨e', he'⟩ := Option.isSome_iff_exists.mp hsome
  rw [he', ← hl, (hfound he').2]

theorem lookup_of_probe {c : Cache} (h : c.Placed) {q : Question} {e : CacheEntry}
    (hp : c.probe (Lookup.fromQuestion q) = some e) :
    c.lookup (CacheKey.fromQuestion q) = some e :=
  ((probe_eq_some_iff h).mp hp).2

/-- What is filed under the key of a question with a name of ordinary length is found. -/
theorem probe_of_lookup {c : Cache} {q : Question} (hq : q.name.len ≤ maxLookupName)
    {e : CacheEntry} (h : c.Placed) (hl : c.lookup (CacheKey.fromQuestion q) = some e) :
    c.probe (Lookup.fromQuestion q) = some e :=
  (probe_eq_some_iff h).mpr ⟨c.leads_of_len_le hq, hl⟩

theorem get_eq_some_iff {c : Cache} {q : Question} {now : Nat} {r : Message} :
    c.get q now = some r ↔ ∃ e, c.probe (Lookup.fromQuestion q) = some e ∧ now < e.expiresAt ∧
      r = { e.response with
        answers := rewriteTtls e.response.answers (elapsedSecs e now)
        authority := rewriteTtls e.response.authority (elapsedSecs e now)
        additional := rewriteTtls e.response.additional (elapsedSecs e now) } := by
  unfold get
  cases c.probe (Lookup.fromQuestion q) with
  | none => simp
  | some e =>
      by_cases hexp : e.expiresAt ≤ now
      · simp [hexp, Nat.not_lt.mpr hexp]
      · simp [hexp, Nat.lt_of_not_le hexp, eq_comm]

/-! ## Ageing -/

theorem toNat_elapsedSecs {e : CacheEntry} {now : Nat}
    (h : (now - e.insertedAt) / nanosPerSec < 2 ^ 32) :
    (elapsedSecs e now).toNat = (now - e.insertedAt) / nanosPerSec := by
  rw [elapsedSecs, UInt32.toNat_ofNat', Nat.min_eq_left (by omega)]
  exact Nat.mod_eq_of_lt h

theorem recordAged_rewriteTtls (records : List ResourceRecord) (elapsed : UInt32) :
    List.Forall₂ (AbstractCache.RecordAged elapsed.toNat) records (rewriteTtls records elapsed) := by
  unfold rewriteTtls
  rw [List.forall₂_map_right_iff, List.forall₂_same]
  intro rr _
  refine ⟨rfl, rfl, rfl, fun _ => ?_⟩
  dsimp only
  split
  · rename_i hle
    have : rr.ttl.toNat ≤ elapsed.toNat := hle
    show (0 : UInt32).toNat = _
    rw [UInt32.toNat_zero]
    omega
  · rename_i hle
    rw [UInt32.toNat_sub_of_le _ _ (UInt32.le_of_lt (UInt32.not_le.mp hle))]

/-! ## The simulation -/

/-- The tables, as a timed map. -/
def view (c : Cache) : TimedMap CacheKey Message := fun k =>
  (c.lookup k).map fun e => ⟨e.response, e.insertedAt, e.expiresAt⟩

theorem view_eq_some_iff {c : Cache} {k : CacheKey} {t : TimedMap.Entry Message} :
    c.view k = some t ↔ ∃ e, c.lookup k = some e ∧ t = ⟨e.response, e.insertedAt, e.expiresAt⟩ := by
  unfold view
  rw [Option.map_eq_some_iff]
  exact exists_congr fun e => and_congr_right fun _ => eq_comm

theorem view_store (c : Cache) (key : CacheKey) (e : CacheEntry) :
    (c.store key e).view = c.view.put key ⟨e.response, e.insertedAt, e.expiresAt⟩ := by
  funext k
  unfold view TimedMap.put
  rw [lookup_store]
  by_cases hk : k = key
  · rw [hk, if_pos rfl, Function.update_self]
    rfl
  · rw [if_neg hk, Function.update_of_ne hk]

theorem below_view_of_lookup {c c' : Cache}
    (h : ∀ k e, c'.lookup k = some e → c.lookup k = some e) : TimedMap.Below c'.view c.view := by
  intro k t ht
  obtain ⟨e, he, rfl⟩ := view_eq_some_iff.mp ht
  exact view_eq_some_iff.mpr ⟨e, h k e he, rfl⟩

theorem below_view_drop {c : Cache} (h : c.Placed) {now : Nat} {i : Fin numShards} {k : CacheKey}
    (hv : Victim c now i k) : TimedMap.Below (c.drop i k).view c.view := by
  refine below_view_of_lookup fun k' e he => ?_
  rw [lookup_drop h hv] at he
  split at he
  · cases he
  · exact he

/-- The relation between the tables and the map. -/
structure Simulates (cap : UInt32) (c : Cache) (m : TimedMap CacheKey Message) : Prop where
  placed : c.Placed
  counted : c.Counted
  maxNegativeTtl : c.maxNegativeTtl = cap
  /-- The tables hold nothing the map does not hold. -/
  below : TimedMap.Below c.view m
  /-- Lifetimes are a number of seconds that fits 32 bits. -/
  lifetime : ∀ k t, m k = some t → t.expires < t.since + 2 ^ 32 * nanosPerSec

theorem simulates_new (hashing : Hashing) (capacity : UInt64) (cap : UInt32) :
    Simulates cap (new hashing capacity cap) TimedMap.empty := by
  refine ⟨placed_new _ _ _, by rw [Counted, total_new]; rfl, rfl, ?_, by simp [TimedMap.empty]⟩
  intro k t ht
  obtain ⟨e, he, -⟩ := view_eq_some_iff.mp ht
  rw [lookup_new] at he
  cases he

theorem lifetime_put {m : TimedMap CacheKey Message} {k : CacheKey} {r : Message} {now : Nat}
    {ttl : UInt32} (h : ∀ k t, m k = some t → t.expires < t.since + 2 ^ 32 * nanosPerSec) :
    ∀ k' t, m.put k ⟨r, now, now + ttl.toNat * nanosPerSec⟩ k' = some t →
      t.expires < t.since + 2 ^ 32 * nanosPerSec := by
  intro k' t ht
  by_cases hk : k' = k
  · subst hk
    simp only [TimedMap.put, Function.update_self, Option.some.injEq] at ht
    subst ht
    have := ttl.toNat_lt
    have hn : 0 < nanosPerSec := by decide
    exact Nat.add_lt_add_left (Nat.mul_lt_mul_of_pos_right this hn) now
  · rw [TimedMap.put, Function.update_of_ne hk] at ht
    exact h k' t ht

/-- One call keeps the tables below the map. -/
theorem Simulates.step {cap : UInt32} {c : Cache} {m : TimedMap CacheKey Message}
    (h : Simulates cap c m) (op : Nat × Op) :
    Simulates cap (c.step op) (AbstractCache.step cap m op) := by
  obtain ⟨now, op⟩ := op
  cases op with
  | get q => exact h
  | evictExpired =>
      refine ⟨h.placed.evictExpired now, (counted_evictExpired h.counted now).1,
        (sameConfig_evictExpired c now).2.1.trans h.maxNegativeTtl, ?_, h.lifetime⟩
      exact h.below.trans (below_view_of_lookup fun k e he =>
        ((lookup_evictExpired_eq_some_iff h.placed now k e).mp he).1)
  | insert order response =>
      have hcfg := (sameConfig_insert c order response now).2.1.trans h.maxNegativeTtl
      show Simulates cap (c.insert order response now) _
      simp only [AbstractCache.step]
      rcases insert_cases c order response now with
        ⟨hadm, hrun⟩ | ⟨q, ttl, room, hadm, hrun, hroom⟩
      · rw [h.maxNegativeTtl] at hadm
        rw [accepted_eq, hadm, hrun]
        exact h
      · rw [h.maxNegativeTtl] at hadm
        rw [accepted_eq, hadm]
        simp only [Option.map_some]
        -- making room only forgets, which is always below
        have hroom' : room.Placed ∧ room.Counted ∧ TimedMap.Below room.view c.view := by
          rcases hroom with ⟨-, rfl⟩ | ⟨-, -, rfl⟩ | ⟨-, i, k, hv, rfl⟩
          · exact ⟨h.placed, h.counted, fun _ _ ht => ht⟩
          · exact ⟨h.placed, h.counted, fun _ _ ht => ht⟩
          · exact ⟨h.placed.drop i k, h.counted.drop hv, below_view_drop h.placed hv⟩
        obtain ⟨hplaced, hcounted, hbelow⟩ := hroom'
        refine ⟨?_, ?_, hcfg, ?_, lifetime_put h.lifetime⟩
        · rw [hrun]
          exact hplaced.store _ _
        · rw [hrun]
          exact hcounted.store _ _
        · rw [hrun, view_store]
          exact (h.below.trans hbelow).put _ _

theorem Simulates.run {cap : UInt32} {c : Cache} {m : TimedMap CacheKey Message}
    (h : Simulates cap c m) (ops : List (Nat × Op)) :
    Simulates cap (c.run ops) (ops.foldl (AbstractCache.step cap) m) := by
  induction ops generalizing c m with
  | nil => exact h
  | cons op ops ih => exact ih (h.step op)

/-- There are fewer entries than the capacity allows. -/
def HasRoom (c : Cache) : Prop := c.total < c.capacity.toNat

/-- One call of a cache with room keeps the map covered. -/
theorem covers_step {cap : UInt32} {c : Cache} {m : TimedMap CacheKey Message} {t now : Nat}
    {op : Op} (h : Simulates cap c m) (hroom : c.HasRoom) (hcov : TimedMap.Covers t c.view m)
    (ht : t ≤ now) :
    TimedMap.Covers now (c.step (now, op)).view (AbstractCache.step cap m (now, op)) := by
  have hcov := hcov.later ht
  cases op with
  | get q => exact hcov
  | evictExpired =>
      refine hcov.reap fun k t ht hlt => ?_
      obtain ⟨e, he, rfl⟩ := view_eq_some_iff.mp ht
      exact view_eq_some_iff.mpr
        ⟨e, (lookup_evictExpired_eq_some_iff h.placed now k e).mpr ⟨he, hlt⟩, rfl⟩
  | insert order response =>
      -- the counter is right, so having room is what `insert` sees
      have hlen : c.len < c.capacity := by
        show c.len.toNat < c.capacity.toNat
        rw [h.counted.toNat_len (Nat.le_of_lt hroom)]
        exact hroom
      show TimedMap.Covers now (c.insert order response now).view _
      simp only [AbstractCache.step]
      rcases insert_cases c order response now with
        ⟨hadm, hrun⟩ | ⟨q, ttl, room, hadm, hrun, hroom⟩
      · rw [h.maxNegativeTtl] at hadm
        rw [accepted_eq, hadm, hrun]
        exact hcov
      · rw [h.maxNegativeTtl] at hadm
        rw [accepted_eq, hadm, hrun, view_store]
        -- nothing was evicted: the counter is below the capacity
        rcases hroom with ⟨-, rfl⟩ | ⟨hle, -⟩ | ⟨hle, -⟩
        · exact hcov.put _ _
        · exact absurd hlen (UInt64.not_lt.mpr hle)
        · exact absurd hlen (UInt64.not_lt.mpr hle)

/-- A whole run of a cache that never fills up keeps the map covered. -/
theorem covers_run {cap : UInt32} {c : Cache} {m : TimedMap CacheKey Message} {t now : Nat}
    {ops : List (Nat × Op)} (h : Simulates cap c m) (hcov : TimedMap.Covers t c.view m)
    (hclock : (t :: ops.map Prod.fst ++ [now]).Pairwise (· ≤ ·))
    (hroom : ∀ pre, pre <+: ops → (c.run pre).HasRoom) :
    TimedMap.Covers now (c.run ops).view (ops.foldl (AbstractCache.step cap) m) := by
  induction ops generalizing c m t with
  | nil =>
      have : t ≤ now := by simpa using hclock
      exact hcov.later this
  | cons op ops ih =>
      obtain ⟨t', op⟩ := op
      rw [List.map_cons, List.cons_append, List.pairwise_cons] at hclock
      have ht : t ≤ t' := hclock.1 t' List.mem_cons_self
      have hroom0 : c.HasRoom := hroom [] List.nil_prefix
      refine ih (h.step (t', op)) (covers_step h hroom0 hcov ht) hclock.2 fun pre hpre => ?_
      exact hroom ((t', op) :: pre) (List.cons_prefix_cons.mpr ⟨rfl, hpre⟩)

/-- **A hit is the map's response, aged.** -/
theorem Simulates.get {cap : UInt32} {c : Cache} {m : TimedMap CacheKey Message}
    (h : Simulates cap c m) {q : Question} {now : Nat} {r : Message}
    (hget : c.get q now = some r) :
    ∃ t, m (CacheKey.fromQuestion q) = some t ∧ now < t.expires ∧
      AbstractCache.Aged ((now - t.since) / nanosPerSec) t.value r := by
  obtain ⟨e, hprobe, hexp, rfl⟩ := get_eq_some_iff.mp hget
  have hm := h.below _ _ (view_eq_some_iff.mpr ⟨e, lookup_of_probe h.placed hprobe, rfl⟩)
  -- an unexpired entry is younger than its lifetime, so the seconds do not saturate
  have hlife := h.lifetime _ _ hm
  have hsecs : (now - e.insertedAt) / nanosPerSec < 2 ^ 32 := by
    have hn : 0 < nanosPerSec := by decide
    rw [Nat.div_lt_iff_lt_mul hn]
    dsimp only at hlife
    omega
  refine ⟨_, hm, hexp, ?_⟩
  dsimp only
  rw [← toNat_elapsedSecs hsecs]
  exact ⟨rfl, rfl, recordAged_rewriteTtls _ _, recordAged_rewriteTtls _ _,
    recordAged_rewriteTtls _ _⟩

/-- A lookup that is led to its key answers exactly when the map it refines holds something. -/
theorem Simulates.get_isSome_iff {cap : UInt32} {c : Cache} {m : TimedMap CacheKey Message}
    (h : Simulates cap c m) {q : Question} {now : Nat} (hcov : TimedMap.Covers now c.view m)
    (hq : c.Leads q) :
    (c.get q now).isSome ↔ ∃ t, m (CacheKey.fromQuestion q) = some t ∧ now < t.expires := by
  constructor
  · intro hsome
    obtain ⟨r, hget⟩ := Option.isSome_iff_exists.mp hsome
    obtain ⟨t, hm, hlt, -⟩ := h.get hget
    exact ⟨t, hm, hlt⟩
  · intro hparts
    obtain ⟨t, hm, hlt⟩ := hparts
    obtain ⟨e, he, rfl⟩ := view_eq_some_iff.mp (hcov _ _ hm hlt)
    exact Option.isSome_iff_exists.mpr
      ⟨_, get_eq_some_iff.mpr ⟨e, (probe_eq_some_iff h.placed).mpr ⟨hq, he⟩, hlt, rfl⟩⟩

/-- One that is not led there answers nothing. -/
theorem get_eq_none_of_not_leads {c : Cache} (h : c.Placed) {q : Question} (hq : ¬ c.Leads q)
    (now : Nat) : c.get q now = none := by
  rw [Option.eq_none_iff_forall_ne_some]
  intro r hget
  obtain ⟨e, hprobe, -⟩ := get_eq_some_iff.mp hget
  exact hq ((probe_eq_some_iff h).mp hprobe).1

/--
**The cache refines the timed map, but for names that are too long.** Whatever calls were made, at
whatever times: a hit is the unexpired response the map holds for the question, aged by the seconds
that have passed. Where the cache never filled up, it answers exactly when the map holds one, if
and only if the name fits the buffer it is lowercased into, or its hashes lead to its key all the
same, or the map holds nothing for it.
-/
theorem cache_refines (hashing : Hashing) (capacity : UInt64) (cap : UInt32)
    (ops : List (Nat × Op)) (q : Question) (now : Nat)
    (hclock : (ops.map Prod.fst ++ [now]).Pairwise (· ≤ ·)) :
    let c := (new hashing capacity cap).run ops
    let m := AbstractCache.run cap ops
    (∀ r, c.get q now = some r → ∃ t, m (CacheKey.fromQuestion q) = some t ∧ now < t.expires ∧
      AbstractCache.Aged ((now - t.since) / nanosPerSec) t.value r) ∧
    ((∀ pre, pre <+: ops → ((new hashing capacity cap).run pre).total < capacity.toNat) →
      (((c.get q now).isSome ↔ ∃ t, m (CacheKey.fromQuestion q) = some t ∧ now < t.expires) ↔
        (q.name.len ≤ maxLookupName ∨ (new hashing capacity cap).Leads q ∨
          ∀ t, m (CacheKey.fromQuestion q) = some t → t.expires ≤ now))) := by
  intro c m
  have hsim : Simulates cap c m := (simulates_new hashing capacity cap).run ops
  have hleads : c.Leads q ↔ (new hashing capacity cap).Leads q :=
    leads_congr (sameConfig_run _ ops).2.2 q
  refine ⟨fun r hget => hsim.get hget, fun hroom => ?_⟩
  have hcov : TimedMap.Covers now c.view m := by
    refine covers_run (t := 0) (simulates_new hashing capacity cap) TimedMap.covers_empty ?_ ?_
    · rw [List.cons_append, List.pairwise_cons]
      exact ⟨fun _ _ => Nat.zero_le _, hclock⟩
    · intro pre hpre
      unfold HasRoom
      rw [(sameConfig_run _ pre).1]
      exact hroom pre hpre
  by_cases hq : c.Leads q
  · exact iff_of_true (hsim.get_isSome_iff hcov hq) (.inr (.inl (hleads.mp hq)))
  · -- such a lookup always misses, which is right only where there is nothing to find
    rw [get_eq_none_of_not_leads hsim.placed hq now]
    constructor
    · intro hiff
      refine .inr (.inr fun t ht => Nat.le_of_not_lt fun hlt => ?_)
      exact absurd (hiff.mpr ⟨t, ht, hlt⟩) (by simp)
    · intro hcond
      rcases hcond with hlen | hlead | hnothing
      · exact absurd (c.leads_of_len_le hlen) hq
      · exact absurd (hleads.mpr hlead) hq
      · refine iff_of_false (by simp) fun hparts => ?_
        obtain ⟨t, ht, hlt⟩ := hparts
        exact absurd (hnothing t ht) (Nat.not_le.mpr hlt)

/-- The question for the addresses of `name`. -/
def questionFor (name : Str) : Question := { name, qtype := .a, qclass := Class.IN }

theorem admits_answerFor (name : Str) :
    admits 300 (answerFor name 60) = some (questionFor name, 60) := by
  let header : Header := { id := 7, flags := Header.QR, qdCount := 1, anCount := 1 }
  have hrcode : header.rcode = .ok .noError := by decide
  have hwhole : header.isTruncated = false := by decide
  simp [admits, effectiveTtl, answerFor, questionFor, header, hrcode, hwhole]

/-- An address for `name` is stored at the beginning of time. -/
def storeAnswer (name : Str) : List (Nat × Op) :=
  [(0, .insert (fun _ => .asStored) (answerFor name 60))]

/-- A cache for ten entries has room for it, and for more. -/
theorem storeAnswer_hasRoom (name : Str) : ∀ pre, pre <+: storeAnswer name →
    ((new plainHashing 10 300).run pre).total < (10 : UInt64).toNat := by
  intro pre hpre
  rcases List.prefix_cons_iff.mp hpre with rfl | ⟨pre', rfl, hpre'⟩
  · show (new plainHashing 10 300).total < _
    rw [total_new]
    decide
  · rw [List.prefix_nil.mp hpre']
    have hle := total_insert_le (new plainHashing 10 300) (fun _ => .asStored) (answerFor name 60) 0
    rw [total_new] at hle
    exact Nat.lt_of_le_of_lt hle (by decide)

/-- The map holds it for a minute. -/
theorem storeAnswer_held (name : Str) :
    AbstractCache.run 300 (storeAnswer name) (CacheKey.fromQuestion (questionFor name)) =
      some ⟨answerFor name 60, 0, 60000000000⟩ := by
  have hacc : AbstractCache.accepted 300 (answerFor name 60) =
      some (CacheKey.fromQuestion (questionFor name), 60) := by
    rw [accepted_eq, admits_answerFor]
    rfl
  simp only [AbstractCache.run, storeAnswer, List.foldl_cons, List.foldl_nil, AbstractCache.step,
    hacc, TimedMap.put, Function.update_self]
  rfl

/-- An address is still there five seconds after it was stored for a minute. -/
theorem cache_refines_hit :
    (((new plainHashing 10 300).run (storeAnswer Str.empty)).get
      (questionFor Str.empty) 5000000000).isSome := by
  obtain ⟨-, h⟩ := cache_refines plainHashing 10 300 (storeAnswer Str.empty)
    (questionFor Str.empty) 5000000000 (by decide)
  exact ((h (storeAnswer_hasRoom _)).mpr (.inl (by decide))).mpr
    ⟨_, storeAnswer_held _, by decide⟩

/-- A name of 254 letters, one more than the buffer holds. -/
def longName : Str := ⟨List.replicate 254 97, by decide +kernel⟩

/-- It is not there five seconds after it was stored for a minute, in a cache that has room: the
lookup feeds the hasher one write more than the key does. -/
theorem longName_missed :
    ((storeAnswer longName).map Prod.fst ++ [5000000000]).Pairwise (· ≤ ·) ∧
    (∀ pre, pre <+: storeAnswer longName →
      ((new plainHashing 10 300).run pre).total < (10 : UInt64).toNat) ∧
    (∃ t, AbstractCache.run 300 (storeAnswer longName)
        (CacheKey.fromQuestion (questionFor longName)) = some t ∧ 5000000000 < t.expires) ∧
    ((new plainHashing 10 300).run (storeAnswer longName)).get
      (questionFor longName) 5000000000 = none := by
  refine ⟨by decide, storeAnswer_hasRoom _, ⟨_, storeAnswer_held _, by decide⟩, ?_⟩
  have hplaced := ((simulates_new plainHashing 10 300).run (storeAnswer longName)).placed
  refine get_eq_none_of_not_leads hplaced (fun hleads => ?_) _
  have hwrites := (leads_congr (sameConfig_run _ (storeAnswer longName)).2.2 _).mp hleads
  exact absurd hwrites.2 (by decide +kernel)

/-! ## The two kinds of keys -/

/--
**A lookup stands for the key of its question.** It is equivalent to the key of another question
exactly if their keys are the same, it feeds every hasher what its own key does, and so it is led
to the same shard of every cache and finds there what is filed under the key.
-/
theorem lookup_agrees (q : Question) (hq : q.name.len ≤ maxLookupName) :
    (∀ k : Question, (Lookup.fromQuestion q).equivalent (CacheKey.fromQuestion k) = true ↔
      CacheKey.fromQuestion q = CacheKey.fromQuestion k) ∧
    (Lookup.fromQuestion q).hash = (CacheKey.fromQuestion q).hash ∧
    (∀ c : Cache, c.shardIndex (Lookup.fromQuestion q).hash =
      c.shardIndex (CacheKey.fromQuestion q).hash) ∧
    ∀ hashing capacity cap ops e,
      ((new hashing capacity cap).run ops).probe (Lookup.fromQuestion q) = some e ↔
        ((new hashing capacity cap).run ops).lookup (CacheKey.fromQuestion q) = some e := by
  have hhash := hash_fromQuestion hq
  refine ⟨fun k => equivalent_iff q _, hhash, fun c => by rw [hhash], ?_⟩
  intro hashing capacity cap ops e
  have hplaced := ((simulates_new hashing capacity cap).run ops).placed
  exact ⟨lookup_of_probe hplaced, probe_of_lookup hq hplaced⟩

/-- A lookup of `a` hashes like its key, and is not equivalent to the key of the root. -/
theorem lookup_agrees_letter :
    let q : Question := { name := Str.a, qtype := .a, qclass := Class.IN }
    (Lookup.fromQuestion q).hash = (CacheKey.fromQuestion q).hash ∧
      (Lookup.fromQuestion q).equivalent
        (CacheKey.fromQuestion { q with name := Str.empty }) = false := by
  intro q
  obtain ⟨hequiv, hhash, -⟩ := lookup_agrees q (by decide)
  refine ⟨hhash, Bool.eq_false_iff.mpr fun h => ?_⟩
  have hkeys := congrArg CacheKey.name ((hequiv { q with name := Str.empty }).mp h)
  exact absurd hkeys (by decide)

end Cache

end Dnser
