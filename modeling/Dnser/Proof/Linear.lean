import Dnser.Proof.CacheRefines
import Dnser.Proof.Progress

/-!
# Insertions take effect one after the other

`cache_refines` is about calls that are made one after the other. Here the calls overlap. Each
insertion still takes effect at one moment of its own, the step in which it puts its entry into the
shard, and the cache is right about the timed map to which the insertions are applied in the order
of these moments. Everything else a thread does forgets entries, which is always sound.

To say so, the threads are watched: `Traced` keeps what they were asked to insert, and what has
taken effect. An insertion that has come to its end took effect exactly once, between its call and
its end, so the order never contradicts the one in which calls were made and returned.
-/

namespace Dnser.Cache

open Utf8 (Str)
open Steps (Reachable Run)

/-! ## What a step leaves in the tables -/

namespace Phase

/-- The insertion that has yet to take effect. -/
def insertion : Phase → Option Insertion
  | lock ins | check ins | evict ins | subHeld ins | scan ins _ | subFree ins | relock ins
  | put ins => some ins
  | _ => none

end Phase

theorem lookup_evictOne {order : ShardOrder} {shard shard' : Shard} {now : Nat} {evicted : Bool}
    (h : evictOne order shard now = (evicted, shard')) {k : CacheKey} {e : CacheEntry}
    (he : shard'.lookup k = some e) : shard.lookup k = some e := by
  rcases evictOne_cases order shard now with ⟨-, hone⟩ | ⟨v, _, -, hone, -⟩
  · rw [hone] at h
    cases h
    exact he
  · rw [hone] at h
    cases h
    exact lookup_erase_eq_some he

/-- The cache after a step forgets entries, or has a new one. -/
inductive ViewEffect (c : Cache) (p : Phase) (c' : Cache) (p' : Phase) : Prop where
  | forgets : (∀ i k e, (c'.shards i).lookup k = some e → (c.shards i).lookup k = some e) →
      p'.insertion = p.insertion → (∀ ins, p ≠ .put ins) → ViewEffect c p c' p'
  | puts (ins : Insertion) : p = .put ins →
      c'.shards = Function.update c.shards ins.shard
        ((c.shards ins.shard).insert ins.key ins.entry) →
      p'.insertion = none → ViewEffect c p c' p'

/-- One shard is exchanged for a part of it. -/
theorem forgets_update {c c' : Cache} {i : Fin numShards} {shard : Shard}
    (h : ∀ k e, shard.lookup k = some e → (c.shards i).lookup k = some e)
    (hc' : c'.shards = Function.update c.shards i shard) (j : Fin numShards) (k : CacheKey)
    (e : CacheEntry) (he : (c'.shards j).lookup k = some e) : (c.shards j).lookup k = some e := by
  rw [hc'] at he
  by_cases hj : j = i
  · rw [hj, Function.update_self] at he
    rw [hj]
    exact h k e he
  · rwa [Function.update_of_ne hj] at he

/-- **Every step forgets entries, or puts one in place.** -/
theorem advance_view (c : Cache) (p : Phase) :
    ViewEffect c p (c.advance p).1 (c.advance p).2 := by
  cases p with
  | idle => exact .forgets (fun _ _ _ h => h) rfl (by simp)
  | lock ins => exact .forgets (fun _ _ _ h => h) rfl (by simp)
  | check ins =>
      refine .forgets (fun _ _ _ h => h) ?_ (by simp)
      simp only [advance]
      split <;> rfl
  | evict ins =>
      cases hone : evictOne (ins.order ins.shard) (c.shards ins.shard) ins.now with
      | mk evicted shard =>
          cases evicted with
          | true =>
              refine .forgets (forgets_update (i := ins.shard)
                (fun k e he => lookup_evictOne hone he) ?_) ?_ (by simp)
              · simp [advance, hone]
              · simp [advance, hone, Phase.insertion]
          | false =>
              refine .forgets ?_ ?_ (by simp)
              · simp [advance, hone]
              · simp [advance, hone, Phase.insertion]
  | subHeld ins => exact .forgets (fun _ _ _ h => h) rfl (by simp)
  | scan ins is =>
      cases is with
      | nil => exact .forgets (fun _ _ _ h => h) rfl (by simp)
      | cons i is =>
          by_cases hi : i = ins.shard
          · refine .forgets ?_ ?_ (by simp)
            · simp [advance, hi]
            · simp [advance, hi, Phase.insertion]
          · cases hone : evictOne (ins.order i) (c.shards i) ins.now with
            | mk evicted shard =>
                cases evicted with
                | true =>
                    refine .forgets (forgets_update (i := i)
                      (fun k e he => lookup_evictOne hone he) ?_) ?_ (by simp)
                    · simp [advance, hi, hone]
                    · simp [advance, hi, hone, Phase.insertion]
                | false =>
                    refine .forgets ?_ ?_ (by simp)
                    · simp [advance, hi, hone]
                    · simp [advance, hi, hone, Phase.insertion]
  | subFree ins => exact .forgets (fun _ _ _ h => h) rfl (by simp)
  | relock ins => exact .forgets (fun _ _ _ h => h) rfl (by simp)
  | put ins =>
      refine .puts ins rfl rfl ?_
      simp only [advance]
      split <;> rfl
  | add => exact .forgets (fun _ _ _ h => h) rfl (by simp)
  | reap now is =>
      cases is with
      | nil => exact .forgets (fun _ _ _ h => h) rfl (by simp)
      | cons i is =>
          exact .forgets (forgets_update (i := i)
            (fun k e he => (Table.lookup_retain_eq_some_iff.mp he).1) rfl) rfl (by simp)
  | reapSub now i removed is => exact .forgets (fun _ _ _ h => h) rfl (by simp)

/-- The configuration stays as it is. -/
theorem config_advance (c : Cache) (p : Phase) :
    (c.advance p).1.buildHasher = c.buildHasher ∧
      (c.advance p).1.maxNegativeTtl = c.maxNegativeTtl := by
  unfold advance
  split <;> first
    | exact ⟨rfl, rfl⟩
    | (dsimp only; split <;> first | exact ⟨rfl, rfl⟩ | (split <;> exact ⟨rfl, rfl⟩))

theorem shardIndex_eq {c c' : Cache} (h : c'.buildHasher = c.buildHasher) (ws : List HashWrite) :
    c'.shardIndex ws = c.shardIndex ws := by
  simp only [shardIndex, h]

/-! ## Watching the threads -/

/-- Threads, with the insertions they were asked for, and those that took effect, in order. -/
structure Traced (n : Nat) where
  shared : Shared n
  called : List (Fin n × Insertion) := []
  effective : List (Fin n × Insertion) := []

namespace Traced

variable {n : Nat}

/-- The insertion that an action begins, as it finds the threads. -/
def begun (s' : Shared n) : Act n → List (Fin n × Insertion)
  | .insert t _ _ _ => (s'.threads t).insertion.toList.map (t, ·)
  | .evictExpired _ _ => []
  | .next _ => []

/-- The insertion that takes effect with it. -/
def committed (s : Shared n) : Act n → List (Fin n × Insertion)
  | .next t =>
      match s.threads t with
      | .put ins => [(t, ins)]
      | _ => []
  | .insert _ _ _ _ => []
  | .evictExpired _ _ => []

/-- The state after an action, if it can happen. -/
def step (s : Traced n) (a : Act n) : Option (Traced n) :=
  (s.shared.step a).map fun s' =>
    ⟨s', s.called ++ begun s' a, s.effective ++ committed s.shared a⟩

/-- The step relation. -/
def Step (s : Traced n) (a : Act n) (s' : Traced n) : Prop := s.step a = some s'

/-- A new cache, and idle threads. -/
def init (n : Nat) (hashing : Hashing) (capacity : UInt64) (cap : UInt32) : Traced n :=
  { shared := Shared.init n hashing capacity cap }

/-- Insertions, as calls that are made one after the other. -/
def ops (insertions : List (Fin n × Insertion)) : List (Nat × Op) :=
  insertions.map fun x => (x.2.now, .insert x.2.order x.2.entry.response)

/-- Those of one thread. -/
def of (t : Fin n) (insertions : List (Fin n × Insertion)) : List Insertion :=
  (insertions.filter fun x => x.1 = t).map Prod.snd

theorem of_append (t : Fin n) (l l' : List (Fin n × Insertion)) :
    of t (l ++ l') = of t l ++ of t l' := by
  simp [of]

theorem of_singleton (t u : Fin n) (ins : Insertion) :
    of t [(u, ins)] = if u = t then [ins] else [] := by
  by_cases hu : u = t <;> simp [of, hu]

end Traced

/-- What `insert` has worked out about a response before it takes a lock. -/
def Insertion.Admitted (c : Cache) (ins : Insertion) : Prop :=
  ∃ ttl, AbstractCache.accepted c.maxNegativeTtl ins.entry.response = some (ins.key, ttl) ∧
    ins.entry = newEntry ins.entry.response ins.now ttl ∧ ins.shard = c.shardIndex ins.key.hash

/-- The map after an insertion took effect. -/
theorem Insertion.Admitted.step {c : Cache} {ins : Insertion} (h : ins.Admitted c)
    (m : TimedMap CacheKey Message) :
    AbstractCache.step c.maxNegativeTtl m (ins.now, .insert ins.order ins.entry.response) =
      m.put ins.key ⟨ins.entry.response, ins.entry.insertedAt, ins.entry.expiresAt⟩ := by
  obtain ⟨ttl, haccepted, hentry, -⟩ := h
  rw [AbstractCache.step, haccepted, hentry]
  rfl

namespace Shared

variable {n : Nat} {s s' : Shared n}

/-- What a call of `insert` does. -/
theorem step_insert {t : Fin n} {response : Message} {order : Fin numShards → ShardOrder}
    {now : Nat} (hs : s.Step (.insert t response order now) s') :
    s.threads t = .idle ∧ ∃ ins : Insertion, ins.Admitted s.cache ∧
      ins.entry.response = response ∧ ins.now = now ∧
      s' = ⟨s.cache, Function.update s.threads t (.lock ins)⟩ := by
  unfold Step Shared.step at hs
  dsimp only at hs
  split at hs
  · rename_i question ttl hidle hadmits
    refine ⟨hidle, _, ⟨ttl, ?_, rfl, rfl⟩, rfl, rfl, (Option.some.inj hs).symm⟩
    rw [accepted_eq, hadmits]
    rfl
  · cases hs

/-- What a call of `evict_expired` does. -/
theorem step_evictExpired {t : Fin n} {now : Nat} (hs : s.Step (.evictExpired t now) s') :
    s.threads t = .idle ∧
      s' = ⟨s.cache, Function.update s.threads t (.reap now (List.finRange numShards))⟩ := by
  unfold Step Shared.step at hs
  dsimp only at hs
  split at hs
  · rename_i hidle
    exact ⟨hidle, (Option.some.inj hs).symm⟩
  · cases hs

end Shared

namespace Traced

variable {n : Nat} {cap : UInt32} {s s' : Traced n} {a : Act n}

theorem step_shared (hs : s.Step a s') : s.shared.Step a s'.shared ∧
    s'.called = s.called ++ begun s'.shared a ∧
    s'.effective = s.effective ++ committed s.shared a := by
  obtain ⟨shared, hshared, rfl⟩ := Option.map_eq_some_iff.mp hs
  exact ⟨hshared, rfl, rfl⟩

/-- What holds of every run. -/
structure Inv (cap : UInt32) (s : Traced n) : Prop where
  placed : s.shared.cache.Placed
  maxNegativeTtl : s.shared.cache.maxNegativeTtl = cap
  /-- The tables hold nothing but what took effect last. -/
  below : TimedMap.Below s.shared.cache.view (AbstractCache.run cap (ops s.effective))
  /-- Lifetimes are a number of seconds that fits 32 bits. -/
  lifetime : ∀ k e, AbstractCache.run cap (ops s.effective) k = some e →
    e.expires < e.since + 2 ^ 32 * nanosPerSec
  /-- Threads are about to insert what was admitted. -/
  admitted : ∀ t ins, (s.shared.threads t).insertion = some ins → ins.Admitted s.shared.cache
  /-- A thread's insertions took effect in their order, all but the one it is busy with. -/
  order : ∀ t, of t s.called = of t s.effective ++ (s.shared.threads t).insertion.toList

theorem inv_init (hashing : Hashing) (capacity : UInt64) (cap : UInt32) :
    (init n hashing capacity cap).Inv cap := by
  refine ⟨placed_new _ _ _, rfl, ?_, ?_, ?_, fun t => rfl⟩
  · intro k e he
    obtain ⟨e', he', -⟩ := view_eq_some_iff.mp he
    rw [show (init n hashing capacity cap).shared.cache = new hashing capacity cap from rfl,
      lookup_new] at he'
    cases he'
  · intro k e he
    cases he
  · intro t ins hins
    cases hins

/-- A call begins. Nothing takes effect with it. -/
theorem Inv.call {t : Fin n} {p : Phase} {called : List (Fin n × Insertion)} (h : s.Inv cap)
    (hidle : s.shared.threads t = .idle)
    (hadmitted : ∀ ins, p.insertion = some ins → ins.Admitted s.shared.cache)
    (hcalled : called = s.called ++ p.insertion.toList.map (t, ·)) :
    Inv cap ⟨⟨s.shared.cache, Function.update s.shared.threads t p⟩, called, s.effective⟩ := by
  refine ⟨h.placed, h.maxNegativeTtl, h.below, h.lifetime, ?_, ?_⟩
  · intro u ins hins
    change (Function.update s.shared.threads t p u).insertion = some ins at hins
    by_cases hu : u = t
    · rw [hu, Function.update_self] at hins
      exact hadmitted ins hins
    · rw [Function.update_of_ne hu] at hins
      exact h.admitted u ins hins
  · intro u
    show of u called = of u s.effective ++ (Function.update s.shared.threads t p u).insertion.toList
    have hold := h.order u
    rw [hcalled, of_append, hold]
    by_cases hu : u = t
    · rw [hu, Function.update_self, hidle]
      cases p.insertion with
      | none => simp [Phase.insertion, of]
      | some ins => simp [Phase.insertion, of_singleton]
    · rw [Function.update_of_ne hu]
      cases p.insertion with
      | none => simp [of]
      | some ins => simp [of_singleton, Ne.symm hu]

/-- Where entries are only forgotten, they stay in their places. -/
theorem placed_of_forgets {c c' : Cache} (h : c.Placed) (hhasher : c'.buildHasher = c.buildHasher)
    (hsub : ∀ i k e, (c'.shards i).lookup k = some e → (c.shards i).lookup k = some e) :
    c'.Placed := by
  intro i k e he
  rw [h i k e (hsub i k e he), shardIndex_eq hhasher]

theorem below_of_forgets {c c' : Cache} (hhasher : c'.buildHasher = c.buildHasher)
    (hsub : ∀ i k e, (c'.shards i).lookup k = some e → (c.shards i).lookup k = some e) :
    TimedMap.Below c'.view c.view := by
  refine below_view_of_lookup fun k e he => ?_
  unfold lookup at he ⊢
  rw [shardIndex_eq hhasher] at he
  exact hsub _ k e he

/-- An entry that is put in its shard is put in the map, and in its place. -/
theorem store_of_puts {c c' : Cache} {ins : Insertion} (hhasher : c'.buildHasher = c.buildHasher)
    (hshard : ins.shard = c.shardIndex ins.key.hash)
    (hshards : c'.shards =
      Function.update c.shards ins.shard ((c.shards ins.shard).insert ins.key ins.entry)) :
    c'.view = (c.store ins.key ins.entry).view ∧ ((c.store ins.key ins.entry).Placed → c'.Placed) := by
  have hstore : c'.shards = (c.store ins.key ins.entry).shards := by
    rw [hshards, hshard]
    rfl
  have hindex : ∀ ws, c'.shardIndex ws = (c.store ins.key ins.entry).shardIndex ws :=
    shardIndex_eq (hhasher.trans rfl)
  refine ⟨?_, fun h i k e he => ?_⟩
  · funext k
    simp only [view, lookup, hstore, hindex]
  · rw [hstore] at he
    rw [h i k e he, hindex]

theorem Admitted.congr {c c' : Cache} {ins : Insertion} (h : ins.Admitted c)
    (hhasher : c'.buildHasher = c.buildHasher) (hcap : c'.maxNegativeTtl = c.maxNegativeTtl) :
    ins.Admitted c' := by
  obtain ⟨ttl, haccepted, hentry, hshard⟩ := h
  exact ⟨ttl, by rw [hcap]; exact haccepted, hentry, by rw [shardIndex_eq hhasher]; exact hshard⟩

theorem committed_eq_nil {t : Fin n} (hput : ∀ ins, s.shared.threads t ≠ .put ins) :
    committed s.shared (.next t) = [] := by
  unfold committed
  dsimp only
  split
  · rename_i ins hp
    exact absurd hp (hput ins)
  · rfl

/-- What the tables and the map are when an insertion takes effect. -/
theorem Inv.run_put (h : s.Inv cap) {t : Fin n} {ins : Insertion} {c' : Cache}
    (hhasher : c'.buildHasher = s.shared.cache.buildHasher) (hp : s.shared.threads t = .put ins)
    (hshards : c'.shards = Function.update s.shared.cache.shards ins.shard
      ((s.shared.cache.shards ins.shard).insert ins.key ins.entry)) :
    AbstractCache.run cap (ops (s.effective ++ committed s.shared (.next t))) =
        (AbstractCache.run cap (ops s.effective)).put ins.key
          ⟨ins.entry.response, ins.entry.insertedAt, ins.entry.expiresAt⟩ ∧
      c'.view = (s.shared.cache.store ins.key ins.entry).view ∧ c'.Placed := by
  have hadm : ins.Admitted s.shared.cache := h.admitted t ins (by rw [hp]; rfl)
  obtain ⟨-, -, -, hshard⟩ := id hadm
  obtain ⟨hview, hplaced⟩ := store_of_puts hhasher hshard hshards
  refine ⟨?_, hview, hplaced (h.placed.store _ _)⟩
  have hsome : committed s.shared (.next t) = [(t, ins)] := by simp only [committed, hp]
  rw [hsome, ops, List.map_append, AbstractCache.run, List.foldl_append, ← h.maxNegativeTtl]
  exact hadm.step _

/-- A thread makes its next step, and with it an insertion takes effect or none does. -/
theorem Inv.next (h : s.Inv cap) {t : Fin n} {c' : Cache} {p' : Phase}
    (hhasher : c'.buildHasher = s.shared.cache.buildHasher)
    (hcap : c'.maxNegativeTtl = s.shared.cache.maxNegativeTtl)
    (heffect : ViewEffect s.shared.cache (s.shared.threads t) c' p') :
    Inv cap ⟨⟨c', Function.update s.shared.threads t p'⟩, s.called,
      s.effective ++ committed s.shared (.next t)⟩ := by
  have hadmitted : ∀ u ins, (s.shared.threads u).insertion = some ins → ins.Admitted c' :=
    fun u ins hins => Admitted.congr (h.admitted u ins hins) hhasher hcap
  cases heffect with
  | forgets hsub hins hput =>
      rw [committed_eq_nil hput, List.append_nil]
      refine ⟨placed_of_forgets h.placed hhasher hsub, hcap.trans h.maxNegativeTtl,
        h.below.trans (below_of_forgets hhasher hsub), h.lifetime, fun u ins hu => ?_, fun u => ?_⟩
      · change (Function.update s.shared.threads t p' u).insertion = some ins at hu
        by_cases hut : u = t
        · rw [hut, Function.update_self, hins] at hu
          exact hadmitted t ins hu
        · rw [Function.update_of_ne hut] at hu
          exact hadmitted u ins hu
      · show of u s.called = of u s.effective ++
          (Function.update s.shared.threads t p' u).insertion.toList
        by_cases hut : u = t
        · rw [hut, Function.update_self, hins]
          exact h.order t
        · rw [Function.update_of_ne hut]
          exact h.order u
  | puts ins hp hshards hins =>
      obtain ⟨hrun, hview, hplaced⟩ := h.run_put hhasher hp hshards
      obtain ⟨ttl, -, hentry, -⟩ := h.admitted t ins (by rw [hp]; rfl)
      refine ⟨hplaced, hcap.trans h.maxNegativeTtl, ?_, ?_, fun u ins' hu => ?_, fun u => ?_⟩
      · rw [hrun, hview, view_store]
        exact h.below.put _ _
      · rw [hrun, hentry]
        exact lifetime_put h.lifetime
      · change (Function.update s.shared.threads t p' u).insertion = some ins' at hu
        by_cases hut : u = t
        · rw [hut, Function.update_self, hins] at hu
          cases hu
        · rw [Function.update_of_ne hut] at hu
          exact hadmitted u ins' hu
      · show of u s.called = of u (s.effective ++ committed s.shared (.next t)) ++
          (Function.update s.shared.threads t p' u).insertion.toList
        simp only [committed, hp]
        rw [of_append, of_singleton, h.order u]
        by_cases hut : u = t
        · rw [hut, if_pos rfl, Function.update_self, hins, hp]
          simp [Phase.insertion]
        · rw [if_neg (Ne.symm hut), Function.update_of_ne hut, List.append_nil]

/-- **One step of the threads.** -/
theorem Inv.step (h : s.Inv cap) (hs : s.Step a s') : s'.Inv cap := by
  obtain ⟨hshared, hcalled, heffective⟩ := step_shared hs
  obtain ⟨shared', called', effective'⟩ := s'
  dsimp only at hshared hcalled heffective
  subst hcalled heffective
  cases a with
  | insert t response order now =>
      obtain ⟨hidle, ins, hadm, -, -, rfl⟩ := Shared.step_insert hshared
      rw [committed, List.append_nil]
      exact h.call hidle (fun ins' hins' => (Option.some.inj hins') ▸ hadm)
        (by simp [begun])
  | evictExpired t now =>
      obtain ⟨hidle, rfl⟩ := Shared.step_evictExpired hshared
      rw [committed, List.append_nil]
      exact h.call hidle (fun ins' hins' => by cases hins') (by simp [begun, Phase.insertion])
  | next t =>
      obtain ⟨-, rfl⟩ := Shared.step_next hshared
      obtain ⟨hhasher, hcap⟩ := config_advance s.shared.cache (s.shared.threads t)
      rw [begun, List.append_nil]
      exact h.next hhasher hcap (advance_view _ _)

/-- What took effect stays that way. -/
theorem effective_prefix {ok : Traced n → Act n → Prop} {as : List (Act n)}
    (h : Run Step ok s as s') : s.effective <+: s'.effective := by
  induction h with
  | nil => exact List.prefix_rfl
  | cons _ hs _ ih =>
      obtain ⟨-, -, heffective⟩ := step_shared hs
      exact (heffective ▸ List.prefix_append _ _).trans ih

/-- The counter plays no part in a lookup. -/
theorem get_len (c : Cache) (len : UInt64) (q : Question) (now : Nat) :
    get { c with len } q now = c.get q now := by
  simp only [Cache.get, probe, shardIndex]

/-- A hit is the map's response, aged. -/
theorem Inv.get (h : s.Inv cap) {q : Question} {now : Nat} {r : Message}
    (hget : s.shared.cache.get q now = some r) :
    ∃ e, AbstractCache.run cap (ops s.effective) (CacheKey.fromQuestion q) = some e ∧
      now < e.expires ∧ AbstractCache.Aged ((now - e.since) / nanosPerSec) e.value r := by
  obtain ⟨len, hlen⟩ : ∃ len, len = UInt64.ofNat s.shared.cache.total := ⟨_, rfl⟩
  rw [← get_len _ len] at hget
  have hsim : Simulates cap { s.shared.cache with len } (AbstractCache.run cap (ops s.effective)) :=
    ⟨h.placed, hlen, h.maxNegativeTtl, h.below, h.lifetime⟩
  exact hsim.get hget

/--
**Concurrent insertions are linearizable.** However many threads insert and reap, and however their
steps are interleaved: each thread's insertions took effect once each and in their order, all but
the one it is busy with, and what took effect stays in place. Every hit, at whatever moment, is the
unexpired response of the timed map to which the insertions were applied one after the other in the
order in which they took effect, aged by the seconds that have passed.
-/
theorem insertions_linearize (n : Nat) (hashing : Hashing) (capacity : UInt64) (cap : UInt32)
    (s : Traced n) (h : Reachable (init n hashing capacity cap) Step (fun _ _ => True) s) :
    (∀ t, of t s.called = of t s.effective ++ (s.shared.threads t).insertion.toList) ∧
    (∀ as s', Run Step (fun _ _ => True) s as s' → s.effective <+: s'.effective) ∧
    ∀ q now r, s.shared.cache.get q now = some r →
      ∃ e, AbstractCache.run cap (ops s.effective) (CacheKey.fromQuestion q) = some e ∧
        now < e.expires ∧ AbstractCache.Aged ((now - e.since) / nanosPerSec) e.value r := by
  have hinv : s.Inv cap :=
    h.invariant (inv_init hashing capacity cap) fun _ _ _ h hs => h.step hs
  exact ⟨hinv.order, fun as s' hrun => effective_prefix hrun, fun q now r hget => hinv.get hget⟩

/-! ## Nothing gets lost -/

/-- No insertion finds the cache full, whatever is in its shard, and the reaper's clock is not ahead
of `now`. -/
def Roomy (now : Nat) (s : Traced n) : Act n → Prop
  | .next t => ∀ ins, s.shared.threads t = .check ins → s.shared.cache.len < s.shared.cache.capacity
  | .evictExpired _ now' => now' ≤ now
  | .insert _ _ _ _ => True

/-- How far a thread gets that finds room, and reaps what has expired. -/
def Calm (now : Nat) : Phase → Prop
  | .idle | .lock _ | .check _ | .put _ | .add => True
  | .reap now' _ | .reapSub now' _ _ _ => now' ≤ now
  | .evict _ | .subHeld _ | .scan _ _ | .subFree _ | .relock _ => False

theorem calm_advance {c : Cache} {p : Phase} {now : Nat} (h : Calm now p)
    (hroom : ∀ ins, p = .check ins → c.len < c.capacity) : Calm now (c.advance p).2 := by
  cases p with
  | check ins =>
      have hlt := UInt64.not_le.mpr (hroom ins rfl)
      simp only [advance, if_neg hlt]
      trivial
  | put ins =>
      simp only [advance]
      split <;> trivial
  | reap now' is =>
      cases is with
      | nil => trivial
      | cons i is => exact h
  | reapSub now' i removed is => exact h
  | idle | lock ins | add => trivial
  | evict ins | subHeld ins | scan ins is | subFree ins | relock ins => exact h.elim

/-- It forgets nothing but what has expired. -/
theorem keeps_advance {c : Cache} {p : Phase} {now : Nat} (h : Calm now p)
    (hput : ∀ ins, p ≠ .put ins) {i : Fin numShards} {k : CacheKey} {e : CacheEntry}
    (he : (c.shards i).lookup k = some e) (hexp : now < e.expiresAt) :
    ((c.advance p).1.shards i).lookup k = some e := by
  cases p with
  | put ins => exact absurd rfl (hput ins)
  | reap now' is =>
      cases is with
      | nil => exact he
      | cons j is =>
          show (Function.update c.shards j _ i).lookup k = some e
          by_cases hj : i = j
          · subst hj
            have hnow : now' ≤ now := h
            rw [Function.update_self]
            exact Table.lookup_retain_eq_some_iff.mpr ⟨he, by simp; omega⟩
          · rw [Function.update_of_ne hj]
            exact he
  | evict ins | subHeld ins | scan ins is | subFree ins | relock ins => exact h.elim
  | idle | lock ins | check ins | add | reapSub now' j removed is => exact he

/-- What holds of every run in which there is room. -/
structure Complete (now : Nat) (cap : UInt32) (s : Traced n) : Prop where
  inv : s.Inv cap
  calm : ∀ t, Calm now (s.shared.threads t)
  covers : TimedMap.Covers now s.shared.cache.view (AbstractCache.run cap (ops s.effective))

theorem complete_init (hashing : Hashing) (capacity : UInt64) (cap : UInt32) (now : Nat) :
    Complete now cap (init n hashing capacity cap) :=
  ⟨inv_init hashing capacity cap, fun _ => trivial, TimedMap.covers_empty⟩

theorem calm_update {threads : Fin n → Phase} {now : Nat} (h : ∀ t, Calm now (threads t))
    (t : Fin n) {p : Phase} (hp : Calm now p) (u : Fin n) :
    Calm now (Function.update threads t p u) := by
  by_cases hu : u = t
  · rw [hu, Function.update_self]
    exact hp
  · rw [Function.update_of_ne hu]
    exact h u

/-- What a step with room leaves of the map's unexpired entries: all of them. -/
theorem Complete.next {now : Nat} (h : Complete now cap s) (t : Fin n) :
    TimedMap.Covers now (s.shared.cache.advance (s.shared.threads t)).1.view
      (AbstractCache.run cap (ops (s.effective ++ committed s.shared (.next t)))) := by
  obtain ⟨hhasher, -⟩ := config_advance s.shared.cache (s.shared.threads t)
  cases advance_view s.shared.cache (s.shared.threads t) with
  | forgets _ _ hput =>
      rw [committed_eq_nil hput, List.append_nil]
      refine h.covers.reap fun k e he hlt => ?_
      obtain ⟨entry, hentry, rfl⟩ := view_eq_some_iff.mp he
      refine view_eq_some_iff.mpr ⟨entry, ?_, rfl⟩
      unfold lookup at hentry ⊢
      rw [shardIndex_eq hhasher]
      exact keeps_advance (h.calm t) hput hentry hlt
  | puts ins hp hshards _ =>
      obtain ⟨hrun, hview, -⟩ := h.inv.run_put hhasher hp hshards
      rw [hrun, hview, view_store]
      exact h.covers.put _ _

theorem Complete.step {now : Nat} (h : Complete now cap s) (hok : Roomy now s a)
    (hs : s.Step a s') : Complete now cap s' := by
  have hinv := h.inv.step hs
  obtain ⟨hshared, -, heffective⟩ := step_shared hs
  obtain ⟨shared', called', effective'⟩ := s'
  dsimp only at hshared heffective
  subst heffective
  cases a with
  | insert t response order now' =>
      obtain ⟨-, ins, -, -, -, rfl⟩ := Shared.step_insert hshared
      refine ⟨hinv, calm_update h.calm t trivial, ?_⟩
      rw [committed, List.append_nil]
      exact h.covers
  | evictExpired t now' =>
      obtain ⟨-, rfl⟩ := Shared.step_evictExpired hshared
      refine ⟨hinv, calm_update h.calm t hok, ?_⟩
      rw [committed, List.append_nil]
      exact h.covers
  | next t =>
      obtain ⟨-, rfl⟩ := Shared.step_next hshared
      exact ⟨hinv, calm_update h.calm t (calm_advance (h.calm t) hok), h.next t⟩

/--
**Without evictions nothing gets lost.** However many threads insert and reap, and however their
steps are interleaved: as long as every insertion that looks at the counter finds it below the capacity
of the cache, and no reaper's clock is ahead of `now`, a lookup at `now` of a name that fits the buffer
hits exactly if the map holds an unexpired response for the question, with all insertions applied to it
that have taken effect. No insertion overwrites another one's entry, and the reaper takes none that
counts.
-/
theorem insertions_kept (n : Nat) (hashing : Hashing) (capacity : UInt64) (cap : UInt32)
    (s : Traced n) (now : Nat)
    (h : Reachable (init n hashing capacity cap) Step (Roomy now) s)
    (q : Question) (hq : q.name.len ≤ maxLookupName) :
    (s.shared.cache.get q now).isSome ↔
      ∃ e, AbstractCache.run cap (ops s.effective) (CacheKey.fromQuestion q) = some e ∧
        now < e.expires := by
  have hcomplete : Complete now cap s :=
    h.invariant_of_ok (complete_init hashing capacity cap now) fun _ _ _ h hok hs => h.step hok hs
  constructor
  · intro hsome
    obtain ⟨r, hget⟩ := Option.isSome_iff_exists.mp hsome
    obtain ⟨e, he, hlt, -⟩ := hcomplete.inv.get hget
    exact ⟨e, he, hlt⟩
  · intro hparts
    obtain ⟨e, he, hlt⟩ := hparts
    obtain ⟨entry, hentry, rfl⟩ := view_eq_some_iff.mp (hcomplete.covers _ _ he hlt)
    exact Option.isSome_iff_exists.mpr ⟨_, get_eq_some_iff.mpr
      ⟨entry, probe_of_lookup hq hcomplete.inv.placed hentry, hlt, rfl⟩⟩

instance (now : Nat) (s : Traced n) : (a : Act n) → Decidable (Roomy now s a)
  | .next t =>
      match hp : s.shared.threads t with
      | .check ins => decidable_of_iff (s.shared.cache.len < s.shared.cache.capacity)
          ⟨fun hlt _ _ => hlt, fun h => h ins hp⟩
      | .idle | .lock _ | .evict _ | .subHeld _ | .scan _ _ | .subFree _ | .relock _ | .put _ | .add
      | .reap _ _ | .reapSub _ _ _ _ => isTrue fun ins hins => by rw [hp] at hins; cases hins
  | .evictExpired _ now' => inferInstanceAs (Decidable (now' ≤ now))
  | .insert _ _ _ _ => isTrue trivial

/-- Two insertions overlap, and one of them has taken effect. -/
def overlapping : Traced 2 :=
  (Steps.attempt step (Roomy (5 * nanosPerSec)) (init 2 plainHashing 10 300)
    [.insert Shared.one (answerFor Str.empty 60) (fun _ => .asStored) 0,
      .insert Shared.other (answerFor Str.a 60) (fun _ => .asStored) 0,
      .next Shared.one, .next Shared.one, .next Shared.one]).get
    (by decide +kernel)

theorem overlapping_reachable :
    Reachable (init 2 plainHashing 10 300) Step (Roomy (5 * nanosPerSec)) overlapping :=
  Steps.reachable_attempt _ _ _

/-- It is what a lookup finds. -/
theorem overlapping_kept :
    (overlapping.shared.cache.get { name := Str.empty, qtype := .a, qclass := Class.IN }
      (5 * nanosPerSec)).isSome := by
  refine (insertions_kept 2 plainHashing 10 300 overlapping (5 * nanosPerSec) overlapping_reachable
    _ (by decide)).mpr ?_
  have hmap : (AbstractCache.run 300 (ops overlapping.effective) (CacheKey.fromQuestion
      { name := Str.empty, qtype := .a, qclass := Class.IN })).any
        (fun e => decide (5 * nanosPerSec < e.expires)) = true := by decide +kernel
  simpa [Option.any_eq_true] using hmap

/-- And the other one has yet to take effect. -/
theorem overlapping_linearizes :
    overlapping.effective.length = 1 ∧ (of Shared.other overlapping.called).length = 1 ∧
      of Shared.other overlapping.called = of Shared.other overlapping.effective ++
        (overlapping.shared.threads Shared.other).insertion.toList :=
  ⟨by decide +kernel, by decide +kernel,
    (insertions_linearize 2 plainHashing 10 300 overlapping
      (overlapping_reachable.mono fun _ _ _ => trivial)).1 Shared.other⟩

end Traced

end Dnser.Cache
