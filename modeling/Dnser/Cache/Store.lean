import Dnser.Cache.Key
import Dnser.Lib.Table
import Mathlib.Algebra.Ring.Nat

/-!
# The response cache

`dnser_cache::Cache`: 64 hash tables, an entry counter that is kept apart from them, and
the operations on them. Locks and atomics are dropped, so this is the cache as one thread
uses it. The clock is an argument of every operation that reads it; an `Instant` is a
number of nanoseconds since some fixed moment.

Two things are up to the hash tables and are parameters here: how a value hashes, and the
order in which `evict_one` meets the entries of a shard.
-/

namespace Dnser

open Utf8 (Str)

/-- `NUM_SHARDS`. -/
def numShards : Nat := 64

/-- The nanoseconds of a second. -/
def nanosPerSec : Nat := 1000000000

/-- `CacheEntry`. -/
structure CacheEntry where
  response : Message
  insertedAt : Nat
  expiresAt : Nat

/-- `HashMap<CacheKey, CacheEntry>`. -/
abbrev Shard := Table CacheKey CacheEntry

/-- The order in which an iterator goes through a shard. -/
abbrev ShardOrder := Table.IterOrder CacheKey CacheEntry

/-- The hashers: one picks the shard, and each shard has its own. -/
structure Hashing where
  /-- `build_hasher.hash_one`. -/
  shard : List HashWrite → UInt64
  /-- Whether a probe with the first hash comes across an entry filed under the second, in
  the given shard. -/
  finds : Fin numShards → List HashWrite → List HashWrite → Bool
  /-- It does when they are the same. -/
  finds_self : ∀ i ws, finds i ws ws = true

/-- `dnser_cache::Cache`. -/
structure Cache where
  shards : Fin numShards → Shard
  buildHasher : Hashing
  capacity : UInt64
  len : UInt64
  maxNegativeTtl : UInt32

namespace Cache

/-- `Cache::new`. -/
def new (buildHasher : Hashing) (capacity : UInt64) (maxNegativeTtl : UInt32) : Cache :=
  { shards := fun _ => ∅, buildHasher, capacity, len := 0, maxNegativeTtl }

/-- `Cache::shard_index`. -/
def shardIndex (c : Cache) (key : List HashWrite) : Fin numShards :=
  ⟨(c.buildHasher.shard key &&& 63).toNat, by
    have : (c.buildHasher.shard key &&& 63).toNat ≤ 63 := by
      rw [UInt64.toNat_and]
      exact Nat.and_le_right
    exact Nat.lt_succ_of_le this⟩

/-! ## Lookups -/

/-- `rewrite_ttls`. -/
def rewriteTtls (records : List ResourceRecord) (elapsedSecs : UInt32) : List ResourceRecord :=
  records.map fun rr =>
    { rr with ttl := if rr.ttl ≤ elapsedSecs then 0 else rr.ttl - elapsedSecs }

/-- `shard.get(&lookup)`. -/
def probe (c : Cache) (lookup : Lookup) : Option CacheEntry :=
  let i := c.shardIndex lookup.hash
  ((c.shards i).entries.find? fun ke =>
    c.buildHasher.finds i lookup.hash ke.1.hash && lookup.equivalent ke.1).map Sigma.snd

/-- The whole seconds since the entry was made, as `get` computes them. -/
def elapsedSecs (entry : CacheEntry) (now : Nat) : UInt32 :=
  UInt32.ofNat (min ((now - entry.insertedAt) / nanosPerSec) (2 ^ 32 - 1))

/-- `Cache::get`. -/
def get (c : Cache) (question : Question) (now : Nat) : Option Message :=
  match c.probe (Lookup.fromQuestion question) with
  | none => none
  | some entry =>
      -- expired entries are skipped here and removed elsewhere
      if entry.expiresAt ≤ now then none
      else
        let elapsed := elapsedSecs entry now
        some { entry.response with
          answers := rewriteTtls entry.response.answers elapsed
          authority := rewriteTtls entry.response.authority elapsed
          additional := rewriteTtls entry.response.additional elapsed }

/-! ## Insertion -/

/-- `soa_negative_ttl`. -/
def soaNegativeTtl (authority : List ResourceRecord) : Option UInt32 :=
  authority.findSome? fun rr =>
    match rr.rdata with
    | .soa _ _ _ _ _ _ minimum => some (min rr.ttl minimum)
    | _ => none

/-- The `effective_ttl` of `Cache::insert`. -/
def effectiveTtl (maxNegativeTtl : UInt32) (response : Message) : Option UInt32 :=
  match response.header.rcode with
  | .ok .noError =>
      if response.answers.isEmpty then
        (soaNegativeTtl response.authority).map (min · maxNegativeTtl)
      else (response.answers.map ResourceRecord.ttl).min?
  | .ok .nxDomain => (soaNegativeTtl response.authority).map (min · maxNegativeTtl)
  | _ => none

/-- What `Cache::insert` has decided before it takes a lock: to return, or to store the
response under its question for this many seconds. -/
def admits (maxNegativeTtl : UInt32) (response : Message) : Option (Question × UInt32) :=
  match response.questions with
  | [question] =>
      if response.header.isTruncated then none
      else
        match effectiveTtl maxNegativeTtl response with
        | none => none
        | some ttl => if ttl = 0 then none else some (question, ttl)
  | _ => none

/-- The scan of `evict_one`: the first expired key, and the first key seen before it. -/
def scanVictim (now : Nat) (first : Option CacheKey) :
    List (Σ _ : CacheKey, CacheEntry) → Option CacheKey × Option CacheKey
  | [] => (none, first)
  | ⟨k, e⟩ :: rest =>
      if e.expiresAt ≤ now then (some k, first)
      else scanVictim now (if first.isNone then some k else first) rest

/-- `evict_one`. -/
def evictOne (order : ShardOrder) (shard : Shard) (now : Nat) : Bool × Shard :=
  let (expired, first) := scanVictim now none (order.visit shard.entries)
  match expired.or first with
  | some k => (true, shard.erase k)
  | none => (false, shard)

/-- The loop over the other shards, until one gives up an entry. -/
def evictOther (order : Fin numShards → ShardOrder) (now : Nat) (target : Fin numShards) :
    List (Fin numShards) → (Fin numShards → Shard) → Bool × (Fin numShards → Shard)
  | [], shards => (false, shards)
  | i :: is, shards =>
      -- the target was tried first, and is empty
      if i = target then evictOther order now target is shards
      else
        let (evicted, s) := evictOne (order i) (shards i) now
        let shards := Function.update shards i s
        if evicted then (true, shards) else evictOther order now target is shards

/-- Capacity enforcement, before an entry goes into shard `target`. -/
def makeRoom (c : Cache) (order : Fin numShards → ShardOrder) (now : Nat)
    (target : Fin numShards) : Cache :=
  if c.capacity ≤ c.len then
    let (evicted, s) := evictOne (order target) (c.shards target) now
    if evicted then { c with shards := Function.update c.shards target s, len := c.len - 1 }
    else
      let (evicted, shards) := evictOther order now target (List.finRange numShards) c.shards
      if evicted then { c with shards, len := c.len - 1 } else c
  else c

/-- `shard.insert(key, entry)`, and the counter. -/
def store (c : Cache) (key : CacheKey) (entry : CacheEntry) : Cache :=
  let i := c.shardIndex key.hash
  let isNew := ((c.shards i).lookup key).isNone
  { c with
    shards := Function.update c.shards i ((c.shards i).insert key entry)
    len := if isNew then c.len + 1 else c.len }

/-- `Cache::insert`. -/
def insert (c : Cache) (order : Fin numShards → ShardOrder) (response : Message)
    (now : Nat) : Cache :=
  match admits c.maxNegativeTtl response with
  | none => c
  | some (question, ttl) =>
      let key := CacheKey.fromQuestion question
      let entry : CacheEntry :=
        { response, insertedAt := now, expiresAt := now + ttl.toNat * nanosPerSec }
      -- room is made before anyone looks whether the key is there already
      (c.makeRoom order now (c.shardIndex key.hash)).store key entry

/-! ## Reaping -/

/-- One shard of `Cache::evict_expired`. -/
def reapShard (now : Nat) (c : Cache) (i : Fin numShards) : Cache :=
  let s := (c.shards i).retain fun _ e => now < e.expiresAt
  { c with
    shards := Function.update c.shards i s
    len := c.len - UInt64.ofNat ((c.shards i).size - s.size) }

/-- `Cache::evict_expired`. -/
def evictExpired (c : Cache) (now : Nat) : Cache :=
  (List.finRange numShards).foldl (reapShard now) c

/-! ## Runs -/

/-- A call on the cache. An insertion says how the hash tables happen to be iterated. -/
inductive Op where
  | get (question : Question)
  | insert (order : Fin numShards → ShardOrder) (response : Message)
  | evictExpired

/-- The cache after a call at `now`. -/
def step (c : Cache) : Nat × Op → Cache
  | (_, .get _) => c
  | (now, .insert order response) => c.insert order response now
  | (now, .evictExpired) => c.evictExpired now

/-- The cache after a sequence of calls. -/
def run (c : Cache) (ops : List (Nat × Op)) : Cache := ops.foldl step c

end Cache

end Dnser
