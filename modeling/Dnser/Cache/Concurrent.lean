import Dnser.Cache.Store

/-!
# The cache under concurrency

`Cache::insert` and `Cache::evict_expired` as several threads run them, with the locks and the
counter that `Dnser.Cache.Store` drops. A thread's phase says how far it is, with a step for each
critical section of a shard, each load of the counter and each update of it. The code before the
first lock of an insertion reads nothing that is shared, and is part of the call.

A shard's lock is held by the thread whose phase says so (`Phase.holds`). `Cache::get` takes read
locks and changes nothing, and is left out.
-/

namespace Dnser.Cache

/-- An insertion, with what `insert` works out before it takes a lock. -/
structure Insertion where
  key : CacheKey
  entry : CacheEntry
  /-- `shard_i`. -/
  shard : Fin numShards
  now : Nat
  /-- How the hash tables happen to be iterated. -/
  order : Fin numShards → ShardOrder

/-- How far a thread is. -/
inductive Phase where
  | idle
  /-- `insert`: about to lock the target shard. -/
  | lock (ins : Insertion)
  /-- Holding it, about to load the counter. -/
  | check (ins : Insertion)
  /-- Holding it, about to evict from it. -/
  | evict (ins : Insertion)
  /-- Holding it, with the subtraction for the evicted entry to come. -/
  | subHeld (ins : Insertion)
  /-- Without it, about to try these shards. -/
  | scan (ins : Insertion) (is : List (Fin numShards))
  /-- Without it, with the subtraction for the evicted entry to come. -/
  | subFree (ins : Insertion)
  /-- About to lock it again. -/
  | relock (ins : Insertion)
  /-- Holding it, about to insert. -/
  | put (ins : Insertion)
  /-- Done with it, with the addition for a new entry to come. -/
  | add
  /-- `evict_expired`: about to go through these shards. -/
  | reap (now : Nat) (is : List (Fin numShards))
  /-- Holding shard `i`, with the subtraction for its removed entries to come. -/
  | reapSub (now : Nat) (i : Fin numShards) (removed : Nat) (is : List (Fin numShards))

namespace Phase

/-- The shard whose lock a thread holds. -/
def holds : Phase → Option (Fin numShards)
  | check ins => some ins.shard
  | evict ins => some ins.shard
  | subHeld ins => some ins.shard
  | put ins => some ins.shard
  | reapSub _ i _ _ => some i
  | _ => none

/-- The shard whose lock the next step takes. -/
def acquires : Phase → Option (Fin numShards)
  | lock ins => some ins.shard
  | scan ins (i :: _) => if i = ins.shard then none else some i
  | relock ins => some ins.shard
  | reap _ (i :: _) => some i
  | _ => none

instance : (p : Phase) → Decidable (p = idle)
  | idle => isTrue rfl
  | lock _ | check _ | evict _ | subHeld _ | scan _ _ | subFree _ | relock _ | put _ | add | reap _ _
  | reapSub _ _ _ _ => isFalse nofun

end Phase

/-- One step of a thread: what it does to the cache, and where it leaves the thread. -/
def advance (c : Cache) : Phase → Cache × Phase
  | .idle => (c, .idle)
  | .lock ins => (c, .check ins)
  | .check ins => (c, if c.capacity ≤ c.len then .evict ins else .put ins)
  | .evict ins =>
      let (evicted, s) := evictOne (ins.order ins.shard) (c.shards ins.shard) ins.now
      if evicted then ({ c with shards := Function.update c.shards ins.shard s }, .subHeld ins)
      else (c, .scan ins (List.finRange numShards))
  | .subHeld ins => ({ c with len := c.len - 1 }, .put ins)
  | .scan ins [] => (c, .relock ins)
  | .scan ins (i :: is) =>
      if i = ins.shard then (c, .scan ins is)
      else
        -- locked, searched and unlocked again
        let (evicted, s) := evictOne (ins.order i) (c.shards i) ins.now
        if evicted then ({ c with shards := Function.update c.shards i s }, .subFree ins)
        else (c, .scan ins is)
  | .subFree ins => ({ c with len := c.len - 1 }, .relock ins)
  | .relock ins => (c, .put ins)
  | .put ins =>
      let isNew := ((c.shards ins.shard).lookup ins.key).isNone
      ({ c with
          shards := Function.update c.shards ins.shard
            ((c.shards ins.shard).insert ins.key ins.entry) },
        if isNew then .add else .idle)
  | .add => ({ c with len := c.len + 1 }, .idle)
  | .reap _ [] => (c, .idle)
  | .reap now (i :: is) =>
      let s := (c.shards i).retain fun _ e => now < e.expiresAt
      ({ c with shards := Function.update c.shards i s },
        .reapSub now i ((c.shards i).size - s.size) is)
  | .reapSub now _ removed is => ({ c with len := c.len - UInt64.ofNat removed }, .reap now is)

/-- A cache, and `n` threads that use it. -/
structure Shared (n : Nat) where
  cache : Cache
  threads : Fin n → Phase

/-- What can happen next. -/
inductive Act (n : Nat) where
  /-- An idle thread calls `insert`, with a response that is cacheable. -/
  | insert (t : Fin n) (response : Message) (order : Fin numShards → ShardOrder) (now : Nat)
  /-- An idle thread calls `evict_expired`. -/
  | evictExpired (t : Fin n) (now : Nat)
  /-- A thread that is not idle makes its next step. -/
  | next (t : Fin n)

namespace Shared

variable {n : Nat}

/-- Nobody holds the lock of the shard. -/
def free (s : Shared n) (i : Fin numShards) : Bool :=
  (List.finRange n).all fun t => (s.threads t).holds != some i

/-- The lock the thread's next step needs is there. -/
def ready (s : Shared n) (t : Fin n) : Bool :=
  match (s.threads t).acquires with
  | some i => s.free i
  | none => true

/-- The state after an action, if it can happen. -/
def step (s : Shared n) : Act n → Option (Shared n)
  | .insert t response order now =>
      match s.threads t, admits s.cache.maxNegativeTtl response with
      | .idle, some (question, ttl) =>
          let key := CacheKey.fromQuestion question
          let ins : Insertion :=
            { key
              entry := { response, insertedAt := now, expiresAt := now + ttl.toNat * nanosPerSec }
              shard := s.cache.shardIndex key.hash
              now
              order }
          some { s with threads := Function.update s.threads t (.lock ins) }
      | _, _ => none
  | .evictExpired t now =>
      match s.threads t with
      | .idle =>
          some { s with threads := Function.update s.threads t (.reap now (List.finRange numShards)) }
      | _ => none
  | .next t =>
      match s.threads t with
      | .idle => none
      | p =>
          if s.ready t then
            some ⟨(s.cache.advance p).1, Function.update s.threads t (s.cache.advance p).2⟩
          else none

/-- The step relation. -/
def Step (s : Shared n) (a : Act n) (s' : Shared n) : Prop := s.step a = some s'

/-- A new cache, and idle threads. -/
def init (n : Nat) (hashing : Hashing) (capacity : UInt64) (cap : UInt32) : Shared n :=
  ⟨Cache.new hashing capacity cap, fun _ => .idle⟩

/-- No operation is in progress. -/
def Quiescent (s : Shared n) : Prop := ∀ t, s.threads t = .idle

instance (s : Shared n) : Decidable s.Quiescent :=
  inferInstanceAs (Decidable (∀ t, s.threads t = .idle))

end Shared

end Dnser.Cache
