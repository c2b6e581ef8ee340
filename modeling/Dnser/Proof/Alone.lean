import Dnser.Proof.Concurrent

/-!
# One thread at a time

The cache of `Dnser.Cache.Store` makes each call in one go, the threads of `Dnser.Cache.Concurrent`
make it step by step. Here the two meet: **a thread that is not interrupted does to the cache what
the call in one go does to it.** It is never stuck, it gets to the end of its call, and everything
proved about sequences of calls is about the runs in which calls do not overlap.
-/

namespace Dnser.Cache

open Steps (Reachable)

/-! ## The steps of one thread -/

/-- What becomes of the cache when a thread makes its steps up to the end of its call. -/
inductive Alone : Cache → Phase → Cache → Prop where
  | idle {c : Cache} : Alone c .idle c
  | step {c c' : Cache} {p : Phase} : p ≠ .idle → Alone (c.advance p).1 (c.advance p).2 c' →
      Alone c p c'

variable {c : Cache} {ins : Insertion}

theorem Alone.of_advance {c₁ c' : Cache} {p p₁ : Phase} (hp : p ≠ .idle)
    (h : c.advance p = (c₁, p₁)) (hrest : Alone c₁ p₁ c') : Alone c p c' :=
  .step hp (by rw [h]; exact hrest)

theorem alone_put (hshard : ins.shard = c.shardIndex ins.key.hash) :
    Alone c (.put ins) (c.store ins.key ins.entry) := by
  refine .step (by simp) ?_
  unfold advance store
  dsimp only
  rw [← hshard]
  cases ((c.shards ins.shard).lookup ins.key).isNone with
  | true => exact .step (by simp) .idle
  | false => exact .idle

/-- The search through the other shards. -/
theorem alone_scan (hshard : ins.shard = c.shardIndex ins.key.hash) (is : List (Fin numShards)) :
    Alone c (.scan ins is)
      (store (if (evictOther ins.order ins.now ins.shard is c.shards).1 then
          { c with
            shards := (evictOther ins.order ins.now ins.shard is c.shards).2
            len := c.len - 1 }
        else c) ins.key ins.entry) := by
  induction is with
  | nil => exact .of_advance (by simp) rfl (.of_advance (by simp) rfl (alone_put hshard))
  | cons i is ih =>
      refine .step (by simp) ?_
      by_cases hi : i = ins.shard
      · simp only [advance, evictOther, if_pos hi]
        exact ih
      · cases hone : evictOne (ins.order i) (c.shards i) ins.now with
        | mk evicted shard =>
            cases evicted with
            | true =>
                simp only [advance, evictOther, if_neg hi, hone, if_true]
                exact .of_advance (by simp) rfl (.of_advance (by simp) rfl (alone_put hshard))
            | false =>
                have hsame : shard = c.shards i := by
                  rcases total_evictOne c (ins.order i) i ins.now with ⟨-, h⟩ | ⟨shard', -, h, -⟩
                  · rw [h] at hone
                    cases hone
                    rfl
                  · rw [h] at hone
                    cases hone
                simp only [advance, evictOther, if_neg hi, hone, hsame, Function.update_eq_self]
                exact ih

/-- An insertion, from its first lock on. -/
theorem alone_insertion (hshard : ins.shard = c.shardIndex ins.key.hash) :
    Alone c (.lock ins) ((c.makeRoom ins.order ins.now ins.shard).store ins.key ins.entry) := by
  refine .of_advance (by simp) rfl ?_
  unfold makeRoom
  by_cases hfull : c.capacity ≤ c.len
  · have hcheck : c.advance (.check ins) = (c, .evict ins) := by simp only [advance, if_pos hfull]
    refine .of_advance (by simp) hcheck ?_
    rw [if_pos hfull]
    cases hone : evictOne (ins.order ins.shard) (c.shards ins.shard) ins.now with
    | mk evicted shard =>
        cases evicted with
        | true =>
            refine .of_advance (by simp) (by simp only [advance, hone]; rfl) ?_
            exact .of_advance (by simp) rfl (alone_put hshard)
        | false =>
            refine .of_advance (by simp) (by simp only [advance, hone]; rfl) ?_
            exact alone_scan hshard _
  · have hcheck : c.advance (.check ins) = (c, .put ins) := by simp only [advance, if_neg hfull]
    rw [if_neg hfull]
    exact .of_advance (by simp) hcheck (alone_put hshard)

/-- A call of `insert`, from its first lock on. -/
theorem alone_insert {response : Message} {question : Question} {ttl : UInt32}
    (hadmits : admits c.maxNegativeTtl response = some (question, ttl))
    (order : Fin numShards → ShardOrder) (now : Nat) :
    Alone c
      (.lock
        { key := CacheKey.fromQuestion question
          entry := { response, insertedAt := now, expiresAt := now + ttl.toNat * nanosPerSec }
          shard := c.shardIndex (CacheKey.fromQuestion question).hash
          now
          order })
      (c.insert order response now) := by
  unfold Cache.insert
  rw [hadmits]
  exact alone_insertion rfl

/-- Reaping, from some shard on. -/
theorem alone_reap (now : Nat) (is : List (Fin numShards)) :
    Alone c (.reap now is) (is.foldl (reapShard now) c) := by
  induction is generalizing c with
  | nil => exact .step (by simp) .idle
  | cons i is ih => exact .of_advance (by simp) rfl (.of_advance (by simp) rfl ih)

/-- A thread takes no second lock. -/
theorem Phase.holds_of_acquires {p : Phase} {i : Fin numShards} (h : p.acquires = some i) :
    p.holds = none := by
  cases p with
  | lock ins => rfl
  | scan ins is => rfl
  | relock ins => rfl
  | reap now is => rfl
  | _ => cases h

/-! ## The steps of the system -/

namespace Shared

variable {n : Nat} {s : Shared n} {t : Fin n}

/-- A thread that has its lock, or needs none, makes its next step. -/
theorem step_of_ready (hp : s.threads t ≠ .idle) (hready : s.ready t = true) :
    s.Step (.next t) ⟨(s.cache.advance (s.threads t)).1,
      Function.update s.threads t (s.cache.advance (s.threads t)).2⟩ := by
  unfold Step Shared.step
  dsimp only
  split
  · rename_i hidle
    exact absurd hidle hp
  · rw [if_pos hready]

/-- Nobody keeps a thread from its next step when all others are idle. -/
theorem step_alone (hothers : ∀ u, u ≠ t → s.threads u = .idle) (hp : s.threads t ≠ .idle) :
    s.Step (.next t) ⟨(s.cache.advance (s.threads t)).1,
      Function.update s.threads t (s.cache.advance (s.threads t)).2⟩ := by
  refine step_of_ready hp ?_
  unfold ready
  split
  · rename_i i hi
    refine free_iff.mpr fun u hu => ?_
    by_cases hut : u = t
    · subst hut
      rw [Phase.holds_of_acquires hi] at hu
      cases hu
    · rw [hothers u hut] at hu
      cases hu
  · rfl

theorem reachable_alone {c c' : Cache} {p : Phase} (h : Alone c p c') {threads : Fin n → Phase}
    (hp : threads t = p) (hothers : ∀ u, u ≠ t → threads u = .idle) {s₀ : Shared n}
    (hreach : Reachable s₀ Step (fun _ a => a = .next t) ⟨c, threads⟩) :
    Reachable s₀ Step (fun _ a => a = .next t) ⟨c', fun _ => .idle⟩ := by
  induction h generalizing threads with
  | idle =>
      have hall : threads = fun _ => .idle := by
        funext u
        by_cases hu : u = t
        · rw [hu, hp]
        · exact hothers u hu
      rw [← hall]
      exact hreach
  | step hne _ ih =>
      subst hp
      refine ih (Function.update_self t _ threads) ?_
        (hreach.step rfl (step_alone (s := ⟨_, threads⟩) hothers hne))
      intro u hu
      rw [Function.update_of_ne hu]
      exact hothers u hu

theorem Quiescent.others (hq : s.Quiescent) (p : Phase) :
    ∀ u, u ≠ t → Function.update s.threads t p u = .idle := by
  intro u hu
  rw [Function.update_of_ne hu]
  exact hq u

/--
**A call that is not interrupted is a call in one go.** From a state in which no operation is in
progress, a thread that calls `insert` gets to the end of it on its own, and leaves the cache that
`Cache.insert` computes.
-/
theorem insert_alone (hq : s.Quiescent) (t : Fin n) (response : Message)
    (order : Fin numShards → ShardOrder) (now : Nat)
    (hadmits : (admits s.cache.maxNegativeTtl response).isSome) :
    ∃ s₁, s.Step (.insert t response order now) s₁ ∧
      Reachable s₁ Step (fun _ a => a = .next t)
        ⟨s.cache.insert order response now, fun _ => .idle⟩ := by
  obtain ⟨⟨question, ttl⟩, hsome⟩ := Option.isSome_iff_exists.mp hadmits
  refine ⟨_, by simp only [Step, Shared.step, hq t, hsome]; rfl, ?_⟩
  exact reachable_alone (alone_insert hsome order now) (Function.update_self t _ s.threads)
    (hq.others _) .init

/-- The same for `evict_expired`. -/
theorem evictExpired_alone (hq : s.Quiescent) (t : Fin n) (now : Nat) :
    ∃ s₁, s.Step (.evictExpired t now) s₁ ∧
      Reachable s₁ Step (fun _ a => a = .next t) ⟨s.cache.evictExpired now, fun _ => .idle⟩ := by
  refine ⟨_, by simp only [Step, Shared.step, hq t]; rfl, ?_⟩
  exact reachable_alone (alone_reap now _) (Function.update_self t _ s.threads) (hq.others _) .init

end Shared

end Dnser.Cache
