import Dnser.Cache.Concurrent
import Dnser.Lib.Steps
import Dnser.Proof.CacheSize

/-!
# The counter under concurrency

Entries come and go in one step of a thread, and the counter follows in another. In between, the
thread owes the counter an addition or a subtraction, and its phase says which. The ghost account
is the sum of what all threads owe: **the counter and the additions that are still to come are
the entries and the subtractions that are still to come** (`Balanced`), in every state, modulo the
size of the counter. When nobody owes anything, the counter is the number of entries.

That the counter never wraps is a different matter. An entry can be removed before it is
counted, and if the subtraction overtakes the addition, a counter at zero is decremented. What
it takes is that no more additions are owed than there are entries, and only a removal can upset
that.
-/

namespace Dnser.Cache

open Utf8 (Str)
open Family

variable {n : Nat} {s s' : Shared n} {a : Act n}

/-! ## What an action can do -/

theorem free_iff {i : Fin numShards} : s.free i = true ↔ ∀ t, (s.threads t).holds ≠ some i := by
  simp [Shared.free]

/-- The three kinds of actions. -/
theorem step_cases (h : s.Step a s') :
    (∃ t ins, s.threads t = .idle ∧
      s' = { s with threads := Function.update s.threads t (.lock ins) }) ∨
    (∃ t now, s.threads t = .idle ∧
      s' = { s with threads := Function.update s.threads t (.reap now (List.finRange numShards)) }) ∨
    (∃ t, a = .next t ∧
      (∀ i, (s.threads t).acquires = some i → ∀ u, (s.threads u).holds ≠ some i) ∧
      s' = ⟨(s.cache.advance (s.threads t)).1,
        Function.update s.threads t (s.cache.advance (s.threads t)).2⟩) := by
  unfold Shared.Step Shared.step at h
  cases a with
  | insert t response order now =>
      dsimp only at h
      split at h
      · rename_i question ttl hidle _
        exact .inl ⟨t, _, hidle, (Option.some.inj h).symm⟩
      · cases h
  | evictExpired t now =>
      dsimp only at h
      split at h
      · rename_i hidle
        exact .inr (.inl ⟨t, now, hidle, (Option.some.inj h).symm⟩)
      · cases h
  | next t =>
      dsimp only at h
      split at h
      · cases h
      · split at h
        · rename_i hready
          refine .inr (.inr ⟨t, rfl, fun i hi => ?_, (Option.some.inj h).symm⟩)
          rw [Shared.ready, hi] at hready
          exact free_iff.mp hready
        · cases h

namespace Phase

/-- The additions a thread owes the counter. -/
def adds : Phase → Nat
  | add => 1
  | _ => 0

/-- The subtractions it owes. -/
def subs : Phase → Nat
  | subHeld _ => 1
  | subFree _ => 1
  | reapSub _ _ removed _ => removed
  | _ => 0

/-- The entries its next step removes. -/
def removes (c : Cache) : Phase → Nat
  | evict ins => if (c.shards ins.shard).size = 0 then 0 else 1
  | scan ins (i :: _) => if i = ins.shard ∨ (c.shards i).size = 0 then 0 else 1
  | reap now (i :: _) =>
      (c.shards i).size - ((c.shards i).retain fun _ e => now < e.expiresAt).size
  | _ => 0

end Phase

/-- What a step does to the entries, the counter and what the thread owes. -/
inductive Effect (c : Cache) (p : Phase) (c' : Cache) (p' : Phase) : Prop where
  | none : c'.total = c.total → c'.len = c.len → p'.adds = p.adds → p'.subs = p.subs →
      Effect c p c' p'
  /-- Entries are removed, and their subtraction is owed. -/
  | removes : c'.total + p.removes c = c.total → c'.len = c.len → p'.adds = p.adds →
      p'.subs = p.subs + p.removes c → Effect c p c' p'
  /-- A new entry is there, and its addition is owed. -/
  | inserts : c'.total = c.total + 1 → c'.len = c.len → p'.adds = p.adds + 1 → p'.subs = p.subs →
      Effect c p c' p'
  /-- What is owed is subtracted. -/
  | subtracts : c'.total = c.total → c'.len = c.len - UInt64.ofNat p.subs → p'.adds = p.adds →
      p'.subs = 0 → Effect c p c' p'
  /-- What is owed is added. -/
  | adds : c'.total = c.total → c'.len = c.len + 1 → p = .add → p' = .idle → Effect c p c' p'

/-- Evicting from a shard: it is empty, or an entry goes. -/
theorem total_evictOne (c : Cache) (order : ShardOrder) (i : Fin numShards) (now : Nat) :
    ((c.shards i).size = 0 ∧ evictOne order (c.shards i) now = (false, c.shards i)) ∨
    ∃ shard, (c.shards i).size ≠ 0 ∧ evictOne order (c.shards i) now = (true, shard) ∧
      total { c with shards := Function.update c.shards i shard } + 1 = c.total := by
  rcases evictOne_cases order (c.shards i) now with ⟨h0, hone⟩ | ⟨k, e, he, hone, -⟩
  · exact .inl ⟨h0, hone⟩
  · have ht := total_update c i ((c.shards i).erase k) c.len
    have hsize : Table.size ((c.shards i).erase k) + 1 = (c.shards i).size :=
      Table.size_erase (by rw [he]; rfl)
    exact .inr ⟨_, by omega, hone, by omega⟩

/-- What `insert` does when it evicts from its own shard. -/
theorem advance_evict_cases (c : Cache) (ins : Insertion) :
    ((c.shards ins.shard).size = 0 ∧
      c.advance (.evict ins) = (c, .scan ins (List.finRange numShards))) ∨
    ∃ shard, (c.shards ins.shard).size ≠ 0 ∧
      total { c with shards := Function.update c.shards ins.shard shard } + 1 = c.total ∧
      c.advance (.evict ins) =
        ({ c with shards := Function.update c.shards ins.shard shard }, .subHeld ins) := by
  rcases total_evictOne c (ins.order ins.shard) ins.shard ins.now with
    ⟨h0, hone⟩ | ⟨shard, hne, hone, htotal⟩
  · exact .inl ⟨h0, by simp only [advance, hone]; rfl⟩
  · exact .inr ⟨shard, hne, htotal, by simp only [advance, hone]; rfl⟩

/-- What it does when it comes to another shard. -/
theorem advance_scan_cases (c : Cache) (ins : Insertion) (i : Fin numShards)
    (is : List (Fin numShards)) :
    ((i = ins.shard ∨ (c.shards i).size = 0) ∧ c.advance (.scan ins (i :: is)) = (c, .scan ins is)) ∨
    ∃ shard, i ≠ ins.shard ∧ (c.shards i).size ≠ 0 ∧
      total { c with shards := Function.update c.shards i shard } + 1 = c.total ∧
      c.advance (.scan ins (i :: is)) =
        ({ c with shards := Function.update c.shards i shard }, .subFree ins) := by
  by_cases hi : i = ins.shard
  · exact .inl ⟨.inl hi, by simp only [advance, if_pos hi]⟩
  · rcases total_evictOne c (ins.order i) i ins.now with ⟨h0, hone⟩ | ⟨shard, hne, hone, htotal⟩
    · exact .inl ⟨.inr h0, by simp only [advance, if_neg hi, hone]; rfl⟩
    · exact .inr ⟨shard, hi, hne, htotal, by simp only [advance, if_neg hi, hone]; rfl⟩

theorem total_put (c : Cache) (ins : Insertion) :
    (c.advance (.put ins)).1.total =
      if ((c.shards ins.shard).lookup ins.key).isSome then c.total else c.total + 1 := by
  have ht : (c.advance (.put ins)).1.total + (c.shards ins.shard).size =
      c.total + Table.size ((c.shards ins.shard).insert ins.key ins.entry) :=
    total_update c ins.shard _ c.len
  rw [Table.size_insert] at ht
  split at ht
  · rw [if_pos (by assumption)]
    omega
  · rw [if_neg (by assumption)]
    omega

/-- **Every step has one of the five effects.** -/
theorem advance_effect (c : Cache) (p : Phase) : Effect c p (c.advance p).1 (c.advance p).2 := by
  cases p with
  | idle => exact .none rfl rfl rfl rfl
  | lock ins => exact .none rfl rfl rfl rfl
  | check ins =>
      unfold advance
      dsimp only
      split <;> exact .none rfl rfl rfl rfl
  | evict ins =>
      rcases advance_evict_cases c ins with ⟨-, h⟩ | ⟨shard, hne, htotal, h⟩
      · rw [h]
        exact .none rfl rfl rfl rfl
      · rw [h]
        exact .removes (by simpa [Phase.removes, hne] using htotal) rfl rfl
          (by simp [Phase.removes, Phase.subs, hne])
  | subHeld ins => exact .subtracts rfl rfl rfl rfl
  | scan ins is =>
      cases is with
      | nil => exact .none rfl rfl rfl rfl
      | cons i is =>
          rcases advance_scan_cases c ins i is with ⟨-, h⟩ | ⟨shard, hi, hne, htotal, h⟩
          · rw [h]
            exact .none rfl rfl rfl rfl
          · rw [h]
            exact .removes (by simpa [Phase.removes, hi, hne] using htotal) rfl rfl
              (by simp [Phase.removes, Phase.subs, hi, hne])
  | subFree ins => exact .subtracts rfl rfl rfl rfl
  | relock ins => exact .none rfl rfl rfl rfl
  | put ins =>
      have ht := total_put c ins
      cases hget : (c.shards ins.shard).lookup ins.key with
      | none =>
          rw [hget] at ht
          exact .inserts ht rfl (by simp [advance, hget, Phase.adds])
            (by simp [advance, hget, Phase.subs])
      | some e =>
          rw [hget] at ht
          exact .none ht rfl (by simp [advance, hget, Phase.adds])
            (by simp [advance, hget, Phase.subs])
  | add => exact .adds rfl rfl rfl rfl
  | reap now is =>
      cases is with
      | nil => exact .none rfl rfl rfl rfl
      | cons i is =>
          have ht := total_update c i ((c.shards i).retain fun _ e => now < e.expiresAt) c.len
          have hle := Table.size_retain_le (fun _ e => now < e.expiresAt) (c.shards i)
          refine .removes ?_ rfl rfl (by simp [advance, Phase.removes, Phase.subs])
          simp only [advance, Phase.removes]
          omega
  | reapSub now i removed is => exact .subtracts rfl rfl rfl rfl

/-! ## The account -/

namespace Shared

/-- The additions that are still to come. -/
def pendingAdds (s : Shared n) : Nat := tally Phase.adds s.threads

/-- The subtractions that are still to come. -/
def pendingSubs (s : Shared n) : Nat := tally Phase.subs s.threads

/-- What an action does to the entries, the counter and what is owed to it. -/
inductive Account (s : Shared n) : Act n → Shared n → Prop where
  | none {a : Act n} {s' : Shared n} : s'.cache.total = s.cache.total →
      s'.cache.len = s.cache.len → s'.pendingAdds = s.pendingAdds → s'.pendingSubs = s.pendingSubs →
      Account s a s'
  | removes {t : Fin n} {s' : Shared n} :
      s'.cache.total + (s.threads t).removes s.cache = s.cache.total →
      s'.cache.len = s.cache.len → s'.pendingAdds = s.pendingAdds →
      s'.pendingSubs = s.pendingSubs + (s.threads t).removes s.cache → Account s (.next t) s'
  | inserts {a : Act n} {s' : Shared n} : s'.cache.total = s.cache.total + 1 →
      s'.cache.len = s.cache.len → s'.pendingAdds = s.pendingAdds + 1 →
      s'.pendingSubs = s.pendingSubs → Account s a s'
  | subtracts {t : Fin n} {s' : Shared n} : s'.cache.total = s.cache.total →
      s'.cache.len = s.cache.len - UInt64.ofNat (s.threads t).subs →
      s'.pendingAdds = s.pendingAdds → s'.pendingSubs + (s.threads t).subs = s.pendingSubs →
      Account s (.next t) s'
  | adds {t : Fin n} {s' : Shared n} : s.threads t = .add → s'.cache.total = s.cache.total →
      s'.cache.len = s.cache.len + 1 → s'.pendingAdds + 1 = s.pendingAdds →
      s'.pendingSubs = s.pendingSubs → Account s (.next t) s'

/-- A thread that was idle owes nothing, and still owes nothing when it makes a call. -/
theorem account_call {t : Fin n} {p : Phase} (hidle : s.threads t = .idle) (hadds : p.adds = 0)
    (hsubs : p.subs = 0) : Account s a { s with threads := Function.update s.threads t p } := by
  have h₁ := tally_update Phase.adds s.threads t p
  have h₂ := tally_update Phase.subs s.threads t p
  rw [hidle, hadds] at h₁
  rw [hidle, hsubs] at h₂
  exact .none rfl rfl h₁ h₂

/-- What all threads owe changes by what one of them owes. -/
theorem account_of_effect {t : Fin n} {c' : Cache} {p' : Phase}
    (h : Effect s.cache (s.threads t) c' p') :
    Account s (.next t) ⟨c', Function.update s.threads t p'⟩ := by
  have hadds : pendingAdds ⟨c', Function.update s.threads t p'⟩ + (s.threads t).adds =
      s.pendingAdds + p'.adds := tally_update _ _ _ _
  have hsubs : pendingSubs ⟨c', Function.update s.threads t p'⟩ + (s.threads t).subs =
      s.pendingSubs + p'.subs := tally_update _ _ _ _
  cases h with
  | none htotal hlen ha hb => exact .none htotal hlen (by omega) (by omega)
  | removes htotal hlen ha hb => exact .removes htotal hlen (by omega) (by omega)
  | inserts htotal hlen ha hb => exact .inserts htotal hlen (by omega) (by omega)
  | subtracts htotal hlen ha hb => exact .subtracts htotal hlen (by omega) (by omega)
  | adds htotal hlen hp hp' =>
      subst hp'
      rw [hp] at hadds hsubs
      exact .adds hp htotal hlen hadds hsubs

/-- **Every action has one of five effects on the account.** -/
theorem account_of_step (hs : s.Step a s') : Account s a s' := by
  rcases step_cases hs with ⟨t, ins, hidle, rfl⟩ | ⟨t, now, hidle, rfl⟩ | ⟨t, rfl, -, rfl⟩
  · exact account_call hidle rfl rfl
  · exact account_call hidle rfl rfl
  · exact account_of_effect (advance_effect _ _)

/-- The account balances, up to wrap-around. -/
def Balanced (s : Shared n) : Prop :=
  s.cache.len + UInt64.ofNat s.pendingAdds =
    UInt64.ofNat s.cache.total + UInt64.ofNat s.pendingSubs

theorem pendingAdds_of_quiescent (h : s.Quiescent) : s.pendingAdds = 0 :=
  tally_eq_zero fun t => by rw [h t]; rfl

theorem pendingSubs_of_quiescent (h : s.Quiescent) : s.pendingSubs = 0 :=
  tally_eq_zero fun t => by rw [h t]; rfl

theorem quiescent_init (hashing : Hashing) (capacity : UInt64) (cap : UInt32) :
    (init n hashing capacity cap).Quiescent := fun _ => rfl

theorem balanced_init (hashing : Hashing) (capacity : UInt64) (cap : UInt32) :
    (init n hashing capacity cap).Balanced := by
  have hq := quiescent_init (n := n) hashing capacity cap
  have htotal : (init n hashing capacity cap).cache.total = 0 := total_new _ _ _
  rw [Balanced, pendingAdds_of_quiescent hq, pendingSubs_of_quiescent hq, htotal]
  rfl

/-- One action keeps the account balanced. -/
theorem Balanced.step (h : s.Balanced) (hs : s.Step a s') : s'.Balanced := by
  unfold Balanced at h ⊢
  cases account_of_step hs with
  | none htotal hlen hadds hsubs =>
      rw [htotal, hlen, hadds, hsubs]
      exact h
  | removes htotal hlen hadds hsubs =>
      rw [← htotal, UInt64.ofNat_add] at h
      rw [hlen, hadds, hsubs, UInt64.ofNat_add, h, UInt64.add_assoc, UInt64.add_comm (.ofNat _)
        (.ofNat s.pendingSubs)]
  | inserts htotal hlen hadds hsubs =>
      rw [htotal, hlen, hadds, hsubs, UInt64.ofNat_add, UInt64.ofNat_add, ← UInt64.add_assoc, h,
        UInt64.add_assoc, UInt64.add_assoc, UInt64.add_comm (.ofNat 1)]
  | subtracts htotal hlen hadds hsubs =>
      rw [← hsubs, UInt64.ofNat_add, ← UInt64.add_assoc] at h
      rw [htotal, hlen, hadds, UInt64.sub_eq_add_neg, UInt64.add_assoc, UInt64.add_comm (-_),
        ← UInt64.add_assoc, h, ← UInt64.sub_eq_add_neg, UInt64.add_sub_cancel]
  | adds hp htotal hlen hadds hsubs =>
      rw [← hadds, UInt64.ofNat_add, UInt64.add_comm (.ofNat _), ← UInt64.add_assoc] at h
      rw [htotal, hlen, hsubs, ← h]
      rfl

/--
**The counter is consistent.** However many threads insert and reap, and however their steps are
interleaved: in every state the counter differs from the number of entries exactly by the
additions and subtractions that are still to come, and when no operation is in progress it is
the number of entries. The arithmetic is the counter's own, modulo its size.
-/
theorem counter_consistent (n : Nat) (hashing : Hashing) (capacity : UInt64) (cap : UInt32)
    (s : Shared n)
    (h : Steps.Reachable (init n hashing capacity cap) Step (fun _ _ => True) s) :
    s.cache.len + UInt64.ofNat s.pendingAdds =
        UInt64.ofNat s.cache.total + UInt64.ofNat s.pendingSubs ∧
      (s.Quiescent → s.cache.len = UInt64.ofNat s.cache.total) := by
  have hbal : s.Balanced :=
    Steps.Reachable.invariant (balanced_init hashing capacity cap) (fun _ _ _ h hs => h.step hs) h
  refine ⟨hbal, fun hq => ?_⟩
  rw [Balanced, pendingAdds_of_quiescent hq, pendingSubs_of_quiescent hq] at hbal
  simpa using hbal

/-- Two threads. -/
def one : Fin 2 := 0
def other : Fin 2 := 1

/-- An insertion is done with its shard, and another one is looking for room. -/
def busy : Shared 2 :=
  (Steps.attempt step (fun _ _ => True) (init 2 plainHashing 1 300)
    [.insert one (answerFor Str.empty 60) (fun _ => .asStored) 0, .next one, .next one, .next one,
      .insert other (answerFor Str.a 60) (fun _ => .asStored) 0, .next other, .next other]).get
    (by decide +kernel)

theorem busy_reachable : Steps.Reachable (init 2 plainHashing 1 300) Step (fun _ _ => True) busy :=
  Steps.reachable_attempt _ _ _

theorem busy_consistent :
    busy.cache.len + UInt64.ofNat busy.pendingAdds =
        UInt64.ofNat busy.cache.total + UInt64.ofNat busy.pendingSubs :=
  (counter_consistent 2 plainHashing 1 300 busy busy_reachable).1

/-! ## Wrap-around -/

/-- A step that removes entries leaves at least as many as there are additions still to come, and
one that adds finds a counter that is not at its end. -/
def Counting (s : Shared n) : Act n → Prop
  | .next t =>
      ((s.threads t).removes s.cache ≠ 0 →
        s.pendingAdds + (s.threads t).removes s.cache ≤ s.cache.total) ∧
      ((s.threads t).adds ≠ 0 → s.cache.len.toNat + 1 < 2 ^ 64)
  | _ => True

/-- The account balances in the natural numbers, and the entries that are not yet counted are
there. -/
structure Covered (s : Shared n) : Prop where
  balance : s.cache.len.toNat + s.pendingAdds = s.cache.total + s.pendingSubs
  uncounted : s.pendingAdds ≤ s.cache.total

theorem covered_init (hashing : Hashing) (capacity : UInt64) (cap : UInt32) :
    (init n hashing capacity cap).Covered := by
  have hq := quiescent_init (n := n) hashing capacity cap
  have htotal : (init n hashing capacity cap).cache.total = 0 := total_new _ _ _
  have hadds := pendingAdds_of_quiescent hq
  have hsubs := pendingSubs_of_quiescent hq
  constructor
  · rw [hadds, hsubs, htotal]
    rfl
  · omega

/-- What a thread owes is there to be subtracted. -/
theorem Covered.subs_le (h : s.Covered) (t : Fin n) : (s.threads t).subs ≤ s.cache.len.toNat := by
  have hle : (s.threads t).subs ≤ s.pendingSubs := le_tally Phase.subs s.threads t
  have hbal := h.balance
  have hun := h.uncounted
  omega

theorem toNat_sub_ofNat {x : UInt64} {d : Nat} (h : d ≤ x.toNat) :
    (x - UInt64.ofNat d).toNat = x.toNat - d := by
  have hx := x.toNat_lt
  have hd : (UInt64.ofNat d).toNat = d := UInt64.toNat_ofNat_of_lt (by rw [UInt64.size]; omega)
  rw [UInt64.toNat_sub_of_le _ _ (UInt64.le_iff_toNat_le.mpr (by omega)), hd]

/-- One action keeps the counter from wrapping. -/
theorem Covered.step (h : s.Covered) (hok : s.Counting a) (hs : s.Step a s') : s'.Covered := by
  have hbal := h.balance
  have hun := h.uncounted
  cases account_of_step hs with
  | none htotal hlen hadds hsubs =>
      constructor
      · rw [htotal, hlen, hadds, hsubs]
        exact hbal
      · omega
  | removes htotal hlen hadds hsubs =>
      -- the condition leaves the uncounted entries where they are
      have hleft := hok.1
      constructor
      · rw [hlen]
        omega
      · omega
  | inserts htotal hlen hadds hsubs =>
      constructor
      · rw [hlen]
        omega
      · omega
  | @subtracts t _ htotal hlen hadds hsubs =>
      have hle := h.subs_le t
      constructor
      · rw [hlen, toNat_sub_ofNat hle]
        omega
      · omega
  | adds hp htotal hlen hadds hsubs =>
      have hend := hok.2 (by rw [hp]; decide)
      have hnext : (s.cache.len + 1).toNat = s.cache.len.toNat + 1 := by
        rw [UInt64.toNat_add]
        exact Nat.mod_eq_of_lt hend
      constructor
      · rw [hlen, hnext]
        omega
      · omega

/--
**The counter does not wrap, as long as entries that are not yet counted are left alone.** In
every run whose removals leave at least as many entries as there are additions still to come, and
however the steps are interleaved, every subtraction finds at least what it subtracts, and the
counter is never above the entries and the subtractions that are still to come.
-/
theorem counter_never_wraps (n : Nat) (hashing : Hashing) (capacity : UInt64) (cap : UInt32)
    (s : Shared n) (h : Steps.Reachable (init n hashing capacity cap) Step Counting s) :
    (∀ t, (s.threads t).subs ≤ s.cache.len.toNat) ∧
      s.cache.len.toNat ≤ s.cache.total + s.pendingSubs := by
  have hcov : s.Covered :=
    Steps.Reachable.invariant_of_ok (covered_init hashing capacity cap)
      (fun _ _ _ h hok hs => h.step hok hs) h
  have hbal := hcov.balance
  exact ⟨hcov.subs_le, by omega⟩

instance (s : Shared n) : (a : Act n) → Decidable (s.Counting a)
  | .next _ => inferInstanceAs (Decidable (_ ∧ _))
  | .insert _ _ _ _ | .evictExpired _ _ => isTrue trivial

/-- An entry is stored and counted, and the reaper removes it from the fifth shard when it has
expired. -/
def reaped : Shared 2 :=
  (Steps.attempt step Counting (init 2 plainHashing 10 300)
    ([.insert one (answerFor Str.empty 1) (fun _ => .asStored) 0, .next one, .next one, .next one, .next one,
      .evictExpired other nanosPerSec] ++ List.replicate 9 (.next other))).get
    (by decide +kernel)

theorem reaped_reachable : Steps.Reachable (init 2 plainHashing 10 300) Step Counting reaped :=
  Steps.reachable_attempt _ _ _

theorem reaped_not_wrapped :
    (reaped.threads other).subs = 1 ∧ (reaped.threads other).subs ≤ reaped.cache.len.toNat :=
  ⟨by decide +kernel, (counter_never_wraps 2 plainHashing 10 300 reaped reaped_reachable).1 other⟩

/-- An entry is stored and expires, and is removed before it is counted. -/
def overtaken : Shared 2 :=
  (Steps.attempt step (fun _ _ => True) (init 2 plainHashing 10 300)
    ([.insert one (answerFor Str.empty 1) (fun _ => .asStored) 0, .next one, .next one, .next one,
      .evictExpired other nanosPerSec] ++ List.replicate 9 (.next other))).get
    (by decide +kernel)

/-- Its subtraction finds a counter at zero, and sends it to the other end. -/
theorem counter_wraps :
    Steps.Reachable (init 2 plainHashing 10 300) Step (fun _ _ => True) overtaken ∧
      overtaken.cache.len = 0 ∧ (overtaken.threads other).subs = 1 ∧
      (overtaken.step (.next other)).any (fun s => s.cache.len.toNat == 2 ^ 64 - 1) = true :=
  ⟨Steps.reachable_attempt _ _ _, by decide +kernel, by decide +kernel,
    by decide +kernel⟩

end Shared

end Dnser.Cache
