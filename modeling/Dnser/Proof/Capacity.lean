import Dnser.Proof.Concurrent

/-!
# The capacity under concurrency

An insertion decides from the counter whether there is room, and stores its entry some steps
later. Between the two it has a claim on the cache: the entry it is still going to add. Two
insertions that decide from the same counter can both have such a claim on the last free place,
and the cache grows beyond its capacity.

What keeps it within the capacity is that the entries and the claims together do. Only the
decision makes them more. An insertion that finds its own shard full makes its claim by removing
an entry in the same step. One that finds its shard empty goes through the other shards first, and
for as long as it does there is one claim too many: **either the search comes to an end with an
entry removed, or it has seen every shard empty**, and then it is the only claim there is.
-/

namespace Dnser.Cache

open Utf8 (Str)
open Family

/-! ## Claims -/

namespace Phase

/-- What an insertion adds when it stores its entry now: nothing if it replaces one. -/
def fresh (c : Cache) (ins : Insertion) : Nat :=
  if ((c.shards ins.shard).lookup ins.key).isSome then 0 else 1

/-- The insertion has found its shard empty, and is not done looking for an entry elsewhere or has
not locked its shard again. -/
def searching (c : Cache) : Phase → Bool
  | evict ins => (c.shards ins.shard).size == 0
  | scan _ _ | subFree _ | relock _ => true
  | _ => false

/-- The entries a thread is still going to add, beyond those it removes itself from its shard. -/
def demand (c : Cache) : Phase → Nat
  | evict ins => if (c.shards ins.shard).size = 0 then 1 else 0
  | scan _ _ | subFree _ | relock _ => 1
  | subHeld ins | put ins => fresh c ins
  | _ => 0

theorem fresh_le_one (c : Cache) (ins : Insertion) : fresh c ins ≤ 1 := by
  unfold fresh
  split <;> omega

theorem fresh_of_empty {c : Cache} {ins : Insertion} (h : (c.shards ins.shard).size = 0) :
    fresh c ins = 1 := by
  unfold fresh
  rw [if_neg]
  intro hsome
  have := Table.size_erase hsome
  omega

/-- A claim depends on nothing but the shard whose lock is held. -/
theorem local_of_holds {c c' : Cache} {p : Phase}
    (h : ∀ i, p.holds = some i → c'.shards i = c.shards i) :
    p.demand c' = p.demand c ∧ p.searching c' = p.searching c := by
  cases p with
  | evict ins =>
      have hi := h ins.shard rfl
      simp only [demand, searching, hi, and_self]
  | subHeld ins =>
      have hi := h ins.shard rfl
      simp only [demand, searching, fresh, hi, and_self]
  | put ins =>
      have hi := h ins.shard rfl
      simp only [demand, searching, fresh, hi, and_self]
  | _ => exact ⟨rfl, rfl⟩

end Phase

/-! ## What one step of a thread does -/

section
variable {c : Cache} {p : Phase}

theorem capacity_advance (c : Cache) (p : Phase) : (c.advance p).1.capacity = c.capacity := by
  cases p with
  | evict ins => rcases advance_evict_cases c ins with ⟨-, h⟩ | ⟨shard, -, -, h⟩ <;> rw [h]
  | scan ins is =>
      cases is with
      | nil => rfl
      | cons i is => rcases advance_scan_cases c ins i is with ⟨-, h⟩ | ⟨shard, -, -, -, h⟩ <;> rw [h]
  | reap now is => cases is <;> rfl
  | _ => rfl

/-- A step changes no shard but the one whose lock is held or taken. -/
theorem shards_advance {j : Fin numShards} (hheld : p.holds ≠ some j)
    (hfree : p.acquires ≠ some j) : (c.advance p).1.shards j = c.shards j := by
  cases p with
  | evict ins =>
      rcases advance_evict_cases c ins with ⟨-, h⟩ | ⟨shard, -, -, h⟩
      · rw [h]
      · rw [h]
        exact Function.update_of_ne (fun hj => hheld (by rw [hj]; rfl)) _ _
  | scan ins is =>
      cases is with
      | nil => rfl
      | cons i is =>
          rcases advance_scan_cases c ins i is with ⟨-, h⟩ | ⟨shard, hi, -, -, h⟩
          · rw [h]
          · rw [h]
            refine Function.update_of_ne (fun hj => hfree ?_) _ _
            rw [hj, Phase.acquires, if_neg hi]
  | put ins => exact Function.update_of_ne (fun hj => hheld (by rw [hj]; rfl)) _ _
  | reap now is =>
      cases is with
      | nil => rfl
      | cons i is => exact Function.update_of_ne (fun hj => hfree (by rw [hj]; rfl)) _ _
  | _ => rfl

/-- A lock that is held after a step was held before it or is taken in it. -/
theorem holds_advance {j : Fin numShards} (h : (c.advance p).2.holds = some j) :
    p.holds = some j ∨ p.acquires = some j := by
  cases p with
  | check ins =>
      left
      unfold advance at h
      dsimp only at h
      split at h <;> exact h
  | evict ins =>
      left
      rcases advance_evict_cases c ins with ⟨-, heq⟩ | ⟨shard, -, -, heq⟩
      · rw [heq] at h
        cases h
      · rw [heq] at h
        exact h
  | subHeld ins => exact .inl h
  | scan ins is =>
      cases is with
      | nil => cases h
      | cons i is =>
          rcases advance_scan_cases c ins i is with ⟨-, heq⟩ | ⟨shard, -, -, -, heq⟩
          · rw [heq] at h
            cases h
          · rw [heq] at h
            cases h
  | put ins =>
      unfold advance at h
      dsimp only at h
      split at h <;> cases h
  | reap now is =>
      cases is with
      | nil => cases h
      | cons i is => exact .inr h
  | lock ins => exact .inr h
  | relock ins => exact .inr h
  | idle => cases h
  | subFree ins => cases h
  | add => cases h
  | reapSub now i removed is => cases h

/-- **Entries and claims together do not become more**, except by a decision. -/
theorem potential_advance (hp : ∀ ins, p ≠ .check ins) :
    (c.advance p).1.total + (c.advance p).2.demand (c.advance p).1 ≤ c.total + p.demand c := by
  cases p with
  | check ins => exact absurd rfl (hp ins)
  | evict ins =>
      rcases advance_evict_cases c ins with ⟨h0, h⟩ | ⟨shard, hne, htotal, h⟩
      · rw [h]
        simp [Phase.demand, h0]
      · rw [h]
        have hfresh := Phase.fresh_le_one
          { c with shards := Function.update c.shards ins.shard shard } ins
        simp only [Phase.demand, if_neg hne]
        omega
  | scan ins is =>
      cases is with
      | nil => exact Nat.le_refl _
      | cons i is =>
          rcases advance_scan_cases c ins i is with ⟨-, h⟩ | ⟨shard, -, -, htotal, h⟩
          · rw [h]
            exact Nat.le_refl _
          · rw [h]
            simp only [Phase.demand]
            omega
  | relock ins => exact Nat.add_le_add_left (Phase.fresh_le_one c ins) _
  | put ins =>
      have ht := total_put c ins
      have h0 : (c.advance (.put ins)).2.demand (c.advance (.put ins)).1 = 0 := by
        unfold advance
        dsimp only
        split <;> rfl
      rw [h0, ht, Phase.demand, Phase.fresh]
      split <;> omega
  | reap now is =>
      cases is with
      | nil => exact Nat.le_refl _
      | cons i is =>
          have ht := total_update c i ((c.shards i).retain fun _ e => now < e.expiresAt) c.len
          have hle := Table.size_retain_le (fun _ e => now < e.expiresAt) (c.shards i)
          simp only [advance, Phase.demand]
          omega
  | _ => exact Nat.le_refl _

end

section
variable {c : Cache} {p : Phase}

/-- A claim that is not searched for is made under a lock. -/
theorem Phase.holds_of_demand (hsearch : p.searching c = false) (hdemand : p.demand c ≠ 0) :
    ∃ j, p.holds = some j := by
  cases p with
  | evict ins => exact ⟨_, rfl⟩
  | subHeld ins => exact ⟨_, rfl⟩
  | put ins => exact ⟨_, rfl⟩
  | scan ins is => cases hsearch
  | subFree ins => cases hsearch
  | relock ins => cases hsearch
  | _ => exact absurd rfl hdemand

/-- A step begins no search, except by a decision. -/
theorem searching_advance (hp : ∀ ins, p ≠ .check ins) (hsearch : p.searching c = false) :
    (c.advance p).2.searching (c.advance p).1 = false := by
  cases p with
  | check ins => exact absurd rfl (hp ins)
  | evict ins =>
      rcases advance_evict_cases c ins with ⟨h0, -⟩ | ⟨shard, -, -, h⟩
      · simp [Phase.searching, h0] at hsearch
      · rw [h]
        rfl
  | put ins =>
      unfold advance
      dsimp only
      split <;> rfl
  | reap now is => cases is <;> rfl
  | scan ins is => cases hsearch
  | subFree ins => cases hsearch
  | relock ins => cases hsearch
  | _ => rfl

/-- An empty shard stays empty unless an insertion has a claim and holds its lock. -/
theorem size_advance {j : Fin numShards} (hsearch : p.searching c = false)
    (hj : p.holds = some j → p.demand c = 0) (h0 : (c.shards j).size = 0) :
    ((c.advance p).1.shards j).size = 0 := by
  cases p with
  | evict ins =>
      rcases advance_evict_cases c ins with ⟨-, h⟩ | ⟨shard, hne, -, h⟩
      · rw [h]
        exact h0
      · rw [shards_advance (fun heq => hne (by cases heq; exact h0)) (fun heq => by cases heq)]
        exact h0
  | put ins =>
      -- whatever is in an empty shard would be new
      rw [shards_advance (fun heq => ?_) (fun heq => by cases heq)]
      · exact h0
      · have hnone := hj heq
        cases heq
        rw [Phase.demand, Phase.fresh_of_empty h0] at hnone
        cases hnone
  | scan ins is => cases hsearch
  | reap now is =>
      cases is with
      | nil => exact h0
      | cons i is =>
          by_cases hi : j = i
          · subst hi
            have hle := Table.size_retain_le (fun _ e => now < e.expiresAt) (c.shards j)
            simp only [advance, Function.update_self]
            omega
          · rw [shards_advance (fun heq => by cases heq) (fun heq => hi (by cases heq; rfl))]
            exact h0
  | _ => exact h0

/-- A claim under a lock was there before the step, or is made where there was an entry. -/
theorem demand_advance {j : Fin numShards} (hp : ∀ ins, p ≠ .check ins)
    (hsearch : p.searching c = false) (hheld : (c.advance p).2.holds = some j)
    (hdemand : (c.advance p).2.demand (c.advance p).1 ≠ 0) :
    p.holds = some j ∧ (p.demand c ≠ 0 ∨ (c.shards j).size ≠ 0) := by
  cases p with
  | check ins => exact absurd rfl (hp ins)
  | lock ins => exact absurd rfl hdemand
  | evict ins =>
      rcases advance_evict_cases c ins with ⟨h0, -⟩ | ⟨shard, hne, -, h⟩
      · simp [Phase.searching, h0] at hsearch
      · rw [h] at hheld
        cases hheld
        exact ⟨rfl, .inr hne⟩
  | subHeld ins => exact ⟨hheld, .inl hdemand⟩
  | put ins =>
      unfold advance at hheld
      dsimp only at hheld
      split at hheld <;> cases hheld
  | scan ins is => cases hsearch
  | relock ins => cases hsearch
  | reap now is =>
      cases is with
      | nil => cases hheld
      | cons i is => exact absurd rfl hdemand
  | _ => cases hheld

end

/-! ## What all threads claim -/

namespace Shared

variable {n : Nat} {s s' : Shared n} {a : Act n}

/-- The entries that are still going to be added. -/
def claims (s : Shared n) : Nat := tally (Phase.demand s.cache) s.threads

/-- A thread that goes through the shards in `is`, with nothing to be found in the others. -/
structure Hunt (s : Shared n) (t : Fin n) (ins : Insertion) (is : List (Fin numShards)) : Prop where
  phase : s.threads t = .scan ins is ∨
    s.threads t = .evict ins ∧ is = List.finRange numShards
  /-- The shards behind it are empty. -/
  visited : ∀ j, j = ins.shard ∨ j ∉ is → (s.cache.shards j).size = 0
  /-- Nobody else searches, and the others' claims are on shards that are ahead. -/
  others : ∀ u, u ≠ t → (s.threads u).searching s.cache = false ∧
    ∀ j, (s.threads u).holds = some j → (s.threads u).demand s.cache ≠ 0 → j ≠ ins.shard ∧ j ∈ is

/-- Entries and claims are within the capacity, or beyond it by one that is searched for. -/
def Within (s : Shared n) (capacity : Nat) : Prop :=
  s.cache.total + s.claims ≤ capacity ∨
    s.cache.total + s.claims ≤ capacity + 1 ∧ ∃ t ins is, s.Hunt t ins is

/-- Where locks and claims stand. -/
structure Contained (capacity : UInt64) (s : Shared n) : Prop where
  locks : Exclusive Phase.holds s.threads
  config : s.cache.capacity = capacity
  bound : s.Within capacity.toNat

variable {capacity : Nat} {t u : Fin n} {ins : Insertion} {is : List (Fin numShards)}

theorem Hunt.searching (h : s.Hunt t ins is) : (s.threads t).searching s.cache = true := by
  have h0 := h.visited ins.shard (.inl rfl)
  rcases h.phase with hp | ⟨hp, -⟩
  · rw [hp]
    rfl
  · rw [hp]
    simp [Phase.searching, h0]

theorem Hunt.demand (h : s.Hunt t ins is) : (s.threads t).demand s.cache = 1 := by
  have h0 := h.visited ins.shard (.inl rfl)
  rcases h.phase with hp | ⟨hp, -⟩
  · rw [hp]
    rfl
  · rw [hp]
    simp [Phase.demand, h0]

/-- A search goes on when another thread does nothing to it. -/
theorem Hunt.other (h : s.Hunt t ins is) (hu : u ≠ t) {c' : Cache} {p' : Phase}
    (hlocal : ∀ v, v ≠ u → (s.threads v).demand c' = (s.threads v).demand s.cache ∧
      (s.threads v).searching c' = (s.threads v).searching s.cache)
    (hvisited : ∀ j, j = ins.shard ∨ j ∉ is → (c'.shards j).size = 0)
    (hsearch : p'.searching c' = false)
    (hclaim : ∀ j, p'.holds = some j → p'.demand c' ≠ 0 → j ≠ ins.shard ∧ j ∈ is) :
    Hunt ⟨c', Function.update s.threads u p'⟩ t ins is where
  phase := by
    dsimp only
    rw [Function.update_of_ne hu.symm]
    exact h.phase
  visited := hvisited
  others v hv := by
    dsimp only
    by_cases hvu : v = u
    · rw [hvu, Function.update_self]
      exact ⟨hsearch, hclaim⟩
    · rw [Function.update_of_ne hvu, (hlocal v hvu).1, (hlocal v hvu).2]
      exact h.others v hv

/-- The search makes a step of its own: it goes on, or it has removed an entry, or there is nothing
anywhere. -/
theorem Hunt.step (h : s.Hunt t ins is)
    (hfree : ∀ i, (s.threads t).acquires = some i → ∀ u, (s.threads u).holds ≠ some i) :
    ((s.cache.advance (s.threads t)).1 = s.cache ∧ ∃ is',
      (s.cache.advance (s.threads t)).2 = .scan ins is' ∧
      (∀ j, j = ins.shard ∨ j ∉ is' → (s.cache.shards j).size = 0) ∧
      ∀ u, u ≠ t → ∀ j, (s.threads u).holds = some j → (s.threads u).demand s.cache ≠ 0 →
        j ≠ ins.shard ∧ j ∈ is') ∨
    ((s.cache.advance (s.threads t)).1.total + 1 = s.cache.total ∧
      (s.cache.advance (s.threads t)).2 = .subFree ins) ∨
    (s.cache.total = 0 ∧ s.claims = 1) := by
  rcases h.phase with hp | ⟨hp, hall⟩
  · rw [hp] at hfree ⊢
    cases is with
    | nil =>
        -- the end, and every shard has been empty
        right
        right
        constructor
        · exact total_eq_zero_of_empty fun j => h.visited j (.inr List.not_mem_nil)
        · refine (tally_eq_single fun u hu => ?_).trans h.demand
          by_contra hne
          obtain ⟨hsearch, hclaim⟩ := h.others u hu
          obtain ⟨j, hj⟩ := Phase.holds_of_demand hsearch hne
          exact List.not_mem_nil (hclaim j hj hne).2
    | cons i is =>
        rcases advance_scan_cases s.cache ins i is with ⟨hskip, heq⟩ | ⟨shard, -, -, htotal, heq⟩
        · left
          rw [heq]
          refine ⟨rfl, is, rfl, ?_, ?_⟩
          · intro j hj
            by_cases hji : j = i
            · subst hji
              rcases hskip with hskip | hskip
              · exact h.visited j (.inl hskip)
              · exact hskip
            · refine h.visited j (hj.imp_right fun hnot hmem => ?_)
              rcases List.mem_cons.mp hmem with hmem | hmem
              · exact hji hmem
              · exact hnot hmem
          · intro u hu j hj hne
            obtain ⟨hjs, hmem⟩ := (h.others u hu).2 j hj hne
            refine ⟨hjs, ?_⟩
            rcases List.mem_cons.mp hmem with rfl | hmem
            · -- nobody held the lock of this shard
              refine absurd hj (hfree j ?_ u)
              rw [Phase.acquires, if_neg hjs]
            · exact hmem
        · right
          left
          rw [heq]
          exact ⟨htotal, rfl⟩
  · left
    rw [hp]
    have h0 := h.visited ins.shard (.inl rfl)
    rcases advance_evict_cases s.cache ins with ⟨-, heq⟩ | ⟨shard, hne, -, -⟩
    · rw [heq, ← hall]
      exact ⟨rfl, is, rfl, h.visited, fun u hu => (h.others u hu).2⟩
    · exact absurd h0 hne

/-! ## The bound -/

/-- A thread that is about to decide finds room for its entry besides all entries and claims there
are. Or it finds the cache full, and there is an entry in its own shard or nobody else is searching
for one. -/
def Decides (s : Shared n) (t : Fin n) : Phase → Prop
  | .check ins =>
      s.cache.total + s.claims + Phase.fresh s.cache ins ≤ s.cache.capacity.toNat ∨
      s.cache.capacity ≤ s.cache.len ∧ ((s.cache.shards ins.shard).size ≠ 0 ∨
        ∀ u, u ≠ t → (s.threads u).searching s.cache = false)
  | _ => True

/-- The same for the thread that makes the step. -/
def Guarded (s : Shared n) : Act n → Prop
  | .next t => s.Decides t (s.threads t)
  | _ => True

/-- What other threads claim does not change when a thread makes a step. -/
theorem local_of_step (hlocks : Exclusive Phase.holds s.threads)
    (hfree : ∀ i, (s.threads t).acquires = some i → ∀ u, (s.threads u).holds ≠ some i)
    (hu : u ≠ t) :
    (s.threads u).demand (s.cache.advance (s.threads t)).1 = (s.threads u).demand s.cache ∧
      (s.threads u).searching (s.cache.advance (s.threads t)).1 =
        (s.threads u).searching s.cache := by
  refine Phase.local_of_holds fun i hi => shards_advance ?_ ?_
  · intro hheld
    exact hu (hlocks u t i hi hheld)
  · intro hacq
    exact hfree i hacq u hi

theorem claims_update {c' : Cache} (p' : Phase)
    (hlocal : ∀ u, u ≠ t → (s.threads u).demand c' = (s.threads u).demand s.cache) :
    claims ⟨c', Function.update s.threads t p'⟩ + (s.threads t).demand s.cache =
      s.claims + p'.demand c' :=
  tally_update_of_eq hlocal p'

theorem locks_of_step (hlocks : Exclusive Phase.holds s.threads) (hs : s.Step a s') :
    Exclusive Phase.holds s'.threads := by
  rcases step_cases hs with ⟨t, ins, -, rfl⟩ | ⟨t, now, -, rfl⟩ | ⟨t, rfl, hfree, rfl⟩
  · exact hlocks.update fun l hl => nomatch hl
  · exact hlocks.update fun l hl => nomatch hl
  · exact hlocks.update fun l hl => (holds_advance hl).imp_right (hfree l)

theorem Hunt.ne (h : s.Hunt t ins is) (hu : (s.threads u).searching s.cache = false) : u ≠ t := by
  intro hsame
  subst hsame
  rw [h.searching] at hu
  cases hu

/-- A thread that claims nothing goes on to claim nothing. -/
theorem Within.quiet (h : s.Within capacity) {p : Phase}
    (hold : (s.threads t).demand s.cache = 0 ∧ (s.threads t).searching s.cache = false)
    (hnew : p.demand s.cache = 0 ∧ p.searching s.cache = false) :
    Within ⟨s.cache, Function.update s.threads t p⟩ capacity := by
  have hclaims : claims ⟨s.cache, Function.update s.threads t p⟩ = s.claims := by
    have hupdate := @claims_update n s t s.cache p fun _ _ => rfl
    rw [hold.1, hnew.1] at hupdate
    exact hupdate
  unfold Within
  rw [hclaims]
  refine h.imp_right fun ⟨hle, t', ins, is, hunt⟩ => ⟨hle, t', ins, is, ?_⟩
  exact hunt.other (hunt.ne hold.2) (fun _ _ => ⟨rfl, rfl⟩) hunt.visited hnew.2
    fun j _ hne => absurd hnew.1 hne

/-- A decision claims a place that is there, or begins the only search. -/
theorem Within.check (h : s.Within capacity) (hlocks : Exclusive Phase.holds s.threads)
    (hp : s.threads t = .check ins) (hcap : s.cache.capacity.toNat = capacity)
    (hok : s.Guarded (.next t)) :
    Within ⟨s.cache, Function.update s.threads t (s.cache.advance (.check ins)).2⟩ capacity := by
  have hclaims : ∀ p, claims ⟨s.cache, Function.update s.threads t p⟩ =
      s.claims + p.demand s.cache := by
    intro p
    have hupdate := @claims_update n s t s.cache p fun _ _ => rfl
    rw [hp] at hupdate
    exact hupdate
  rw [Guarded, hp] at hok
  rcases hok with hroom | ⟨hfull, hwhere⟩
  · -- there is room for one more claim
    have hle : (s.cache.advance (.check ins)).2.demand s.cache ≤ Phase.fresh s.cache ins := by
      unfold advance
      dsimp only
      split
      · rw [Phase.demand]
        split
        · rw [Phase.fresh_of_empty (by assumption)]
        · exact Nat.zero_le _
      · exact Nat.le_refl _
    refine .inl ?_
    rw [hclaims]
    dsimp only
    omega
  · have heq : (s.cache.advance (.check ins)).2 = .evict ins := by
      simp only [advance, if_pos hfull]
    rw [heq]
    by_cases h0 : (s.cache.shards ins.shard).size = 0
    · have halone := hwhere.resolve_left (fun hne => hne h0)
      rcases h with h | ⟨-, t', ins', is', hunt⟩
      · -- the search begins
        refine .inr ⟨?_, t, ins, List.finRange numShards, ?_, ?_, ?_⟩
        · rw [hclaims, Phase.demand, if_pos h0]
          dsimp only
          omega
        · exact .inr ⟨Function.update_self _ _ _, rfl⟩
        · intro j hj
          rcases hj with rfl | hj
          · exact h0
          · exact absurd (List.mem_finRange j) hj
        · intro u hu
          dsimp only
          rw [Function.update_of_ne hu]
          refine ⟨halone u hu, fun j hj _ => ⟨?_, List.mem_finRange j⟩⟩
          intro hsame
          subst hsame
          exact hu (hlocks u t _ hj (by rw [hp]; rfl))
      · -- another one is going on
        have ht : t ≠ t' := hunt.ne (by rw [hp]; rfl)
        exact absurd rfl (hunt.ne (halone t' ht.symm))
    · refine h.quiet ⟨by rw [hp]; rfl, by rw [hp]; rfl⟩ ⟨by rw [Phase.demand, if_neg h0], ?_⟩
      simp [Phase.searching, h0]

/-- Any other step. -/
theorem Within.next (h : s.Within capacity) (hlocks : Exclusive Phase.holds s.threads)
    (hcap : 1 ≤ capacity) (hp : ∀ ins, s.threads t ≠ .check ins)
    (hfree : ∀ i, (s.threads t).acquires = some i → ∀ u, (s.threads u).holds ≠ some i) :
    Within ⟨(s.cache.advance (s.threads t)).1,
      Function.update s.threads t (s.cache.advance (s.threads t)).2⟩ capacity := by
  have hlocal : ∀ u, u ≠ t → _ := fun u hu => local_of_step hlocks hfree hu
  have hclaims := claims_update (s.cache.advance (s.threads t)).2 fun u hu => (hlocal u hu).1
  have hpot := potential_advance (c := s.cache) hp
  rcases h with h | ⟨h, t', ins, is, hunt⟩
  · exact .inl (by dsimp only; omega)
  by_cases ht : t = t'
  · subst ht
    have hone := hunt.demand
    rcases hunt.step hfree with ⟨hcache, is', hphase, hvisited, hothers⟩ | ⟨htotal, hphase⟩ | ⟨h0, h1⟩
    · refine .inr ⟨by dsimp only; omega, t, ins, is', ?_, ?_, ?_⟩
      · left
        dsimp only
        rw [Function.update_self, hphase]
      · dsimp only
        rw [hcache]
        exact hvisited
      · intro u hu
        dsimp only
        rw [Function.update_of_ne hu, hcache]
        exact ⟨(hunt.others u hu).1, hothers u hu⟩
    · -- an entry is gone
      rw [hphase, Phase.demand] at hclaims
      exact .inl (by dsimp only; rw [hphase]; omega)
    · -- nothing is anywhere, and this is the only claim
      exact .inl (by dsimp only; omega)
  · obtain ⟨hsearch, hclaim⟩ := hunt.others t ht
    refine .inr ⟨by dsimp only; omega, t', ins, is, hunt.other ht hlocal ?_ ?_ ?_⟩
    · intro j hj
      refine size_advance hsearch (fun hheld => ?_) (hunt.visited j hj)
      by_contra hne
      obtain ⟨h1, h2⟩ := hclaim j hheld hne
      exact hj.elim h1 fun hnot => hnot h2
    · exact searching_advance hp hsearch
    · intro j hheld hne
      obtain ⟨hold, hwas | hfull⟩ := demand_advance hp hsearch hheld hne
      · exact hclaim j hold hwas
      · -- there is an entry, so the search is not past this shard
        constructor
        · intro hjs
          exact hfull (hunt.visited j (.inl hjs))
        · by_contra hnot
          exact hfull (hunt.visited j (.inr hnot))

theorem contained_init (n : Nat) (hashing : Hashing) (capacity : UInt64) (cap : UInt32) :
    Contained capacity (init n hashing capacity cap) where
  locks _ _ _ h := nomatch h
  config := rfl
  bound := by
    have htotal : (init n hashing capacity cap).cache.total = 0 := total_new _ _ _
    have hclaims : (init n hashing capacity cap).claims = 0 := tally_eq_zero fun _ => rfl
    exact .inl (by omega)

theorem capacity_of_step (hs : s.Step a s') : s'.cache.capacity = s.cache.capacity := by
  rcases step_cases hs with ⟨t, ins, -, rfl⟩ | ⟨t, now, -, rfl⟩ | ⟨t, rfl, -, rfl⟩
  · rfl
  · rfl
  · exact capacity_advance _ _

/-- One action keeps entries and claims within the capacity. -/
theorem Contained.step {capacity : UInt64} (hcap : 1 ≤ capacity) (h : Contained capacity s)
    (hok : s.Guarded a) (hs : s.Step a s') : Contained capacity s' := by
  have hone : 1 ≤ capacity.toNat := UInt64.le_iff_toNat_le.mp hcap
  refine ⟨locks_of_step h.locks hs, (capacity_of_step hs).trans h.config, ?_⟩
  rcases step_cases hs with ⟨t, ins, hidle, rfl⟩ | ⟨t, now, hidle, rfl⟩ | ⟨t, rfl, hfree, rfl⟩
  · exact h.bound.quiet ⟨by rw [hidle]; rfl, by rw [hidle]; rfl⟩ ⟨rfl, rfl⟩
  · exact h.bound.quiet ⟨by rw [hidle]; rfl, by rw [hidle]; rfl⟩ ⟨rfl, rfl⟩
  · by_cases hp : ∃ ins, s.threads t = .check ins
    · obtain ⟨ins, hp⟩ := hp
      rw [hp]
      exact h.bound.check h.locks hp (by rw [h.config]) hok
    · exact h.bound.next h.locks hone (fun ins heq => hp ⟨ins, heq⟩) hfree

/--
**The cache is bounded, as long as no two insertions count on the same place.** In every run in
which every decision finds room besides all entries and claims, or finds the cache full with an
entry to remove in its own shard or with nobody else searching for one, there are never more
entries than the capacity allows: not when no operation is in progress, and not in between.
-/
theorem capacity_bounded (n : Nat) (hashing : Hashing) (capacity : UInt64) (cap : UInt32)
    (hcap : 1 ≤ capacity) (s : Shared n)
    (h : Steps.Reachable (init n hashing capacity cap) Step Guarded s) :
    s.cache.total ≤ capacity.toNat := by
  have hcontained : Contained capacity s :=
    Steps.Reachable.invariant_of_ok (contained_init n hashing capacity cap)
      (fun _ _ _ h hok hs => h.step hcap hok hs) h
  rcases hcontained.bound with hle | ⟨hle, t, ins, is, hunt⟩
  · omega
  · have hone : (s.threads t).demand s.cache ≤ s.claims := le_tally _ s.threads t
    rw [hunt.demand] at hone
    omega

instance (s : Shared n) (t : Fin n) : (p : Phase) → Decidable (s.Decides t p)
  | .check _ => inferInstanceAs (Decidable (_ ∨ _ ∧ (_ ∨ ∀ u, u ≠ t → _)))
  | .idle | .lock _ | .evict _ | .subHeld _ | .scan _ _ | .subFree _ | .relock _ | .put _ | .add
  | .reap _ _ | .reapSub _ _ _ _ => isTrue trivial

instance (s : Shared n) : (a : Act n) → Decidable (s.Guarded a)
  | .next t => inferInstanceAs (Decidable (s.Decides t (s.threads t)))
  | .insert _ _ _ _ | .evictExpired _ _ => isTrue trivial

/-- Two insertions one after the other, into a cache with room for one entry. -/
def replaced : Shared 2 :=
  (Steps.attempt step Guarded (init 2 plainHashing 1 300)
    ([.insert one (answerFor Str.empty 60) (fun _ => .asStored) 0] ++ List.replicate 4 (.next one) ++
      [.insert other (answerFor Str.a 60) (fun _ => .asStored) 1] ++
      List.replicate 6 (.next other))).get
    (by decide +kernel)

theorem replaced_reachable : Steps.Reachable (init 2 plainHashing 1 300) Step Guarded replaced :=
  Steps.reachable_attempt _ _ _

theorem replaced_bounded : replaced.Quiescent ∧ replaced.cache.total ≤ 1 :=
  ⟨by decide +kernel,
    capacity_bounded 2 plainHashing 1 300 (by decide) replaced replaced_reachable⟩

/-- Two insertions that both find an empty cache. -/
def overfull : Shared 2 :=
  (Steps.attempt step (fun _ _ => True) (init 2 plainHashing 1 300)
    ([.insert one (answerFor Str.empty 60) (fun _ => .asStored) 0,
      .insert other (answerFor Str.a 60) (fun _ => .asStored) 0] ++
      List.replicate 3 (.next one) ++ List.replicate 4 (.next other) ++ [.next one])).get
    (by decide +kernel)

/-- Both are stored, and nothing removes the second. -/
theorem capacity_exceeded :
    Steps.Reachable (init 2 plainHashing 1 300) Step (fun _ _ => True) overfull ∧
      overfull.Quiescent ∧ ¬ overfull.cache.total ≤ (1 : UInt64).toNat :=
  ⟨Steps.reachable_attempt _ _ _, by decide +kernel, by decide +kernel⟩

end Shared

end Dnser.Cache
