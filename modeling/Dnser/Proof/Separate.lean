import Dnser.Proof.CacheSize
import Dnser.Proof.Progress

/-!
# Calls that do not overlap

What is proved of sequences of calls on `Dnser.Cache.Store` is about the threads of
`Dnser.Cache.Concurrent` too, as long as one of them waits for the other: whoever makes the calls, and
however many steps and locks they take, **the cache they leave behind is the one that the calls in one
go compute**, one after the other; and there is no such sequence that the threads cannot make.
-/

namespace Dnser.Cache

open Steps (Reachable Run)
open Utf8 (Str)

/-- The call that is made, if one is. -/
def Act.op {n : Nat} : Act n → Option (Nat × Op)
  | .insert _ response order now => some (now, .insert order response)
  | .evictExpired _ now => some (now, .evictExpired)
  | .next _ => none

/-- A call that takes a lock. -/
def Op.Locks (cap : UInt32) : Op → Prop
  | .get _ => False
  | .insert _ response => (admits cap response).isSome
  | .evictExpired => True

theorem Alone.eq_of_idle {c c' : Cache} (h : Alone c .idle c') : c = c' := by
  cases h with
  | idle => rfl
  | step hne _ => exact absurd rfl hne

namespace Shared

variable {n : Nat} {s s' : Shared n} {t : Fin n} {a : Act n} {c : Cache}

/-- A call is made when none is in progress. -/
def Separate (s : Shared n) : Act n → Prop
  | .next _ => True
  | _ => s.Quiescent

/-- One thread at most is busy, and it gets to this cache. -/
def Towards (c : Cache) (s : Shared n) : Prop :=
  (s.Quiescent ∧ s.cache = c) ∨ ∃ t, s.threads t ≠ .idle ∧ (∀ u, u ≠ t → s.threads u = .idle) ∧
    Alone s.cache (s.threads t) c

theorem Towards.eq (h : s.Towards c) (hq : s.Quiescent) : s.cache = c := by
  rcases h with ⟨-, hc⟩ | ⟨t, ht, -⟩
  · exact hc
  · exact absurd (hq t) ht

/-- Where the others are idle, it is up to one thread. -/
theorem towards_of_alone {c' : Cache} {p : Phase} {threads : Fin n → Phase}
    (hothers : ∀ u, u ≠ t → threads u = .idle) (h : Alone c' p c) :
    Towards c ⟨c', Function.update threads t p⟩ := by
  have hself : Function.update threads t p t = p := Function.update_self t p threads
  have hidle : ∀ u, u ≠ t → Function.update threads t p u = .idle := by
    intro u hu
    rw [Function.update_of_ne hu]
    exact hothers u hu
  by_cases hp : p = .idle
  · subst hp
    refine .inl ⟨fun u => ?_, h.eq_of_idle⟩
    by_cases hu : u = t
    · rw [hu]
      exact hself
    · exact hidle u hu
  · refine .inr ⟨t, ?_, hidle, ?_⟩
    · dsimp only
      rw [hself]
      exact hp
    · dsimp only
      rw [hself]
      exact h

/-- **A step goes on towards the same cache**, or begins the next call. -/
theorem Towards.step (h : s.Towards c) (hok : s.Separate a) (hs : s.Step a s') :
    s'.Towards (c.run a.op.toList) := by
  cases a with
  | insert t response order now =>
      have hc := h.eq hok
      subst hc
      unfold Step Shared.step at hs
      dsimp only at hs
      split at hs
      · rename_i question ttl _ hadmits
        cases hs
        exact towards_of_alone (fun u _ => hok u) (alone_insert hadmits order now)
      · cases hs
  | evictExpired t now =>
      have hc := h.eq hok
      subst hc
      unfold Step Shared.step at hs
      dsimp only at hs
      split at hs
      · cases hs
        exact towards_of_alone (fun u _ => hok u) (alone_reap now _)
      · cases hs
  | next t =>
      obtain ⟨hbusy, rfl⟩ := step_next hs
      rcases h with ⟨hq, -⟩ | ⟨t', -, hothers, halone⟩
      · exact absurd (hq t) hbusy
      · -- nobody else can have made the step
        obtain rfl : t = t' := by
          by_contra hne
          exact hbusy (hothers t hne)
        generalize s.threads t = p at halone hbusy ⊢
        cases halone with
        | idle => exact absurd rfl hbusy
        | step _ hrest => exact towards_of_alone hothers hrest

theorem Towards.run {acts : List (Act n)} (h : s.Towards c) (hrun : Run Step Separate s acts s') :
    s'.Towards (c.run (acts.filterMap Act.op)) := by
  induction hrun generalizing c with
  | nil => exact h
  | @cons _ _ _ a acts hok hs _ ih =>
      have hrest := ih (h.step hok hs)
      cases hop : a.op with
      | none =>
          rw [hop] at hrest
          rw [List.filterMap_cons_none hop]
          exact hrest
      | some op =>
          rw [hop] at hrest
          rw [List.filterMap_cons_some hop]
          exact hrest

/-- A call can be made, and be seen through to its end. -/
theorem exists_run_of_call {op : Nat × Op} (c : Cache) (hop : op.2.Locks c.maxNegativeTtl) (t : Fin n) :
    ∃ acts, Run Step Separate (⟨c, fun _ => .idle⟩ : Shared n) acts ⟨c.step op, fun _ => .idle⟩ ∧
      acts.filterMap Act.op = [op] := by
  have hq : Quiescent (⟨c, fun _ => .idle⟩ : Shared n) := fun _ => rfl
  -- the call, and the steps of its thread
  obtain ⟨a, s₁, haop, hok, hs, hreach⟩ : ∃ a s₁, Act.op a = some op ∧
      Separate (⟨c, fun _ => .idle⟩ : Shared n) a ∧ Step ⟨c, fun _ => .idle⟩ a s₁ ∧
      Reachable s₁ Step (fun _ a => a = .next t) ⟨c.step op, fun _ => .idle⟩ := by
    obtain ⟨now, op⟩ := op
    cases op with
    | get question => exact absurd hop id
    | insert order response =>
        obtain ⟨s₁, hs, hreach⟩ := insert_alone hq t response order now hop
        exact ⟨.insert t response order now, s₁, rfl, hq, hs, hreach⟩
    | evictExpired =>
        obtain ⟨s₁, hs, hreach⟩ := evictExpired_alone hq t now
        exact ⟨.evictExpired t now, s₁, rfl, hq, hs, hreach⟩
  obtain ⟨acts, hrun⟩ := hreach.exists_run
  have hnone : acts.filterMap Act.op = [] := by
    refine List.filterMap_eq_nil_iff.mpr fun a ha => ?_
    rw [hrun.label a ha]
    rfl
  refine ⟨a :: acts, .cons hok hs (hrun.mono fun _ a ha => ?_), ?_⟩
  · rw [ha]
    trivial
  · rw [List.filterMap_cons_some haop, hnone]

/-- So can any number of them. -/
theorem exists_run_of_calls (t : Fin n) (ops : List (Nat × Op)) (c : Cache)
    (hops : ∀ op ∈ ops, op.2.Locks c.maxNegativeTtl) :
    ∃ acts, Run Step Separate (⟨c, fun _ => .idle⟩ : Shared n) acts ⟨c.run ops, fun _ => .idle⟩ ∧
      acts.filterMap Act.op = ops := by
  induction ops generalizing c with
  | nil => exact ⟨[], .nil, rfl⟩
  | cons op ops ih =>
      obtain ⟨acts, hrun, hacts⟩ := exists_run_of_call c (hops op List.mem_cons_self) t
      have hcap : (c.step op).maxNegativeTtl = c.maxNegativeTtl := (sameConfig_step c op).2.1
      obtain ⟨acts', hrun', hacts'⟩ := ih (c.step op) fun op' hop' =>
        hcap ▸ hops op' (List.mem_cons_of_mem _ hop')
      refine ⟨acts ++ acts', hrun.append hrun', ?_⟩
      rw [List.filterMap_append, hacts, hacts']
      rfl

/--
**Calls that do not overlap are calls in one go.** Any number of threads make calls on a new cache, each
when none is in progress: when all of them are idle again, the cache is the one that the sequence of
calls computes. And every sequence of calls can be made that way. The calls are those that take a lock:
an insertion of what is not cacheable returns before that, and is left out.
-/
theorem separate_calls_refine (n : Nat) (t : Fin n) (hashing : Hashing) (capacity : UInt64)
    (cap : UInt32) (ops : List (Nat × Op)) (hops : ∀ op ∈ ops, op.2.Locks cap) (s : Shared n) :
    (s.Quiescent ∧ ∃ acts, Run Step Separate (init n hashing capacity cap) acts s ∧
        acts.filterMap Act.op = ops) ↔
      s = ⟨(Cache.new hashing capacity cap).run ops, fun _ => .idle⟩ := by
  constructor
  · rintro ⟨hq, acts, hrun, rfl⟩
    have htowards : (init n hashing capacity cap).Towards (Cache.new hashing capacity cap) :=
      .inl ⟨fun _ => rfl, rfl⟩
    have hcache := (htowards.run hrun).eq hq
    have hthreads : s.threads = fun _ => .idle := funext hq
    cases s
    subst hcache hthreads
    rfl
  · rintro rfl
    exact ⟨fun _ => rfl, exists_run_of_calls t ops (Cache.new hashing capacity cap) hops⟩

/-- A response is stored, and the cache is reaped. -/
def storedReaped : List (Nat × Op) :=
  [(0, .insert (fun _ => .asStored) (answerFor Str.empty 60)), (1, .evictExpired)]

theorem storedReaped_refine : ∃ (acts : List (Act 2)) (s : Shared 2),
    Run Step Separate (init 2 plainHashing 10 300) acts s ∧ acts.filterMap Act.op = storedReaped ∧
      s.cache = (Cache.new plainHashing 10 300).run storedReaped := by
  have hops : ∀ op ∈ storedReaped, op.2.Locks 300 := by
    intro op hop
    simp only [storedReaped, List.mem_cons, List.not_mem_nil, or_false] at hop
    rcases hop with rfl | rfl
    · show (admits 300 (answerFor Str.empty 60)).isSome = true
      decide +kernel
    · trivial
  obtain ⟨-, acts, hrun, hacts⟩ :=
    (separate_calls_refine 2 0 plainHashing 10 300 storedReaped hops _).mpr rfl
  exact ⟨acts, _, hrun, hacts, rfl⟩

end Shared

end Dnser.Cache
