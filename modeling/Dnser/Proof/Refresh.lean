import Dnser.Proof.CacheSize

/-!
# Storing a response again

`Cache::insert` makes room before it looks whether the key is there already. A full cache that is
given a newer response for a key it holds needs no room, and makes some all the same: it throws
out an entry of the key's own shard. If that happens to be the old response the counter comes out
even, and otherwise some other response is lost for nothing.
-/

namespace Dnser

open Utf8 (Str)

namespace Cache

/-! ## Who can be thrown out -/

/-- A scan goes on where it left off, unless it has found what it looks for. -/
theorem scanVictim_append (now : Nat) (xs ys : List (Σ _ : CacheKey, CacheEntry))
    (first : Option CacheKey) :
    scanVictim now first (xs ++ ys) =
      if (scanVictim now first xs).1.isSome then scanVictim now first xs
      else scanVictim now (scanVictim now first xs).2 ys := by
  induction xs generalizing first with
  | nil => rfl
  | cons ke xs ih =>
      obtain ⟨k, e⟩ := ke
      rw [List.cons_append, scanVictim, scanVictim]
      by_cases hexp : e.expiresAt ≤ now
      · simp only [if_pos hexp, Option.isSome_some, if_true]
      · simp only [if_neg hexp]
        exact ih _

/-- The entry under `key` is the only one that can go: there is no other, or it is expired and no
other is. -/
def OnlyVictim (s : Shard) (key : CacheKey) (now : Nat) : Prop :=
  ∀ k e, k ≠ key → s.lookup k = some e →
    now < e.expiresAt ∧ ∃ e₀, s.lookup key = some e₀ ∧ e₀.expiresAt ≤ now

/-- The order in which the entry under `key` comes last. -/
def ownLast (key : CacheKey) : ShardOrder := .first fun k => k ≠ key

/-- Met last, the entry under `key` goes only if it has to. -/
theorem evictOne_ownLast {s : Shard} {key : CacheKey} {now : Nat} (h : ¬ OnlyVictim s key now) :
    ∃ v e, v ≠ key ∧ s.lookup v = some e ∧ evictOne (ownLast key) s now = (true, s.erase v) := by
  have hothers : ∀ v e, (⟨v, e⟩ : Σ _ : CacheKey, CacheEntry) ∈
      s.entries.filter (fun ke => decide (ke.1 ≠ key)) ↔ s.lookup v = some e ∧ v ≠ key := by
    intro v e
    rw [List.mem_filter, Table.mem_entries_iff, decide_eq_true_iff]
  have hscan := scanVictim_append now (s.entries.filter fun ke => decide (ke.1 ≠ key))
    (s.entries.filter fun ke => !decide (ke.1 ≠ key)) none
  unfold evictOne ownLast Table.IterOrder.first
  dsimp only
  rw [hscan]
  rcases scanVictim_cases now (s.entries.filter fun ke => decide (ke.1 ≠ key)) none with
    ⟨v, e, hmem, -, hres⟩ | ⟨hlive, hres⟩
  · -- another one is expired
    obtain ⟨he, hv⟩ := (hothers v e).mp hmem
    refine ⟨v, e, hv, he, ?_⟩
    rw [if_pos (by rw [hres]; rfl), hres]
    rfl
  · rw [hres, if_neg (by simp), Option.none_or]
    cases hos : s.entries.filter fun ke => decide (ke.1 ≠ key) with
    | nil =>
        -- there is no other one
        refine absurd (fun v e hv he => ?_) h
        have hmem := (hothers v e).mpr ⟨he, hv⟩
        rw [hos] at hmem
        cases hmem
    | cons ke os =>
        obtain ⟨v, e⟩ := ke
        obtain ⟨he, hv⟩ := (hothers v e).mp (by rw [hos]; exact List.mem_cons_self)
        refine ⟨v, e, hv, he, ?_⟩
        rcases scanVictim_cases now (s.entries.filter fun ke => !decide (ke.1 ≠ key))
            (some v) with ⟨k, e₀, hmem, hexp, -⟩ | ⟨-, hown⟩
        · -- if its own entry were expired it would be the only victim
          rw [List.mem_filter, Table.mem_entries_iff] at hmem
          obtain rfl : k = key := by simpa using hmem.2
          refine absurd (fun v' e' hv' he' => ?_) h
          exact ⟨hlive _ ((hothers v' e').mpr ⟨he', hv'⟩), e₀, hmem.1, hexp⟩
        · rw [List.head?_cons, Option.map_some, hown]
          rfl

/-- Whoever is asked first, the only possible victim is the one. -/
theorem OnlyVictim.eq {s : Shard} {key : CacheKey} {now : Nat} (h : OnlyVictim s key now)
    {v : CacheKey} {e : CacheEntry} (he : s.lookup v = some e)
    (hexp : ∀ k' e', s.lookup k' = some e' → e'.expiresAt ≤ now → e.expiresAt ≤ now) : v = key := by
  by_cases hv : v = key
  · exact hv
  · obtain ⟨hlive, e₀, he₀, hdead⟩ := h v e hv he
    exact absurd hlive (Nat.not_lt.mpr (hexp key e₀ he₀ hdead))

/-! ## What a refresh leaves alone -/

/-- The entries under keys other than `key`, and the counter, are as they were. -/
def Kept (key : CacheKey) (c c' : Cache) : Prop :=
  (∀ i k, k ≠ key → (c'.shards i).lookup k = (c.shards i).lookup k) ∧ c'.len = c.len

/-- Where there is room, the old response is replaced and that is all. -/
theorem kept_store {c : Cache} {key : CacheKey} {e₀ : CacheEntry} (h : c.lookup key = some e₀)
    (entry : CacheEntry) : Kept key c (c.store key entry) := by
  refine ⟨fun i k hk => shards_store_of_ne c entry i hk, ?_⟩
  show (if (c.lookup key).isNone then _ else _) = _
  rw [h]
  rfl

/-- Where an entry had to go first, all is as it was only if it was the old response. -/
theorem kept_drop_store_iff {c : Cache} {key v : CacheKey} {e : CacheEntry}
    (hv : (c.shards (c.shardIndex key.hash)).lookup v = some e) (entry : CacheEntry) :
    Kept key c ((c.drop (c.shardIndex key.hash) v).store key entry) ↔ v = key := by
  constructor
  · intro hkept
    by_cases hne : v = key
    · exact hne
    · have hsame := hkept.1 (c.shardIndex key.hash) v hne
      rw [shards_store_of_ne _ _ _ hne, hv, shards_drop, Function.update_self,
        AList.lookup_erase] at hsame
      cases hsame
  · intro heq
    subst heq
    refine ⟨fun i k hk => ?_, ?_⟩
    · rw [shards_store_of_ne _ _ _ hk, shards_drop]
      by_cases hi : i = c.shardIndex v.hash
      · subst hi
        rw [Function.update_self, AList.lookup_erase_ne hk]
      · rw [Function.update_of_ne hi]
    · -- the key is gone for a moment, so the new response counts as a new one
      have hnone : (c.drop (c.shardIndex v.hash) v).lookup v = none := by
        rw [Cache.drop, lookup_update, if_pos rfl, AList.lookup_erase]
      show (if ((c.drop (c.shardIndex v.hash) v).lookup v).isNone then c.len - 1 + 1 else _) = _
      rw [hnone, Option.isNone_none, if_pos rfl, UInt64.sub_add_cancel]

/-- In a full cache it is the shard of the key that gives up an entry. -/
theorem makeRoom_of_full {c : Cache} (hfull : c.capacity ≤ c.len) {order : Fin numShards → ShardOrder}
    {now : Nat} {i : Fin numShards} {v : CacheKey}
    (h : evictOne (order i) (c.shards i) now = (true, (c.shards i).erase v)) :
    c.makeRoom order now i = c.drop i v := by
  rw [makeRoom, if_pos hfull, h]
  rfl

/--
**Refreshing evicts nothing exactly if the cache is not full or has no choice.** Whatever order the
tables are iterated in, an accepted response for a key that is there leaves the entries under all
other keys and the counter as they are, if and only if there are fewer entries than the capacity
allows or the old response is the only one of its shard that can be evicted.
-/
theorem refresh_keeps_iff (c : Cache) (response : Message) (now : Nat) (q : Question) (ttl : UInt32)
    (e₀ : CacheEntry) (hadm : admits c.maxNegativeTtl response = some (q, ttl))
    (hpresent : c.lookup (CacheKey.fromQuestion q) = some e₀) :
    (∀ order, Kept (CacheKey.fromQuestion q) c (c.insert order response now)) ↔
      (c.len < c.capacity ∨
        OnlyVictim (c.shards (c.shardIndex (CacheKey.fromQuestion q).hash))
          (CacheKey.fromQuestion q) now) := by
  have hinsert : ∀ order, c.insert order response now =
      (c.makeRoom order now (c.shardIndex (CacheKey.fromQuestion q).hash)).store
        (CacheKey.fromQuestion q) (newEntry response now ttl) := by
    intro order
    rw [insert, hadm]
    rfl
  by_cases hroom : c.len < c.capacity
  · refine iff_of_true (fun order => ?_) (.inl hroom)
    rw [hinsert, makeRoom, if_neg (UInt64.not_le.mpr hroom)]
    exact kept_store hpresent _
  have hfull : c.capacity ≤ c.len := UInt64.not_lt.mp hroom
  constructor
  · intro hkept
    by_cases honly : OnlyVictim (c.shards (c.shardIndex (CacheKey.fromQuestion q).hash))
        (CacheKey.fromQuestion q) now
    · exact .inr honly
    · obtain ⟨v, e, hne, he, hevict⟩ := evictOne_ownLast honly
      have hlost := hkept fun _ => ownLast (CacheKey.fromQuestion q)
      rw [hinsert, makeRoom_of_full hfull hevict] at hlost
      exact absurd ((kept_drop_store_iff he _).mp hlost) hne
  · intro hcond order
    have honly := hcond.resolve_left hroom
    rw [hinsert]
    rcases evictOne_cases (order (c.shardIndex (CacheKey.fromQuestion q).hash)) _ now with
      ⟨hempty, -⟩ | ⟨v, e, he, hevict, hexp⟩
    · -- the old response is in that shard
      have hmem := Table.mem_entries_iff.mpr hpresent
      rw [List.eq_nil_of_length_eq_zero hempty] at hmem
      cases hmem
    · rw [makeRoom_of_full hfull hevict]
      exact (kept_drop_store_iff he _).mpr (honly.eq he hexp)

/-- A cache with room for `capacity` responses that holds one for the root and one for `a`. -/
def twoStored (capacity : UInt64) : Cache :=
  (new plainHashing capacity 300).run
    [(0, .insert (fun _ => .asStored) (answerFor Str.empty 60)),
      (0, .insert (fun _ => .asStored) (answerFor Str.a 60))]

/-- The key of the root, which both of them hold. -/
def rootKey : CacheKey := { name := Str.empty, qtype := 1, qclass := 1 }

/-- With room for a third one, the response for the root is refreshed and `a` stays. -/
theorem twoStored_kept :
    Kept rootKey (twoStored 3) ((twoStored 3).insert (fun _ => .asStored) (answerFor Str.empty 60) 1) :=
  (refresh_keeps_iff (twoStored 3) (answerFor Str.empty 60) 1
    { name := Str.empty, qtype := .a, qclass := Class.IN } 60 (newEntry (answerFor Str.empty 60) 0 60)
    rfl rfl).mpr (.inl (by decide +kernel)) _

/-- Without, `a` is thrown out and the cache is left with one entry. -/
theorem twoStored_lost :
    (twoStored 2).lookup rootKey = some (newEntry (answerFor Str.empty 60) 0 60) ∧
    (twoStored 2).len = 2 ∧
    ((twoStored 2).insert (fun _ => .asStored) (answerFor Str.empty 60) 1).len = 1 ∧
    ¬ Kept rootKey (twoStored 2)
      ((twoStored 2).insert (fun _ => .asStored) (answerFor Str.empty 60) 1) := by
  have hlost : ((twoStored 2).insert (fun _ => .asStored) (answerFor Str.empty 60) 1).len = 1 := by
    decide +kernel
  refine ⟨rfl, by decide +kernel, hlost, fun hkept => ?_⟩
  rw [hkept.2] at hlost
  exact absurd hlost (by decide +kernel)

end Cache

end Dnser
