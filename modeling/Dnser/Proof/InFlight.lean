import Dnser.Resolver.InFlight
import Mathlib.Data.List.Nodup

/-!
# The in-flight table

Two questions about `UpstreamSocket`. Who does an entry of the map belong to, and where do
datagrams go? Everything about these is in `Inv`: a sender is in one place only, in the map
under its own query's id, with the receive task, or used up. It holds in every interleaving.

And who removes an entry? A datagram with its id, or the guard of its query, says the comment
on `disarm`; but a guard is disarmed only by a query that wakes up. A query that leaves by
timeout or by cancellation after its datagram has come in drops an armed guard, and by then
its id may be another's. `stale_guard` is that run; `entry_kept` is what holds of the runs
without it.
-/

namespace Dnser

namespace InFlight

/-! ## What the receive task leaves alone -/

theorem queries_receive (s : State) (bytes : List UInt8) : (s.receive bytes).queries = s.queries := by
  unfold State.receive
  dsimp only
  split <;> rfl

theorem map_send (s : State) (d : Datagram) (q : Nat) : (s.send d q).map = s.map := by
  unfold State.send
  dsimp only
  split
  · split <;> rfl
  · rfl

theorem held_send (s : State) (d : Datagram) (q : Nat) : (s.send d q).held = none := by
  unfold State.send
  dsimp only
  split
  · split <;> rfl
  · rfl

/-! ## The invariant -/

/-- What holds of the table in every state. -/
structure Inv (s : State) : Prop where
  /-- An entry is the sender of a live query that still waits for it, under the id that query's
  guard is armed with. -/
  owner : ∀ id q, s.map id = some q →
    ∃ qu, s.queries q = some qu ∧ qu.guard = some id ∧ qu.chan = .empty
  /-- A query's id is the one it was assigned, and its guard has no other. -/
  live : ∀ q qu, s.queries q = some qu →
    s.assigned q = some qu.id ∧ ∀ id, qu.guard = some id → id = qu.id
  /-- What the receive task holds is nowhere else, and goes to the query with the datagram's id. -/
  held : ∀ d q, s.held = some (d, q) →
    (∀ id, s.map id ≠ some q) ∧ d.number < s.received ∧
      s.assigned q = some (datagramId d.bytes) ∧
      ∀ x ∈ s.handed, x.1.number ≠ d.number ∧ x.2 ≠ q
  /-- What was handed over is used up, and went to the query with the datagram's id. -/
  handed : ∀ x ∈ s.handed, x.1.number < s.received ∧
    s.assigned x.2 = some (datagramId x.1.bytes) ∧ ∀ id, s.map id ≠ some x.2
  /-- No datagram was handed over twice. -/
  datagrams : (s.handed.map fun x => x.1.number).Nodup
  /-- No query was handed two datagrams. -/
  recipients : (s.handed.map Prod.snd).Nodup
  /-- An entry belongs to the query its id was last allocated to. -/
  lastOwner : ∀ id q, s.map id = some q → s.lastOwner id = some q

theorem inv_init : Inv init := by
  constructor <;> simp [init]

/-! ## One step -/

/-- A query that is in the map was assigned an id. -/
theorem Inv.assigned_of_map {s : State} (h : Inv s) {id : UInt16} {q : Nat}
    (hm : s.map id = some q) : s.assigned q = some id := by
  obtain ⟨qu, hq, hg, -⟩ := h.owner id q hm
  obtain ⟨ha, hid⟩ := h.live q qu hq
  rw [ha, hid id hg]

/-- The query of an entry has its guard armed with the id, and nothing in its channel. -/
theorem Inv.entry {s : State} (h : Inv s) {id : UInt16} {q : Nat} {qu : Query}
    (hm : s.map id = some q) (hq : s.queries q = some qu) : qu.guard = some id ∧ qu.chan = .empty := by
  obtain ⟨qu', hq', hparts⟩ := h.owner id q hm
  rw [hq] at hq'
  cases hq'
  exact hparts

theorem Inv.register {s : State} (h : Inv s) {q : Nat} {id : UInt16} (hq : s.assigned q = none)
    (hid : s.map id = none) : Inv (s.register q id) := by
  -- whoever is mentioned anywhere was assigned an id, and is not the new query
  have hfresh : ∀ q', s.assigned q' ≠ none → q' ≠ q := by
    rintro q' h' rfl
    exact h' hq
  refine ⟨?_, ?_, ?_, ?_, h.datagrams, h.recipients, ?_⟩
  · intro id' q' hm
    by_cases hi : id' = id
    · subst hi
      simp only [State.register, Function.update_self, Option.some.injEq] at hm ⊢
      subst hm
      exact ⟨_, by rw [Function.update_self], rfl, rfl⟩
    · simp only [State.register, Function.update_of_ne hi] at hm ⊢
      have hne := hfresh q' (by rw [h.assigned_of_map hm]; simp)
      rw [Function.update_of_ne hne]
      exact h.owner id' q' hm
  · intro q' qu hq'
    by_cases hqq : q' = q
    · subst hqq
      simp only [State.register, Function.update_self, Option.some.injEq] at hq' ⊢
      subst hq'
      exact ⟨rfl, fun id' hid' => (Option.some.inj hid').symm⟩
    · simp only [State.register, Function.update_of_ne hqq] at hq' ⊢
      exact h.live q' qu hq'
  · intro d q' hh
    obtain ⟨h1, h2, h3, h4⟩ := h.held d q' hh
    have hne := hfresh q' (by rw [h3]; simp)
    refine ⟨fun id' => ?_, h2, ?_, h4⟩
    · by_cases hi : id' = id
      · subst hi
        simpa [State.register] using Ne.symm hne
      · simpa [State.register, Function.update_of_ne hi] using h1 id'
    · simpa [State.register, Function.update_of_ne hne] using h3
  · intro x hx
    obtain ⟨h1, h2, h3⟩ := h.handed x hx
    have hne := hfresh x.2 (by rw [h2]; simp)
    refine ⟨h1, ?_, fun id' => ?_⟩
    · simpa [State.register, Function.update_of_ne hne] using h2
    · by_cases hi : id' = id
      · subst hi
        simpa [State.register] using Ne.symm hne
      · simpa [State.register, Function.update_of_ne hi] using h3 id'
  · intro id' q' hm
    by_cases hi : id' = id
    · subst hi
      simpa [State.register] using hm
    · simp only [State.register, Function.update_of_ne hi] at hm ⊢
      exact h.lastOwner id' q' hm

/-- A query is in the map under one id only. -/
theorem Inv.map_injective {s : State} (h : Inv s) {id id' : UInt16} {q : Nat}
    (hm : s.map id = some q) (hm' : s.map id' = some q) : id = id' := by
  have := h.assigned_of_map hm
  rw [h.assigned_of_map hm'] at this
  exact (Option.some.inj this).symm

/-- Taking an entry out of the map disturbs no other. -/
theorem map_of_update_none {s : State} {id id' : UInt16} {q : Nat}
    (h : Function.update s.map id none id' = some q) : id' ≠ id ∧ s.map id' = some q := by
  by_cases hi : id' = id
  · subst hi
    rw [Function.update_self] at h
    cases h
  · rw [Function.update_of_ne hi] at h
    exact ⟨hi, h⟩

theorem Inv.receive {s : State} (h : Inv s) (hheld : s.held = none) (bytes : List UInt8) :
    Inv (s.receive bytes) := by
  unfold State.receive
  dsimp only
  split
  · refine ⟨h.owner, h.live, fun d q hh => ?_, fun x hx => ?_, h.datagrams, h.recipients, h.lastOwner⟩
    · rw [show ({ s with received := s.received + 1 } : State).held = s.held from rfl, hheld] at hh
      cases hh
    · obtain ⟨h1, h2, h3⟩ := h.handed x hx
      exact ⟨Nat.lt_succ_of_lt h1, h2, h3⟩
  · refine ⟨?_, h.live, ?_, ?_, h.datagrams, h.recipients, ?_⟩
    · intro id q hm
      exact h.owner id q (map_of_update_none hm).2
    · intro d q hh
      obtain ⟨q', hm, heq⟩ := Option.map_eq_some_iff.mp hh
      cases heq
      refine ⟨fun id hm' => ?_, Nat.lt_succ_self _, h.assigned_of_map hm, fun x hx => ?_⟩
      · -- it is no longer under the datagram's id, and was under no other
        obtain ⟨hne, hm'⟩ := map_of_update_none hm'
        exact hne (h.map_injective hm' hm)
      · -- this datagram is new, and its query was still in the map
        obtain ⟨h1, -, h3⟩ := h.handed x hx
        refine ⟨Nat.ne_of_lt h1, ?_⟩
        intro hsame
        subst hsame
        exact h3 _ hm
    · intro x hx
      obtain ⟨h1, h2, h3⟩ := h.handed x hx
      exact ⟨Nat.lt_succ_of_lt h1, h2, fun id hm => h3 id (map_of_update_none hm).2⟩
    · intro id q hm
      exact h.lastOwner id q (map_of_update_none hm).2

/-- A query that is not in the map may change in any way that keeps its id and its guard. -/
theorem Inv.setQuery {s : State} (h : Inv s) {q : Nat} {qu : Option Query}
    (hmap : ∀ id, s.map id = some q → ∃ qu', qu = some qu' ∧ qu'.guard = some id ∧ qu'.chan = .empty)
    (hlive : ∀ qu', qu = some qu' →
      s.assigned q = some qu'.id ∧ ∀ id, qu'.guard = some id → id = qu'.id) :
    Inv (s.setQuery q qu) := by
  refine ⟨?_, ?_, h.held, h.handed, h.datagrams, h.recipients, h.lastOwner⟩
  · intro id q' hm
    by_cases hq : q' = q
    · subst hq
      obtain ⟨qu', rfl, hg, hc⟩ := hmap id hm
      exact ⟨qu', by simp [State.setQuery], hg, hc⟩
    · simp only [State.setQuery, Function.update_of_ne hq]
      exact h.owner id q' hm
  · intro q' qu' hq'
    by_cases hq : q' = q
    · subst hq
      exact hlive qu' (by simpa [State.setQuery] using hq')
    · simp only [State.setQuery, Function.update_of_ne hq] at hq'
      exact h.live q' qu' hq'

theorem Inv.send {s : State} (h : Inv s) {d : Datagram} {q : Nat} (hheld : s.held = some (d, q)) :
    Inv (s.send d q) := by
  obtain ⟨hmap, hnum, hass, hfresh⟩ := h.held d q hheld
  have hdrop : Inv { s with held := none } :=
    ⟨h.owner, h.live, fun _ _ hh => (nomatch hh), h.handed, h.datagrams, h.recipients, h.lastOwner⟩
  unfold State.send
  dsimp only
  cases hq : s.queries q with
  | none => exact hdrop
  | some qu =>
      dsimp only
      split
      · -- what was held is handed over: it was new to the list, on both sides
        have hset : Inv (State.setQuery { s with held := none } q
            (some { qu with chan := .sent d.bytes })) := by
          refine hdrop.setQuery (fun id hm => absurd hm (hmap id)) fun qu' hqu' => ?_
          cases hqu'
          exact h.live q qu hq
        refine ⟨hset.owner, hset.live, fun _ _ hh => (nomatch hh), ?_, ?_, ?_, hset.lastOwner⟩
        · intro x hx
          rcases List.mem_append.mp hx with hx | hx
          · exact h.handed x hx
          · obtain rfl := List.mem_singleton.mp hx
            exact ⟨hnum, hass, hmap⟩
        · rw [List.map_append, List.nodup_append']
          refine ⟨h.datagrams, List.nodup_singleton _, ?_⟩
          intro n hn hn'
          obtain ⟨x, hx, rfl⟩ := List.mem_map.mp hn
          exact (hfresh x hx).1 (by simpa using hn')
        · rw [List.map_append, List.nodup_append']
          refine ⟨h.recipients, List.nodup_singleton _, ?_⟩
          intro n hn hn'
          obtain ⟨x, hx, rfl⟩ := List.mem_map.mp hn
          exact (hfresh x hx).2 (by simpa using hn')
      · exact hdrop

theorem Inv.removeId {s : State} (h : Inv s) (id : UInt16) : Inv (s.removeId id) := by
  have hremoved : Inv { s with map := Function.update s.map id none } := by
    refine ⟨fun id' q hm => h.owner id' q (map_of_update_none hm).2, h.live, ?_, ?_, h.datagrams,
      h.recipients, fun id' q hm => h.lastOwner id' q (map_of_update_none hm).2⟩
    · intro d q hh
      obtain ⟨h1, h2, h3, h4⟩ := h.held d q hh
      exact ⟨fun id' hm => h1 id' (map_of_update_none hm).2, h2, h3, h4⟩
    · intro x hx
      obtain ⟨h1, h2, h3⟩ := h.handed x hx
      exact ⟨h1, h2, fun id' hm => h3 id' (map_of_update_none hm).2⟩
  unfold State.removeId
  dsimp only
  cases hm : s.map id with
  | none => exact hremoved
  | some q =>
      unfold State.dropSender
      cases hq : s.queries q with
      | none => simpa [hq] using hremoved
      | some qu =>
          dsimp only
          rw [hq]
          -- the query whose channel closes was filed under this id only
          refine hremoved.setQuery (fun id' hm' => ?_) fun qu' hqu' => ?_
          · obtain ⟨hne, hm'⟩ := map_of_update_none hm'
            exact absurd (h.map_injective hm' hm) hne
          · cases hqu'
            exact h.live q qu hq

/-- Where an id is after an armed guard for it was dropped: gone. -/
theorem map_removeId (s : State) (id : UInt16) :
    (s.removeId id).map = Function.update s.map id none := by
  unfold State.removeId State.dropSender State.setQuery
  dsimp only
  cases s.map id with
  | none => rfl
  | some q =>
      dsimp only
      cases s.queries q <;> rfl

theorem Inv.finish {s : State} (h : Inv s) {q : Nat} {qu : Query} (hq : s.queries q = some qu) :
    Inv (s.finish q qu) := by
  unfold State.finish
  cases hg : qu.guard with
  | none =>
      -- a disarmed guard means that the entry was gone already
      refine h.setQuery (fun id hm => ?_) fun qu' hqu' => nomatch hqu'
      have hg' := (h.entry hm hq).1
      rw [hg] at hg'
      cases hg'
  | some gid =>
      -- a query leaves nothing behind: its guard has removed the one id it could be under
      refine (h.removeId gid).setQuery (fun id hm => ?_) fun qu' hqu' => nomatch hqu'
      rw [map_removeId] at hm
      obtain ⟨hne, hm⟩ := map_of_update_none hm
      have hg' := (h.entry hm hq).1
      rw [hg] at hg'
      exact absurd (Option.some.inj hg').symm hne

/-- **Every step keeps the invariant.** -/
theorem Inv.step {s s' : State} {a : Act} (h : Inv s) (hs : Step s a s') : Inv s' := by
  cases hs with
  | allocate hq hid => exact h.register hq hid
  | receive _ hheld => exact h.receive hheld _
  | send hheld => exact h.send hheld
  | @wake q qu hq _ hchan =>
      -- a query whose channel is ready is not in the map, so it may disarm
      refine h.setQuery (fun id hm => ?_) fun qu' hqu' => ?_
      · exact absurd (h.entry hm hq).2 hchan
      · cases hqu'
        exact ⟨(h.live q qu hq).1, fun _ hg => nomatch hg⟩
  | @leave q qu hq _ =>
      refine h.setQuery (fun id hm => ?_) fun qu' hqu' => ?_
      · obtain ⟨hg, hc⟩ := h.entry hm hq
        exact ⟨_, rfl, hg, hc⟩
      · cases hqu'
        exact h.live q qu hq
  | dropGuard hq _ => exact h.finish hq

/-! ## No leaks, no misdelivery -/

/-- Every state an upstream can get into, whatever the order of its steps. -/
abbrev Reachable (s : State) : Prop := Steps.Reachable init Step (fun _ _ => True) s

/--
**No leaks and no misdelivery.** In every interleaving: an id in the map belongs to exactly one
query, which is alive and has its guard armed with that id, so that without live queries the map
is empty; no datagram is handed to two queries, no query is handed two datagrams, and whoever
is handed one was assigned the id in its first two bytes.
-/
theorem no_leak_no_misdelivery (s : State) (h : Reachable s) :
    (∀ id, s.map id ≠ none →
      ∃! q, s.map id = some q ∧ ∃ qu, s.queries q = some qu ∧ qu.guard = some id) ∧
    ((∀ q, s.queries q = none) → ∀ id, s.map id = none) ∧
    (s.handed.map fun x => x.1.number).Nodup ∧ (s.handed.map Prod.snd).Nodup ∧
    ∀ d q, (d, q) ∈ s.handed → s.assigned q = some (datagramId d.bytes) := by
  have hinv : Inv s := h.invariant inv_init fun _ _ _ => Inv.step
  refine ⟨fun id hid => ?_, fun hnone id => ?_, hinv.datagrams, hinv.recipients, ?_⟩
  · obtain ⟨q, hq⟩ := Option.ne_none_iff_exists'.mp hid
    obtain ⟨qu, hqu, hg, -⟩ := hinv.owner id q hq
    refine ⟨q, ⟨hq, qu, hqu, hg⟩, fun q' hq' => ?_⟩
    rw [hq] at hq'
    exact (Option.some.inj hq'.1).symm
  · cases hm : s.map id with
    | none => rfl
    | some q =>
        obtain ⟨qu, hqu, -⟩ := hinv.owner id q hm
        rw [hnone q] at hqu
        cases hqu
  · intro d q hx
    exact (hinv.handed (d, q) hx).2.1

/-- A datagram with id 7, as short as `recv_loop` takes them. -/
def answerSeven : List UInt8 := [0, 7, 0, 0, 0, 0, 0, 0, 0, 0, 0, 0]

/-- A first query, with id 7. -/
def asked : State := init.register 0 7

/-- Its datagram, taken out of the map and passed on. -/
def answered : State := (asked.receive answerSeven).send ⟨0, answerSeven⟩ 0

theorem reachable_answered : Reachable answered := by
  have hasked : Reachable asked := .step .init trivial (.allocate rfl rfl)
  exact .step (.step hasked trivial (.receive (by decide) rfl)) trivial (.send rfl)

/-- Query 0 was handed datagram 0, whose id is the 7 it was assigned. -/
theorem answered_no_leak : answered.handed = [(⟨0, answerSeven⟩, 0)] ∧
    answered.assigned 0 = some (datagramId answerSeven) :=
  have h := no_leak_no_misdelivery answered reachable_answered
  ⟨rfl, h.2.2.2.2 ⟨0, answerSeven⟩ 0 (by decide)⟩

/-! ## What a query finds in its channel -/

/-- A datagram that waits in a channel has its query's id. -/
def Addressed (s : State) : Prop :=
  ∀ q qu bytes, s.queries q = some qu → qu.chan = .sent bytes → datagramId bytes = qu.id

theorem Addressed.setQuery {s : State} (h : Addressed s) {q : Nat} {qu : Option Query}
    (hqu : ∀ qu' bytes, qu = some qu' → qu'.chan = .sent bytes → datagramId bytes = qu'.id) :
    Addressed (s.setQuery q qu) := by
  intro q' qu' bytes hq' hchan
  by_cases hq : q' = q
  · subst hq
    exact hqu qu' bytes (by simpa [State.setQuery] using hq') hchan
  · simp only [State.setQuery, Function.update_of_ne hq] at hq'
    exact h q' qu' bytes hq' hchan

theorem Addressed.removeId {s : State} (h : Addressed s) (id : UInt16) : Addressed (s.removeId id) := by
  unfold State.removeId State.dropSender
  dsimp only
  split
  · split
    · exact Addressed.setQuery (s := { s with map := _ }) h fun qu' bytes hqu' hchan => by
        cases hqu'
        cases hchan
    · exact h
  · exact h

theorem Addressed.step {s s' : State} {a : Act} (hinv : Inv s) (h : Addressed s)
    (hs : Step s a s') : Addressed s' := by
  cases hs with
  | allocate hq hid =>
      refine Addressed.setQuery (s := { s with map := _, assigned := _, lastOwner := _ }) h ?_
      intro qu' bytes hqu' hchan
      cases hqu'
      cases hchan
  | receive _ hheld =>
      intro q qu bytes hq hchan
      rw [queries_receive] at hq
      exact h q qu bytes hq hchan
  | @send d q hheld =>
      obtain ⟨-, -, hass, -⟩ := hinv.held d q hheld
      unfold State.send
      dsimp only
      split
      · rename_i qu hq
        split
        · -- the query it is held for was assigned the id of the datagram
          refine Addressed.setQuery (s := { s with held := none, handed := _ }) h ?_
          intro qu' bytes hqu' hchan
          cases hqu'
          cases hchan
          rw [(hinv.live q qu hq).1] at hass
          exact (Option.some.inj hass).symm
        · exact h
      · exact h
  | @wake q qu hq _ _ =>
      refine h.setQuery fun qu' bytes hqu' hchan => ?_
      cases hqu'
      exact h q qu bytes hq hchan
  | @leave q qu hq _ =>
      refine h.setQuery fun qu' bytes hqu' hchan => ?_
      cases hqu'
      exact h q qu bytes hq hchan
  | @dropGuard q qu hq _ =>
      unfold State.finish
      split
      · exact (h.removeId _).setQuery fun qu' bytes hqu' _ => nomatch hqu'
      · exact h.setQuery fun qu' bytes hqu' _ => nomatch hqu'

/-- **A query is woken by a datagram with its id only.** -/
theorem sent_id {s : State} (h : Reachable s) {q : Nat} {qu : Query} {bytes : List UInt8}
    (hq : s.queries q = some qu) (hchan : qu.chan = .sent bytes) : datagramId bytes = qu.id := by
  have hboth : Inv s ∧ Addressed s := by
    refine h.invariant (P := fun s => Inv s ∧ Addressed s)
      ⟨inv_init, fun _ _ _ h => nomatch h⟩ fun s a s' hs hstep => ?_
    exact ⟨hs.1.step hstep, hs.2.step hs.1 hstep⟩
  exact hboth.2 q qu bytes hq hchan

/-! ## Who removes an entry -/

/-- An armed guard is dropped only while its id is still its own: it was not allocated again. -/
def NotReallocated (s : State) : Act → Prop
  | .dropGuard q => ∀ qu id, s.queries q = some qu → qu.guard = some id → s.lastOwner id = some q
  | _ => True

/-- What can take an entry out of the map. -/
theorem removed_cases {s s' : State} {a : Act} (hs : Step s a s') {id : UInt16} {q : Nat}
    (hm : s.map id = some q) (hm' : s'.map id ≠ some q) :
    (∃ bytes, a = .receive bytes ∧ 12 ≤ bytes.length ∧ datagramId bytes = id) ∨
      ∃ q' qu, a = .dropGuard q' ∧ s.queries q' = some qu ∧ qu.guard = some id := by
  cases hs with
  | @allocate q' id' _ hid =>
      refine absurd ?_ hm'
      have hne : id ≠ id' := by
        intro hsame
        subst hsame
        rw [hm] at hid
        cases hid
      simpa [State.register, Function.update_of_ne hne] using hm
  | @receive bytes _ _ =>
      refine .inl ⟨bytes, rfl, ?_⟩
      unfold State.receive at hm'
      dsimp only at hm'
      split at hm'
      · exact absurd hm hm'
      · rename_i hlen
        refine ⟨by omega, ?_⟩
        by_contra hne
        exact hm' (by simpa [Function.update_of_ne (Ne.symm hne)] using hm)
  | @send d q' _ =>
      refine absurd ?_ hm'
      rw [map_send]
      exact hm
  | wake _ _ _ => exact absurd hm hm'
  | leave _ _ => exact absurd hm hm'
  | @dropGuard q' qu hq _ =>
      unfold State.finish at hm'
      cases hg : qu.guard with
      | none =>
          rw [hg] at hm'
          exact absurd hm hm'
      | some gid =>
          rw [hg] at hm'
          by_cases hid : id = gid
          · exact .inr ⟨q', qu, rfl, hq, hid ▸ hg⟩
          · refine absurd ?_ hm'
            show (s.removeId gid).map id = some q
            rw [map_removeId, Function.update_of_ne hid]
            exact hm

/--
**An entry is kept for its query as long as no guard outlives its id.** In every run in which
armed guards are dropped before their id is allocated again, what a query registered is removed
only by a datagram with its id, or by its own guard.
-/
theorem entry_kept (s s' : State) (a : Act)
    (hreach : Steps.Reachable init Step NotReallocated s) (hok : NotReallocated s a)
    (hs : Step s a s') (id : UInt16) (q : Nat) (hm : s.map id = some q)
    (hm' : s'.map id ≠ some q) :
    (∃ bytes, a = .receive bytes ∧ 12 ≤ bytes.length ∧ datagramId bytes = id ∧
      s.assigned q = some id) ∨ a = .dropGuard q := by
  have hinv : Inv s := hreach.invariant inv_init fun _ _ _ => Inv.step
  rcases removed_cases hs hm hm' with ⟨bytes, rfl, hlen, hid⟩ | ⟨q', qu, rfl, hq', hg⟩
  · exact .inl ⟨bytes, rfl, hlen, hid, hinv.assigned_of_map hm⟩
  · -- the guard's query is the last owner, and so is the entry's
    have hown := hok qu id hq' hg
    rw [hinv.lastOwner id q hm] at hown
    cases hown
    exact .inr rfl

/-- The first query's entry goes to the datagram with its id. -/
theorem asked_entry_kept : asked.map 7 = some 0 ∧ (asked.receive answerSeven).map 7 = none ∧
    ((∃ bytes, Act.receive answerSeven = .receive bytes ∧ 12 ≤ bytes.length ∧
      datagramId bytes = 7 ∧ asked.assigned 0 = some 7) ∨
        Act.receive answerSeven = .dropGuard 0) :=
  ⟨rfl, rfl, entry_kept asked (asked.receive answerSeven) (.receive answerSeven)
    (.step (a := .allocate 0 7) .init trivial (.allocate rfl rfl)) trivial (.receive (by decide) rfl) 7 0
    rfl (by decide)⟩

/-- The first query once it is cancelled: its guard is still armed. -/
def cancelled : Query :=
  { id := 7, guard := some 7, chan := .sent answerSeven, phase := .leaving }

/-- A second query takes id 7 over, and the first is cancelled before it looks at its channel. -/
def reused : State := (answered.register 1 7).setQuery 0 (some cancelled)

/-- **A guard outlives its id.** The first query's guard removes the entry of the second, which
has had no datagram and is left waiting for a closed channel. -/
theorem stale_guard : Reachable reused ∧ Step reused (.dropGuard 0) (reused.finish 0 cancelled) ∧
    reused.map 7 = some 1 ∧
    reused.queries 1 = some { id := 7, guard := some 7, chan := .empty, phase := .waiting } ∧
    (reused.finish 0 cancelled).map 7 = none ∧
    (reused.finish 0 cancelled).queries 1 =
      some { id := 7, guard := some 7, chan := .closed, phase := .waiting } := by
  have hregister : Reachable (answered.register 1 7) :=
    .step reachable_answered trivial (.allocate rfl rfl)
  have hwaiting : (answered.register 1 7).queries 0 =
      some { id := 7, guard := some 7, chan := .sent answerSeven, phase := .waiting } := rfl
  have hleave : Step (answered.register 1 7) (.leave 0) reused := .leave hwaiting (by decide)
  exact ⟨.step hregister trivial hleave, .dropGuard rfl rfl, rfl, rfl, rfl, rfl⟩

end InFlight

end Dnser
