import Dnser.Proof.Upstream

/-!
# The first valid reply

A query takes the first datagram with its id, whatever is in it. `recv_loop` removes the entry from
the map before anyone has looked at the datagram, so that a datagram that does not parse, or answers
another question, uses up the query's one chance, and the reply behind it is dropped as spurious.

Once its entry is gone, nothing that happens changes what a query will find in its channel
(`Settled`). So the first valid reply wins exactly if it is what takes the entry out of the map.
-/

namespace Dnser

open Bytes

namespace InFlight

/-- Runs of one upstream. -/
abbrev Run (s : State) (acts : List Act) (s' : State) : Prop :=
  Steps.Run Step (fun _ _ => True) s acts s'

/-! ## What becomes of an entry -/

/-- A step that takes what is filed under `id` out of the map. -/
def Takes (id : UInt16) (s : State) (a : Act) : Prop :=
  (∃ bytes, a = .receive bytes ∧ 12 ≤ bytes.length ∧ datagramId bytes = id) ∨
    ∃ q qu, a = .dropGuard q ∧ s.queries q = some qu ∧ qu.guard = some id

theorem map_of_takes {s s' : State} {a : Act} {id : UInt16} (hs : Step s a s')
    (h : Takes id s a) : s'.map id = none := by
  rcases h with ⟨bytes, rfl, hlen, rfl⟩ | ⟨q, qu, rfl, hq, hg⟩
  · cases hs with
    | receive _ _ =>
        unfold State.receive
        dsimp only
        rw [if_neg (Nat.not_lt.mpr hlen)]
        exact Function.update_self ..
  · cases hs with
    | dropGuard hq' _ =>
        rw [hq] at hq'
        cases hq'
        unfold State.finish
        rw [hg]
        show (s.removeId id).map id = none
        rw [map_removeId, Function.update_self]

/-- Only a new query gets into the map. -/
theorem map_step {s s' : State} {a : Act} (hinv : Inv s) (hs : Step s a s') {id : UInt16} {q : Nat}
    {qu : Query} (hq : s.queries q = some qu) (hm : s'.map id = some q) : s.map id = some q := by
  cases hs with
  | @allocate q' id' hfresh _ =>
      by_cases hi : id = id'
      · subst hi
        simp only [State.register, Function.update_self, Option.some.injEq] at hm
        -- a query that is alive is not new
        rw [hm, (hinv.live q qu hq).1] at hfresh
        cases hfresh
      · simpa only [State.register, Function.update_of_ne hi] using hm
  | receive _ _ =>
      unfold State.receive at hm
      dsimp only at hm
      split at hm
      · exact hm
      · exact (map_of_update_none hm).2
  | send _ =>
      rw [map_send] at hm
      exact hm
  | wake _ _ _ => exact hm
  | leave _ _ => exact hm
  | @dropGuard q' qu _ _ =>
      unfold State.finish at hm
      split at hm
      · rename_i gid _
        change (s.removeId gid).map id = some q at hm
        rw [map_removeId] at hm
        exact (map_of_update_none hm).2
      · exact hm

/-- The end of a query leaves alone whoever is not filed under its guard's id. -/
theorem queries_finish {s : State} {q q' : Nat} {qu qu' : Query} (hne : q ≠ q')
    (hq : s.queries q = some qu) (hguard : ∀ id, qu'.guard = some id → s.map id ≠ some q) :
    (s.finish q' qu').queries q = some qu := by
  unfold State.finish
  cases hg : qu'.guard with
  | none => simpa [State.setQuery, Function.update_of_ne hne] using hq
  | some id =>
      simp only [State.setQuery, Function.update_of_ne hne]
      unfold State.removeId
      dsimp only
      cases hm : s.map id with
      | none => exact hq
      | some owner =>
          have hown : q ≠ owner := fun hsame => hguard id hg (hsame ▸ hm)
          unfold State.dropSender
          dsimp only
          split
          · simpa [State.setQuery, Function.update_of_ne hown] using hq
          · exact hq

/-- A step that changes what is in a query's channel. -/
def Reaches (q : Nat) (s : State) (a : Act) : Prop :=
  (a = .send ∧ ∃ d, s.held = some (d, q)) ∨
    ∃ q' qu id, a = .dropGuard q' ∧ s.queries q' = some qu ∧ qu.guard = some id ∧ s.map id = some q

/-- What a step does to a query that is not on its way out, and that it does not send there. -/
theorem query_step {s s' : State} {a : Act} (hinv : Inv s) (hs : Step s a s') {q : Nat} {qu : Query}
    (hq : s.queries q = some qu) (hphase : qu.phase ≠ .leaving) (ha : a ≠ .leave q) :
    (s'.queries q = some qu ∧ (Reaches q s a → qu.phase ≠ .waiting)) ∨
    (∃ d, a = .send ∧ s.held = some (d, q) ∧ qu.phase = .waiting ∧
      s'.queries q = some { qu with chan := .sent d.bytes }) ∨
    (a = .wake q ∧ qu.chan ≠ .empty ∧
      s'.queries q = some { qu with guard := none, phase := .finishing }) ∨
    ∃ q' id, a = .dropGuard q' ∧ s.map id = some q ∧
      s'.queries q = some { qu with chan := .closed } := by
  cases hs with
  | @allocate q' id hfresh _ =>
      -- the new query was assigned nothing before, and this one was
      have hne : q ≠ q' := by
        intro hsame
        subst hsame
        rw [(hinv.live q qu hq).1] at hfresh
        cases hfresh
      refine .inl ⟨?_, fun h => by simp [Reaches] at h⟩
      simpa [State.register, Function.update_of_ne hne] using hq
  | receive _ _ =>
      refine .inl ⟨?_, fun h => by simp [Reaches] at h⟩
      rw [queries_receive]
      exact hq
  | @send d q' hheld =>
      unfold State.send
      dsimp only
      by_cases hqq : q = q'
      · subst hqq
        rw [hq]
        dsimp only
        split
        · rename_i hwait
          exact .inr (.inl ⟨d, rfl, hheld, hwait, Function.update_self ..⟩)
        · rename_i hwait
          exact .inl ⟨hq, fun _ => hwait⟩
      · refine .inl ⟨?_, fun h => ?_⟩
        · split
          · split
            · simpa [Function.update_of_ne hqq] using hq
            · exact hq
          · exact hq
        · obtain ⟨-, d', hheld'⟩ : Act.send = .send ∧ ∃ d, s.held = some (d, q) := by
            simpa [Reaches] using h
          rw [hheld] at hheld'
          cases hheld'
          exact absurd rfl hqq
  | @wake q' qu' hq' hwait hchan =>
      by_cases hqq : q = q'
      · subst hqq
        rw [hq] at hq'
        cases hq'
        refine .inr (.inr (.inl ⟨rfl, hchan, ?_⟩))
        simp [State.setQuery]
      · refine .inl ⟨?_, fun h => by simp [Reaches] at h⟩
        simpa [State.setQuery, Function.update_of_ne hqq] using hq
  | @leave q' qu' hq' _ =>
      have hne : q ≠ q' := fun hsame => ha (by rw [hsame])
      refine .inl ⟨?_, fun h => by simp [Reaches] at h⟩
      simpa [State.setQuery, Function.update_of_ne hne] using hq
  | @dropGuard q' qu' hq' hleaving =>
      have hne : q ≠ q' := by
        intro hsame
        subst hsame
        rw [hq] at hq'
        cases hq'
        exact hphase hleaving
      by_cases hreach : ∃ id, qu'.guard = some id ∧ s.map id = some q
      · obtain ⟨id, hg, hm⟩ := hreach
        refine .inr (.inr (.inr ⟨q', id, rfl, hm, ?_⟩))
        simp [State.finish, hg, State.removeId, hm, State.dropSender, hq, State.setQuery,
          Function.update_of_ne hne]
      · refine .inl ⟨queries_finish hne hq fun id hg hm => hreach ⟨id, hg, hm⟩, fun h => ?_⟩
        rcases h with ⟨h, -⟩ | ⟨q'', qu'', id, h, hq'', hg, hm⟩
        · cases h
        · cases h
          rw [hq'] at hq''
          cases hq''
          exact absurd ⟨id, hg, hm⟩ hreach

/-- What a step does to what the receive task holds. -/
theorem held_step {s s' : State} {a : Act} (hs : Step s a s') :
    (a = .send ∧ s'.held = none) ∨
    (∃ bytes, a = .receive bytes ∧ s.held = none ∧ ∀ d q, s'.held = some (d, q) ↔
      12 ≤ bytes.length ∧ s.map (datagramId bytes) = some q ∧ d = ⟨s.received, bytes⟩) ∨
    (a ≠ .send ∧ (∀ bytes, a ≠ .receive bytes) ∧ s'.held = s.held) := by
  cases hs with
  | allocate _ _ => exact .inr (.inr ⟨by simp, by simp, rfl⟩)
  | @receive bytes _ hnone =>
      refine .inr (.inl ⟨bytes, rfl, hnone, fun d q => ?_⟩)
      unfold State.receive
      dsimp only
      split
      · rename_i hlen
        simp [hnone, Nat.not_le.mpr hlen]
      · rename_i hlen
        simp [Nat.not_lt.mp hlen, eq_comm, and_comm]
  | send _ => exact .inl ⟨rfl, held_send ..⟩
  | wake _ _ _ => exact .inr (.inr ⟨by simp, by simp, rfl⟩)
  | leave _ _ => exact .inr (.inr ⟨by simp, by simp, rfl⟩)
  | @dropGuard q qu _ _ =>
      refine .inr (.inr ⟨by simp, by simp, ?_⟩)
      unfold State.finish State.removeId State.dropSender
      cases qu.guard with
      | none => rfl
      | some id =>
          dsimp only
          cases s.map id with
          | none => rfl
          | some owner =>
              dsimp only
              cases s.queries owner <;> rfl

/-! ## Waiting, and knowing for what -/

/-- The query waits for what comes for its entry in the map. -/
def Registered (id : UInt16) (q : Nat) (s : State) : Prop :=
  s.map id = some q ∧ ∃ qu, s.queries q = some qu ∧ qu.phase = .waiting

/-- The query has `c` in its channel, or is about to. -/
def Settled (q : Nat) (c : Channel) (s : State) : Prop :=
  c ≠ .empty ∧ (∀ id, s.map id ≠ some q) ∧
    ∃ qu, s.queries q = some qu ∧ qu.phase ≠ .leaving ∧
      ((qu.chan = c ∧ ∀ d, s.held ≠ some (d, q)) ∨
        (qu.chan = .empty ∧ qu.phase = .waiting ∧ ∃ d, s.held = some (d, q) ∧ c = .sent d.bytes))

theorem Settled.unique {q : Nat} {c c' : Channel} {s : State} (h : Settled q c s)
    (h' : Settled q c' s) : c = c' := by
  obtain ⟨-, -, qu, hq, -, hchan⟩ := h
  obtain ⟨-, -, qu', hq', -, hchan'⟩ := h'
  rw [hq] at hq'
  cases hq'
  rcases hchan with ⟨rfl, hnone⟩ | ⟨-, -, d, hheld, rfl⟩
  · rcases hchan' with ⟨rfl, -⟩ | ⟨-, -, d', hheld', -⟩
    · rfl
    · exact absurd hheld' (hnone d')
  · rcases hchan' with ⟨-, hnone⟩ | ⟨-, -, d', hheld', rfl⟩
    · exact absurd hheld (hnone d)
    · rw [hheld] at hheld'
      cases hheld'
      rfl

/-- **Nothing but leaving changes what a query will find.** -/
theorem Settled.step {q : Nat} {c : Channel} {s s' : State} {a : Act} (h : Settled q c s)
    (hinv : Inv s) (hs : Step s a s') (ha : a ≠ .leave q) : Settled q c s' := by
  obtain ⟨hc, hout, qu, hq, hphase, hchan⟩ := h
  have hout' : ∀ id, s'.map id ≠ some q := by
    intro id hm
    exact hout id (map_step hinv hs hq hm)
  refine ⟨hc, hout', ?_⟩
  -- nothing that comes in is for this query
  have hnone : (∀ d, s.held ≠ some (d, q)) → ∀ d, s'.held ≠ some (d, q) := by
    intro hnone d hheld
    rcases held_step hs with ⟨-, hheld'⟩ | ⟨bytes, -, -, hiff⟩ | ⟨-, -, hheld'⟩
    · rw [hheld'] at hheld
      cases hheld
    · exact hout _ ((hiff d q).mp hheld).2.1
    · exact hnone d (hheld' ▸ hheld)
  rcases query_step hinv hs hq hphase ha with
    ⟨hq', hreach⟩ | ⟨d, rfl, hheld, hwait, hq'⟩ | ⟨rfl, hne, hq'⟩ | ⟨q', id, -, hm, -⟩
  · refine ⟨qu, hq', hphase, ?_⟩
    rcases hchan with ⟨hchan, hfree⟩ | ⟨hempty, hwait, d, hheld, rfl⟩
    · exact .inl ⟨hchan, hnone hfree⟩
    · refine .inr ⟨hempty, hwait, d, ?_, rfl⟩
      rcases held_step hs with ⟨rfl, -⟩ | ⟨bytes, -, hfree, -⟩ | ⟨-, -, hheld'⟩
      · exact absurd hwait (hreach (.inl ⟨rfl, d, hheld⟩))
      · rw [hheld] at hfree
        cases hfree
      · rw [hheld', hheld]
  · -- what was held arrives
    refine ⟨_, hq', hphase, ?_⟩
    rcases hchan with ⟨-, hfree⟩ | ⟨-, -, d', hheld', rfl⟩
    · exact absurd hheld (hfree d)
    · rw [hheld] at hheld'
      cases hheld'
      refine .inl ⟨rfl, fun d' hheld' => ?_⟩
      rcases held_step hs with ⟨-, hnone'⟩ | ⟨bytes, hact, -⟩ | ⟨hact, -⟩
      · rw [hnone'] at hheld'
        cases hheld'
      · cases hact
      · exact hact rfl
  · refine ⟨_, hq', by simp, ?_⟩
    rcases hchan with ⟨hchan, hfree⟩ | ⟨hempty, -⟩
    · exact .inl ⟨hchan, hnone hfree⟩
    · exact absurd hempty hne
  · exact absurd hm (hout id)

/-- **An entry stays until something takes it**, and then the query knows what it will find. -/
theorem Registered.step {id : UInt16} {q : Nat} {s s' : State} {a : Act} (h : Registered id q s)
    (hinv : Inv s) (hs : Step s a s') (ha : a ≠ .leave q) :
    (Registered id q s' ∧ ¬ Takes id s a) ∨
    (∃ bytes, a = .receive bytes ∧ Takes id s a ∧ Settled q (.sent bytes) s') ∨
    (∃ q', a = .dropGuard q' ∧ Takes id s a ∧ Settled q .closed s') := by
  obtain ⟨hm, qu, hq, hwait⟩ := h
  have hphase : qu.phase ≠ .leaving := by
    rw [hwait]
    decide
  have hempty : qu.chan = .empty := (hinv.entry hm hq).2
  have hfree : ∀ d, s.held ≠ some (d, q) := fun d hheld => (hinv.held d q hheld).1 id hm
  have hout : s'.map id = none → ∀ id', s'.map id' ≠ some q := by
    intro hnone id' hm'
    rw [hinv.map_injective (map_step hinv hs hq hm') hm, hnone] at hm'
    cases hm'
  have hstep := query_step hinv hs hq hphase ha
  by_cases htakes : Takes id s a
  · have hgone := map_of_takes hs htakes
    rcases htakes with ⟨bytes, rfl, hlen, hid⟩ | ⟨q', qu', rfl, hq', hg⟩
    · -- the sender is with the receive task
      refine .inr (.inl ⟨bytes, rfl, .inl ⟨bytes, rfl, hlen, hid⟩, by simp, hout hgone, qu, ?_⟩)
      have hsame : s'.queries q = some qu := by simpa [Reaches] using hstep
      refine ⟨hsame, hphase, .inr ⟨hempty, hwait, ⟨s.received, bytes⟩, ?_, rfl⟩⟩
      rcases held_step hs with ⟨h, -⟩ | ⟨bytes', h, -, hiff⟩ | ⟨-, h, -⟩
      · cases h
      · cases h
        exact (hiff _ q).mpr ⟨hlen, hid ▸ hm, rfl⟩
      · exact absurd rfl (h bytes)
    · -- the sender is dropped
      refine .inr (.inr ⟨q', rfl, .inr ⟨q', qu', rfl, hq', hg⟩, by simp, hout hgone, ?_⟩)
      rcases hstep with ⟨-, hreach⟩ | ⟨d, h, -⟩ | ⟨h, -⟩ | ⟨q'', id', -, -, hclosed⟩
      · exact absurd hwait (hreach (.inr ⟨q', qu', id, rfl, hq', hg, hm⟩))
      · cases h
      · cases h
      · refine ⟨_, hclosed, hphase, .inl ⟨rfl, fun d hheld => ?_⟩⟩
        rcases held_step hs with ⟨h, -⟩ | ⟨bytes', h, -⟩ | ⟨-, -, hsame⟩
        · cases h
        · cases h
        · exact hfree d (hsame ▸ hheld)
  · refine .inl ⟨⟨?_, ?_⟩, htakes⟩
    · by_contra hm'
      exact htakes (removed_cases hs hm hm')
    · rcases hstep with ⟨hq', -⟩ | ⟨d, -, hheld, -⟩ | ⟨-, hne, -⟩ | ⟨q', id', -, -, hq'⟩
      · exact ⟨qu, hq', hwait⟩
      · exact absurd hheld (hfree d)
      · exact absurd hempty hne
      · exact ⟨_, hq', hwait⟩

/-! ## Who wins -/

/-- A datagram that a query would take for its reply. -/
def Valid (query : Message) (id : UInt16) (bytes : List UInt8) : Prop :=
  datagramId bytes = id ∧ ∃ msg, parseValidatedResponse bytes query query.header.id = .ok msg

/-- The first valid datagram of a run, with what comes before it and after it. -/
structure FirstValid (query : Message) (id : UInt16) (acts : List Act) (bytes : List UInt8) : Prop where
  valid : Valid query id bytes
  first : ∃ before after, acts = before ++ .receive bytes :: after ∧
    ∀ bytes', .receive bytes' ∈ before → ¬ Valid query id bytes'

/-- If the step takes the query's entry out of the map, it is because of a valid datagram. -/
def Undisturbed (query : Message) (id : UInt16) (q : Nat) (s : State) (a : Act) : Prop :=
  s.map id = some q → Takes id s a → ∃ bytes, a = .receive bytes ∧ Valid query id bytes

/-- The query completes with what it makes of `bytes`: it can be woken, and whenever it is, that is
what it finds in its channel. -/
def CompletesWith (q : Nat) (bytes : List UInt8) (s : State) : Prop :=
  (∃ acts s' qu, Run s acts s' ∧ .leave q ∉ acts ∧ s'.queries q = some qu ∧ qu.phase = .finishing) ∧
    ∀ acts s' qu, Run s acts s' → .leave q ∉ acts → s'.queries q = some qu → qu.phase = .finishing →
      qu.chan = .sent bytes

theorem Valid.length {query : Message} {id : UInt16} {bytes : List UInt8}
    (h : Valid query id bytes) : 12 ≤ bytes.length := by
  obtain ⟨-, msg, hmsg⟩ := h
  obtain ⟨wire, hwire, -⟩ := parseValidatedResponse_eq_ok_iff.mp hmsg
  have hlen := (fits_of_parse hwire).2
  omega

/-- A settled query stays so. -/
theorem Settled.run {q : Nat} {c : Channel} {ok : State → Act → Prop} {s s' : State}
    {acts : List Act} (h : Settled q c s) (hinv : Inv s) (hrun : Steps.Run Step ok s acts s')
    (hstay : .leave q ∉ acts) : Settled q c s' := by
  induction hrun with
  | nil => exact h
  | cons _ hs _ ih =>
      rw [List.mem_cons, not_or] at hstay
      exact ih (h.step hinv hs (Ne.symm hstay.1)) (hinv.step hs) hstay.2

/-- Nothing disturbs it: it has no entry that could be taken. -/
theorem Settled.undisturbed {q : Nat} {c : Channel} {s s' : State} {acts : List Act}
    (h : Settled q c s) (hinv : Inv s) (hrun : Run s acts s') (hstay : .leave q ∉ acts)
    (query : Message) (id : UInt16) : Steps.Run Step (Undisturbed query id q) s acts s' := by
  induction hrun with
  | nil => exact .nil
  | cons _ hs _ ih =>
      rw [List.mem_cons, not_or] at hstay
      have hrest := ih (h.step hinv hs (Ne.symm hstay.1)) (hinv.step hs) hstay.2
      exact .cons (fun hm => absurd hm (h.2.1 id)) hs hrest

/-- A query with something in its channel can be woken. -/
theorem wake_of_ready {s : State} {q : Nat} {qu : Query} (hq : s.queries q = some qu)
    (hphase : qu.phase ≠ .leaving) (hchan : qu.chan ≠ .empty) :
    ∃ acts s' qu', Run s acts s' ∧ .leave q ∉ acts ∧ s'.queries q = some qu' ∧
      qu'.phase = .finishing ∧ qu'.chan = qu.chan := by
  cases hp : qu.phase with
  | waiting =>
      refine ⟨[.wake q], _, { qu with guard := none, phase := .finishing },
        .cons trivial (.wake hq hp hchan) .nil, by simp, ?_, rfl, rfl⟩
      exact Function.update_self ..
  | finishing => exact ⟨[], s, qu, .nil, by simp, hq, hp, rfl⟩
  | leaving => exact absurd hp hphase

/-- A settled query can be woken, and finds what it was promised. -/
theorem Settled.wake {q : Nat} {c : Channel} {s : State} (h : Settled q c s) :
    ∃ acts s' qu, Run s acts s' ∧ .leave q ∉ acts ∧ s'.queries q = some qu ∧
      qu.phase = .finishing ∧ qu.chan = c := by
  obtain ⟨hc, -, qu, hq, hphase, ⟨rfl, -⟩ | ⟨-, hwait, d, hheld, rfl⟩⟩ := h
  · exact wake_of_ready hq hphase hc
  · -- the receive task sends what it holds first
    have hsent : (s.send d q).queries q = some { qu with chan := .sent d.bytes } := by
      simp [State.send, hq, hwait]
    obtain ⟨acts, s', qu', hrun, hstay, hq', hfin, hchan⟩ := wake_of_ready hsent hphase hc
    refine ⟨.send :: acts, s', qu', .cons trivial (.send hheld) hrun, ?_, hq', hfin, hchan⟩
    simpa using hstay

theorem completesWith_iff {q : Nat} {c : Channel} {s : State} {bytes : List UInt8}
    (h : Settled q c s) (hinv : Inv s) : CompletesWith q bytes s ↔ c = .sent bytes := by
  constructor
  · intro hcomplete
    obtain ⟨acts, s', qu, hrun, hstay, hq, hfin, hchan⟩ := h.wake
    exact hchan.symm.trans (hcomplete.2 acts s' qu hrun hstay hq hfin)
  · intro hsame
    subst hsame
    refine ⟨?_, fun acts s' qu hrun hstay hq hfin => ?_⟩
    · obtain ⟨acts, s', qu, hrun, hstay, hq, hfin, -⟩ := h.wake
      exact ⟨acts, s', qu, hrun, hstay, hq, hfin⟩
    · obtain ⟨-, -, qu', hq', -, hchan⟩ := h.run hinv hrun hstay
      rw [hq] at hq'
      cases hq'
      rcases hchan with ⟨hchan, -⟩ | ⟨-, hwait, -⟩
      · exact hchan
      · rw [hfin] at hwait
        cases hwait

/-- Without a valid datagram, an undisturbed query stays registered. -/
theorem Registered.run {query : Message} {id : UInt16} {q : Nat} {s s' : State} {acts : List Act}
    (h : Registered id q s) (hinv : Inv s)
    (hrun : Steps.Run Step (Undisturbed query id q) s acts s') (hstay : .leave q ∉ acts)
    (hnone : ∀ bytes, .receive bytes ∈ acts → ¬ Valid query id bytes) : Registered id q s' := by
  induction hrun with
  | nil => exact h
  | cons hok hs _ ih =>
      rw [List.mem_cons, not_or] at hstay
      have hrest := fun bytes hbytes => hnone bytes (List.mem_cons_of_mem _ hbytes)
      rcases h.step hinv hs (Ne.symm hstay.1) with
        ⟨hreg, -⟩ | ⟨bytes, rfl, htakes, -⟩ | ⟨q', rfl, htakes, -⟩
      · exact ih hreg (hinv.step hs) hstay.2 hrest
      · obtain ⟨bytes', hact, hvalid⟩ := hok h.1 htakes
        cases hact
        exact absurd hvalid (hnone bytes List.mem_cons_self)
      · obtain ⟨bytes', hact, -⟩ := hok h.1 htakes
        cases hact

/-- A valid datagram is what a registered query will find. -/
theorem Registered.settled_of_valid {query : Message} {id : UInt16} {q : Nat} {s s' : State}
    {bytes : List UInt8} (h : Registered id q s) (hinv : Inv s) (hs : Step s (.receive bytes) s')
    (hvalid : Valid query id bytes) : Settled q (.sent bytes) s' := by
  have htakes : Takes id s (.receive bytes) := .inl ⟨bytes, rfl, hvalid.length, hvalid.1⟩
  rcases h.step hinv hs (by simp) with ⟨-, hnot⟩ | ⟨bytes', hact, -, hset⟩ | ⟨q', hact, -⟩
  · exact absurd htakes hnot
  · cases hact
    exact hset
  · cases hact

/-- Once a valid datagram has come in, the query knows what it will find. -/
theorem Registered.settled_of_run {query : Message} {id : UInt16} {q : Nat} {s s' : State}
    {acts : List Act} {bytes : List UInt8} (h : Registered id q s) (hinv : Inv s)
    (hrun : Run s acts s') (hstay : .leave q ∉ acts) (hmem : .receive bytes ∈ acts)
    (hvalid : Valid query id bytes) : ∃ c, Settled q c s' := by
  induction hrun with
  | nil => cases hmem
  | cons _ hs hrest ih =>
      rw [List.mem_cons, not_or] at hstay
      have hinv' := hinv.step hs
      rcases h.step hinv hs (Ne.symm hstay.1) with ⟨hreg, -⟩ | ⟨bytes', -, -, hset⟩ | ⟨q', -, -, hset⟩
      · rcases List.mem_cons.mp hmem with rfl | hmem
        · exact ⟨_, (h.settled_of_valid hinv hs hvalid).run hinv' hrest hstay.2⟩
        · exact ih hreg hinv' hstay.2 hmem
      · exact ⟨_, hset.run hinv' hrest hstay.2⟩
      · exact ⟨_, hset.run hinv' hrest hstay.2⟩

/-- A query that finds a valid datagram was not disturbed before. -/
theorem Registered.undisturbed {query : Message} {id : UInt16} {q : Nat} {s s' : State}
    {acts : List Act} {bytes : List UInt8} (h : Registered id q s) (hinv : Inv s)
    (hrun : Run s acts s') (hstay : .leave q ∉ acts) (hend : Settled q (.sent bytes) s')
    (hvalid : Valid query id bytes) : Steps.Run Step (Undisturbed query id q) s acts s' := by
  induction hrun with
  | nil => exact .nil
  | cons _ hs hrest ih =>
      rw [List.mem_cons, not_or] at hstay
      have hinv' := hinv.step hs
      rcases h.step hinv hs (Ne.symm hstay.1) with
        ⟨hreg, hnot⟩ | ⟨bytes', rfl, -, hset⟩ | ⟨q', rfl, -, hset⟩
      · exact .cons (fun _ htakes => absurd htakes hnot) hs (ih hreg hinv' hstay.2 hend)
      · -- what it was settled with then is what it finds in the end
        cases (hset.run hinv' hrest hstay.2).unique hend
        exact .cons (fun _ _ => ⟨bytes, rfl, hvalid⟩) hs (hset.undisturbed hinv' hrest hstay.2 query id)
      · cases (hset.run hinv' hrest hstay.2).unique hend

/--
**The first valid reply wins exactly if nothing takes the query's entry before it.** In every run
from the registration of a query on, as long as it does not time out, and whatever else goes on: once
a valid datagram was received, the query completes with what it makes of the first one, that message
or what the retry over TCP gives if it is cut, if and only if its entry was not taken by a datagram
with its id that is not valid, nor by the guard of another query.
-/
theorem first_reply_wins_iff (s₀ : State) (hreach : Reachable s₀) (q : Nat) (id : UInt16)
    (hfresh : s₀.assigned q = none) (hvacant : s₀.map id = none) (query : Message)
    (request : List UInt8) (hsent : UdpRequest query id request) (acts : List Act) (s : State)
    (hrun : Run (s₀.register q id) acts s) (hstay : .leave q ∉ acts) (bytes : List UInt8)
    (hfirst : FirstValid query id acts bytes) (msg : Message)
    (hmsg : parseValidatedResponse bytes query query.header.id = .ok msg) :
    (CompletesWith q bytes s ↔
      Steps.Run Step (Undisturbed query id q) (s₀.register q id) acts s) ∧
    ∀ peer : Peer, peer.udp request = some (.datagram bytes) →
      UpstreamSocket.query peer (some id) query =
        if msg.header.isTruncated then tcpQuery peer query else .ok msg := by
  have hinv : Inv (s₀.register q id) :=
    (hreach.invariant inv_init fun _ _ _ => Inv.step).register hfresh hvacant
  have hreg : Registered id q (s₀.register q id) :=
    ⟨Function.update_self .., _, Function.update_self .., rfl⟩
  obtain ⟨before, after, hacts, hnone⟩ := hfirst.first
  constructor
  · have hmem : Act.receive bytes ∈ acts := by
      rw [hacts]
      exact List.mem_append_right _ List.mem_cons_self
    obtain ⟨c, hset⟩ := hreg.settled_of_run hinv hrun hstay hmem hfirst.valid
    have hinv' : Inv s := hrun.invariant (P := Inv) (fun _ _ _ h hs => h.step hs) hinv
    rw [completesWith_iff hset hinv']
    constructor
    · intro hsame
      subst hsame
      exact hreg.undisturbed hinv hrun hstay hset hfirst.valid
    · intro hok
      subst hacts
      rw [List.mem_append, List.mem_cons, not_or, not_or] at hstay
      obtain ⟨s₁, hbefore, hafter⟩ := hok.of_append
      have hreg₁ := hreg.run hinv hbefore hstay.1 hnone
      have hinv₁ : Inv s₁ := hbefore.invariant (P := Inv) (fun _ _ _ h hs => h.step hs) hinv
      cases hafter with
      | cons _ hs hrest =>
          have hwon := (hreg₁.settled_of_valid hinv₁ hs hfirst.valid).run (hinv₁.step hs) hrest
            hstay.2.2
          exact hset.unique hwon
  · intro peer hudp
    rw [query_of_datagram hsent hudp, onDatagram, hmsg]
    rfl

/-- What the first query goes out in, as a query for the root. -/
def rootRequest : List UInt8 := [0, 7, 1, 0, 0, 1, 0, 0, 0, 0, 0, 0, 0, 0, 1, 0, 1]

theorem valid_bareAnswer : Valid (flaggedQuery 0) 7 (bareAnswer 7) :=
  ⟨rfl, flaggedQuery Header.QR, rfl⟩

/-- Behind a datagram of two bytes, the reply is still the first one. -/
theorem bareAnswer_wins :
    CompletesWith 0 (bareAnswer 7) ((asked.receive [0, 7]).receive (bareAnswer 7)) := by
  have hfirst : FirstValid (flaggedQuery 0) 7 [.receive [0, 7], .receive (bareAnswer 7)]
      (bareAnswer 7) := by
    refine ⟨valid_bareAnswer, [.receive [0, 7]], [], rfl, fun bytes' hbytes' hvalid => ?_⟩
    have hlen := hvalid.length
    cases List.mem_singleton.mp hbytes'
    exact absurd hlen (by decide)
  refine (first_reply_wins_iff init .init 0 7 rfl rfl (flaggedQuery 0) rootRequest ⟨_, rfl, rfl⟩
    [.receive [0, 7], .receive (bareAnswer 7)] _
    (.cons trivial (.receive (by decide) rfl) (.cons trivial (.receive (by decide) rfl) .nil))
    (by simp) (bareAnswer 7) hfirst (flaggedQuery Header.QR) rfl).1.mpr
    (.cons (fun _ htakes => ?_) (.receive (by decide) rfl)
      (.cons (fun _ _ => ?_) (.receive (by decide) rfl) .nil))
  · rcases htakes with ⟨bytes, hact, hlen, -⟩ | ⟨q, qu, hact, -⟩
    · cases hact
      exact absurd hlen (by decide)
    · cases hact
  · exact ⟨bareAnswer 7, rfl, valid_bareAnswer⟩

/-- Behind one of twelve bytes with the same id, it is dropped: the query has been handed those, and
fails. -/
theorem bareAnswer_loses :
    Run asked [.receive answerSeven, .send, .receive (bareAnswer 7)] (answered.receive (bareAnswer 7)) ∧
    FirstValid (flaggedQuery 0) 7 [.receive answerSeven, .send, .receive (bareAnswer 7)]
      (bareAnswer 7) ∧
    ¬ CompletesWith 0 (bareAnswer 7) (answered.receive (bareAnswer 7)) := by
  refine ⟨.cons trivial (.receive (by decide) rfl)
      (.cons trivial (.send rfl) (.cons trivial (.receive (by decide) rfl) .nil)),
    ⟨valid_bareAnswer, [.receive answerSeven, .send], [], rfl, ?_⟩, ?_⟩
  · intro bytes' hbytes' hvalid
    obtain rfl : bytes' = answerSeven := by simpa using hbytes'
    obtain ⟨-, msg, hmsg⟩ := hvalid
    have hreject : parseValidatedResponse answerSeven (flaggedQuery 0) 7 =
        .error (.err .invalidResponse) := rfl
    cases hreject.symm.trans hmsg
  · intro hcompletes
    have hready : (answered.receive (bareAnswer 7)).queries 0 = some (wokenQuery answerSeven) := rfl
    obtain ⟨acts, s', qu, hrun, hstay, hq, hfin, hchan⟩ :=
      wake_of_ready hready (by decide) (by decide)
    have hother := hcompletes.2 acts s' qu hrun hstay hq hfin
    rw [hchan] at hother
    exact absurd hother (by decide)

end InFlight

end Dnser
