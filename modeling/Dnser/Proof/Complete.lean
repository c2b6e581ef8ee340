import Dnser.Lib.Family
import Dnser.Proof.Race
import Dnser.Proof.Robust

/-!
# Every call comes to its end

A call waits for its upstreams, and an upstream may never answer. That the call comes to its end all
the same is due to the timeouts: a query can always give up, its guard can always be dropped, and with
the last of them the call has nothing left to wait for. So there is always something the call can do by
itself (`exists_own`), and it cannot do so forever: what is left for it to do (`Call.togo`) only ever
becomes less, whatever the upstreams and the other calls do.
-/

namespace Dnser

namespace InFlight

/-- **A query is only moved on by itself.** Others may fill its channel, and never empty it. -/
theorem phase_step {s s' : State} {a : Act} (hinv : Inv s) (hs : Step s a s') {q : Nat} {qu : Query}
    (hq : s.queries q = some qu) (hwake : a ≠ .wake q) (hleave : a ≠ .leave q)
    (hdrop : a ≠ .dropGuard q) :
    ∃ qu', s'.queries q = some qu' ∧ qu'.phase = qu.phase ∧ (qu.chan ≠ .empty → qu'.chan ≠ .empty) := by
  -- a query that nothing happens to
  have hsame : ∀ {queries : Nat → Option Query}, queries q = s.queries q →
      ∃ qu', queries q = some qu' ∧ qu'.phase = qu.phase ∧ (qu.chan ≠ .empty → qu'.chan ≠ .empty) :=
    fun hqs => ⟨qu, hqs.trans hq, rfl, id⟩
  cases hs with
  | @allocate q' id hfresh _ =>
      have hne : q ≠ q' := by
        rintro rfl
        rw [(hinv.live q qu hq).1] at hfresh
        cases hfresh
      exact hsame (Function.update_of_ne hne ..)
  | receive _ _ => exact hsame (by rw [queries_receive])
  | @send d q' _ =>
      unfold State.send
      dsimp only
      by_cases hqq : q = q'
      · subst hqq
        rw [hq]
        dsimp only
        split
        · exact ⟨_, Function.update_self .., rfl, by simp⟩
        · exact hsame rfl
      · split
        · split
          · exact hsame (Function.update_of_ne hqq ..)
          · exact hsame rfl
        · exact hsame rfl
  | @wake q' qu' _ _ _ =>
      have hne : q ≠ q' := fun h => hwake (by rw [h])
      exact hsame (Function.update_of_ne hne ..)
  | @leave q' qu' _ _ =>
      have hne : q ≠ q' := fun h => hleave (by rw [h])
      exact hsame (Function.update_of_ne hne ..)
  | @dropGuard q' qu' hq' _ =>
      have hne : q ≠ q' := fun h => hdrop (by rw [h])
      by_cases hreach : ∃ id, qu'.guard = some id ∧ s.map id = some q
      · obtain ⟨id, hg, hm⟩ := hreach
        refine ⟨{ qu with chan := .closed }, ?_, rfl, by simp⟩
        simp [State.finish, hg, State.removeId, hm, State.dropSender, hq, State.setQuery,
          Function.update_of_ne hne]
      · refine hsame ?_
        rw [queries_finish hne hq fun id hg hm => hreach ⟨id, hg, hm⟩, hq]

end InFlight

namespace Race

open Family
open InFlight (allocateAndInsert)

variable {m : Nat} {s s' : State m} {a : Act m}

/-! ## A call is never stuck -/

/-- The query of a future is where the future thinks it is. -/
def Matches (fut : Fut) (qu : Option InFlight.Query) : Prop :=
  match fut with
  | .asking => ∃ qu', qu = some qu' ∧
      (qu'.phase = .waiting ∨ qu'.phase = .finishing ∧ qu'.chan ≠ .empty)
  | .leaving _ => ∃ qu', qu = some qu' ∧ qu'.phase = .leaving
  | _ => True

/-- Calls and their upstreams agree, and a call that waits has something to wait for. -/
structure Orderly (s : State m) : Prop where
  inv : Inv s
  agree : ∀ q c u, s.calls q = some c → Matches (c.futs u) ((s.upstreams u).queries q)
  waits : ∀ q c, s.calls q = some c → c.phase = .racing → ∃ u, (c.futs u).isOver = false

theorem orderly_init : Orderly (init m) := by
  refine ⟨inv_init, fun q c u hc => ?_, fun q c hc => ?_⟩
  · cases hc
  · cases hc

/-- A future that is over has no query. -/
theorem matches_of_isOver {fut : Fut} (h : fut.isOver = true) (qu : Option InFlight.Query) :
    Matches fut qu := by
  cases fut with
  | failed _ | gone => trivial
  | idle | asking | leaving _ | ready _ => cases h

/-- What the others do does not matter to a future. -/
theorem Matches.step {up up' : InFlight.State} {act : InFlight.Act} {q : Nat} {fut : Fut}
    (h : Matches fut (up.queries q)) (hinv : InFlight.Inv up) (hs : InFlight.Step up act up')
    (hwake : act ≠ .wake q) (hleave : act ≠ .leave q) (hdrop : act ≠ .dropGuard q) :
    Matches fut (up'.queries q) := by
  cases fut with
  | asking =>
      obtain ⟨qu, hq, hphase⟩ := h
      obtain ⟨qu', hq', hsame, hchan⟩ := InFlight.phase_step hinv hs hq hwake hleave hdrop
      refine ⟨qu', hq', ?_⟩
      rcases hphase with hphase | ⟨hphase, hne⟩
      · exact .inl (hsame.trans hphase)
      · exact .inr ⟨hsame.trans hphase, hchan hne⟩
  | leaving r =>
      obtain ⟨qu, hq, hphase⟩ := h
      obtain ⟨qu', hq', hsame, -⟩ := InFlight.phase_step hinv hs hq hwake hleave hdrop
      exact ⟨qu', hq', hsame.trans hphase⟩
  | idle | ready _ | failed _ | gone => trivial

theorem upstreams_setUpstream_self (s : State m) (u : Fin m) (up : InFlight.State) :
    (s.setUpstream u up).upstreams u = up :=
  Function.update_self ..

theorem upstreams_setUpstream_of_ne (s : State m) {u v : Fin m} (h : v ≠ u) (up : InFlight.State) :
    (s.setUpstream u up).upstreams v = s.upstreams v :=
  Function.update_of_ne h ..

/-- An upstream goes on. -/
theorem Orderly.agree_setUpstream (h : Orderly s) {u : Fin m} {up : InFlight.State}
    (hup : ∀ q c, s.calls q = some c → Matches (c.futs u) (up.queries q)) (q : Nat) (c : Call m)
    (v : Fin m) (hc : s.calls q = some c) :
    Matches (c.futs v) (((s.setUpstream u up).upstreams v).queries q) := by
  by_cases hv : v = u
  · rw [hv, upstreams_setUpstream_self]
    exact hup q c hc
  · rw [upstreams_setUpstream_of_ne s hv]
    exact h.agree q c v hc

/-- A call goes on, with the future of an upstream that may have gone on as well. -/
theorem agree_setCall (hagree : ∀ q c u, s.calls q = some c → Matches (c.futs u) ((s.upstreams u).queries q))
    {q : Nat} {c' : Call m} (hnew : ∀ v, Matches (c'.futs v) ((s.upstreams v).queries q)) (q₁ : Nat)
    (c₁ : Call m) (v : Fin m) (hc₁ : (s.setCall q (some c')).calls q₁ = some c₁) :
    Matches (c₁.futs v) ((s.upstreams v).queries q₁) := by
  by_cases hqq : q₁ = q
  · rw [hqq, calls_setCall_self] at hc₁
    cases hc₁
    rw [hqq]
    exact hnew v
  · rw [calls_setCall_of_ne s hqq] at hc₁
    exact hagree q₁ c₁ v hc₁

theorem waits_setCall (hwaits : ∀ q c, s.calls q = some c → c.phase = .racing →
    ∃ u, (c.futs u).isOver = false) {q : Nat} {c' : Call m}
    (hnew : c'.phase = .racing → ∃ u, (c'.futs u).isOver = false) (q₁ : Nat) (c₁ : Call m)
    (hc₁ : (s.setCall q (some c')).calls q₁ = some c₁) (hphase : c₁.phase = .racing) :
    ∃ u, (c₁.futs u).isOver = false := by
  by_cases hqq : q₁ = q
  · rw [hqq, calls_setCall_self] at hc₁
    cases hc₁
    exact hnew hphase
  · rw [calls_setCall_of_ne s hqq] at hc₁
    exact hwaits q₁ c₁ hc₁ hphase

/-- One future goes on, and its upstream with it. -/
theorem Orderly.setFut (h : Orderly s) {q : Nat} {c : Call m} {u : Fin m} {fut : Fut}
    {act : InFlight.Act} {up : InFlight.State} (hq : s.calls q = some c)
    (hinv : Inv ((s.setUpstream u up).setFut q c u fut)) (hs : InFlight.Step (s.upstreams u) act up)
    (hact : ∀ q' ≠ q, act ≠ .wake q' ∧ act ≠ .leave q' ∧ act ≠ .dropGuard q')
    (hfut : Matches fut (up.queries q)) (hwaits : c.phase = .racing → fut.isOver = false) :
    Orderly ((s.setUpstream u up).setFut q c u fut) := by
  refine ⟨hinv, ?_, ?_⟩
  · intro q₁ c₁ v hc₁
    -- at this upstream the others are as before
    have hothers : q₁ ≠ q → ∀ c₂, s.calls q₁ = some c₂ → Matches (c₂.futs u) (up.queries q₁) := by
      intro hqq c₂ hc₂
      obtain ⟨hwake, hleave, hdrop⟩ := hact q₁ hqq
      exact (h.agree q₁ c₂ u hc₂).step (h.inv.upstreams u) hs hwake hleave hdrop
    have hc₁' : ((s.setUpstream u up).setCall q (some (c.setFut u fut))).calls q₁ = some c₁ := hc₁
    show Matches (c₁.futs v) (((s.setUpstream u up).upstreams v).queries q₁)
    by_cases hqq : q₁ = q
    · rw [hqq, calls_setCall_self] at hc₁'
      cases hc₁'
      by_cases hv : v = u
      · rw [hv, Call.futs_setFut_self, hqq, upstreams_setUpstream_self]
        exact hfut
      · rw [Call.futs_setFut_of_ne c hv, hqq, upstreams_setUpstream_of_ne s hv]
        exact h.agree q c v hq
    · rw [calls_setCall_of_ne _ hqq] at hc₁'
      by_cases hv : v = u
      · rw [hv, upstreams_setUpstream_self]
        exact hothers hqq c₁ hc₁'
      · rw [upstreams_setUpstream_of_ne s hv]
        exact h.agree q₁ c₁ v hc₁'
  · refine waits_setCall (s := s.setUpstream u up) h.waits fun hphase => ⟨u, ?_⟩
    rw [Call.futs_setFut_self]
    exact hwaits hphase

/-- One future goes on by itself. -/
theorem Orderly.setFut_self (h : Orderly s) {q : Nat} {c : Call m} {u : Fin m} {fut : Fut}
    (hq : s.calls q = some c) (hinv : Inv (s.setFut q c u fut)) (hfut : ∀ qu, Matches fut qu)
    (hwaits : c.phase = .racing → fut.isOver = false) : Orderly (s.setFut q c u fut) := by
  refine ⟨hinv, agree_setCall h.agree fun v => ?_, waits_setCall h.waits fun hphase => ⟨u, ?_⟩⟩
  · by_cases hv : v = u
    · rw [hv, Call.futs_setFut_self]
      exact hfut _
    · rw [Call.futs_setFut_of_ne c hv]
      exact h.agree q c v hq
  · rw [Call.futs_setFut_self]
    exact hwaits hphase

/-- An upstream goes on, and no query of it leaves. -/
theorem Orderly.setUpstream (h : Orderly s) {u : Fin m} {act : InFlight.Act} {up : InFlight.State}
    (hinv : Inv (s.setUpstream u up)) (hs : InFlight.Step (s.upstreams u) act up)
    (hleave : ∀ q, act ≠ .leave q) (hdrop : ∀ q, act ≠ .dropGuard q)
    (hwake : ∀ q, act = .wake q → ∀ c, s.calls q = some c → Matches (c.futs u) (up.queries q)) :
    Orderly (s.setUpstream u up) := by
  refine ⟨hinv, h.agree_setUpstream fun q c hc => ?_, h.waits⟩
  by_cases hq : act = .wake q
  · exact hwake q hq c hc
  · exact (h.agree q c u hc).step (h.inv.upstreams u) hs hq (hleave q) (hdrop q)

/-- A query on its way out is on its way out. -/
theorem queries_leave {up up' : InFlight.State} {q : Nat} (hs : InFlight.Step up (.leave q) up') :
    ∃ qu, up'.queries q = some qu ∧ qu.phase = .leaving := by
  cases hs with
  | leave _ _ => exact ⟨_, Function.update_self .., rfl⟩

/-- **Every step keeps calls and upstreams in agreement.** -/
theorem Orderly.step (h : Orderly s) (hs : Step s a s') : Orderly s' := by
  have hinv := h.inv.step hs
  cases hs with
  | @call query =>
      refine ⟨hinv, agree_setCall h.agree fun v => ?_, waits_setCall h.waits fun hphase => ?_⟩
      · unfold Call.begin
        split <;> trivial
      · unfold Call.begin at hphase ⊢
        split at hphase
        · cases hphase
        · rename_i hm
          rw [if_neg hm]
          exact ⟨⟨0, by omega⟩, rfl⟩
  | unwritable hq _ _ _ => exact h.setFut_self hq hinv (fun _ => trivial) fun _ => rfl
  | exhausted hq _ _ _ _ => exact h.setFut_self hq hinv (fun _ => trivial) fun _ => rfl
  | @asks q u c bytes rng id hq _ hidle _ halloc =>
      have hstep := (InFlight.step_allocateAndInsert (h.inv.idle q c u hq hidle) halloc).1
      refine h.setFut hq hinv hstep (fun q' _ => ?_) ⟨_, Function.update_self .., .inl rfl⟩ fun _ => rfl
      exact ⟨by simp, by simp, by simp⟩
  | receive hup => exact h.setUpstream hinv hup (by simp) (by simp) (by simp)
  | send hup => exact h.setUpstream hinv hup (by simp) (by simp) (by simp)
  | @wake q u c up hq _ hasking hup =>
      refine h.setUpstream hinv hup (by simp) (by simp) fun q' hq' c' hc' => ?_
      cases hq'
      rw [hq] at hc'
      cases hc'
      rw [hasking]
      cases hup with
      | wake _ _ hchan => exact ⟨_, Function.update_self .., .inr ⟨rfl, hchan⟩⟩
  | @returns q u c qu r up hq _ _ _ _ hup =>
      refine h.setFut hq hinv hup (fun q' hne => ?_) (queries_leave hup) fun _ => rfl
      exact ⟨by simp, by simpa using hne.symm, by simp⟩
  | @abandoned q u c result up hq hphase _ hup =>
      refine h.setFut hq hinv hup (fun q' hne => ?_) (queries_leave hup) fun _ => rfl
      exact ⟨by simp, by simpa using hne.symm, by simp⟩
  | @dropGuard q u c r up hq hfut hup =>
      refine h.setFut hq hinv hup (fun q' hne => ?_) ?_ fun hphase => ?_
      · exact ⟨by simp, by simp, by simpa using hne.symm⟩
      · cases r <;> trivial
      · cases r with
        | some r => rfl
        | none => exact absurd (by rw [hfut]; trivial) ((h.inv.calls q c hq).racing hphase u)
  | @next q u c r hq hphase hready =>
      obtain ⟨hother, hself⟩ := c.futs_next u r
      refine ⟨hinv, agree_setCall h.agree fun v => ?_, waits_setCall h.waits fun hracing => ?_⟩
      · by_cases hv : v = u
        · rw [hv]
          exact matches_of_isOver hself _
        · rw [hother v hv]
          exact h.agree q c v hq
      · cases r with
        | ok msg => cases hracing
        | error e =>
            unfold Call.next at hracing ⊢
            dsimp only at hracing ⊢
            split at hracing
            · cases hracing
            · rename_i hall
              rw [if_neg hall]
              obtain ⟨v, hv⟩ := not_forall.mp hall
              exact ⟨v, by simpa using hv⟩
  | @cancel q c hq _ =>
      refine ⟨hinv, agree_setCall h.agree fun v => h.agree q c v hq, waits_setCall h.waits fun hracing => ?_⟩
      cases hracing
  | @discard q u c result hq hphase _ =>
      refine h.setFut_self hq hinv (fun _ => trivial) fun hracing => ?_
      rw [hphase] at hracing
      cases hracing
  | @ends q c result hq _ _ =>
      have hold : ∀ {q₁ : Nat} {c₁ : Call m}, (s.setCall q none).calls q₁ = some c₁ →
          s.calls q₁ = some c₁ := by
        intro q₁ c₁ hc₁
        by_cases hqq : q₁ = q
        · rw [hqq, calls_setCall_self] at hc₁
          cases hc₁
        · rwa [calls_setCall_of_ne s hqq] at hc₁
      exact ⟨hinv, fun q₁ c₁ v hc₁ => h.agree q₁ c₁ v (hold hc₁), fun q₁ c₁ hc₁ =>
        h.waits q₁ c₁ (hold hc₁)⟩

/-- What a call does by itself, for which it needs no upstream and no other call. -/
def Act.own (q : Nat) : Act m → Bool
  | .start q' _ | .leave q' _ | .dropGuard q' _ | .next q' _ | .cancel q' | .discard q' _
  | .ends q' _ => q' = q
  | .call _ | .receive _ _ | .send _ | .wake _ _ => false

/-- A query can always return: with what it has found, or because time is up. -/
theorem exists_returns (query : Message) {qu : InFlight.Query}
    (h : qu.phase = .waiting ∨ qu.phase = .finishing ∧ qu.chan ≠ .empty) : ∃ r, Returns query qu r := by
  have hfinds : ∃ received, Finds qu received := by
    rcases h with hphase | ⟨hphase, hchan⟩
    · exact ⟨some .timeout, hphase⟩
    · cases hc : qu.chan with
      | empty => exact absurd hc hchan
      | sent bytes => exact ⟨some (.datagram bytes), hphase, hc⟩
      | closed => exact ⟨some .closed, hphase, hc⟩
  obtain ⟨received, hfinds⟩ := hfinds
  let peer : Peer := { udp := fun _ => received, tcp := fun _ => .timeout }
  cases hrun : UpstreamSocket.query peer (some qu.id) query with
  | ok msg => exact ⟨.ok msg, peer, received, hfinds, fun _ => rfl, hrun⟩
  | error e =>
      cases e with
      | err e => exact ⟨.error e, peer, received, hfinds, fun _ => rfl, hrun⟩
      | panic => exact absurd hrun (query_ne_panic peer _ query)

/-- **A call is never stuck.** As long as it has not come to its end there is something it can do by
itself, without anyone dropping it. -/
theorem Orderly.exists_own (h : Orderly s) {q : Nat} {c : Call m} (hq : s.calls q = some c) :
    ∃ a s', a.own q = true ∧ (∀ q', a ≠ .cancel q') ∧ Step s a s' := by
  -- a guard is dropped in any case
  have hguard : ∀ {u : Fin m} {r : Option Outcome}, c.futs u = .leaving r →
      ∃ a s', a.own q = true ∧ (∀ q', a ≠ .cancel q') ∧ Step s a s' := by
    intro u r hfut
    have hagree := h.agree q c u hq
    rw [hfut] at hagree
    obtain ⟨qu, hqu, hphase⟩ := hagree
    exact ⟨.dropGuard q u, _, by simp [Act.own], by simp, .dropGuard hq hfut (.dropGuard hqu hphase)⟩
  cases hphase : c.phase with
  | racing =>
      obtain ⟨u, hu⟩ := h.waits q c hq hphase
      cases hfut : c.futs u with
      | idle =>
          rcases toBytes_cases c.query with ⟨-, bytes, hbytes⟩ | ⟨-, e, he⟩
          · rcases InFlight.allocateAndInsert_cases (s.upstreams u).map q (fun _ => 0) with
              ⟨id, -, halloc⟩ | ⟨-, halloc⟩
            · exact ⟨.start q u, _, by simp [Act.own], by simp,
                .asks hq hphase hfut hbytes (by rw [halloc])⟩
            · exact ⟨.start q u, _, by simp [Act.own], by simp,
                .exhausted hq hphase hfut hbytes (by rw [halloc])⟩
          · exact ⟨.start q u, _, by simp [Act.own], by simp, .unwritable hq hphase hfut he⟩
      | asking =>
          have hagree := h.agree q c u hq
          rw [hfut] at hagree
          obtain ⟨qu, hqu, hready⟩ := hagree
          obtain ⟨r, hr⟩ := exists_returns c.query hready
          have hleave : qu.phase ≠ .leaving := by
            rcases hready with hp | ⟨hp, -⟩ <;> simp [hp]
          exact ⟨.leave q u, _, by simp [Act.own], by simp,
            .returns hq hphase hfut hqu hr (.leave hqu hleave)⟩
      | leaving r => exact hguard hfut
      | ready r => exact ⟨.next q u, _, by simp [Act.own], by simp, .next hq hphase hfut⟩
      | failed _ | gone =>
          rw [hfut] at hu
          cases hu
  | ending result =>
      by_cases hover : ∀ u, (c.futs u).isOver
      · exact ⟨.ends q result, _, by simp [Act.own], by simp, .ends hq hphase hover⟩
      · obtain ⟨u, hu⟩ := not_forall.mp hover
        cases hfut : c.futs u with
        | idle =>
            exact ⟨.discard q u, _, by simp [Act.own], by simp, .discard hq hphase (.inl hfut)⟩
        | asking =>
            have hagree := h.agree q c u hq
            rw [hfut] at hagree
            obtain ⟨qu, hqu, hready⟩ := hagree
            have hleave : qu.phase ≠ .leaving := by
              rcases hready with hp | ⟨hp, -⟩ <;> simp [hp]
            exact ⟨.leave q u, _, by simp [Act.own], by simp,
              .abandoned hq hphase hfut (.leave hqu hleave)⟩
        | leaving r => exact hguard hfut
        | ready r =>
            exact ⟨.discard q u, _, by simp [Act.own], by simp, .discard hq hphase (.inr ⟨r, hfut⟩)⟩
        | failed _ | gone =>
            rw [hfut] at hu
            exact absurd rfl hu

/-! ## And not forever busy -/

/-- What is left for a future to do. -/
def Fut.togo : Fut → Nat
  | idle => 4
  | asking => 3
  | leaving _ => 2
  | ready _ => 1
  | failed _ | gone => 0

/-- What is left for a call to do. -/
def CallPhase.togo : CallPhase → Nat
  | racing => 2
  | ending _ => 1

/-- The same with its futures. -/
def Call.togo (c : Call m) : Nat := tally Fut.togo c.futs + c.phase.togo

theorem Call.togo_setFut (c : Call m) (u : Fin m) (fut : Fut) :
    (c.setFut u fut).togo + (c.futs u).togo = c.togo + fut.togo := by
  have hsum := tally_update Fut.togo c.futs u fut
  simp only [Call.togo, Call.setFut]
  omega

theorem Call.togo_begin_le (query : Message) : (Call.begin query : Call m).togo ≤ 4 * m + 2 := by
  have hidle : tally Fut.togo (fun _ : Fin m => Fut.idle) = 4 * m := by
    simp [tally, Fut.togo, Nat.mul_comm]
  unfold Call.begin
  split
  · simp only [Call.togo, hidle, CallPhase.togo]
    omega
  · simp only [Call.togo, hidle, CallPhase.togo]
    omega

theorem Call.togo_next (c : Call m) (u : Fin m) {r : Outcome} (hphase : c.phase = .racing)
    (hready : c.futs u = .ready r) : (c.next u r).togo < c.togo := by
  cases r with
  | ok msg =>
      have hset := c.togo_setFut u .gone
      rw [hready] at hset
      simp only [Call.next, Call.togo, Fut.togo, CallPhase.togo, Call.setFut, hphase] at hset ⊢
      omega
  | error e =>
      have hset := c.togo_setFut u (.failed e)
      rw [hready] at hset
      unfold Call.next
      dsimp only
      split
      · simp only [Call.togo, Fut.togo, CallPhase.togo, Call.setFut, hphase] at hset ⊢
        omega
      · simp only [Fut.togo] at hset
        omega

/-- What is left for a call to do, before it is made and after it has ended as well. -/
def State.togo (s : State m) (q : Nat) : Nat :=
  match s.calls q with
  | some c => c.togo
  | none => if q < s.made then 0 else 4 * m + 2

theorem State.togo_of_some {q : Nat} {c : Call m} (hq : s.calls q = some c) : s.togo q = c.togo := by
  rw [State.togo, hq]

theorem State.togo_of_none {q : Nat} (hq : s.calls q = none) :
    s.togo q = if q < s.made then 0 else 4 * m + 2 := by
  rw [State.togo, hq]

@[simp] theorem togo_setUpstream (s : State m) (u : Fin m) (up : InFlight.State) (q : Nat) :
    (s.setUpstream u up).togo q = s.togo q := rfl

/-- A call goes on. -/
theorem togo_setCall {q₀ : Nat} {c : Call m} (q : Nat) (c' : Call m) (hq : s.calls q₀ = some c)
    (hlt : c'.togo < c.togo) :
    (s.setCall q₀ (some c')).togo q + (if q₀ = q then 1 else 0) ≤ s.togo q := by
  by_cases hqq : q₀ = q
  · subst hqq
    simp only [State.togo, calls_setCall_self, hq, if_true]
    omega
  · rw [if_neg hqq]
    simp only [State.togo, calls_setCall_of_ne s (Ne.symm hqq)]
    exact Nat.le_refl _

/-- A future goes on. -/
theorem togo_setFut {q₀ : Nat} {c : Call m} (q : Nat) (u : Fin m) (fut : Fut)
    (hq : s.calls q₀ = some c) (hlt : fut.togo < (c.futs u).togo) :
    (s.setFut q₀ c u fut).togo q + (if q₀ = q then 1 else 0) ≤ s.togo q := by
  refine togo_setCall q _ hq ?_
  have hset := c.togo_setFut u fut
  omega

/-- A call is made. -/
theorem togo_call (hinv : Inv s) {query : Message}
    (hcalls : s'.calls = Function.update s.calls s.made (some (Call.begin query)))
    (hmade : s'.made = s.made + 1) (q : Nat) : s'.togo q ≤ s.togo q := by
  by_cases hqq : q = s.made
  · subst hqq
    have hnew : s'.calls s.made = some (Call.begin query) := by rw [hcalls, Function.update_self]
    rw [State.togo_of_some hnew, State.togo_of_none (hinv.fresh s.made (Nat.le_refl _)).1,
      if_neg (Nat.lt_irrefl _)]
    exact Call.togo_begin_le query
  · have hold : s'.calls q = s.calls q := by rw [hcalls, Function.update_of_ne hqq]
    cases hq : s.calls q with
    | some c => rw [State.togo_of_some hq, State.togo_of_some (hold.trans hq)]
    | none =>
        rw [State.togo_of_none hq, State.togo_of_none (hold.trans hq), hmade]
        split <;> split <;> omega

/-- **Whatever happens, a call has less and less to do.** -/
theorem togo_step (hinv : Inv s) (hs : Step s a s') (q : Nat) :
    s'.togo q + (if a.own q then 1 else 0) ≤ s.togo q := by
  cases hs with
  | call => exact togo_call hinv rfl rfl q
  | unwritable hq _ hfut _ => simpa [Act.own] using togo_setFut q _ _ hq (by simp [hfut, Fut.togo])
  | exhausted hq _ hfut _ _ => simpa [Act.own] using togo_setFut q _ _ hq (by simp [hfut, Fut.togo])
  | @asks q₀ u c bytes rng id hq _ hfut _ _ =>
      have hset := togo_setFut (s := s.setUpstream u ((s.upstreams u).register q₀ id)) q u .asking hq
        (by simp [hfut, Fut.togo])
      simpa [Act.own] using hset
  | receive _ => exact Nat.le_refl _
  | send _ => exact Nat.le_refl _
  | wake _ _ _ _ => exact Nat.le_refl _
  | @returns q₀ u c qu r up hq _ hfut _ _ _ =>
      have hset := togo_setFut (s := s.setUpstream u up) q u (.leaving (some r)) hq
        (by simp [hfut, Fut.togo])
      simpa [Act.own] using hset
  | @abandoned q₀ u c result up hq _ hfut _ =>
      have hset := togo_setFut (s := s.setUpstream u up) q u (.leaving none) hq
        (by simp [hfut, Fut.togo])
      simpa [Act.own] using hset
  | @dropGuard q₀ u c r up hq hfut _ =>
      have hset := togo_setFut (s := s.setUpstream u up) q u (r.elim .gone .ready) hq
        (by cases r <;> simp [hfut, Fut.togo])
      simpa [Act.own] using hset
  | @next q₀ u c r hq hphase hfut =>
      simpa [Act.own] using togo_setCall q _ hq (c.togo_next u hphase hfut)
  | @cancel q₀ c hq hphase =>
      have hset := togo_setCall q { c with phase := .ending none } hq
        (by simp [Call.togo, hphase, CallPhase.togo])
      simpa [Act.own] using hset
  | @discard q₀ u c result hq _ hfut =>
      have hlt : Fut.gone.togo < (c.futs u).togo := by
        rcases hfut with hfut | ⟨r, hfut⟩ <;> simp [hfut, Fut.togo]
      simpa [Act.own] using togo_setFut q u .gone hq hlt
  | @ends q₀ c result hq hphase _ =>
      have hmade := hinv.lt_made hq
      by_cases hqq : q₀ = q
      · subst hqq
        simp only [State.togo, calls_setCall_self, hq, Act.own, Call.togo, hphase, CallPhase.togo,
          decide_true, if_true]
        have hlt : q₀ < (s.setCall q₀ none).made := hmade
        rw [if_pos hlt]
        omega
      · simp only [Act.own, hqq, decide_false, Bool.false_eq_true, if_false, State.togo,
          calls_setCall_of_ne s (Ne.symm hqq)]
        exact Nat.le_refl _

/--
**Every call comes to its end.** In every run of a resolver, with any number of calls at the same time
and whatever its `m` upstreams send or do not send: a call makes no more than `4 * m + 2` steps of its
own, and until it has come to its end there is always one that it can make, without being dropped.
-/
theorem race_completes (m : Nat) (acts : List (Act m)) (s : State m)
    (hrun : Steps.Run Step (fun _ _ => True) (init m) acts s) (q : Nat) :
    acts.countP (Act.own q) ≤ 4 * m + 2 ∧
      (s.calls q ≠ none → ∃ a s', a.own q = true ∧ (∀ q', a ≠ .cancel q') ∧ Step s a s') := by
  refine ⟨?_, fun hq => ?_⟩
  · have hcount := hrun.countP_add_le (I := Inv) (μ := fun s => s.togo q) (p := Act.own q)
      (q := fun _ => false) (c := 0) (fun s a s' hI _ hs => ⟨hI.step hs, by
        simpa using togo_step hI hs q⟩) inv_init
    have hinit : (init m).togo q = 4 * m + 2 := rfl
    simp only [hinit] at hcount
    omega
  · have horderly : Orderly s := hrun.invariant (fun _ _ _ hI hs => hI.step hs) orderly_init
    obtain ⟨c, hc⟩ := Option.ne_none_iff_exists'.mp hq
    exact horderly.exists_own hc

/-- A query that has asked the first of two upstreams and not the second can go on. -/
theorem asking_completes : ∃ s : State 2, (s.upstreams 0).map 7 = some 0 ∧
    ∃ a s', a.own 0 = true ∧ (∀ q', a ≠ .cancel q') ∧ Step s a s' := by
  have halloc : (allocateAndInsert InFlight.init.map 0 fun _ => 7).1 = .ok 7 := rfl
  have hrun : Steps.Run Step (fun _ _ => True) (init 2) [.call (flaggedQuery 0), .start 0 0] _ :=
    .cons trivial .call (.cons trivial (.asks rfl rfl rfl rfl halloc) .nil)
  exact ⟨_, rfl, (race_completes 2 _ _ hrun 0).2 (Option.some_ne_none _)⟩

end Race

end Dnser
