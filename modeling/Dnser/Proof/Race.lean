import Dnser.Proof.Allocate
import Dnser.Proof.FirstReply
import Dnser.Proof.Streams
import Dnser.Resolver.Race
import Mathlib.Data.Fintype.Card

/-!
# What a race leaves behind

A call asks all upstreams and waits for one of them. Two things could go wrong with the others. Their
ids could stay in the maps, and one day there would be none left; but a query that an upstream knows
about belongs to a call that has not come to its end (`Inv.live`), whichever way it ends. And a call
could take something for its result that is none; but all it ever takes is a message that was accepted
for its query, or the errors of all upstreams.
-/

namespace Dnser

/-! ## What one upstream does -/

namespace InFlight

/-- Only an allocation makes a query known. -/
theorem queries_step {s s' : State} {a : Act} (hs : Step s a s') {q : Nat}
    (hq : s'.queries q ≠ none) : s.queries q ≠ none ∨ ∃ id, a = .allocate q id := by
  -- a query that changes was there before
  have hset : ∀ {q' : Nat} {qu : Query} {qu' : Option Query}, s.queries q' = some qu →
      Function.update s.queries q' qu' q ≠ none → s.queries q ≠ none := by
    intro q' qu qu' hq' hne
    by_cases hqq : q = q'
    · rw [hqq, hq']
      simp
    · rwa [Function.update_of_ne hqq] at hne
  cases hs with
  | @allocate q' id _ _ =>
      by_cases hqq : q = q'
      · exact .inr ⟨id, by rw [hqq]⟩
      · exact .inl (by simpa [State.register, Function.update_of_ne hqq] using hq)
  | receive _ _ => exact .inl (by rwa [queries_receive] at hq)
  | @send d q' _ =>
      left
      unfold State.send at hq
      dsimp only at hq
      split at hq
      · rename_i qu hq'
        split at hq
        · exact hset hq' hq
        · exact hq
      · exact hq
  | wake hq' _ _ => exact .inl (hset hq' hq)
  | leave hq' _ => exact .inl (hset hq' hq)
  | @dropGuard q' qu hq' _ =>
      left
      by_cases hqq : q = q'
      · rw [hqq, hq']
        simp
      · unfold State.finish at hq
        split at hq
        · simp only [State.setQuery, Function.update_of_ne hqq] at hq
          unfold State.removeId State.dropSender at hq
          dsimp only at hq
          split at hq
          · split at hq
            · rename_i hown
              exact hset hown hq
            · exact hq
          · exact hq
        · simpa [State.setQuery, Function.update_of_ne hqq] using hq

/-- A query is forgotten with its guard. -/
theorem queries_dropGuard {s s' : State} {q : Nat} (hs : Step s (.dropGuard q) s') :
    s'.queries q = none := by
  cases hs with
  | @dropGuard _ qu hq _ =>
      unfold State.finish
      split <;> simp [State.setQuery]

theorem assigned_step {s s' : State} {a : Act} (hs : Step s a s') {q : Nat}
    (ha : ∀ id, a ≠ .allocate q id) : s'.assigned q = s.assigned q := by
  cases hs with
  | @allocate q' id _ _ =>
      have hne : q ≠ q' := by
        rintro rfl
        exact ha id rfl
      simp [State.register, Function.update_of_ne hne]
  | receive _ _ =>
      unfold State.receive
      dsimp only
      split <;> rfl
  | send _ =>
      unfold State.send
      dsimp only
      split
      · split <;> rfl
      · rfl
  | wake _ _ _ => rfl
  | leave _ _ => rfl
  | @dropGuard _ qu _ _ =>
      unfold State.finish State.removeId State.dropSender
      cases qu.guard with
      | none => rfl
      | some id =>
          dsimp only
          cases s.map id with
          | none => rfl
          | some owner =>
              dsimp only
              cases s.queries owner <;> rfl

/-- What waits for queries in their channels has a property. -/
def ChansAll (P : List UInt8 → Prop) (queries : Nat → Option Query) : Prop :=
  ∀ q qu bytes, queries q = some qu → qu.chan = .sent bytes → P bytes

theorem ChansAll.update {P : List UInt8 → Prop} {queries : Nat → Option Query} (h : ChansAll P queries)
    {q : Nat} {qu : Option Query} (hqu : ∀ qu' bytes, qu = some qu' → qu'.chan = .sent bytes → P bytes) :
    ChansAll P (Function.update queries q qu) := by
  intro q' qu' bytes hq' hchan
  by_cases hqq : q' = q
  · rw [hqq, Function.update_self] at hq'
    exact hqu qu' bytes hq' hchan
  · rw [Function.update_of_ne hqq] at hq'
    exact h q' qu' bytes hq' hchan

/-- The same, with what the receive task holds. -/
structure Carries (P : List UInt8 → Prop) (s : State) : Prop where
  held : ∀ d q, s.held = some (d, q) → P d.bytes
  chans : ChansAll P s.queries

theorem carries_init (P : List UInt8 → Prop) : Carries P init := by
  constructor
  · intro d q hheld
    cases hheld
  · intro q qu bytes hq
    cases hq

/-- **An upstream makes nothing up**: what it has for its queries has come in. -/
theorem Carries.step {P : List UInt8 → Prop} {s s' : State} {a : Act} (h : Carries P s)
    (hs : Step s a s') (ha : ∀ bytes, a = .receive bytes → P bytes) : Carries P s' := by
  constructor
  · intro d q hheld
    rcases held_step hs with ⟨-, hnone⟩ | ⟨bytes, rfl, -, hreceived⟩ | ⟨-, -, hsame⟩
    · rw [hnone] at hheld
      cases hheld
    · obtain ⟨-, -, rfl⟩ := (hreceived d q).mp hheld
      exact ha bytes rfl
    · exact h.held d q (hsame ▸ hheld)
  · -- a channel that changes is empty, closed, or gets what was held
    cases hs with
    | allocate _ _ =>
        refine h.chans.update fun qu' bytes hqu' hchan => ?_
        cases hqu'
        cases hchan
    | receive _ _ =>
        rw [queries_receive]
        exact h.chans
    | @send d q hheld =>
        unfold State.send
        dsimp only
        split
        · split
          · refine h.chans.update fun qu' bytes hqu' hchan => ?_
            cases hqu'
            cases hchan
            exact h.held d q hheld
          · exact h.chans
        · exact h.chans
    | @wake q qu hq _ _ =>
        refine h.chans.update fun qu' bytes hqu' hchan => ?_
        cases hqu'
        exact h.chans q qu bytes hq hchan
    | @leave q qu hq _ =>
        refine h.chans.update fun qu' bytes hqu' hchan => ?_
        cases hqu'
        exact h.chans q qu bytes hq hchan
    | @dropGuard q qu _ _ =>
        have hnone : ∀ (qu' : Query) (bytes : List UInt8), none = some qu' → qu'.chan = .sent bytes →
            P bytes := by
          intro qu' bytes hqu'
          cases hqu'
        unfold State.finish
        split
        · refine ChansAll.update ?_ hnone
          unfold State.removeId State.dropSender
          dsimp only
          split
          · split
            · refine h.chans.update fun qu' bytes hqu' hchan => ?_
              cases hqu'
              cases hchan
            · exact h.chans
          · exact h.chans
        · exact h.chans.update hnone

/-- A datagram fits the buffer it is received in. -/
theorem length_le_of_receive {s s' : State} {bytes : List UInt8} (hs : Step s (.receive bytes) s') :
    bytes.length ≤ maxUdpSize := by
  cases hs with
  | receive hlen _ => exact hlen

end InFlight

/-! ## What a call may come to -/

namespace Race

open InFlight (allocateAndInsert)

variable {m : Nat} {s s' : State m} {a : Act m}

/-- Its upstream knows about it. -/
def Fut.Asks : Fut → Prop
  | asking | leaving _ => True
  | _ => False

/-- It was dropped, or is about to be. -/
def Fut.Dropped : Fut → Prop
  | leaving none | gone => True
  | _ => False

/-- A future that has come to a message has not made it up. -/
def Fut.Accepts (query : Message) : Fut → Prop
  | leaving (some (.ok msg)) | ready (.ok msg) => Validated query msg
  | _ => True

/-- What a call of `resolve` may return. -/
inductive Call.Result (c : Call m) : Outcome → Prop where
  | ok {msg : Message} : Validated c.query msg → Result c (.ok msg)
  | noUpstreams : m = 0 → Result c (.error .noUpstreams)
  | allFailed : m ≠ 0 → (∀ u, ∃ e, c.futs u = .failed e) → Result c (.error .allFailed)

/-- What holds of a call. -/
structure Call.Sound (c : Call m) : Prop where
  accepts : ∀ u, (c.futs u).Accepts c.query
  /-- It drops nothing while it waits. -/
  racing : c.phase = .racing → ∀ u, ¬ (c.futs u).Dropped
  result : ∀ r, c.phase = .ending (some r) → c.Result r

theorem sound_begin (query : Message) : (Call.begin query : Call m).Sound := by
  unfold Call.begin
  split
  · rename_i hm
    refine ⟨fun _ => trivial, fun hphase => ?_, fun r hr => ?_⟩
    · cases hphase
    · cases hr
      exact .noUpstreams hm
  · refine ⟨fun _ => trivial, fun _ _ hdropped => hdropped, fun r hr => ?_⟩
    cases hr

/-- **What `UpstreamSocket::query` returns was accepted for the query.** -/
theorem validated_of_returns {up : InFlight.State}
    (hshort : InFlight.Carries (·.length ≤ maxUdpSize) up) {q : Nat} {qu : InFlight.Query}
    {query msg : Message} (hq : up.queries q = some qu) (h : Returns query qu (.ok msg)) : Validated query msg := by
  obtain ⟨peer, received, hfinds, hudp, hrun⟩ := h
  obtain ⟨request, wire, hexchange⟩ := query_eq_ok_iff.mp hrun
  cases hexchange with
  | udp _ hwire hm _ =>
      rw [hudp] at hwire
      subst hwire
      exact ⟨wire, Nat.le_trans (hshort.chans q qu wire hq hfinds.2) (by decide), hm⟩
  | tcp _ _ _ _ _ hanswer hm =>
      obtain ⟨stream, -, hread⟩ := hanswer
      have hframe : readFramed stream = (some wire, (readFramed stream).2) := by
        rw [← hread]
      exact ⟨wire, (frame_of_readFramed hframe).2.2, hm⟩

theorem Call.futs_setFut_self (c : Call m) (u : Fin m) (fut : Fut) : (c.setFut u fut).futs u = fut :=
  Function.update_self ..

theorem Call.futs_setFut_of_ne (c : Call m) {u v : Fin m} (h : v ≠ u) (fut : Fut) :
    (c.setFut u fut).futs v = c.futs v :=
  Function.update_of_ne h ..

/-- A future goes on. -/
theorem Call.Sound.setFut {c : Call m} (h : c.Sound) {u : Fin m} {fut : Fut}
    (haccepts : fut.Accepts c.query) (hdropped : c.phase = .racing → ¬ fut.Dropped)
    (hfailed : ∀ e, c.futs u ≠ .failed e) : (c.setFut u fut).Sound := by
  refine ⟨fun v => ?_, fun hphase v => ?_, fun r hr => ?_⟩
  · by_cases hv : v = u
    · rw [hv, Call.futs_setFut_self]
      exact haccepts
    · rw [Call.futs_setFut_of_ne c hv]
      exact h.accepts v
  · by_cases hv : v = u
    · rw [hv, Call.futs_setFut_self]
      exact hdropped hphase
    · rw [Call.futs_setFut_of_ne c hv]
      exact h.racing hphase v
  · cases h.result r hr with
    | ok hvalid => exact .ok hvalid
    | noUpstreams hm => exact .noUpstreams hm
    | allFailed hm hall =>
        -- all futures are over, this one too
        obtain ⟨e, he⟩ := hall u
        exact absurd he (hfailed e)

/-- What becomes of the futures when one of them has returned. -/
theorem Call.futs_next (c : Call m) (u : Fin m) (r : Outcome) :
    (∀ v, v ≠ u → (c.next u r).futs v = c.futs v) ∧ ((c.next u r).futs u).isOver = true := by
  cases r with
  | ok msg =>
      refine ⟨fun v hv => Call.futs_setFut_of_ne c hv _, ?_⟩
      show ((c.setFut u .gone).futs u).isOver = true
      rw [Call.futs_setFut_self]
      rfl
  | error e =>
      unfold Call.next
      dsimp only
      have hself : ((c.setFut u (.failed e)).futs u).isOver = true := by
        rw [Call.futs_setFut_self]
        rfl
      split
      · exact ⟨fun v hv => Call.futs_setFut_of_ne c hv _, hself⟩
      · exact ⟨fun v hv => Call.futs_setFut_of_ne c hv _, hself⟩

theorem Call.Sound.next {c : Call m} (h : c.Sound) (hphase : c.phase = .racing) {u : Fin m}
    {r : Outcome} (hr : c.futs u = .ready r) : (c.next u r).Sound := by
  have haccepts := h.accepts u
  rw [hr] at haccepts
  cases r with
  | ok msg =>
      refine ⟨fun v => ?_, fun hracing => ?_, fun r hr => ?_⟩
      · show ((c.setFut u .gone).futs v).Accepts c.query
        by_cases hv : v = u
        · rw [hv, Call.futs_setFut_self]
          trivial
        · rw [Call.futs_setFut_of_ne c hv]
          exact h.accepts v
      · cases hracing
      · cases hr
        exact .ok haccepts
  | error e =>
      have hset : (c.setFut u (.failed e)).Sound :=
        h.setFut trivial (fun _ hdropped => hdropped) (by simp [hr])
      unfold Call.next
      dsimp only
      split
      · rename_i hall
        refine ⟨hset.accepts, fun hracing => ?_, fun r hr => ?_⟩
        · cases hracing
        · cases hr
          refine .allFailed (by have := u.isLt; omega) fun v => ?_
          -- none of them was dropped
          have hover := hall v
          have hdropped := hset.racing hphase v
          cases hfut : (c.setFut u (.failed e)).futs v with
          | failed e' => exact ⟨e', rfl⟩
          | gone => exact absurd (by rw [hfut]; trivial) hdropped
          | idle | asking | leaving _ | ready _ =>
              rw [hfut] at hover
              cases hover
      · exact hset

/-! ## All calls -/

/-- What holds of a resolver in every state. -/
structure Inv (s : State m) : Prop where
  upstreams : ∀ u, InFlight.Inv (s.upstreams u)
  short : ∀ u, InFlight.Carries (·.length ≤ maxUdpSize) (s.upstreams u)
  fresh : ∀ q, s.made ≤ q → s.calls q = none ∧ ∀ u, (s.upstreams u).assigned q = none
  idle : ∀ q c u, s.calls q = some c → c.futs u = .idle → (s.upstreams u).assigned q = none
  /-- A query that an upstream knows about belongs to a call that has a future for it. -/
  live : ∀ u q, (s.upstreams u).queries q ≠ none → ∃ c, s.calls q = some c ∧ (c.futs u).Asks
  calls : ∀ q c, s.calls q = some c → c.Sound

theorem inv_init : Inv (init m) :=
  { upstreams := fun _ => InFlight.inv_init
    short := fun _ => InFlight.carries_init _
    fresh := fun _ _ => ⟨rfl, fun _ => rfl⟩
    idle := fun _ _ _ hc => absurd hc (by simp [init])
    live := fun _ _ hq => absurd rfl hq
    calls := fun _ _ hc => absurd hc (by simp [init]) }

theorem Inv.lt_made (h : Inv s) {q : Nat} {c : Call m} (hq : s.calls q = some c) : q < s.made := by
  by_contra hge
  rw [(h.fresh q (by omega)).1] at hq
  cases hq

/-- An upstream goes on. A query that it gets to know has a future. -/
theorem Inv.setUpstream (h : Inv s) {u : Fin m} {act : InFlight.Act} {up : InFlight.State}
    (hs : InFlight.Step (s.upstreams u) act up)
    (hact : ∀ q id, act = .allocate q id → ∃ c, s.calls q = some c ∧ (c.futs u).Asks) :
    Inv (s.setUpstream u up) := by
  -- what holds of all upstreams, if it holds of this one
  have hall : ∀ {P : Fin m → InFlight.State → Prop}, P u up → (∀ v, P v (s.upstreams v)) →
      ∀ v, P v (Function.update s.upstreams u up v) := by
    intro P hup hold v
    by_cases hv : v = u
    · rw [hv, Function.update_self]
      exact hup
    · rw [Function.update_of_ne hv]
      exact hold v
  have hassigned : ∀ q, (∀ c, s.calls q = some c → ¬ (c.futs u).Asks) →
      up.assigned q = (s.upstreams u).assigned q := by
    intro q hq
    refine InFlight.assigned_step hs fun id ha => ?_
    obtain ⟨c, hc, hasks⟩ := hact q id ha
    exact hq c hc hasks
  refine ⟨?_, ?_, fun q hq => ⟨(h.fresh q hq).1, ?_⟩, fun q c v hc => ?_, ?_, h.calls⟩
  · exact hall (P := fun _ up => InFlight.Inv up) ((h.upstreams u).step hs) h.upstreams
  · refine hall (P := fun _ up => InFlight.Carries (·.length ≤ maxUdpSize) up)
      ((h.short u).step hs fun bytes ha => ?_) h.short
    subst ha
    exact InFlight.length_le_of_receive hs
  · refine hall (P := fun _ up => up.assigned q = none) ?_ (h.fresh q hq).2
    rw [hassigned q fun c hc => absurd (h.lt_made hc) (Nat.not_lt.mpr hq)]
    exact (h.fresh q hq).2 u
  · refine hall (P := fun v up => c.futs v = .idle → up.assigned q = none) (fun hidle => ?_)
      (fun v => h.idle q c v hc) v
    rw [hassigned q]
    · exact h.idle q c u hc hidle
    · intro c' hc' hasks
      obtain rfl : c' = c := Option.some.inj (hc'.symm.trans hc)
      rw [hidle] at hasks
      exact hasks
  · refine hall (P := fun v up => ∀ q, up.queries q ≠ none →
      ∃ c, s.calls q = some c ∧ (c.futs v).Asks) (fun q hq => ?_) h.live
    rcases InFlight.queries_step hs hq with hq | ⟨id, ha⟩
    · exact h.live u q hq
    · exact hact q id ha

theorem calls_setCall_self (s : State m) (q : Nat) (c : Option (Call m)) : (s.setCall q c).calls q = c :=
  Function.update_self ..

theorem calls_setCall_of_ne (s : State m) {q q' : Nat} (h : q' ≠ q) (c : Option (Call m)) :
    (s.setCall q c).calls q' = s.calls q' :=
  Function.update_of_ne h ..

/-- A call goes on by itself. -/
theorem Inv.setCall (h : Inv s) {q : Nat} {c c' : Call m} (hq : s.calls q = some c)
    (hidle : ∀ u, c'.futs u = .idle → c.futs u = .idle)
    (hlive : ∀ u, (s.upstreams u).queries q ≠ none → (c'.futs u).Asks) (hsound : c'.Sound) :
    Inv (s.setCall q (some c')) := by
  have hmade := h.lt_made hq
  refine ⟨h.upstreams, h.short, fun q' hq' => ⟨?_, (h.fresh q' hq').2⟩, fun q' c₁ u hc₁ hfut => ?_,
    fun u q' hq' => ?_, fun q' c₁ hc₁ => ?_⟩
  · have hne : q' ≠ q := by
      have hle : s.made ≤ q' := hq'
      omega
    rw [calls_setCall_of_ne s hne]
    exact (h.fresh q' hq').1
  · by_cases hqq : q' = q
    · rw [hqq, calls_setCall_self] at hc₁
      cases hc₁
      rw [hqq]
      exact h.idle q c u hq (hidle u hfut)
    · rw [calls_setCall_of_ne s hqq] at hc₁
      exact h.idle q' c₁ u hc₁ hfut
  · by_cases hqq : q' = q
    · rw [hqq] at hq' ⊢
      exact ⟨c', calls_setCall_self .., hlive u hq'⟩
    · rw [calls_setCall_of_ne s hqq]
      exact h.live u q' hq'
  · by_cases hqq : q' = q
    · rw [hqq, calls_setCall_self] at hc₁
      cases hc₁
      exact hsound
    · rw [calls_setCall_of_ne s hqq] at hc₁
      exact h.calls q' c₁ hc₁

/-- A future goes on by itself. -/
theorem Inv.setFut (h : Inv s) {q : Nat} {c : Call m} {u : Fin m} {fut : Fut} (hq : s.calls q = some c)
    (hidle : fut ≠ .idle) (hlive : (s.upstreams u).queries q ≠ none → fut.Asks)
    (haccepts : fut.Accepts c.query) (hdropped : c.phase = .racing → ¬ fut.Dropped)
    (hfailed : ∀ e, c.futs u ≠ .failed e) : Inv (s.setFut q c u fut) := by
  refine h.setCall hq (fun v hv => ?_) (fun v hv => ?_)
    ((h.calls q c hq).setFut haccepts hdropped hfailed)
  · by_cases hvu : v = u
    · rw [hvu, Call.futs_setFut_self] at hv
      exact absurd hv hidle
    · rwa [Call.futs_setFut_of_ne c hvu] at hv
  · by_cases hvu : v = u
    · rw [hvu] at hv ⊢
      rw [Call.futs_setFut_self]
      exact hlive hv
    · rw [Call.futs_setFut_of_ne c hvu]
      obtain ⟨c₁, hc₁, hasks⟩ := h.live v q hv
      rw [hq] at hc₁
      cases hc₁
      exact hasks

/-- A future that no upstream knows about has no query there. -/
theorem Inv.queries_none (h : Inv s) {q : Nat} {c : Call m} {u : Fin m} (hq : s.calls q = some c)
    (hfut : ¬ (c.futs u).Asks) : (s.upstreams u).queries q = none := by
  by_contra hne
  obtain ⟨c', hc', hasks⟩ := h.live u q hne
  rw [hq] at hc'
  cases hc'
  exact hfut hasks

/-- A call is made. -/
theorem Inv.call (h : Inv s) (query : Message) :
    Inv { s.setCall s.made (some (Call.begin query)) with made := s.made + 1 } := by
  obtain ⟨hnone, hassigned⟩ := h.fresh s.made (Nat.le_refl _)
  refine ⟨h.upstreams, h.short, fun q hq => ?_, fun q c u hc hidle => ?_, fun u q hq => ?_,
    fun q c hc => ?_⟩
  · have hle : s.made + 1 ≤ q := hq
    have hne : q ≠ s.made := by omega
    refine ⟨?_, (h.fresh q (by omega)).2⟩
    show (s.setCall s.made (some (Call.begin query))).calls q = none
    rw [calls_setCall_of_ne s hne]
    exact (h.fresh q (by omega)).1
  · by_cases hqq : q = s.made
    · rw [hqq]
      exact hassigned u
    · have hc' : (s.setCall s.made (some (Call.begin query))).calls q = some c := hc
      rw [calls_setCall_of_ne s hqq] at hc'
      exact h.idle q c u hc' hidle
  · obtain ⟨c, hc, hasks⟩ := h.live u q hq
    have hne : q ≠ s.made := by
      rintro rfl
      rw [hnone] at hc
      cases hc
    exact ⟨c, (calls_setCall_of_ne s hne _).trans hc, hasks⟩
  · have hc' : (s.setCall s.made (some (Call.begin query))).calls q = some c := hc
    by_cases hqq : q = s.made
    · rw [hqq, calls_setCall_self] at hc'
      cases hc'
      exact sound_begin query
    · rw [calls_setCall_of_ne s hqq] at hc'
      exact h.calls q c hc'

/-- A call comes to its end. -/
theorem Inv.ends (h : Inv s) {q : Nat} {c : Call m} (hq : s.calls q = some c)
    (hover : ∀ u, (c.futs u).isOver) : Inv (s.setCall q none) := by
  have hnone : ∀ u, (s.upstreams u).queries q = none := by
    intro u
    refine h.queries_none hq fun hasks => ?_
    have hu := hover u
    cases hfut : c.futs u with
    | asking | leaving _ =>
        rw [hfut] at hu
        cases hu
    | idle | ready _ | failed _ | gone =>
        rw [hfut] at hasks
        exact hasks
  refine ⟨h.upstreams, h.short, fun q' hq' => ⟨?_, (h.fresh q' hq').2⟩, fun q' c' u hc' => ?_,
    fun u q' hq' => ?_, fun q' c' hc' => ?_⟩
  · by_cases hqq : q' = q
    · rw [hqq, calls_setCall_self]
    · rw [calls_setCall_of_ne s hqq]
      exact (h.fresh q' hq').1
  · by_cases hqq : q' = q
    · rw [hqq, calls_setCall_self] at hc'
      cases hc'
    · rw [calls_setCall_of_ne s hqq] at hc'
      exact h.idle q' c' u hc'
  · by_cases hqq : q' = q
    · rw [hqq] at hq'
      exact absurd (hnone u) hq'
    · rw [calls_setCall_of_ne s hqq]
      exact h.live u q' hq'
  · by_cases hqq : q' = q
    · rw [hqq, calls_setCall_self] at hc'
      cases hc'
    · rw [calls_setCall_of_ne s hqq] at hc'
      exact h.calls q' c' hc'

/-- **Every step keeps the invariant.** -/
theorem Inv.step (h : Inv s) (hs : Step s a s') : Inv s' := by
  cases hs with
  | call => exact h.call _
  | @unwritable q u c e hq hphase hfut _ =>
      refine h.setFut hq (by simp) (fun hne => ?_) trivial (fun _ hdropped => hdropped) (by simp [hfut])
      exact absurd (h.queries_none hq (by simp [hfut, Fut.Asks])) hne
  | @exhausted q u c bytes rng e hq hphase hfut _ _ =>
      refine h.setFut hq (by simp) (fun hne => ?_) trivial (fun _ hdropped => hdropped) (by simp [hfut])
      exact absurd (h.queries_none hq (by simp [hfut, Fut.Asks])) hne
  | @asks q u c bytes rng id hq hphase hfut _ halloc =>
      -- the future first, so that the upstream gets to know a query that has one
      have hasking : Inv (s.setFut q c u .asking) :=
        h.setFut hq (by simp) (fun _ => trivial) trivial (fun _ hdropped => hdropped) (by simp [hfut])
      refine hasking.setUpstream
        (InFlight.step_allocateAndInsert (h.idle q c u hq hfut) halloc).1 fun q' id' ha => ?_
      cases ha
      refine ⟨c.setFut u .asking, calls_setCall_self .., ?_⟩
      rw [Call.futs_setFut_self]
      trivial
  | receive hup => exact h.setUpstream hup (by simp)
  | send hup => exact h.setUpstream hup (by simp)
  | wake _ _ _ hup => exact h.setUpstream hup (by simp)
  | @returns q u c qu r up hq hphase hfut hqu hreturns hup =>
      refine (h.setUpstream hup (by simp)).setFut hq (by simp) (fun _ => trivial) ?_
        (fun _ hdropped => hdropped) (by simp [hfut])
      cases r with
      | ok msg => exact validated_of_returns (h.short u) hqu hreturns
      | error e => trivial
  | @abandoned q u c result up hq hphase hfut hup =>
      exact (h.setUpstream hup (by simp)).setFut hq (by simp) (fun _ => trivial) trivial
        (by simp [hphase]) (by simp [hfut])
  | @dropGuard q u c r up hq hfut hup =>
      have hup' := h.setUpstream hup (by simp)
      have hnone : ((s.setUpstream u up).upstreams u).queries q = none := by
        show (Function.update s.upstreams u up u).queries q = none
        rw [Function.update_self]
        exact InFlight.queries_dropGuard hup
      have haccepts := (h.calls q c hq).accepts u
      have hdropped := (h.calls q c hq).racing
      rw [hfut] at haccepts
      cases r with
      | none =>
          refine hup'.setFut hq (by simp) (absurd hnone) trivial (fun hphase => ?_) (by simp [hfut])
          exact absurd (by rw [hfut]; trivial) (hdropped hphase u)
      | some r =>
          refine hup'.setFut hq (by simp) (absurd hnone) ?_ (fun _ hdropped => hdropped) (by simp [hfut])
          cases r with
          | ok msg => exact haccepts
          | error e => trivial
  | @next q u c r hq hphase hfut =>
      obtain ⟨hother, hself⟩ := c.futs_next u r
      refine h.setCall hq (fun v hv => ?_) (fun v hv => ?_) ((h.calls q c hq).next hphase hfut)
      · by_cases hvu : v = u
        · rw [hvu] at hv
          rw [hv] at hself
          cases hself
        · rwa [hother v hvu] at hv
      · by_cases hvu : v = u
        · rw [hvu] at hv
          exact absurd (h.queries_none hq (by simp [hfut, Fut.Asks])) hv
        · rw [hother v hvu]
          by_contra hasks
          exact hv (h.queries_none hq hasks)
  | @cancel q c hq hphase =>
      have hsound := h.calls q c hq
      refine h.setCall hq (fun _ hv => hv) (fun v hv => ?_) ⟨hsound.accepts, fun hracing => ?_, fun r hr => ?_⟩
      · by_contra hasks
        exact hv (h.queries_none hq hasks)
      · cases hracing
      · cases hr
  | @discard q u c result hq hphase hfut =>
      have hasks : ¬ (c.futs u).Asks := by
        rcases hfut with hfut | ⟨r, hfut⟩ <;> simp [hfut, Fut.Asks]
      refine h.setFut hq (by simp) (fun hne => absurd (h.queries_none hq hasks) hne) trivial
        (by simp [hphase]) ?_
      rcases hfut with hfut | ⟨r, hfut⟩ <;> simp [hfut]
  | ends hq _ hover => exact h.ends hq hover

/-! ## What a race comes to -/

/-- A result was accepted. -/
theorem Inv.validated (h : Inv s) {q : Nat} {c : Call m} {msg : Message} (hq : s.calls q = some c)
    (hphase : c.phase = .ending (some (.ok msg))) : Validated c.query msg := by
  cases (h.calls q c hq).result _ hphase with
  | ok hvalid => exact hvalid

/-- Every state a resolver can get into, whatever the order of its steps. -/
abbrev Reachable (s : State m) : Prop := Steps.Reachable (init m) Step (fun _ _ => True) s

/--
**A race has a winner that was accepted, or no one who could win.** In every run of a resolver, with
any number of calls at the same time: the call that comes to its end with a message has one that was
accepted as a response to its query. The one that comes to its end with an error has no upstream at
all, or every upstream has failed. And what is dropped is dropped completely: no upstream knows about
the call any more, in its map or otherwise.
-/
theorem race_outcome (m : Nat) (s s' : State m) (h : Reachable s) (q : Nat) (c : Call m)
    (result : Option Outcome) (hq : s.calls q = some c) (hover : Step s (.ends q result) s') :
    (∀ msg, result = some (.ok msg) → Validated c.query msg) ∧
      (∀ e, result = some (.error e) → (e = .noUpstreams ∧ m = 0) ∨
        (e = .allFailed ∧ m ≠ 0 ∧ ∀ u, ∃ e', c.futs u = .failed e')) ∧
      ∀ u, (s'.upstreams u).queries q = none ∧ ∀ id, (s'.upstreams u).map id ≠ some q := by
  have hinv : Inv s := h.invariant inv_init fun _ _ _ hI hs => hI.step hs
  have hinv' := hinv.step hover
  cases hover with
  | @ends _ c' _ hq' hphase hall =>
      obtain rfl : c' = c := Option.some.inj (hq'.symm.trans hq)
      refine ⟨fun msg hmsg => hinv.validated hq (hmsg ▸ hphase), fun e he => ?_, fun u => ?_⟩
      · rw [he] at hphase
        cases (hinv.calls q c' hq).result _ hphase with
        | noUpstreams hm => exact .inl ⟨rfl, hm⟩
        | allFailed hm hfailed => exact .inr ⟨rfl, hm, hfailed⟩
      · -- a query without a call is not known, and an entry has a query
        have hnone : ((s.setCall q none).upstreams u).queries q = none := by
          by_contra hne
          obtain ⟨c₁, hc₁, -⟩ := hinv'.live u q hne
          rw [calls_setCall_self] at hc₁
          cases hc₁
        refine ⟨hnone, fun id hm => ?_⟩
        obtain ⟨qu, hqu, -⟩ := (hinv'.upstreams u).owner id q hm
        rw [hnone] at hqu
        cases hqu

/-- A query that is answered by the first of two upstreams, before the second has been asked. -/
theorem exists_won : ∃ s : State 2, Reachable s ∧ ∃ c, s.calls 0 = some c ∧ c.query = flaggedQuery 0 ∧
    c.phase = .ending (some (.ok (flaggedQuery Header.QR))) ∧ ∀ u, (c.futs u).isOver := by
  have hinit : Reachable (init 2) := .init
  have hcall := hinit.step (a := Act.call (flaggedQuery 0)) trivial .call
  have halloc : (allocateAndInsert InFlight.init.map 0 fun _ => 7).1 = .ok 7 := rfl
  have hasks := hcall.step (a := Act.start 0 0) trivial (.asks rfl rfl rfl rfl halloc)
  have hreceived := hasks.step (a := Act.receive 0 (bareAnswer 7)) trivial
    (.receive (.receive (by decide) rfl))
  have hsent := hreceived.step (a := Act.send 0) trivial (.send (.send rfl))
  have hwoken := hsent.step (a := Act.wake 0 0) trivial (.wake rfl rfl rfl (.wake rfl rfl (by decide)))
  have hrun : UpstreamSocket.query { cutPeer with udp := fun _ => some (.datagram (bareAnswer 7)) }
      (some 7) (flaggedQuery 0) = .ok (flaggedQuery Header.QR) := by
    decide +kernel
  have hreturns : Returns (flaggedQuery 0)
      { id := 7, guard := none, chan := .sent (bareAnswer 7), phase := .finishing }
      (.ok (flaggedQuery Header.QR)) :=
    ⟨_, some (.datagram (bareAnswer 7)), ⟨rfl, rfl⟩, fun _ => rfl, hrun⟩
  have hreturned := hwoken.step (a := Act.leave 0 0) trivial
    (.returns rfl rfl rfl rfl hreturns (.leave rfl (by decide)))
  have hready := hreturned.step (a := Act.dropGuard 0 0) trivial (.dropGuard rfl rfl (.dropGuard rfl rfl))
  have hwon := hready.step (a := Act.next 0 0) trivial (.next rfl rfl rfl)
  have hover := hwon.step (a := Act.discard 0 1) trivial (.discard rfl rfl (.inl rfl))
  exact ⟨_, hover, _, rfl, rfl, rfl, by decide⟩

/-- It has the answer, and its first upstream has the id back. -/
theorem won_accepted : ∃ s : State 2, Validated (flaggedQuery 0) (flaggedQuery Header.QR) ∧
    ∀ u, (s.upstreams u).queries 0 = none ∧ ∀ id, (s.upstreams u).map id ≠ some 0 := by
  obtain ⟨s, hs, c, hq, hquery, hphase, hall⟩ := exists_won
  obtain ⟨hok, -, hgone⟩ := race_outcome 2 s _ hs 0 c _ hq (.ends hq hphase hall)
  exact ⟨_, hquery ▸ hok _ rfl, hgone⟩

/-- **Every entry of a map belongs to a call of its own.** So does the one who finds the map full. -/
theorem Inv.lt_card (h : Inv s) {u : Fin m} {q : Nat} {c : Call m} (hq : s.calls q = some c)
    (hidle : c.futs u = .idle) (hfull : ∀ id, (s.upstreams u).map id ≠ none) :
    65536 < s.live.card := by
  have howner : ∀ id, ∃ q, (s.upstreams u).map id = some q := fun id =>
    Option.ne_none_iff_exists'.mp (hfull id)
  choose owner hmap using howner
  have hinjective : Function.Injective owner := by
    intro id id' hsame
    exact (h.upstreams u).map_injective (hmap id) (hsame ▸ hmap id')
  have hmem : ∀ {q : Nat} {c : Call m}, s.calls q = some c → q ∈ s.live := fun hc =>
    Finset.mem_filter.mpr ⟨Finset.mem_range.mpr (h.lt_made hc), by simp [hc]⟩
  have hlive : ∀ id, owner id ∈ s.live.erase q := by
    intro id
    obtain ⟨qu, hqu, -⟩ := (h.upstreams u).owner id (owner id) (hmap id)
    obtain ⟨c', hc', hasks⟩ := h.live u (owner id) (by simp [hqu])
    refine Finset.mem_erase.mpr ⟨fun hsame => ?_, hmem hc'⟩
    rw [hsame, hq] at hc'
    cases hc'
    rw [hidle] at hasks
    exact hasks
  have hsub : Finset.univ.image (fun n : Fin 65536 => owner (UInt16.ofNat n)) ⊆ s.live.erase q := by
    intro q' hq'
    obtain ⟨n, -, rfl⟩ := Finset.mem_image.mp hq'
    exact hlive _
  have hofNat : Function.Injective (fun n : Fin 65536 => owner (UInt16.ofNat n)) := by
    intro n n' hsame
    have hid := congrArg UInt16.toNat (hinjective hsame)
    rw [UInt16.toNat_ofNat', UInt16.toNat_ofNat'] at hid
    have := n.isLt
    have := n'.isLt
    exact Fin.ext (by omega)
  calc 65536 = (Finset.univ : Finset (Fin 65536)).card := by simp
    _ = (Finset.univ.image (fun n : Fin 65536 => owner (UInt16.ofNat n))).card :=
      (Finset.card_image_of_injective _ hofNat).symm
    _ ≤ (s.live.erase q).card := Finset.card_le_card hsub
    _ < s.live.card := Finset.card_erase_lt_of_mem (hmem hq)

/-- A call gets an id, if it is not one too many. -/
theorem Inv.exists_id (h : Inv s) (hfew : s.live.card ≤ 65536) {u : Fin m} {q : Nat} {c : Call m}
    (hq : s.calls q = some c) (hidle : c.futs u = .idle) (rng : Nat → UInt16) :
    ∃ id, (s.upstreams u).map id = none ∧ allocateAndInsert (s.upstreams u).map q rng =
      (.ok id, Function.update (s.upstreams u).map id (some q)) := by
  rcases InFlight.allocateAndInsert_cases (s.upstreams u).map q rng with hok | ⟨hfull, -⟩
  · exact hok
  · have hcard := h.lt_card hq hidle hfull
    omega

/--
**There is an id for every query as long as there are not more calls than ids.** In every run of a
resolver, with at most 65536 calls that have not come to their end and whatever ids are drawn: a call
that has not asked an upstream yet gets an id there that was free. Queries that lost their race, timed
out or were dropped take none away.
-/
theorem ids_suffice (m : Nat) (s : State m) (h : Reachable s) (hfew : s.live.card ≤ 65536) (u : Fin m)
    (q : Nat) (c : Call m) (hq : s.calls q = some c) (hidle : c.futs u = .idle) (rng : Nat → UInt16) :
    ∃ id, (s.upstreams u).map id = none ∧ allocateAndInsert (s.upstreams u).map q rng =
      (.ok id, Function.update (s.upstreams u).map id (some q)) := by
  have hinv : Inv s := h.invariant inv_init fun _ _ _ hI hs => hI.step hs
  exact hinv.exists_id hfew hq hidle rng

/-- A query that has asked the first of two upstreams. -/
theorem exists_asking : ∃ s : State 2, Reachable s ∧ s.made = 1 ∧ (s.upstreams 0).map 7 = some 0 ∧
    ∃ c, s.calls 0 = some c ∧ c.futs 1 = .idle := by
  have hinit : Reachable (init 2) := .init
  have hcall := hinit.step (a := Act.call (flaggedQuery 0)) trivial .call
  have halloc : (allocateAndInsert InFlight.init.map 0 fun _ => 7).1 = .ok 7 := rfl
  have hasks := hcall.step (a := Act.start 0 0) trivial (.asks rfl rfl rfl rfl halloc)
  exact ⟨_, hasks, rfl, rfl, _, rfl, rfl⟩

/-- It gets an id from the second. -/
theorem asking_ids : ∃ s : State 2, (s.upstreams 0).map 7 = some 0 ∧ ∀ rng, ∃ id,
    (allocateAndInsert (s.upstreams 1).map 0 rng).1 = .ok id := by
  obtain ⟨s, hs, hmade, hmap, c, hq, hidle⟩ := exists_asking
  have hlive : s.live.card ≤ 1 := by
    calc s.live.card ≤ (Finset.range s.made).card := Finset.card_filter_le ..
      _ = 1 := by rw [hmade, Finset.card_range]
  refine ⟨s, hmap, fun rng => ?_⟩
  obtain ⟨id, -, halloc⟩ := ids_suffice 2 s hs (by omega) 1 0 c hq hidle rng
  exact ⟨id, by rw [halloc]⟩

end Race

end Dnser
