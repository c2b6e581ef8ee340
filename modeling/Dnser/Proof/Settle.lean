import Dnser.Proof.Complete
import Dnser.Proof.Program

/-!
# Everything comes to its end

The tasks wait for their calls, the calls for their queries, and the queries for upstreams that may
never answer. Still nothing waits forever: whatever is under way, someone can go on without anything
more from a client or an upstream, and there is only so much to do for what clients have sent
(`Program.togo`). Only a client that neither reads its replies nor hangs up is left out of account.
-/

namespace Dnser

open Family
open Steps (Reachable Run)

/-! ## The work of the resolver -/

namespace Race

variable {m : Nat} {s s' : State m} {a : Act m}

/-- What is left to do for all calls. -/
def State.workload (s : State m) : Nat := ∑ q ∈ Finset.range s.made, s.togo q

theorem made_step (hs : Step s a s') (hcall : ∀ query, a ≠ .call query) : s'.made = s.made := by
  cases hs with
  | call => exact absurd rfl (hcall _)
  | _ => rfl

/-- Who goes on was called. -/
theorem lt_made_of_own (hinv : Inv s) (hs : Step s a s') {q : Nat} (hown : a.own q = true) :
    q < s.made := by
  cases hs with
  | unwritable hq _ _ _ | exhausted hq _ _ _ _ | asks hq _ _ _ _ | returns hq _ _ _ _ _
  | abandoned hq _ _ _ | dropGuard hq _ _ | next hq _ _ | cancel hq _ | discard hq _ _ | ends hq _ _ =>
      have hsame := of_decide_eq_true hown
      exact hsame ▸ hinv.lt_made hq
  | call | receive _ | send _ | wake _ _ _ _ => cases hown

theorem workload_le (hinv : Inv s) (hs : Step s a s') (hcall : ∀ query, a ≠ .call query) :
    s'.workload ≤ s.workload := by
  unfold State.workload
  rw [made_step hs hcall]
  refine Finset.sum_le_sum fun q _ => ?_
  exact Nat.le_trans (Nat.le_add_right _ _) (togo_step hinv hs q)

theorem workload_lt (hinv : Inv s) (hs : Step s a s') (hcall : ∀ query, a ≠ .call query) {q : Nat}
    (hown : a.own q = true) : s'.workload < s.workload := by
  unfold State.workload
  rw [made_step hs hcall]
  refine Finset.sum_lt_sum (fun q' _ => ?_) ⟨q, ?_, ?_⟩
  · exact Nat.le_trans (Nat.le_add_right _ _) (togo_step hinv hs q')
  · exact Finset.mem_range.mpr (lt_made_of_own hinv hs hown)
  · have htogo := togo_step hinv hs q
    rw [hown, if_pos rfl] at htogo
    omega

theorem workload_call (hinv : Inv s) {query : Message} (hs : Step s (.call query) s') :
    s'.workload ≤ s.workload + (4 * m + 2) := by
  cases hs with
  | call =>
      have hle : ∀ q, ({ s.setCall s.made (some (Call.begin query)) with made := s.made + 1 } :
          State m).togo q ≤ s.togo q := togo_call hinv rfl rfl
      have hnew := State.togo_of_none (hinv.fresh s.made (Nat.le_refl _)).1
      rw [if_neg (Nat.lt_irrefl _)] at hnew
      have hlast := hle s.made
      unfold State.workload
      rw [Finset.sum_range_succ]
      have hrest := Finset.sum_le_sum fun q (_ : q ∈ Finset.range s.made) => hle q
      omega

/-- Only who is dropped ends without a result. -/
theorem dropped_step (hs : Step s a s') {q : Nat} {c' : Call m} (hc' : s'.calls q = some c')
    (hphase : c'.phase = .ending none) :
    a = .cancel q ∨ ∃ c, s.calls q = some c ∧ c.phase = .ending none := by
  -- a call that stays in its phase
  have hset : ∀ {s₀ : State m} {q₀ : Nat} {c₀ c₁ : Call m}, s₀.calls = s.calls → s.calls q₀ = some c₀ →
      (s₀.setCall q₀ (some c₁)).calls q = some c' →
      (c₁.phase = .ending none → c₀.phase = .ending none) →
      ∃ c, s.calls q = some c ∧ c.phase = .ending none := by
    intro s₀ q₀ c₀ c₁ hs₀ hq₀ hcall hsame
    by_cases hqq : q = q₀
    · rw [hqq, calls_setCall_self] at hcall
      cases hcall
      exact ⟨c₀, hqq ▸ hq₀, hsame hphase⟩
    · rw [calls_setCall_of_ne s₀ hqq, hs₀] at hcall
      exact ⟨c', hcall, hphase⟩
  cases hs with
  | @call query =>
      right
      have hcall : (s.setCall s.made (some (Call.begin query))).calls q = some c' := hc'
      by_cases hqq : q = s.made
      · rw [hqq, calls_setCall_self] at hcall
        cases hcall
        unfold Call.begin at hphase
        split at hphase <;> cases hphase
      · rw [calls_setCall_of_ne s hqq] at hcall
        exact ⟨c', hcall, hphase⟩
  | unwritable hq _ _ _ | exhausted hq _ _ _ _ | asks hq _ _ _ _ | returns hq _ _ _ _ _
  | abandoned hq _ _ _ | dropGuard hq _ _ | discard hq _ _ => exact .inr (hset rfl hq hc' id)
  | @next q₀ u c r hq hracing _ =>
      refine .inr (hset rfl hq hc' fun hend => ?_)
      cases r with
      | ok msg => cases hend
      | error e =>
          unfold Call.next at hend
          dsimp only at hend
          split at hend
          · cases hend
          · exact hend
  | @cancel q₀ c hq _ =>
      by_cases hqq : q = q₀
      · exact .inl (by rw [hqq])
      · rw [calls_setCall_of_ne s hqq] at hc'
        exact .inr ⟨c', hc', hphase⟩
  | @ends q₀ c result hq _ _ =>
      right
      by_cases hqq : q = q₀
      · rw [hqq, calls_setCall_self] at hc'
        cases hc'
      · rw [calls_setCall_of_ne s hqq] at hc'
        exact ⟨c', hc', hphase⟩
  | receive _ | send _ | wake _ _ _ _ => exact .inr ⟨c', hc', hphase⟩

end Race

/-! ## The work of the server -/

/-- What a call costs the resolver, with `m` upstreams. -/
def Contact.cost (m : Nat) : Contact → Nat
  | calls _ => 4 * m + 2
  | returns _ => 0

/-- Nothing costs nothing. -/
def Contact.costs (m : Nat) (contact : Option Contact) : Nat := contact.elim 0 (Contact.cost m)

/-- Only who starts to wait makes a call. -/
theorem Contact.Between.costs {before after : Option Message} {contact : Option Contact}
    (h : Between before after contact) (m : Nat) :
    Contact.costs m contact = if before = none ∧ after ≠ none then 4 * m + 2 else 0 := by
  cases h with
  | returns => rfl
  | calls => cases after <;> rfl

/-- What is left for a task to do, until it is joined. -/
def QueryTask.togo {Addr : Type} (m : Nat) (t : QueryTask Addr) : Nat :=
  match t.phase with
  | .spawned => 4 * m + 6
  | .resolving _ => 3
  | .sending _ => 2
  | .ended => 1

/-- What is left for a connection to do, without another frame. -/
def ConnTask.togo (t : ConnTask) : Nat :=
  match t.phase with
  | .reading => 1
  | .resolving _ => 3
  | .writing _ => 2
  | .closed => 0

/-- A client sends something. -/
def ServiceAct.input {Addr : Type} {n : Nat} : ServiceAct Addr n → Bool
  | .datagram _ _ _ | .accept _ | .conn _ (.frame _) => true
  | _ => false

/-- A task or a connection goes on. -/
def ServiceAct.own {Addr : Type} {n : Nat} : ServiceAct Addr n → Bool
  | .query _ _ _ | .joinNext _ _ | .conn _ (.resolved _ _ _) | .conn _ .written | .conn _ .close => true
  | _ => false

namespace QueryTask

variable {Addr : Type} {t t' : QueryTask Addr} {cache cache' : Cache} {act : QueryAct} {m : Nat}

theorem togo_respond_le (t : QueryTask Addr) (query response : Message) :
    (t.respond query response).togo m ≤ 2 := by
  unfold respond
  split
  · exact Nat.le_refl _
  · exact Nat.le_succ _

/-- **A step of a task is work done**, and a call is paid for. -/
theorem togo_step (h : t.step cache act = some (t', cache')) :
    t'.togo m + Contact.costs m (t.contact cache act) + 1 ≤ t.togo m := by
  rw [(contact_of_step h).costs m]
  cases moves_of_step h with
  | unparsable hp _ => simp [togo, hp, QueryPhase.awaited]
  | @hit now query reply hp _ _ =>
      have hle := togo_respond_le (m := m) t query reply
      have hspawned : t.togo m = 4 * m + 6 := by simp [togo, hp]
      rw [awaited_respond, if_neg (by simp), hspawned]
      omega
  | miss hp _ _ =>
      simp only [togo, hp, QueryPhase.awaited]
      split <;> omega
  | @resolved outcome order now query hp =>
      have hle := togo_respond_le (m := m) t query (resolvedReply cache query { outcome, now, order }).1
      have hwaiting : t.togo m = 3 := by simp [togo, hp]
      rw [awaited_respond, if_neg (by simp), hwaiting]
      omega
  | send hp => simp [togo, hp, QueryPhase.awaited]
  | sendFails hp => simp [togo, hp, QueryPhase.awaited]
  | cancelled _ hlive =>
      have hleft : 2 ≤ t.togo m := by
        unfold togo
        unfold isEnded at hlive
        split at hlive
        · cases hlive
        · rename_i hne
          split
          · omega
          · omega
          · omega
          · rename_i hended
            exact absurd hended hne
      rw [if_neg (by simp [QueryPhase.awaited])]
      exact hleft

end QueryTask

namespace ConnTask

variable {t t' : ConnTask} {cache cache' : Cache} {act : ConnTaskAct} {m : Nat}

theorem togo_respond_le (t : ConnTask) (response : Message) : (t.respond response).togo ≤ 2 := by
  unfold respond
  split
  · exact Nat.le_refl _
  · exact Nat.zero_le _

/-- A frame is more to do. -/
theorem togo_frame {now : Nat} (h : t.step cache (.frame now) = some (t', cache')) :
    t'.togo + Contact.costs m (t.contact cache (.frame now)) ≤ t.togo + (4 * m + 6) := by
  have hle : t'.togo ≤ 3 := by
    unfold togo
    split <;> omega
  rw [(contact_of_step h).costs m]
  split <;> omega

/-- **Anything else is work done.** -/
theorem togo_step (h : t.step cache act = some (t', cache')) (hact : ∀ now, act ≠ .frame now) :
    t'.togo + Contact.costs m (t.contact cache act) + 1 ≤ t.togo := by
  rw [(contact_of_step h).costs m]
  cases act with
  | frame now => exact absurd rfl (hact now)
  | resolved outcome order now =>
      simp only [step] at h
      split at h
      · rename_i query hp
        cases h
        have hle := t.togo_respond_le (resolvedReply cache query { outcome, now, order }).1
        have hwaiting : t.togo = 3 := by simp [togo, hp]
        rw [awaited_respond, if_neg (by simp), hwaiting]
        omega
      · cases h
  | written =>
      simp only [step] at h
      split at h
      · rename_i bytes hp
        have hwriting : t.togo = 2 := by simp [togo, hp]
        split at h
        · cases h
          rw [if_neg (by simp [ConnPhase.awaited]), hwriting]
          exact Nat.le_refl _
        · cases h
          rw [if_neg (by simp [ConnPhase.awaited]), hwriting]
          exact Nat.le_succ _
      · cases h
  | close =>
      simp only [step] at h
      split at h
      · cases h
      · rename_i hne
        cases h
        have hleft : 1 ≤ t.togo := by
          unfold togo
          split
          · omega
          · omega
          · omega
          · rename_i hclosed
            exact absurd hclosed hne
        rw [if_neg (by simp [ConnPhase.awaited])]
        exact hleft

end ConnTask

namespace Service

variable {Addr : Type} {n m : Nat} {s s' : Service Addr n} {a : ServiceAct Addr n}

/-- What is left to do for all tasks and connections. -/
def togo (m : Nat) (s : Service Addr n) : Nat :=
  tally (fun worker => weigh (QueryTask.togo m) worker.queries) s.workers + weigh ConnTask.togo s.conns

/-- One worker changes. -/
theorem togo_le (lost extra : Nat) {w : Fin n} {worker : ServiceWorker Addr}
    (hworkers : s'.workers = Function.update s.workers w worker) (hconns : s'.conns = s.conns)
    (hle : weigh (QueryTask.togo m) worker.queries + lost ≤
      weigh (QueryTask.togo m) (s.workers w).queries + extra) : s'.togo m + lost ≤ s.togo m + extra := by
  have hsum := tally_update (fun worker => weigh (QueryTask.togo m) worker.queries) s.workers w worker
  unfold togo
  rw [hworkers, hconns]
  omega

/-- One connection changes. -/
theorem togo_le_conn (lost extra : Nat) (hworkers : s'.workers = s.workers)
    (hle : weigh ConnTask.togo s'.conns + lost ≤ weigh ConnTask.togo s.conns + extra) :
    s'.togo m + lost ≤ s.togo m + extra := by
  unfold togo
  rw [hworkers]
  omega

/-- What a step of the server costs the resolver. -/
def costs (m : Nat) (s : Service Addr n) (a : ServiceAct Addr n) : Nat :=
  Contact.costs m ((s.contact a).map Prod.snd)

/-- **The server only has more to do for what clients send**, and every other step is work done. -/
theorem togo_step (hs : s.Step a s') :
    s'.togo m + (s.costs m a + if a.own then 1 else 0) ≤
      s.togo m + if a.input then 4 * m + 6 else 0 := by
  cases hs with
  | @spawned w peer bytes permits _ _ =>
      refine togo_le 0 (4 * m + 6) (w := w) rfl rfl ?_
      simp only [weigh_append, weigh_cons, weigh_nil]
      simp only [QueryTask.togo]
      omega
  | @query w i act t t' cache ht hstep =>
      have hset := weigh_set (f := QueryTask.togo m) ht t'
      have htogo := QueryTask.togo_step (m := m) hstep
      have hcosts : s.costs m (.query w i act) = Contact.costs m (t.contact s.cache act) := by
        simp only [costs, contact, ht, Option.bind_some, Option.map_map]
        cases t.contact s.cache act <;> rfl
      refine togo_le _ 0 (w := w) rfl rfl ?_
      rw [hcosts]
      simp only [ServiceAct.own, if_true]
      omega
  | @joinNext w i t ht hended =>
      have herase := weigh_eraseIdx (f := QueryTask.togo m) ht
      have hpos : 1 ≤ t.togo m := by
        unfold QueryTask.togo
        split <;> omega
      refine togo_le 1 0 (w := w) rfl rfl ?_
      dsimp only
      omega
  | @changed w _ _ => exact togo_le 0 0 (w := w) rfl rfl (Nat.le_refl _)
  | @drained w _ _ => exact togo_le 0 0 (w := w) rfl rfl (Nat.le_refl _)
  | @drainTimeout w _ _ =>
      have habort := weigh_map (f := QueryTask.togo m)
        (g := fun t : QueryTask Addr => { t with aborted := true }) (fun _ => rfl) (s.workers w).queries
      exact togo_le 0 0 (w := w) rfl rfl (Nat.le_of_eq habort)
  | @accepted stream permits _ _ =>
      refine togo_le_conn 0 (4 * m + 6) rfl ?_
      simp only [weigh_append, weigh_cons, weigh_nil]
      simp only [ConnTask.togo]
      omega
  | @conn k act t t' cache ht hstep =>
      have hset := weigh_set (f := ConnTask.togo) ht t'
      have hcosts : s.costs m (.conn k act) = Contact.costs m (t.contact s.cache act) := by
        simp only [costs, contact, ht, Option.bind_some, Option.map_map]
        cases t.contact s.cache act <;> rfl
      rw [hcosts]
      cases act with
      | frame now =>
          have htogo := ConnTask.togo_frame (m := m) hstep
          refine togo_le_conn _ (4 * m + 6) rfl ?_
          dsimp only [ServiceAct.own]
          simp only [Bool.false_eq_true, if_false]
          omega
      | resolved _ _ _ | written | close =>
          have htogo := ConnTask.togo_step (m := m) hstep (by simp)
          refine togo_le_conn _ 0 rfl ?_
          simp only [ServiceAct.own, if_true]
          omega
  | dropped _ _ | refused _ _ => exact Nat.add_le_add_left (Nat.zero_le _) _
  | acceptChanged _ _ | reap _ | reaperStops _ | shutdown _ | awaited _ _ _ | returns _ =>
      exact Nat.le_refl _

end Service

/-! ## The work of the program -/

/-- A client sends something. -/
def ProgramAct.input {Addr : Type} {n m : Nat} : ProgramAct Addr n m → Bool
  | service act => act.input
  | resolver _ => false

/-- Someone goes on who does not have to wait for a client or an upstream. -/
def ProgramAct.own {Addr : Type} {n m : Nat} : ProgramAct Addr n m → Bool
  | service act => act.own
  | resolver (.start _ _) | resolver (.leave _ _) | resolver (.dropGuard _ _) | resolver (.next _ _)
  | resolver (.cancel _) | resolver (.discard _ _) => true
  | resolver _ => false

namespace Program

variable {Addr : Type} {n m : Nat} {p p' : Program Addr n m} {a : ProgramAct Addr n m}

/-- What is left to do. -/
def togo (p : Program Addr n m) : Nat := p.service.togo m + p.resolver.workload

/-- **There is only more to do when a client sends something.** -/
theorem togo_step (hinv : Race.Inv p.resolver) (hs : p.Step a p') :
    p'.togo + (if a.own then 1 else 0) ≤ p.togo + if a.input then 4 * m + 6 else 0 := by
  cases hs with
  | @serves act service hs hnone =>
      have hservice := Service.togo_step (m := m) hs
      show service.togo m + p.resolver.workload + (if act.own then 1 else 0) ≤
        p.service.togo m + p.resolver.workload + if act.input then 4 * m + 6 else 0
      omega
  | @calls act service waiter query resolver hs hcontact hcall =>
      have hservice := Service.togo_step (m := m) hs
      have hcosts : p.service.costs m act = 4 * m + 2 := by
        simp [Service.costs, hcontact, Contact.costs, Contact.cost]
      have hresolver := Race.workload_call hinv hcall
      show service.togo m + resolver.workload + (if act.own then 1 else 0) ≤
        p.service.togo m + p.resolver.workload + if act.input then 4 * m + 6 else 0
      omega
  | @returns act service waiter result q resolver hs _ _ hends =>
      have hservice := Service.togo_step (m := m) hs
      have hresolver := Race.workload_le hinv hends (by simp)
      show service.togo m + resolver.workload + (if act.own then 1 else 0) ≤
        p.service.togo m + p.resolver.workload + if act.input then 4 * m + 6 else 0
      omega
  | @resolves act resolver hs hinternal =>
      have hcall : ∀ query, act ≠ .call query := by
        rintro query rfl
        exact hinternal
      have hle := Race.workload_le hinv hs hcall
      have hlt : ∀ q, act.own q = true → resolver.workload < p.resolver.workload := fun q =>
        Race.workload_lt hinv hs hcall
      simp only [togo, ProgramAct.input, Bool.false_eq_true, if_false]
      cases act with
      | start q _ | leave q _ | dropGuard q _ | next q _ | cancel q | discard q _ =>
          have hless := hlt q (by simp [Race.Act.own])
          simp only [ProgramAct.own, if_true]
          omega
      | call _ | receive _ _ | send _ | wake _ _ | ends _ _ =>
          simp only [ProgramAct.own, Bool.false_eq_true, if_false]
          omega

/-! ## Nothing is stuck -/

/-- A task whose call was dropped was aborted. -/
structure Settling (p : Program Addr n m) : Prop where
  linked : p.Linked
  resolver : Race.Orderly p.resolver
  dropped : ∀ w, ∀ t ∈ (p.service.workers w).queries, ∀ q c, t.phase.awaited ≠ none →
    p.calls (.query t.number) = some q → p.resolver.calls q = some c → c.phase = .ending none → t.aborted

theorem settling_start (cache : Cache) (udpMaxInflight tcpMaxConnections : Nat) :
    (start cache n m udpMaxInflight tcpMaxConnections : Program Addr n m).Settling := by
  refine ⟨linked_start cache udpMaxInflight tcpMaxConnections, Race.orderly_init, fun w t ht => ?_⟩
  cases ht

/-- A task that waits was there before, or has just started to. -/
theorem aborted_step {s s' : Service Addr n} {act : ServiceAct Addr n} (hs : s.Step act s') {w : Fin n}
    {t' : QueryTask Addr} (ht' : t' ∈ (s'.workers w).queries) (hawaits : t'.phase.awaited ≠ none) :
    (∃ t ∈ (s.workers w).queries, t.number = t'.number ∧ t.phase.awaited ≠ none ∧
        (t.aborted = true → t'.aborted = true)) ∨
      ∃ query, s.contact act = some (.query t'.number, .calls query) := by
  -- who has not moved has not moved
  have hold : t' ∈ (s.workers w).queries → ∃ t ∈ (s.workers w).queries, t.number = t'.number ∧
      t.phase.awaited ≠ none ∧ (t.aborted = true → t'.aborted = true) :=
    fun hmem => ⟨t', hmem, rfl, hawaits, id⟩
  have hupdate : ∀ {u : Fin n} {worker : ServiceWorker Addr},
      s'.workers = Function.update s.workers u worker →
      t' ∈ (s.workers w).queries ∨ u = w ∧ t' ∈ worker.queries := by
    intro u worker hworkers
    rw [hworkers] at ht'
    by_cases hu : w = u
    · rw [hu, Function.update_self] at ht'
      exact .inr ⟨hu.symm, ht'⟩
    · rw [Function.update_of_ne hu] at ht'
      exact .inl ht'
  cases hs with
  | spawned _ _ =>
      rcases hupdate rfl with hmem | ⟨rfl, hmem⟩
      · exact .inl (hold hmem)
      · rcases List.mem_append.mp hmem with hmem | hmem
        · exact .inl (hold hmem)
        · rw [List.mem_singleton.mp hmem] at hawaits
          exact absurd rfl hawaits
  | @query u i act t t₁ cache ht hstep =>
      rcases hupdate rfl with hmem | ⟨rfl, hmem⟩
      · exact .inl (hold hmem)
      · rcases List.mem_or_eq_of_mem_set hmem with hmem | rfl
        · exact .inl (hold hmem)
        · obtain ⟨hsame, -⟩ := (QueryTask.moves_of_step hstep).same
          have hbetween := QueryTask.contact_of_step hstep
          have hcontact : s.contact (.query u i act) =
              (t.contact s.cache act).map (Waiter.query t.number, ·) := by
            simp [Service.contact, ht]
          rw [hcontact, hsame.number]
          generalize t.contact s.cache act = contact at hbetween
          generalize t.phase.awaited = before at hbetween
          obtain ⟨query, hquery⟩ := Option.ne_none_iff_exists'.mp hawaits
          rw [hquery] at hbetween
          cases hbetween with
          | calls => exact .inr ⟨query, rfl⟩
  | joinNext _ _ =>
      rcases hupdate rfl with hmem | ⟨rfl, hmem⟩
      · exact .inl (hold hmem)
      · exact .inl (hold (List.mem_of_mem_eraseIdx hmem))
  | changed _ _ | drained _ _ =>
      rcases hupdate rfl with hmem | ⟨rfl, hmem⟩
      · exact .inl (hold hmem)
      · exact .inl (hold hmem)
  | drainTimeout _ _ =>
      rcases hupdate rfl with hmem | ⟨rfl, hmem⟩
      · exact .inl (hold hmem)
      · obtain ⟨t, ht, rfl⟩ := List.mem_map.mp hmem
        exact .inl ⟨t, ht, rfl, hawaits, fun _ => rfl⟩
  | _ => exact .inl (hold ht')

/-- **Every step keeps this.** -/
theorem Settling.step (h : p.Settling) (hs : p.Step a p') : p'.Settling := by
  have hlinked := h.linked.step hs
  have horderly : Race.Orderly p'.resolver := by
    rcases resolver_step hs with hsame | ⟨b, hb⟩
    · rw [hsame]
      exact h.resolver
    · exact h.resolver.step hb
  refine ⟨hlinked, horderly, fun w t' ht' q c' hawaits hq hc' hphase => ?_⟩
  cases hs with
  | @serves act service hs hnone =>
      rcases aborted_step hs ht' hawaits with ⟨t, ht, hnumber, hwaited, haborted⟩ | ⟨query, hcontact⟩
      · exact haborted (h.dropped w t ht q c' hwaited (hnumber ▸ hq) hc' hphase)
      · rw [hnone] at hcontact
        cases hcontact
  | @calls act service waiter query resolver hs hcontact hcall =>
      obtain ⟨c, hc, hdropped⟩ := (Race.dropped_step hcall hc' hphase).resolve_left (by simp)
      -- the new call was not dropped
      have hwaiter : .query t'.number ≠ waiter := by
        rintro rfl
        dsimp only at hq
        rw [Function.update_self] at hq
        cases hq
        exact Nat.lt_irrefl _ (h.linked.resolver.lt_made hc)
      dsimp only at hq
      rw [Function.update_of_ne hwaiter] at hq
      rcases aborted_step hs ht' hawaits with ⟨t, ht, hnumber, hwaited, haborted⟩ | ⟨query', hcontact'⟩
      · exact haborted (h.dropped w t ht q c hwaited (hnumber ▸ hq) hc hdropped)
      · rw [hcontact] at hcontact'
        cases hcontact'
        exact absurd rfl hwaiter
  | @returns act service waiter result q₀ resolver hs hcontact hq₀ hends =>
      obtain ⟨c, hc, hdropped⟩ := (Race.dropped_step hends hc' hphase).resolve_left (by simp)
      have hwaiter : .query t'.number ≠ waiter := by
        rintro rfl
        dsimp only at hq
        rw [Function.update_self] at hq
        cases hq
      dsimp only at hq
      rw [Function.update_of_ne hwaiter] at hq
      rcases aborted_step hs ht' hawaits with ⟨t, ht, hnumber, hwaited, haborted⟩ | ⟨query', hcontact'⟩
      · exact haborted (h.dropped w t ht q c hwaited (hnumber ▸ hq) hc hdropped)
      · rw [hcontact] at hcontact'
        cases hcontact'
  | @resolves act resolver hs hinternal =>
      rcases Race.dropped_step hs hc' hphase with rfl | ⟨c, hc, hdropped⟩
      · -- whoever is dropped is the one that waits
        rcases hinternal with ⟨w₂, t₂, ht₂, hwaits₂, haborted, hq₂⟩ | ⟨k, hk⟩
        · have hsame : t₂.number = t'.number :=
            (Waiter.query.inj (h.linked.unique _ _ q hq hq₂)).symm
          obtain ⟨i, hi⟩ := List.mem_iff_getElem?.mp ht'
          obtain ⟨j, hj⟩ := List.mem_iff_getElem?.mp ht₂
          obtain ⟨query', hq'⟩ := Option.ne_none_iff_exists'.mp hawaits
          obtain ⟨query₂, hq₂⟩ := Option.isSome_iff_exists.mp hwaits₂
          obtain ⟨rfl, rfl⟩ := h.linked.once.unique hi (Service.isEnded_of_awaited hq') hj
            (Service.isEnded_of_awaited hq₂) hsame
          have hone : (p.service.workers w).queries[i]? = some t' := hi
          rw [hj] at hone
          cases hone
          exact haborted
        · cases h.linked.unique _ _ q hq hk
      · exact h.dropped w t' ht' q c hawaits hq hc hdropped

/-- A task that waits has a call that can go on, or can go on itself. -/
theorem Settling.exists_own_of_call (h : p.Settling) {waiter : Waiter} {q : Nat}
    (hq : p.calls waiter = some q) : ∃ a p', a.own = true ∧ p.Step a p' := by
  obtain ⟨query, hawaits⟩ := h.linked.waits waiter q hq
  obtain ⟨c, hc, -⟩ := Option.map_eq_some_iff.mp (h.linked.asked hq hawaits)
  obtain ⟨b, s', hown, hcancel, hs⟩ := h.resolver.exists_own hc
  cases b with
  | call _ | receive _ _ | send _ | wake _ _ => cases hown
  | cancel q' => exact absurd rfl (hcancel q')
  | start _ _ | leave _ _ | dropGuard _ _ | next _ _ | discard _ _ =>
      exact ⟨_, _, rfl, .resolves hs trivial⟩
  | ends q' result =>
      obtain rfl : q' = q := of_decide_eq_true hown
      cases waiter with
      | query number =>
          obtain ⟨w, t, ht, rfl, hphase⟩ := hawaits
          obtain ⟨i, hi⟩ := List.mem_iff_getElem?.mp ht
          have hresolving := QueryPhase.eq_of_awaited hphase
          cases result with
          | some outcome =>
              obtain ⟨t', cache', hstep⟩ : ∃ t' cache', t.step p.service.cache
                  (.resolved outcome (fun _ => .asStored) 0) = some (t', cache') := by
                simp [QueryTask.step, hresolving]
              refine ⟨_, _, rfl, .returns (.query hi hstep) ?_ hq hs⟩
              simp [Service.contact, hi, QueryTask.contact, hphase]
          | none =>
              -- it was aborted, and that is why the call has no result
              have hended : c.phase = .ending none := by
                cases hs with
                | ends hc' hend _ =>
                    rw [hc] at hc'
                    cases hc'
                    exact hend
              have haborted := h.dropped w t ht q' c (by simp [hphase]) hq hc hended
              obtain ⟨t', cache', hstep⟩ : ∃ t' cache', t.step p.service.cache .cancelled =
                  some (t', cache') := by
                simp [QueryTask.step, hresolving, haborted]
              refine ⟨_, _, rfl, .returns (.query hi hstep) ?_ hq hs⟩
              simp [Service.contact, hi, QueryTask.contact, hphase]
      | conn k =>
          obtain ⟨t, ht, hphase⟩ := hawaits
          have hresolving := ConnPhase.eq_of_awaited hphase
          cases result with
          | some outcome =>
              obtain ⟨t', cache', hstep⟩ : ∃ t' cache', t.step p.service.cache
                  (.resolved outcome (fun _ => .asStored) 0) = some (t', cache') := by
                simp [ConnTask.step, hresolving]
              refine ⟨_, _, rfl, .returns (.conn ht hstep) ?_ hq hs⟩
              simp [Service.contact, ht, ConnTask.contact, hphase]
          | none =>
              obtain ⟨t', cache', hstep⟩ : ∃ t' cache', t.step p.service.cache .close =
                  some (t', cache') := by
                simp [ConnTask.step, hresolving]
              refine ⟨_, _, rfl, .returns (.conn ht hstep) ?_ hq hs⟩
              simp [Service.contact, ht, ConnTask.contact, hphase]

/-- Whoever does not wait for the resolver can go on, and calls it or does not. -/
theorem exists_step_of_query {w : Fin n} {i : Nat} {t t' : QueryTask Addr} {act : QueryAct}
    {cache' : Cache} (ht : (p.service.workers w).queries[i]? = some t)
    (hstep : t.step p.service.cache act = some (t', cache')) (hwaits : t.phase.awaited = none) :
    ∃ a p', a.own = true ∧ p.Step a p' := by
  have hcontact : p.service.contact (.query w i act) =
      (t'.phase.awaited.map Contact.calls).map (Waiter.query t.number, ·) := by
    simp [Service.contact, ht, QueryTask.contact, hwaits, hstep]
  cases hafter : t'.phase.awaited with
  | none =>
      rw [hafter] at hcontact
      exact ⟨_, _, rfl, .serves (.query ht hstep) hcontact⟩
  | some query =>
      rw [hafter] at hcontact
      exact ⟨_, _, rfl, .calls (.query ht hstep) hcontact .call⟩

/-- **Nothing is stuck.** A task, a connection or a call that has not come to its end can go on, or
waits for something that can. -/
theorem Settling.exists_own (h : p.Settling)
    (hleft : (∃ w, (p.service.workers w).queries ≠ []) ∨ (∃ t ∈ p.service.conns, t.isClosed = false) ∨
      ∃ q, p.resolver.calls q ≠ none) : ∃ a p', a.own = true ∧ p.Step a p' := by
  rcases hleft with ⟨w, hne⟩ | ⟨t, ht, hopen⟩ | ⟨q, hq⟩
  · obtain ⟨t, ht⟩ := List.exists_mem_of_ne_nil _ hne
    obtain ⟨i, hi⟩ := List.mem_iff_getElem?.mp ht
    cases hphase : t.phase with
    | spawned =>
        obtain ⟨t', cache', hstep⟩ : ∃ t' cache', t.step p.service.cache (.start 0) =
            some (t', cache') := by
          simp only [QueryTask.step, hphase]
          split
          · exact ⟨_, _, rfl⟩
          · split <;> exact ⟨_, _, rfl⟩
        exact exists_step_of_query hi hstep (by rw [hphase]; rfl)
    | resolving query =>
        obtain ⟨q, hq, -⟩ := h.linked.awaits (.query t.number) query ⟨w, t, ht, rfl, by rw [hphase]; rfl⟩
        exact h.exists_own_of_call hq
    | sending bytes =>
        obtain ⟨t', cache', hstep⟩ : ∃ t' cache', t.step p.service.cache .send =
            some (t', cache') := by
          simp [QueryTask.step, hphase]
        exact exists_step_of_query hi hstep (by rw [hphase]; rfl)
    | ended => exact ⟨_, _, rfl, .serves (.joinNext hi (by simp [QueryTask.isEnded, hphase])) rfl⟩
  · obtain ⟨k, hk⟩ := List.mem_iff_getElem?.mp ht
    cases hphase : t.phase with
    | resolving query =>
        obtain ⟨q, hq, -⟩ := h.linked.awaits (.conn k) query ⟨t, hk, by rw [hphase]; rfl⟩
        exact h.exists_own_of_call hq
    | closed => simp [ConnTask.isClosed, hphase] at hopen
    | reading | writing _ =>
        have hstep : t.step p.service.cache .close = some ({ t with phase := .closed }, p.service.cache) := by
          simp [ConnTask.step, hphase]
        refine ⟨.service (.conn k .close), _, rfl, .serves (.conn hk hstep) ?_⟩
        simp [Service.contact, hk, ConnTask.contact, hphase, ConnPhase.awaited, hstep]
  · obtain ⟨waiter, hw⟩ := h.linked.waiter q (by simpa [Race.State.asked] using hq)
    exact h.exists_own_of_call hw

/--
**Everything comes to its end.** In every run of the program, with whatever clients and upstreams send
and do not send: for each datagram, connection and frame that comes in, the tasks, connections and
calls make no more than `4 * m + 6` steps of their own, where `m` is the number of upstreams. What
`recv_loop` does is not among these, and neither is that a query is woken by it. And as long as there is
a task that was not joined, a connection that is not closed or a call that has not ended, one of them
can make its next step without anything coming in, so that nobody waits for somebody forever. Of a
connection that is writing this is said on the assumption that its client reads or hangs up: `write_framed`
waits for that without a timeout, and here the write can end at any time.
-/
theorem program_completes (cache : Cache) (n m udpMaxInflight tcpMaxConnections : Nat)
    (acts : List (ProgramAct Addr n m)) (p : Program Addr n m)
    (hrun : Run Step (fun _ _ => True) (start cache n m udpMaxInflight tcpMaxConnections) acts p) :
    acts.countP ProgramAct.own ≤ (4 * m + 6) * acts.countP ProgramAct.input ∧
      ((∃ w, (p.service.workers w).queries ≠ []) ∨ (∃ t ∈ p.service.conns, t.isClosed = false) ∨
        (∃ q, p.resolver.calls q ≠ none) → ∃ a p', a.own = true ∧ p.Step a p') := by
  have hstart : (start cache n m udpMaxInflight tcpMaxConnections : Program Addr n m).Settling :=
    settling_start cache udpMaxInflight tcpMaxConnections
  refine ⟨?_, (hrun.invariant (fun _ _ _ hI hs => hI.step hs) hstart).exists_own⟩
  have hcount := hrun.countP_add_le (I := Settling) (μ := togo) (p := ProgramAct.own)
    (q := ProgramAct.input) (c := 4 * m + 6)
    (fun p a p' hI _ hs => ⟨hI.step hs, togo_step hI.linked.resolver hs⟩) hstart
  have hzero : (start cache n m udpMaxInflight tcpMaxConnections : Program Addr n m).togo = 0 := by
    have hworkers : tally (fun worker : ServiceWorker Addr => weigh (QueryTask.togo m) worker.queries)
        (fun _ : Fin n => {}) = 0 := tally_eq_zero fun _ => rfl
    simp only [togo, Service.togo, start, Service.start, hworkers]
    rfl
  rw [hzero] at hcount
  omega

/-- A task that waits for an upstream does not have to. -/
theorem waiting_completes : ∃ p : Program Nat 1 1, p.resolver.live.card = 1 ∧
    ∃ a p', a.own = true ∧ p.Step a p' := by
  have hrun : Run Step (fun _ _ => True)
      (start (Cache.new Cache.plainHashing 10 300) 1 1 1000 1000 : Program Nat 1 1)
      [.service (.datagram 0 4 rootQuery), .service (.query 0 0 (.start 0))] _ :=
    .cons trivial (.serves (.spawned rfl rfl) rfl) (.cons trivial
      (.calls (.query rfl rfl) rfl (.call : Race.Step _ (.call (queryFor Utf8.Str.empty)) _)) .nil)
  refine ⟨_, rfl, (program_completes _ 1 1 1000 1000 _ _ hrun).2 (.inl ⟨0, ?_⟩)⟩
  exact List.cons_ne_nil _ _

end Program

end Dnser
