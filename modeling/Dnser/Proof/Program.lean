import Dnser.Proof.Answers
import Dnser.Proof.Race
import Dnser.Server.Program

/-!
# The server and its resolver together

What was assumed of the resolver so far (`Service.Honest`) it really does: tasks that wait and calls
that have not come to their end belong together, one to one and for the same query (`Program.Linked`),
so that a task gets what was accepted for its own query, and not for someone else's. And what was
assumed of those who call the resolver they really do: there are never more calls than the permits of
the server allow, and so there are always ids for them.
-/

namespace Dnser

open Steps (Reachable)
open Utf8 (Str)

/-! ## Who waits for what -/

/-- A task of a worker waits. -/
def ServiceWorker.Awaits {Addr : Type} (worker : ServiceWorker Addr) (number : Nat) (query : Message) :
    Prop :=
  ∃ t ∈ worker.queries, t.number = number ∧ t.phase.awaited = some query

theorem QueryPhase.eq_of_awaited {phase : QueryPhase} {query : Message}
    (h : phase.awaited = some query) : phase = .resolving query := by
  cases phase with
  | resolving query' =>
      cases h
      rfl
  | spawned | sending _ | ended => cases h

theorem ConnPhase.eq_of_awaited {phase : ConnPhase} {query : Message}
    (h : phase.awaited = some query) : phase = .resolving query := by
  cases phase with
  | resolving query' =>
      cases h
      rfl
  | reading | writing _ | closed => cases h

/-- What a step has to do with the resolver, from what is waited for before and after it. -/
inductive Contact.Between : Option Message → Option Message → Option Contact → Prop where
  | calls {after : Option Message} : Between none after (after.map .calls)
  | returns {query : Message} {result : Option Race.Outcome} :
      Between (some query) none (some (.returns result))

/-- A reply is not waited for. -/
theorem QueryTask.awaited_respond {Addr : Type} (t : QueryTask Addr) (query response : Message) :
    (t.respond query response).phase.awaited = none := by
  unfold respond
  split <;> rfl

theorem QueryTask.contact_of_step {Addr : Type} {t t' : QueryTask Addr} {cache cache' : Cache}
    {act : QueryAct} (h : t.step cache act = some (t', cache')) :
    Contact.Between t.phase.awaited t'.phase.awaited (t.contact cache act) := by
  unfold contact
  cases hbefore : t.phase.awaited with
  | none =>
      have hafter : ((t.step cache act).bind fun x => x.1.phase.awaited) = t'.phase.awaited := by
        rw [h]
        rfl
      simp only [hafter]
      exact .calls
  | some query =>
      have hphase := QueryPhase.eq_of_awaited hbefore
      -- only an answer or the end comes after waiting
      cases moves_of_step h with
      | unparsable hp _ | hit hp _ _ | miss hp _ _ | send hp | sendFails hp =>
          rw [hphase] at hp
          cases hp
      | resolved _ =>
          rw [awaited_respond]
          exact .returns
      | cancelled _ _ => exact .returns

theorem ConnTask.awaited_respond (t : ConnTask) (response : Message) :
    (t.respond response).phase.awaited = none := by
  unfold respond
  split <;> rfl

theorem ConnTask.contact_of_step {t t' : ConnTask} {cache cache' : Cache} {act : ConnTaskAct}
    (h : t.step cache act = some (t', cache')) :
    Contact.Between t.phase.awaited t'.phase.awaited (t.contact cache act) := by
  unfold contact
  cases hbefore : t.phase.awaited with
  | none =>
      have hafter : ((t.step cache act).bind fun x => x.1.phase.awaited) = t'.phase.awaited := by
        rw [h]
        rfl
      simp only [hafter]
      exact .calls
  | some query =>
      have hphase := ConnPhase.eq_of_awaited hbefore
      cases act with
      | frame now => simp [step, hphase] at h
      | written => simp [step, hphase] at h
      | close =>
          simp only [step, hphase] at h
          cases h
          exact .returns
      | resolved outcome order now =>
          simp only [step, hphase] at h
          cases h
          rw [awaited_respond]
          exact .returns

namespace Service

variable {Addr : Type} {n : Nat} {s s' : Service Addr n} {a : ServiceAct Addr n}

/-- A task waits for the resolver, with this query. -/
def Awaits (s : Service Addr n) : Waiter → Message → Prop
  | .query number, query => ∃ w, (s.workers w).Awaits number query
  | .conn k, query => ∃ t, s.conns[k]? = some t ∧ t.phase.awaited = some query

/-- One task has waited for this before and waits for that now, and the others go on waiting. -/
structure Changes (s s' : Service Addr n) (waiter : Waiter) (before after : Option Message) : Prop where
  before : ∀ query, s.Awaits waiter query ↔ before = some query
  after : ∀ query, s'.Awaits waiter query ↔ after = some query
  others : ∀ waiter' query, waiter' ≠ waiter → (s'.Awaits waiter' query ↔ s.Awaits waiter' query)

/-- What a step has to do with the resolver, as seen from outside. -/
inductive Contacts (s s' : Service Addr n) : Option (Waiter × Contact) → Prop where
  | none : (∀ waiter query, s'.Awaits waiter query ↔ s.Awaits waiter query) → Contacts s s' none
  | calls {waiter : Waiter} {query : Message} : Changes s s' waiter .none (some query) →
      Contacts s s' (some (waiter, .calls query))
  | returns {waiter : Waiter} {query : Message} {result : Option Race.Outcome} :
      Changes s s' waiter (some query) .none → Contacts s s' (some (waiter, .returns result))

/-- A task that waits has its datagram. -/
theorem isEnded_of_awaited {t : QueryTask Addr} {query : Message} (h : t.phase.awaited = some query) :
    t.isEnded = false := by
  rw [QueryTask.isEnded, QueryPhase.eq_of_awaited h]

/-- **A datagram is with one task.** -/
theorem Once.unique (h : s.Once) {w u : Fin n} {i j : Nat} {t t₂ : QueryTask Addr}
    (ht : (s.workers w).queries[i]? = some t) (hlive : t.isEnded = false)
    (ht₂ : (s.workers u).queries[j]? = some t₂) (hlive₂ : t₂.isEnded = false)
    (hsame : t₂.number = t.number) : w = u ∧ i = j := by
  have hone : Family.tally (Family.weigh (QueryTask.has t.number)) (fun w => (s.workers w).queries) ≤ 1 := by
    have hcopies := h t.number
    unfold copies at hcopies
    have htally : Family.tally (fun worker => Family.weigh (QueryTask.has t.number) worker.queries)
        s.workers = Family.tally (Family.weigh (QueryTask.has t.number))
          (fun w => (s.workers w).queries) := rfl
    split at hcopies <;> omega
  exact Family.eq_of_tally_weigh_le_one hone ht (by simp [QueryTask.has, hlive]) ht₂
    (by simp [QueryTask.has, hlive₂, hsame])

/-- A task of a worker goes on. -/
theorem changes_query (honce : s.Once) {w : Fin n} {i : Nat} {t t' : QueryTask Addr}
    (ht : (s.workers w).queries[i]? = some t) (hlive : t.isEnded = false)
    (hnumber : t'.number = t.number) (hconns : s'.conns = s.conns)
    (hworkers : s'.workers = Function.update s.workers w
      { s.workers w with queries := (s.workers w).queries.set i t' }) :
    Changes s s' (.query t.number) t.phase.awaited t'.phase.awaited := by
  have hlt := (List.getElem?_eq_some_iff.mp ht).1
  have hnew : (s'.workers w).queries = (s.workers w).queries.set i t' := by
    rw [hworkers, Function.update_self]
  have hother : ∀ u, u ≠ w → s'.workers u = s.workers u := fun u hu => by
    rw [hworkers, Function.update_of_ne hu]
  refine ⟨fun query => ⟨?_, fun hq => ⟨w, t, List.mem_of_getElem? ht, rfl, hq⟩⟩,
    fun query => ⟨?_, fun hq => ⟨w, t', ?_, hnumber, hq⟩⟩, ?_⟩
  · rintro ⟨u, t₂, ht₂, hsame, hq⟩
    obtain ⟨j, hj⟩ := List.mem_iff_getElem?.mp ht₂
    obtain ⟨rfl, rfl⟩ := honce.unique ht hlive hj (isEnded_of_awaited hq) hsame
    rw [ht] at hj
    cases hj
    exact hq
  · rintro ⟨u, t₂, ht₂, hsame, hq⟩
    obtain ⟨j, hj⟩ := List.mem_iff_getElem?.mp ht₂
    -- anyone else with the number was there before
    by_cases hu : u = w
    · subst hu
      rw [hnew] at hj
      by_cases hij : i = j
      · subst hij
        rw [List.getElem?_set_self hlt] at hj
        cases hj
        exact hq
      · rw [List.getElem?_set_ne hij] at hj
        exact absurd (honce.unique ht hlive hj (isEnded_of_awaited hq) hsame).2 hij
    · rw [hother u hu] at hj
      exact absurd (honce.unique ht hlive hj (isEnded_of_awaited hq) hsame).1 (Ne.symm hu)
  · rw [hnew]
    exact List.mem_set hlt t'
  · intro waiter' query hne
    cases waiter' with
    | conn k =>
        show (∃ t, s'.conns[k]? = some t ∧ _) ↔ _
        rw [hconns]
        exact Iff.rfl
    | query number =>
        have hnum : t.number ≠ number := fun hsame => hne (by rw [hsame])
        constructor
        · rintro ⟨u, t₂, ht₂, hsame, hq⟩
          by_cases hu : u = w
          · subst hu
            rw [hnew] at ht₂
            rcases List.mem_or_eq_of_mem_set ht₂ with ht₂ | rfl
            · exact ⟨u, t₂, ht₂, hsame, hq⟩
            · exact absurd (hnumber.symm.trans hsame) hnum
          · exact ⟨u, t₂, hother u hu ▸ ht₂, hsame, hq⟩
        · rintro ⟨u, t₂, ht₂, hsame, hq⟩
          refine ⟨u, t₂, ?_, hsame, hq⟩
          by_cases hu : u = w
          · subst hu
            rw [hnew]
            refine mem_set_of_ne ht ht₂ ?_ t'
            rintro rfl
            exact hnum hsame
          · rwa [hother u hu]

/-- A connection goes on. -/
theorem changes_conn {k : Nat} {t t' : ConnTask} (ht : s.conns[k]? = some t)
    (hconns : s'.conns = s.conns.set k t') (hworkers : s'.workers = s.workers) :
    Changes s s' (.conn k) t.phase.awaited t'.phase.awaited := by
  have hlt := (List.getElem?_eq_some_iff.mp ht).1
  refine ⟨fun query => ?_, fun query => ?_, fun waiter' query hne => ?_⟩
  · simp [Awaits, ht]
  · simp [Awaits, hconns, hlt]
  · cases waiter' with
    | query number =>
        show (∃ w, (s'.workers w).Awaits number query) ↔ _
        rw [hworkers]
        exact Iff.rfl
    | conn k' =>
        have hkk : k ≠ k' := fun hsame => hne (by rw [hsame])
        show (∃ t, s'.conns[k']? = some t ∧ _) ↔ _
        rw [hconns, List.getElem?_set_ne hkk]
        exact Iff.rfl

theorem Changes.contacts {waiter : Waiter} {before after : Option Message} {contact : Option Contact}
    (h : Changes s s' waiter before after) (hbetween : Contact.Between before after contact) :
    Contacts s s' (contact.map (waiter, ·)) := by
  cases hbetween with
  | returns => exact .returns h
  | calls =>
      cases after with
      | some query => exact .calls h
      | none =>
          refine .none fun waiter' query => ?_
          by_cases hw : waiter' = waiter
          · rw [hw, h.before, h.after]
          · exact h.others waiter' query hw

/-- A step that changes no one who waits. -/
theorem contacts_none {w : Fin n} {worker : ServiceWorker Addr}
    (hworkers : s'.workers = Function.update s.workers w worker)
    (hw : ∀ number query, worker.Awaits number query ↔ (s.workers w).Awaits number query)
    (hconns : s'.conns = s.conns) : Contacts s s' none := by
  refine .none fun waiter query => ?_
  cases waiter with
  | conn k =>
      show (∃ t, s'.conns[k]? = some t ∧ _) ↔ _
      rw [hconns]
      exact Iff.rfl
  | query number =>
      show (∃ u, (s'.workers u).Awaits number query) ↔ _
      refine exists_congr fun u => ?_
      rw [hworkers]
      by_cases hu : u = w
      · rw [hu, Function.update_self]
        exact hw number query
      · rw [Function.update_of_ne hu]

/-- **What a step has to do with the resolver is all that changes about who waits.** -/
theorem contacts_step (honce : s.Once) (hs : s.Step a s') : Contacts s s' (s.contact a) := by
  cases hs with
  | @spawned w peer bytes permits _ _ =>
      refine contacts_none (w := w) rfl (fun number query => ?_) rfl
      constructor
      · rintro ⟨t, ht, hnumber, hq⟩
        rcases List.mem_append.mp ht with ht | ht
        · exact ⟨t, ht, hnumber, hq⟩
        · rw [List.mem_singleton.mp ht] at hq
          cases hq
      · rintro ⟨t, ht, hparts⟩
        exact ⟨t, List.mem_append_left _ ht, hparts⟩
  | @query w i act t t' cache ht hstep =>
      obtain ⟨hsame, hlive⟩ := (QueryTask.moves_of_step hstep).same
      have hcontact : s.contact (.query w i act) =
          (t.contact s.cache act).map (Waiter.query t.number, ·) := by
        simp [contact, ht]
      rw [hcontact]
      refine Changes.contacts ?_ (QueryTask.contact_of_step hstep)
      exact changes_query honce ht hlive hsame.number rfl rfl
  | @joinNext w i t ht hended =>
      refine contacts_none (w := w) rfl (fun number query => ?_) rfl
      constructor
      · rintro ⟨t₂, ht₂, hparts⟩
        exact ⟨t₂, List.mem_of_mem_eraseIdx ht₂, hparts⟩
      · rintro ⟨t₂, ht₂, hnumber, hq⟩
        obtain ⟨j, hj⟩ := List.mem_iff_getElem?.mp ht₂
        refine ⟨t₂, List.mem_eraseIdx_iff_getElem?.mpr ⟨j, ?_, hj⟩, hnumber, hq⟩
        rintro rfl
        rw [ht] at hj
        cases hj
        rw [isEnded_of_awaited hq] at hended
        cases hended
  | @changed w _ _ => exact contacts_none (w := w) rfl (fun _ _ => Iff.rfl) rfl
  | @drained w _ _ => exact contacts_none (w := w) rfl (fun _ _ => Iff.rfl) rfl
  | @drainTimeout w _ _ =>
      refine contacts_none (w := w) rfl (fun number query => ?_) rfl
      constructor
      · rintro ⟨t, ht, hparts⟩
        obtain ⟨t₀, ht₀, rfl⟩ := List.mem_map.mp ht
        exact ⟨t₀, ht₀, hparts⟩
      · rintro ⟨t, ht, hparts⟩
        exact ⟨_, List.mem_map_of_mem ht, hparts⟩
  | @accepted stream permits _ _ =>
      refine .none fun waiter query => ?_
      cases waiter with
      | query number => exact Iff.rfl
      | conn k =>
          constructor
          · rintro ⟨t, ht, hq⟩
            rcases Nat.lt_or_ge k s.conns.length with hlt | hge
            · exact ⟨t, by rwa [List.getElem?_append_left hlt] at ht, hq⟩
            · rw [List.getElem?_append_right hge] at ht
              rw [List.mem_singleton.mp (List.mem_of_getElem? ht)] at hq
              cases hq
          · rintro ⟨t, ht, hq⟩
            exact ⟨t, getElem?_append_some ht _, hq⟩
  | @conn k act t t' cache ht hstep =>
      have hcontact : s.contact (.conn k act) = (t.contact s.cache act).map (Waiter.conn k, ·) := by
        simp [contact, ht]
      rw [hcontact]
      refine Changes.contacts ?_ (ConnTask.contact_of_step hstep)
      exact changes_conn ht rfl rfl
  | _ => exact .none fun _ _ => Iff.rfl

/-- A task that gets an outcome has waited for it. -/
theorem contact_resolved {w : Fin n} {i : Nat} {t : QueryTask Addr} {query : Message}
    (ht : (s.workers w).queries[i]? = some t) (hphase : t.phase = .resolving query)
    (outcome : Race.Outcome) (order : Fin numShards → ShardOrder) (now : Nat) :
    s.contact (.query w i (.resolved outcome order now)) =
        some (.query t.number, .returns (some outcome)) ∧ s.Awaits (.query t.number) query := by
  refine ⟨?_, w, t, List.mem_of_getElem? ht, rfl, ?_⟩
  · simp [contact, ht, QueryTask.contact, QueryPhase.awaited, hphase]
  · simp [QueryPhase.awaited, hphase]

theorem contact_conn_resolved {k : Nat} {t : ConnTask} {query : Message} (ht : s.conns[k]? = some t)
    (hphase : t.phase = .resolving query) (outcome : Race.Outcome)
    (order : Fin numShards → ShardOrder) (now : Nat) :
    s.contact (.conn k (.resolved outcome order now)) = some (.conn k, .returns (some outcome)) ∧
      s.Awaits (.conn k) query := by
  refine ⟨?_, t, ht, ?_⟩
  · simp [contact, ht, ConnTask.contact, ConnPhase.awaited, hphase]
  · simp [ConnPhase.awaited, hphase]

/-- A resolver is honest that returns to a task what was accepted for the query it waits with. -/
theorem honest_of_contact (h : ∀ waiter msg query,
    s.contact a = some (waiter, .returns (some (.ok msg))) → s.Awaits waiter query →
      Validated query msg) : s.Honest a := by
  cases a with
  | query w i act =>
      cases act with
      | resolved outcome order now =>
          intro t query msg ht hphase hmsg
          subst hmsg
          obtain ⟨hcontact, hawaits⟩ := contact_resolved ht hphase (.ok msg) order now
          exact h _ msg query hcontact hawaits
      | start _ | send | sendFails | cancelled => trivial
  | conn k act =>
      cases act with
      | resolved outcome order now =>
          intro t query msg ht hphase hmsg
          subst hmsg
          obtain ⟨hcontact, hawaits⟩ := contact_conn_resolved ht hphase (.ok msg) order now
          exact h _ msg query hcontact hawaits
      | frame _ | written | close => trivial
  | _ => trivial

end Service

/-! ## Calls and what they are for -/

namespace Race

variable {m : Nat} {s s' : State m} {a : Act m}

/-- The query of a call that has not come to its end. -/
def State.asked (s : State m) (q : Nat) : Option Message := (s.calls q).map Call.query

theorem asked_setCall (s : State m) (q : Nat) (c : Option (Call m)) :
    (s.setCall q c).asked = Function.update s.asked q (c.map Call.query) := by
  funext q'
  by_cases hqq : q' = q
  · rw [hqq, Function.update_self, State.asked, calls_setCall_self]
  · rw [Function.update_of_ne hqq, State.asked, calls_setCall_of_ne s hqq]
    rfl

/-- A call goes on about the same query. -/
theorem asked_setCall_some {q : Nat} {c c' : Call m} (hq : s.calls q = some c)
    (hquery : c'.query = c.query) : (s.setCall q (some c')).asked = s.asked := by
  rw [asked_setCall]
  refine Function.update_eq_self_iff.mpr ?_
  simp [State.asked, hq, hquery]

theorem asked_call {query : Message} (hs : Step s (.call query) s') :
    s'.asked = Function.update s.asked s.made (some query) := by
  cases hs with
  | call =>
      have hasked := asked_setCall s s.made (some (Call.begin query))
      have hquery : (Call.begin query : Call m).query = query := by
        unfold Call.begin
        split <;> rfl
      rw [Option.map_some, hquery] at hasked
      exact hasked

theorem asked_ends {q : Nat} {result : Option Outcome} (hs : Step s (.ends q result) s') :
    s'.asked = Function.update s.asked q none := by
  cases hs with
  | ends _ _ _ => exact asked_setCall s q none

/-- What happens between the upstreams and the calls makes and ends none. -/
theorem asked_step (hs : Step s a s') (hcall : ∀ query, a ≠ .call query)
    (hends : ∀ q result, a ≠ .ends q result) : s'.asked = s.asked := by
  cases hs with
  | call => exact absurd rfl (hcall _)
  | ends _ _ _ => exact absurd rfl (hends _ _)
  | unwritable hq _ _ _ | exhausted hq _ _ _ _ | asks hq _ _ _ _ | returns hq _ _ _ _ _
  | abandoned hq _ _ _ | dropGuard hq _ _ | discard hq _ _ | cancel hq _ =>
      exact asked_setCall_some hq rfl
  | @next q u c r hq _ _ =>
      refine asked_setCall_some hq ?_
      unfold Call.next
      cases r with
      | ok msg => rfl
      | error e =>
          dsimp only
          split <;> rfl
  | receive _ | send _ | wake _ _ _ _ => rfl

theorem Inv.asked_made (h : Inv s) : s.asked s.made = none := by
  rw [State.asked, (h.fresh s.made (Nat.le_refl _)).1]
  rfl

/-- What a call ends with was accepted for its query. -/
theorem Inv.validated_of_ends (h : Inv s) {q : Nat} {msg query : Message}
    (hs : Step s (.ends q (some (.ok msg))) s') (hasked : s.asked q = some query) :
    Validated query msg := by
  cases hs with
  | ends hq hphase _ =>
      rw [State.asked, hq] at hasked
      cases hasked
      exact h.validated hq hphase

end Race

/-! ## Tasks and their calls -/

namespace Program

variable {Addr : Type} {n m : Nat} {p p' : Program Addr n m} {a : ProgramAct Addr n m}

/-- **Tasks that wait and calls that have not come to their end belong together.** -/
structure Linked (p : Program Addr n m) : Prop where
  once : p.service.Once
  resolver : Race.Inv p.resolver
  /-- Who waits has a call for its own query. -/
  awaits : ∀ waiter query, p.service.Awaits waiter query →
    ∃ q, p.calls waiter = some q ∧ p.resolver.asked q = some query
  /-- Who has a call waits. -/
  waits : ∀ waiter q, p.calls waiter = some q → ∃ query, p.service.Awaits waiter query
  /-- A call is someone's. -/
  waiter : ∀ q, p.resolver.asked q ≠ none → ∃ waiter, p.calls waiter = some q
  /-- And no one else's. -/
  unique : ∀ waiter waiter' q, p.calls waiter = some q → p.calls waiter' = some q → waiter = waiter'

theorem linked_start (cache : Cache) (udpMaxInflight tcpMaxConnections : Nat) :
    (start cache n m udpMaxInflight tcpMaxConnections : Program Addr n m).Linked := by
  refine ⟨fun number => ?_, Race.inv_init, fun waiter query hawaits => ?_, fun _ _ hcall => ?_,
    fun _ hasked => absurd rfl hasked, fun _ _ _ hcall => ?_⟩
  · show (Service.start cache n udpMaxInflight tcpMaxConnections : Service Addr n).copies number ≤ _
    rw [Service.copies_start]
    exact Nat.zero_le _
  · cases waiter with
    | query number =>
        obtain ⟨w, t, ht, -⟩ := hawaits
        cases ht
    | conn k =>
        obtain ⟨t, ht, -⟩ := hawaits
        cases ht
  · cases hcall
  · cases hcall

/-- Whoever has a call has it for what it waits with. -/
theorem Linked.asked (h : p.Linked) {waiter : Waiter} {q : Nat} {query : Message}
    (hcall : p.calls waiter = some q) (hawaits : p.service.Awaits waiter query) :
    p.resolver.asked q = some query := by
  obtain ⟨q', hcall', hasked⟩ := h.awaits waiter query hawaits
  rw [hcall] at hcall'
  cases hcall'
  exact hasked

/-- A task calls the resolver. -/
theorem Linked.calls (h : p.Linked) {waiter : Waiter} {query : Message} {service : Service Addr n}
    {resolver : Race.State m} (honce : service.Once)
    (hchanges : p.service.Changes service waiter none (some query))
    (hcall : Race.Step p.resolver (.call query) resolver) :
    Linked { service, resolver, calls := Function.update p.calls waiter (some p.resolver.made) } := by
  -- it has not waited before, and the call is a new one
  have hnone : p.calls waiter = none := by
    by_contra hne
    obtain ⟨q, hq⟩ := Option.ne_none_iff_exists'.mp hne
    obtain ⟨query', hawaits⟩ := h.waits waiter q hq
    cases (hchanges.before query').mp hawaits
  have hnew : ∀ waiter', p.calls waiter' ≠ some p.resolver.made := by
    intro waiter' hq
    obtain ⟨query', hawaits⟩ := h.waits waiter' _ hq
    have hasked := h.asked hq hawaits
    rw [h.resolver.asked_made] at hasked
    cases hasked
  have hasked := Race.asked_call hcall
  refine ⟨honce, h.resolver.step hcall, fun waiter' query' hawaits => ?_, fun waiter' q hq => ?_,
    fun q hq => ?_, fun waiter₁ waiter₂ q hq₁ hq₂ => ?_⟩
  · dsimp only at hawaits ⊢
    rw [hasked]
    by_cases hw : waiter' = waiter
    · rw [hw, hchanges.after] at hawaits
      cases hawaits
      exact ⟨p.resolver.made, by rw [hw, Function.update_self], by rw [Function.update_self]⟩
    · rw [hchanges.others waiter' query' hw] at hawaits
      obtain ⟨q, hq, hquery⟩ := h.awaits waiter' query' hawaits
      refine ⟨q, by rw [Function.update_of_ne hw, hq], ?_⟩
      have hqq : q ≠ p.resolver.made := by
        rintro rfl
        exact hnew waiter' hq
      rw [Function.update_of_ne hqq, hquery]
  · dsimp only at hq ⊢
    by_cases hw : waiter' = waiter
    · exact ⟨query, by rw [hw, hchanges.after]⟩
    · rw [Function.update_of_ne hw] at hq
      obtain ⟨query', hawaits⟩ := h.waits waiter' q hq
      exact ⟨query', (hchanges.others waiter' query' hw).mpr hawaits⟩
  · dsimp only at hq ⊢
    rw [hasked] at hq
    by_cases hqq : q = p.resolver.made
    · exact ⟨waiter, by rw [Function.update_self, hqq]⟩
    · rw [Function.update_of_ne hqq] at hq
      obtain ⟨waiter', hw⟩ := h.waiter q hq
      have hne : waiter' ≠ waiter := by
        rintro rfl
        rw [hnone] at hw
        cases hw
      exact ⟨waiter', by rw [Function.update_of_ne hne, hw]⟩
  · dsimp only at hq₁ hq₂
    by_cases h₁ : waiter₁ = waiter
    · by_cases h₂ : waiter₂ = waiter
      · rw [h₁, h₂]
      · rw [h₁, Function.update_self] at hq₁
        rw [Function.update_of_ne h₂] at hq₂
        exact absurd (hq₂.trans hq₁.symm) (hnew waiter₂)
    · rw [Function.update_of_ne h₁] at hq₁
      by_cases h₂ : waiter₂ = waiter
      · rw [h₂, Function.update_self] at hq₂
        exact absurd (hq₁.trans hq₂.symm) (hnew waiter₁)
      · rw [Function.update_of_ne h₂] at hq₂
        exact h.unique waiter₁ waiter₂ q hq₁ hq₂

/-- A call comes to its end, and its task goes on. -/
theorem Linked.returns (h : p.Linked) {waiter : Waiter} {query : Message} {q : Nat}
    {result : Option Race.Outcome} {service : Service Addr n} {resolver : Race.State m}
    (honce : service.Once) (hchanges : p.service.Changes service waiter (some query) none)
    (hq : p.calls waiter = some q) (hends : Race.Step p.resolver (.ends q result) resolver) :
    Linked { service, resolver, calls := Function.update p.calls waiter none } := by
  have hasked := Race.asked_ends hends
  refine ⟨honce, h.resolver.step hends, fun waiter' query' hawaits => ?_, fun waiter' q' hq' => ?_,
    fun q' hq' => ?_, fun waiter₁ waiter₂ q' hq₁ hq₂ => ?_⟩
  · dsimp only at hawaits ⊢
    have hw : waiter' ≠ waiter := by
      rintro rfl
      cases (hchanges.after query').mp hawaits
    rw [hchanges.others waiter' query' hw] at hawaits
    obtain ⟨q', hq', hquery⟩ := h.awaits waiter' query' hawaits
    refine ⟨q', by rw [Function.update_of_ne hw, hq'], ?_⟩
    have hqq : q' ≠ q := by
      rintro rfl
      exact hw (h.unique waiter' waiter q' hq' hq)
    rw [hasked, Function.update_of_ne hqq, hquery]
  · dsimp only at hq' ⊢
    have hw : waiter' ≠ waiter := by
      rintro rfl
      rw [Function.update_self] at hq'
      cases hq'
    rw [Function.update_of_ne hw] at hq'
    obtain ⟨query', hawaits⟩ := h.waits waiter' q' hq'
    exact ⟨query', (hchanges.others waiter' query' hw).mpr hawaits⟩
  · dsimp only at hq' ⊢
    rw [hasked] at hq'
    have hqq : q' ≠ q := by
      rintro rfl
      rw [Function.update_self] at hq'
      exact hq' rfl
    rw [Function.update_of_ne hqq] at hq'
    obtain ⟨waiter', hw⟩ := h.waiter q' hq'
    have hne : waiter' ≠ waiter := by
      rintro rfl
      rw [hq] at hw
      cases hw
      exact hqq rfl
    exact ⟨waiter', by rw [Function.update_of_ne hne, hw]⟩
  · dsimp only at hq₁ hq₂
    have hold : ∀ {waiter' : Waiter}, Function.update p.calls waiter none waiter' = some q' →
        p.calls waiter' = some q' := by
      intro waiter' hw
      by_cases hsame : waiter' = waiter
      · rw [hsame, Function.update_self] at hw
        cases hw
      · rwa [Function.update_of_ne hsame] at hw
    exact h.unique waiter₁ waiter₂ q' (hold hq₁) (hold hq₂)

/-- **Every step keeps tasks and calls together.** -/
theorem Linked.step (h : p.Linked) (hs : p.Step a p') : p'.Linked := by
  cases hs with
  | serves hs hnone =>
      have hcontacts := Service.contacts_step h.once hs
      rw [hnone] at hcontacts
      cases hcontacts with
      | none hsame =>
          exact ⟨h.once.step hs, h.resolver, fun waiter query hawaits =>
            h.awaits waiter query ((hsame waiter query).mp hawaits), fun waiter q hq =>
            (h.waits waiter q hq).imp fun query => (hsame waiter query).mpr, h.waiter, h.unique⟩
  | calls hs hcontact hcall =>
      have hcontacts := Service.contacts_step h.once hs
      rw [hcontact] at hcontacts
      cases hcontacts with
      | calls hchanges => exact h.calls (h.once.step hs) hchanges hcall
  | returns hs hcontact hq hends =>
      have hcontacts := Service.contacts_step h.once hs
      rw [hcontact] at hcontacts
      cases hcontacts with
      | returns hchanges => exact h.returns (h.once.step hs) hchanges hq hends
  | @resolves act resolver hs hinternal =>
      have hasked : resolver.asked = p.resolver.asked := by
        refine Race.asked_step hs ?_ ?_
        · rintro query rfl
          exact hinternal
        · rintro q result rfl
          exact hinternal
      refine ⟨h.once, h.resolver.step hs, fun waiter query hawaits => ?_, h.waits, fun q hq => ?_, h.unique⟩
      · rw [hasked]
        exact h.awaits waiter query hawaits
      · rw [hasked] at hq
        exact h.waiter q hq

/-- **The server makes no step that an honest resolver would not allow.** -/
theorem service_step (h : p.Linked) (hs : p.Step a p') :
    p'.service = p.service ∨ ∃ b, p.service.Honest b ∧ p.service.Step b p'.service := by
  cases hs with
  | @serves act service hs hnone =>
      refine .inr ⟨act, Service.honest_of_contact fun waiter msg query hcontact => ?_, hs⟩
      rw [hnone] at hcontact
      cases hcontact
  | @calls act service waiter query resolver hs hcalls _ =>
      refine .inr ⟨act, Service.honest_of_contact fun waiter msg query hcontact => ?_, hs⟩
      rw [hcalls] at hcontact
      cases hcontact
  | @returns act service waiter result q resolver hs hreturns hq hends =>
      refine .inr ⟨act, Service.honest_of_contact fun waiter' msg query hcontact hawaits => ?_, hs⟩
      rw [hreturns] at hcontact
      cases hcontact
      exact h.resolver.validated_of_ends hends (h.asked hq hawaits)
  | resolves _ _ => exact .inl rfl

theorem resolver_step (hs : p.Step a p') :
    p'.resolver = p.resolver ∨ ∃ b, Race.Step p.resolver b p'.resolver := by
  cases hs with
  | serves _ _ => exact .inl rfl
  | calls _ _ hcall => exact .inr ⟨_, hcall⟩
  | returns _ _ _ hends => exact .inr ⟨_, hends⟩
  | resolves hs _ => exact .inr ⟨_, hs⟩

section Runs

variable {cache : Cache} {udpMaxInflight tcpMaxConnections : Nat}

theorem linked_of_reachable
    (h : Reachable (start cache n m udpMaxInflight tcpMaxConnections) Step (fun _ _ => True) p) :
    p.Linked :=
  h.invariant (linked_start cache udpMaxInflight tcpMaxConnections) fun _ _ _ hI hs => hI.step hs

theorem reachable_service
    (h : Reachable (start cache n m udpMaxInflight tcpMaxConnections) Step (fun _ _ => True) p) :
    Reachable (Service.start cache n udpMaxInflight tcpMaxConnections) Service.Step Service.Honest
      p.service :=
  h.simulate_of_ok service (linked_start cache udpMaxInflight tcpMaxConnections)
    (fun _ _ _ hI hs => hI.step hs) fun _ _ _ hI hs => service_step hI hs

end Runs

/--
**The program refines its parts.** Whatever clients and upstreams send, and in whatever order things
happen: the server is in a state that it can reach with an honest resolver, and the resolver in one
that it can reach by itself. And a task that waits has a call for its own query, which is no other
task's, and every call has a task that waits for it.
-/
theorem program_refines (cache : Cache) (n m udpMaxInflight tcpMaxConnections : Nat)
    (p : Program Addr n m)
    (h : Reachable (start cache n m udpMaxInflight tcpMaxConnections) Step (fun _ _ => True) p) :
    Reachable (Service.start cache n udpMaxInflight tcpMaxConnections) Service.Step Service.Honest
        p.service ∧
      Race.Reachable p.resolver ∧
      (∀ waiter query, p.service.Awaits waiter query ↔
        ∃ q c, p.calls waiter = some q ∧ p.resolver.calls q = some c ∧ c.query = query) ∧
      ∀ q, p.resolver.calls q ≠ none → ∃! waiter, p.calls waiter = some q := by
  have hlinked := linked_of_reachable h
  refine ⟨reachable_service h, ?_, fun waiter query => ⟨fun hawaits => ?_, ?_⟩, fun q hq => ?_⟩
  · exact h.simulate (I := fun _ => True) resolver trivial (fun _ _ _ _ _ => trivial)
      fun _ _ _ _ hs => resolver_step hs
  · obtain ⟨q, hq, hasked⟩ := hlinked.awaits waiter query hawaits
    obtain ⟨c, hc, hquery⟩ := Option.map_eq_some_iff.mp hasked
    exact ⟨q, c, hq, hc, hquery⟩
  · rintro ⟨q, c, hq, hc, rfl⟩
    obtain ⟨query, hawaits⟩ := hlinked.waits waiter q hq
    have hasked := hlinked.asked hq hawaits
    rw [Race.State.asked, hc] at hasked
    cases hasked
    exact hawaits
  · obtain ⟨waiter, hw⟩ := hlinked.waiter q (by simpa [Race.State.asked] using hq)
    exact ⟨waiter, hw, fun waiter' hw' => hlinked.unique waiter' waiter q hw' hw⟩

theorem udpDatagram_bareAnswer :
    udpDatagram (queryFor Str.empty) (flaggedQuery Header.QR) = .ok (bareAnswer 7) := by
  decide +kernel

/-- The query for the root, when the answer is there. -/
theorem step_answered (cache : Cache) :
    ({ number := 0, peer := 4, data := rootQuery, phase := .resolving (queryFor Str.empty) } :
      QueryTask Nat).step cache (.resolved (.ok (flaggedQuery Header.QR)) (fun _ => .asStored) 0) =
    some ({ number := 0, peer := 4, data := rootQuery, phase := .sending (bareAnswer 7) },
      cache.insert (fun _ => .asStored) (flaggedQuery Header.QR) 0) := by
  have hopt : (queryFor Str.empty).opt.isSome = false := rfl
  simp [QueryTask.step, resolvedReply, QueryTask.respond, udpDatagram_bareAnswer, hopt]

/-- A query that is answered with what the upstream says. -/
theorem exists_relayed : ∃ p : Program Nat 1 1,
    Reachable (start (Cache.new Cache.plainHashing 10 300) 1 1 1000 1000) Step (fun _ _ => True) p ∧
      p.service.sent = [(0, 4, bareAnswer 7)] := by
  have hinit : Reachable (start (Cache.new Cache.plainHashing 10 300) 1 1 1000 1000 : Program Nat 1 1)
    Step (fun _ _ => True) _ := .init
  have hspawned := hinit.step (a := ProgramAct.service (.datagram 0 4 rootQuery)) trivial
    (.serves (.spawned rfl rfl) rfl)
  have hcalled := hspawned.step (a := ProgramAct.service (.query 0 0 (.start 0))) trivial
    (.calls (.query rfl rfl) rfl (.call : Race.Step _ (.call (queryFor Str.empty)) _))
  have halloc : (InFlight.allocateAndInsert InFlight.init.map 0 fun _ => 7).1 = .ok 7 := rfl
  have hasked := hcalled.step (a := ProgramAct.resolver (.start 0 0)) trivial
    (.resolves (.asks rfl rfl rfl rfl halloc) trivial)
  have hreceived := hasked.step (a := ProgramAct.resolver (.receive 0 (bareAnswer 7))) trivial
    (.resolves (.receive (.receive (by decide) rfl)) trivial)
  have hsent := hreceived.step (a := ProgramAct.resolver (.send 0)) trivial
    (.resolves (.send (.send rfl)) trivial)
  have hwoken := hsent.step (a := ProgramAct.resolver (.wake 0 0)) trivial
    (.resolves (.wake rfl rfl rfl (.wake rfl rfl (by decide))) trivial)
  have hrun : UpstreamSocket.query { cutPeer with udp := fun _ => some (.datagram (bareAnswer 7)) }
      (some 7) (queryFor Str.empty) = .ok (flaggedQuery Header.QR) := by
    decide +kernel
  have hreturns : Race.Returns (queryFor Str.empty)
      { id := 7, guard := none, chan := .sent (bareAnswer 7), phase := .finishing }
      (.ok (flaggedQuery Header.QR)) :=
    ⟨_, some (.datagram (bareAnswer 7)), ⟨rfl, rfl⟩, fun _ => rfl, hrun⟩
  have hreturned := hwoken.step (a := ProgramAct.resolver (.leave 0 0)) trivial
    (.resolves (.returns rfl rfl rfl rfl hreturns (.leave rfl (by decide))) trivial)
  have hready := hreturned.step (a := ProgramAct.resolver (.dropGuard 0 0)) trivial
    (.resolves (.dropGuard rfl rfl (.dropGuard rfl rfl)) trivial)
  have hwon := hready.step (a := ProgramAct.resolver (.next 0 0)) trivial
    (.resolves (.next rfl rfl rfl) trivial)
  have hresolved := hwon.step
    (a := ProgramAct.service
      (.query 0 0 (.resolved (.ok (flaggedQuery Header.QR)) (fun _ => .asStored) 0))) trivial
    (.returns (.query rfl (step_answered _)) rfl rfl (.ends rfl rfl (by decide)))
  have hdone := hresolved.step (a := ProgramAct.service (.query 0 0 .send)) trivial
    (.serves (.query rfl rfl) rfl)
  exact ⟨_, hdone, rfl⟩

theorem relayed_refines : ∃ p : Program Nat 1 1, p.service.sent = [(0, 4, bareAnswer 7)] ∧
    Reachable (Service.start (Cache.new Cache.plainHashing 10 300) 1 1000 1000) Service.Step
      Service.Honest p.service ∧ Race.Reachable p.resolver := by
  obtain ⟨p, hp, hsent⟩ := exists_relayed
  obtain ⟨hservice, hresolver, -⟩ := program_refines _ 1 1 1000 1000 p hp
  exact ⟨p, hsent, hservice, hresolver⟩

/-! ## How many calls there are -/

/-- The calls of a worker's tasks. -/
def workerCalls (p : Program Addr n m) (w : Fin n) : List Nat :=
  (p.service.workers w).queries.filterMap fun t =>
    if t.isEnded then none else p.calls (.query t.number)

/-- The calls of connections. -/
def connCalls (p : Program Addr n m) : List Nat :=
  p.service.conns.zipIdx.filterMap fun x => if x.1.isClosed then none else p.calls (.conn x.2)

theorem Linked.live_subset (h : p.Linked) :
    p.resolver.live ⊆
      (Finset.univ.biUnion fun w => (p.workerCalls w).toFinset) ∪ p.connCalls.toFinset := by
  intro q hq
  obtain ⟨waiter, hw⟩ := h.waiter q (by
    have hsome := (Finset.mem_filter.mp hq).2
    simpa [Race.State.asked, Option.isSome_iff_ne_none] using hsome)
  obtain ⟨query, hawaits⟩ := h.waits waiter q hw
  cases waiter with
  | query number =>
      obtain ⟨w, t, ht, rfl, hphase⟩ := hawaits
      refine Finset.mem_union_left _ (Finset.mem_biUnion.mpr ⟨w, Finset.mem_univ w, ?_⟩)
      refine List.mem_toFinset.mpr (List.mem_filterMap.mpr ⟨t, ht, ?_⟩)
      rw [Service.isEnded_of_awaited hphase]
      exact hw
  | conn k =>
      obtain ⟨t, ht, hphase⟩ := hawaits
      refine Finset.mem_union_right _ (List.mem_toFinset.mpr (List.mem_filterMap.mpr ⟨(t, k), ?_, ?_⟩))
      · exact List.mk_mem_zipIdx_iff_getElem?.mpr ht
      · have hopen : t.isClosed = false := by
          rw [ConnTask.isClosed, ConnPhase.eq_of_awaited hphase]
        dsimp only
        rw [hopen]
        exact hw

/-- A worker has no more calls than permits. -/
theorem length_workerCalls_le (hempty : p.service.Emptied) (w : Fin n) :
    (p.workerCalls w).length ≤ (p.service.workers w).worker.permits := by
  have hqueries : (p.service.workers w).worker.queries =
      (p.service.workers w).queries.map QueryTask.task := by
    by_cases hstage : (p.service.workers w).stage = .done
    · rw [hempty w hstage, ServiceWorker.worker_eq_done_iff.mpr hstage]
      rfl
    · exact ServiceWorker.queries_worker hstage
  have hweigh : (p.service.workers w).worker.permits =
      Family.weigh (fun t => t.task.permit) (p.service.workers w).queries := by
    rw [Worker.permits, hqueries, Family.weigh, Family.weigh, List.map_map]
    rfl
  rw [hweigh]
  refine Family.length_filterMap_le_weigh (fun t ht => ?_) _
  split at ht
  · exact absurd rfl ht
  · rename_i hended
    have htask : t.task ≠ .finished := fun hfin => hended (QueryTask.task_eq_finished_iff.mp hfin)
    cases hk : t.task with
    | finished => exact absurd hk htask
    | running | aborted => exact Nat.one_pos

/-- And connections have no more than theirs. -/
theorem length_connCalls_le (p : Program Addr n m) :
    p.connCalls.length ≤ Family.weigh Conn.permit p.service.server.conns := by
  have hweigh : Family.weigh Conn.permit p.service.server.conns =
      Family.weigh (fun x : ConnTask × Nat => x.1.conn.permit) p.service.conns.zipIdx := by
    have hfst := List.zipIdx_map_fst 0 p.service.conns
    rw [Service.server, Family.weigh, Family.weigh, List.map_map]
    conv_lhs => rw [← hfst, List.map_map]
    rfl
  rw [hweigh]
  refine Family.length_filterMap_le_weigh (fun x hx => ?_) _
  split at hx
  · exact absurd rfl hx
  · rename_i hclosed
    have hconn : x.1.conn ≠ .closed := fun hc => hclosed (ConnTask.conn_eq_closed_iff.mp hc)
    cases hk : x.1.conn with
    | closed => exact absurd hk hconn
    | reading | answering => exact Nat.one_pos

/-- **Every call has a permit of its own.** -/
theorem card_live_le {cache : Cache} {udpMaxInflight tcpMaxConnections : Nat}
    (h : Reachable (start cache n m udpMaxInflight tcpMaxConnections) Step (fun _ _ => True) p) :
    p.resolver.live.card + p.service.udpInflight + p.service.tcpConnections ≤
      udpMaxInflight + tcpMaxConnections := by
  have hlinked := linked_of_reachable h
  have hservice := reachable_service h
  have hempty := Service.emptied_of_reachable hservice
  have hconserved : p.service.server.Conserved udpMaxInflight tcpMaxConnections :=
    (Service.reachable_server hservice).invariant
      (Server.conserved_start udpMaxInflight tcpMaxConnections) fun _ _ _ h hs => h.step hs
  have hudp : p.service.udpInflight + Family.tally Worker.permits p.service.server.workers =
      udpMaxInflight := hconserved.udp
  have htcp : p.service.tcpConnections + Family.weigh Conn.permit p.service.server.conns =
      tcpMaxConnections := hconserved.tcp
  have hworkers : (Finset.univ.biUnion fun w => (p.workerCalls w).toFinset).card ≤
      Family.tally Worker.permits p.service.server.workers := by
    calc (Finset.univ.biUnion fun w => (p.workerCalls w).toFinset).card
        ≤ ∑ w, (p.workerCalls w).toFinset.card := Finset.card_biUnion_le
      _ ≤ ∑ w, (p.service.workers w).worker.permits := by
        refine Finset.sum_le_sum fun w _ => ?_
        exact Nat.le_trans (List.toFinset_card_le _) (length_workerCalls_le hempty w)
      _ = Family.tally Worker.permits p.service.server.workers := rfl
  have hconns : p.connCalls.toFinset.card ≤ Family.weigh Conn.permit p.service.server.conns :=
    Nat.le_trans (List.toFinset_card_le _) p.length_connCalls_le
  have hlive := Nat.le_trans (Finset.card_le_card hlinked.live_subset) (Finset.card_union_le _ _)
  omega

/--
**The server never runs out of ids.** In every run, the calls that have not come to their end and the
permits that are left are no more than there are permits. So if there are no more permits than ids, as
with the default configuration, `allocate_and_insert` finds an id for every call that asks an upstream.
-/
theorem ids_never_exhausted (cache : Cache) (n m udpMaxInflight tcpMaxConnections : Nat)
    (p : Program Addr n m)
    (h : Reachable (start cache n m udpMaxInflight tcpMaxConnections) Step (fun _ _ => True) p) :
    p.resolver.live.card + p.service.udpInflight + p.service.tcpConnections ≤
        udpMaxInflight + tcpMaxConnections ∧
      (udpMaxInflight + tcpMaxConnections ≤ 65536 → ∀ q c u rng, p.resolver.calls q = some c →
        c.futs u = .idle → ∃ id, (p.resolver.upstreams u).map id = none ∧
          InFlight.allocateAndInsert (p.resolver.upstreams u).map q rng =
            (.ok id, Function.update (p.resolver.upstreams u).map id (some q))) := by
  have hcard := card_live_le h
  refine ⟨hcard, fun hfew q c u rng hq hidle => ?_⟩
  exact (linked_of_reachable h).resolver.exists_id (by omega) hq hidle rng

/-- A datagram that has to wait for an upstream. -/
theorem exists_waiting : ∃ p : Program Nat 1 1,
    Reachable (start (Cache.new Cache.plainHashing 10 300) 1 1 1000 1000) Step (fun _ _ => True) p ∧
      p.resolver.live.card = 1 ∧ ∃ c, p.resolver.calls 0 = some c ∧ c.futs 0 = .idle := by
  have hinit : Reachable (start (Cache.new Cache.plainHashing 10 300) 1 1 1000 1000 : Program Nat 1 1)
    Step (fun _ _ => True) _ := .init
  have hspawned := hinit.step (a := ProgramAct.service (.datagram 0 4 rootQuery)) trivial
    (.serves (.spawned rfl rfl) rfl)
  have hcalled := hspawned.step (a := ProgramAct.service (.query 0 0 (.start 0))) trivial
    (.calls (.query rfl rfl) rfl (.call : Race.Step _ (.call (queryFor Str.empty)) _))
  exact ⟨_, hcalled, rfl, _, rfl, rfl⟩

theorem waiting_ids : ∃ p : Program Nat 1 1, p.resolver.live.card = 1 ∧
    p.service.udpInflight + p.service.tcpConnections ≤ 1999 ∧
    ∀ rng, ∃ id, (InFlight.allocateAndInsert (p.resolver.upstreams 0).map 0 rng).1 = .ok id := by
  obtain ⟨p, hp, hlive, c, hq, hidle⟩ := exists_waiting
  obtain ⟨hcard, hids⟩ := ids_never_exhausted _ 1 1 1000 1000 p hp
  refine ⟨p, hlive, by omega, fun rng => ?_⟩
  obtain ⟨id, -, halloc⟩ := hids (by decide) 0 c 0 rng hq hidle
  exact ⟨id, by rw [halloc]⟩

/--
**What is left with the upstreams after `shutdown`.** When it has returned, an upstream only knows
about queries of connections that are still waiting for it, in its map and otherwise: everything that
was asked for a datagram is gone, whether it was answered or dropped.
-/
theorem upstreams_after_shutdown (cache : Cache) (n m udpMaxInflight tcpMaxConnections : Nat)
    (p : Program Addr n m)
    (h : Reachable (start cache n m udpMaxInflight tcpMaxConnections) Step (fun _ _ => True) p)
    (hret : p.service.shutdown = .returned) (u : Fin m) (q : Nat)
    (hq : (p.resolver.upstreams u).queries q ≠ none ∨ ∃ id, (p.resolver.upstreams u).map id = some q) :
    ∃ k conn query, p.calls (.conn k) = some q ∧ p.service.conns[k]? = some conn ∧
      conn.phase = .resolving query := by
  have hlinked := linked_of_reachable h
  have hservice := reachable_service h
  obtain ⟨hdone, -⟩ := Service.done_of_returned (Service.reachable_server hservice) hret
  have hempty := Service.emptied_of_reachable hservice
  -- an entry has a query, and a query has a call
  have hknown : (p.resolver.upstreams u).queries q ≠ none := by
    rcases hq with hq | ⟨id, hid⟩
    · exact hq
    · obtain ⟨qu, hqu, -⟩ := (hlinked.resolver.upstreams u).owner id q hid
      simp [hqu]
  obtain ⟨c, hc, -⟩ := hlinked.resolver.live u q hknown
  obtain ⟨waiter, hw⟩ := hlinked.waiter q (by simp [Race.State.asked, hc])
  obtain ⟨query, hawaits⟩ := hlinked.waits waiter q hw
  cases waiter with
  | query number =>
      obtain ⟨w, t, ht, -⟩ := hawaits
      rw [hempty w (hdone w)] at ht
      cases ht
  | conn k =>
      obtain ⟨conn, hconn, hphase⟩ := hawaits
      exact ⟨k, conn, query, hw, hconn, ConnPhase.eq_of_awaited hphase⟩

/-- A connection that still waits when `shutdown` has returned. -/
theorem exists_left : ∃ p : Program Nat 1 1,
    Reachable (start (Cache.new Cache.plainHashing 10 300) 1 1 1000 1000) Step (fun _ _ => True) p ∧
      p.service.shutdown = .returned ∧ (p.resolver.upstreams 0).map 7 = some 0 := by
  have hinit : Reachable (start (Cache.new Cache.plainHashing 10 300) 1 1 1000 1000 : Program Nat 1 1)
    Step (fun _ _ => True) _ := .init
  have haccepted := hinit.step (a := ProgramAct.service (.accept (frame rootQuery))) trivial
    (.serves (.accepted rfl rfl) rfl)
  have hcalled := haccepted.step (a := ProgramAct.service (.conn 0 (.frame 0))) trivial
    (.calls (.conn rfl rfl) rfl (.call : Race.Step _ (.call (queryFor Str.empty)) _))
  have halloc : (InFlight.allocateAndInsert InFlight.init.map 0 fun _ => 7).1 = .ok 7 := rfl
  have hasked := hcalled.step (a := ProgramAct.resolver (.start 0 0)) trivial
    (.resolves (.asks rfl rfl rfl rfl halloc) trivial)
  have hsignal := hasked.step (a := ProgramAct.service .shutdown) trivial (.serves (.shutdown rfl) rfl)
  have hdone := hsignal.step (a := ProgramAct.service (.changed 0)) trivial
    (.serves (.changed rfl (by decide)) rfl)
  have hclosed := hdone.step (a := ProgramAct.service .acceptChanged) trivial
    (.serves (.acceptChanged rfl (by decide)) rfl)
  have hawaited := hclosed.step (a := ProgramAct.service .awaited) trivial
    (.serves (.awaited rfl (by decide) rfl) rfl)
  have hawaited := hawaited.step (a := ProgramAct.service .awaited) trivial
    (.serves (.awaited rfl (by decide) rfl) rfl)
  have hreturned := hawaited.step (a := ProgramAct.service .returns) trivial (.serves (.returns rfl) rfl)
  exact ⟨_, hreturned, rfl, rfl⟩

theorem left_waiting : ∃ p : Program Nat 1 1, p.service.shutdown = .returned ∧
    ∃ k conn query, p.calls (.conn k) = some 0 ∧ p.service.conns[k]? = some conn ∧
      conn.phase = .resolving query := by
  obtain ⟨p, hp, hret, hmap⟩ := exists_left
  exact ⟨p, hret, upstreams_after_shutdown _ 1 1 1000 1000 p hp hret 0 0 (.inr ⟨7, hmap⟩)⟩

end Program

end Dnser
