import Dnser.Proof.Allocate
import Dnser.Proof.Encodes
import Dnser.Proof.Safety
import Dnser.Proof.Upstream
import Dnser.Server.Tcp

/-!
# Nothing that comes in makes the program panic

Clients and upstreams send what they like. A message is parsed without looking out of its bytes
(`parse_cases`), and what is made of it is encoded or cannot be (`toBytes_cases`); here that is carried
to the paths that do both. Two places are left. Where an encoded query gets its id the code slices
without asking, and a query always has a header to put it into. And where the id comes from it
unwraps the sender, which is still there (`allocateAndInsert_cases`).
-/

namespace Dnser

open Abort Loop InFlight

/-- What is passed on is no panic if it was none. -/
theorem liftAbort_ne_panic {δ ε α : Type} {f : δ → ε} {m : Except (Abort δ) α}
    (h : m ≠ .error .panic) : liftAbort f m ≠ .error .panic := by
  cases m with
  | ok a => simp [liftAbort]
  | error e =>
      cases e with
      | err e => simp [liftAbort]
      | panic => exact absurd rfl h

theorem parse_ne_panic (bytes : List UInt8) : Message.parse bytes ≠ .error .panic := by
  rcases parse_cases bytes with ⟨m, hm⟩ | ⟨e, he⟩
  · simp [hm]
  · simp [he]

theorem toBytes_ne_panic (m : Message) : m.toBytes ≠ .error .panic := by
  rcases toBytes_cases m with ⟨-, b, hb⟩ | ⟨-, e, he⟩
  · simp [hb]
  · simp [he]

/-! ## Upstreams -/

theorem parseValidatedResponse_ne_panic (bytes : List UInt8) (query : Message) (id : UInt16) :
    parseValidatedResponse bytes query id ≠ .error .panic := by
  refine bind_ne_panic (liftAbort_ne_panic (parse_ne_panic bytes)) fun msg _ => ?_
  split <;> simp

theorem tcpQuery_ne_panic (peer : Peer) (query : Message) : tcpQuery peer query ≠ .error .panic := by
  refine bind_ne_panic (liftAbort_ne_panic (toBytes_ne_panic query)) fun bytes _ => ?_
  split
  · simp
  · split
    · simp
    · simp
    · split
      · simp
      · exact parseValidatedResponse_ne_panic _ _ _

/-- The sender is still there when `allocate_and_insert` unwraps it. -/
theorem allocateAndInsert_ne_panic {σ : Type} (map : Senders σ) (tx : σ) (rng : Nat → UInt16) :
    (allocateAndInsert map tx rng).1 ≠ .error .panic := by
  rcases allocateAndInsert_cases map tx rng with ⟨id, -, hrun⟩ | ⟨-, hrun⟩
  · simp [hrun]
  · simp [hrun]

/-- **An upstream cannot make a query panic.** -/
theorem query_ne_panic (peer : Peer) (assigned : Option UInt16) (query : Message) :
    UpstreamSocket.query peer assigned query ≠ .error .panic := by
  refine bind_ne_panic (liftAbort_ne_panic (toBytes_ne_panic query)) fun bytes hbytes => ?_
  split
  · simp
  · rename_i id
    -- an encoded query has a header
    obtain ⟨rest, rfl, -⟩ := toBytes_with_header (liftAbort_eq_ok_iff.mp hbytes)
    rw [patchQuery_header]
    refine bind_ne_panic (by simp) fun sent _ => ?_
    split
    · simp
    · simp
    · simp
    · refine bind_ne_panic (parseValidatedResponse_ne_panic _ _ _) fun msg _ => ?_
      split
      · exact tcpQuery_ne_panic peer query
      · simp

theorem firstOk_ne_panic {results : List (Except (Abort ResolveError) Message)}
    (h : ∀ r ∈ results, r ≠ .error .panic) : firstOk results ≠ .error .panic := by
  induction results with
  | nil => simp [firstOk]
  | cons r results ih =>
      have hrest := ih fun r' hr' => h r' (List.mem_cons_of_mem _ hr')
      cases r with
      | ok msg => simp [firstOk]
      | error e =>
          cases e with
          | err e => exact hrest
          | panic => exact absurd rfl (h _ List.mem_cons_self)

/-! ## Clients -/

theorem udpDatagram_ne_panic (query response : Message) :
    udpDatagram query response ≠ .error .panic := by
  refine bind_ne_panic (liftAbort_ne_panic (toBytes_ne_panic response)) fun bytes _ => ?_
  split
  · exact liftAbort_ne_panic (toBytes_ne_panic _)
  · simp

theorem handleQuery_ne_panic (cache : Cache) (data : List UInt8) (now : Nat) (w : Awaited) :
    (handleQuery cache data now w).1 ≠ .error .panic := by
  unfold handleQuery
  split
  · simp
  · rename_i hpanic
    exact absurd hpanic (parse_ne_panic data)
  · exact udpDatagram_ne_panic _ _

/-- What one turn leaves behind. -/
theorem handleConnBody_ne_panic {turns : Nat → ConnTurn} {s : ConnLoop} {result : ConnEnd}
    (h : handleConnBody turns s = .done result) : result.result ≠ .error .panic := by
  unfold handleConnBody at h
  split at h
  · cases h
    simp
  · split at h
    · cases h
      simp
    · split at h
      · rename_i he
        cases h
        intro hpanic
        cases hpanic
        exact liftAbort_ne_panic (parse_ne_panic _) he
      · split at h
        · rename_i he
          cases h
          intro hpanic
          cases hpanic
          exact liftAbort_ne_panic (toBytes_ne_panic _) he
        · split at h
          · cases h
            simp
          · cases h

theorem handleConn_ne_panic (turns : Nat → ConnTurn) (input : List UInt8) :
    (handleConn turns input).result ≠ .error .panic := by
  unfold handleConn
  split
  · rename_i result hrun
    refine loop_induct_ok (P := fun _ result => result.result ≠ .error .panic) ?_ ?_ hrun
    · intro s result hbody
      exact handleConnBody_ne_panic (Except.ok.inj hbody)
    · intro s s' result _ hrest
      exact hrest
  · rename_i e _
    cases e

/--
**Nothing that comes in makes the program panic.** For every datagram, every stream on a connection,
every state of the cache and whatever the resolver does with a query; and for every query, whatever
id it takes out of whatever map, and whatever an upstream sends back for it, over UDP or TCP.
-/
theorem never_panics {σ : Type} :
    (∀ cache data now w, (handleQuery cache data now w).1 ≠ .error .panic) ∧
      (∀ turns input, (handleConn turns input).result ≠ .error .panic) ∧
      (∀ (map : Senders σ) tx rng, (allocateAndInsert map tx rng).1 ≠ .error .panic ∧
        ∀ peer query, UpstreamSocket.query peer (allocateAndInsert map tx rng).1.toOption query ≠
          .error .panic) ∧
      (∀ peer assigned query, UpstreamSocket.query peer assigned query ≠ .error .panic) ∧
      (∀ peer query, tcpQuery peer query ≠ .error .panic) ∧
      ∀ peers : List (Peer × Option UInt16), ∀ query,
        resolve (peers.map fun x => UpstreamSocket.query x.1 x.2 query) ≠ .error .panic := by
  refine ⟨handleQuery_ne_panic, handleConn_ne_panic, ?_, query_ne_panic, tcpQuery_ne_panic, ?_⟩
  · intro map tx rng
    exact ⟨allocateAndInsert_ne_panic map tx rng, fun peer query => query_ne_panic peer _ query⟩
  · intro peers query
    unfold resolve
    split
    · simp
    · refine firstOk_ne_panic fun r hr => ?_
      obtain ⟨x, -, rfl⟩ := List.mem_map.mp hr
      exact query_ne_panic x.1 x.2 query

end Dnser
