import Dnser.Proof.Datagrams
import Dnser.Proof.Tcp

/-!
# What becomes of a connection

A connection answers one query after the other while everything else goes on, and finds the cache in
another state every time. What it has written is one reply for each query it has read so far, in
their order (`ConnTask.Sound`); it never reads a query before the last one is answered.
-/

namespace Dnser

open Bytes

/-! ## Frames -/

/-- A frame that is read was there. -/
theorem frame_of_readFramed {stream stream' body : List UInt8}
    (h : readFramed stream = (some body, stream')) : stream = frame body ++ stream' ∧ Framable body := by
  unfold readFramed at h
  split at h
  · cases h
  · rename_i lenBuf rest hlen
    unfold readExact at hlen
    split at hlen
    · rename_i hle
      cases hlen
      obtain ⟨a, b, rest, rfl⟩ : ∃ a b rest, stream = a :: b :: rest := by
        cases stream with
        | nil => simp at hle
        | cons a stream =>
            cases stream with
            | nil => simp at hle
            | cons b rest => exact ⟨a, b, rest, rfl⟩
      simp only [List.take_succ_cons, List.take_zero, List.getD_cons_zero, List.getD_cons_succ,
        List.drop_succ_cons, List.drop_zero] at h
      split at h
      · cases h
      · rename_i hne
        unfold readExact at h
        split at h
        · rename_i hbody
          cases h
          have hlt := (ofBe16 a b).toNat_lt
          have hlength : (rest.take (ofBe16 a b).toNat).length = (ofBe16 a b).toNat := by
            rw [List.length_take]
            omega
          have hbytes : be16 (UInt16.ofNat (ofBe16 a b).toNat) = [a, b] := by
            rw [UInt16.ofNat_toNat, be16_ofBe16]
          refine ⟨?_, ?_⟩
          · rw [frame, hlength, hbytes]
            simp
          · rw [Framable, hlength]
            omega
        · cases h
    · cases hlen

/-- What is written is a frame. -/
theorem frame_of_writeFramed {stream stream' m : List UInt8} (h : writeFramed stream m = .ok stream') :
    stream' = stream ++ frame m ∧ m.length ≤ 65535 := by
  unfold writeFramed at h
  split at h
  · rename_i hle
    cases h
    exact ⟨by rw [frame, List.append_assoc], hle⟩
  · cases h

/-- A stream of frames is read frame by frame. -/
theorem readFrames_flatMap {msgs : List (List UInt8)} (h : ∀ m ∈ msgs, Framable m) :
    readFrames msgs.length (msgs.flatMap frame) = msgs.map some := by
  have hread := readFrames_take h (msgs.flatMap frame).length 0
  rwa [framesBefore_all, List.take_length, List.replicate_zero, List.append_nil] at hread

/-! ## One connection -/

/-- `handle_conn` may write this reply for a message: on a cache that a server can have, with a
resolver that returns what was accepted for the query. -/
def ConnHandles (body bytes : List UInt8) : Prop :=
  ∃ c query now w, ReachableCache c ∧ Message.parse body = .ok query ∧
    (∀ msg, w.outcome = .ok msg → Validated query msg) ∧
    (processQuery c query now w).1.toBytes = .ok bytes

/-- A reply is to its query. -/
theorem ConnHandles.replies {body bytes : List UInt8} (h : ConnHandles body bytes) :
    ∃ query reply, Message.parse body = .ok query ∧ reply.toBytes = .ok bytes ∧
      Replies query reply := by
  obtain ⟨c, query, now, w, ⟨hashing, capacity, cap, events, hvalid, rfl⟩, hparse, hout, hrun⟩ := h
  exact ⟨query, _, hparse, hrun, replies_processQuery ((serverInv_new hashing capacity cap).run hvalid)
    hvalid ⟨⟨body, hparse⟩, hout⟩⟩

theorem ConnHandles.pos {body bytes : List UInt8} (h : ConnHandles body bytes) : 1 ≤ bytes.length := by
  obtain ⟨query, reply, -, hbytes, -⟩ := h.replies
  have hle := (header_prefix_toBytes hbytes).length_le
  have hheader : 1 ≤ reply.header.bytes.length := by
    simp [Header.bytes]
  omega

namespace ConnTask

variable {t t' : ConnTask} {cache cache' : Cache} {act : ConnTaskAct}

/-- What is being done about the next message of a stream. -/
def Next (t : ConnTask) (rest : List UInt8) : Prop :=
  match t.phase with
  | .reading => rest = t.input
  | .resolving query => ∃ body, rest = frame body ++ t.input ∧ Message.parse body = .ok query ∧
      ∃ c now, ReachableCache c ∧ localReply c query now = none
  | .writing bytes => ∃ body, rest = frame body ++ t.input ∧ ConnHandles body bytes
  | .closed => True

/-- What was read and written on a connection. -/
structure Answered (t : ConnTask) (bodies replies : List (List UInt8)) (rest : List UInt8) : Prop where
  /-- One reply for each message, in order. -/
  handled : List.Forall₂ ConnHandles bodies replies
  stream : t.stream = bodies.flatMap frame ++ rest
  output : t.output = replies.flatMap frame
  framable : ∀ reply ∈ replies, Framable reply

/-- What holds of a connection in every state. -/
def Sound (t : ConnTask) : Prop :=
  ∃ bodies replies rest, t.Answered bodies replies rest ∧ t.Next rest

theorem sound_accepted (stream : List UInt8) : ({ stream } : ConnTask).Sound :=
  ⟨[], [], stream, ⟨.nil, rfl, rfl, by simp⟩, rfl⟩

/-- The reply is written, or cannot be encoded. -/
theorem next_respond {response : Message} {body rest : List UInt8} (hrest : rest = frame body ++ t.input)
    (h : ∀ bytes, response.toBytes = .ok bytes → ConnHandles body bytes) :
    (t.respond response).Next rest := by
  unfold respond
  split
  · rename_i bytes hbytes
    exact ⟨body, hrest, h bytes hbytes⟩
  · trivial

theorem answered_respond {response : Message} {bodies replies : List (List UInt8)} {rest : List UInt8}
    (h : t.Answered bodies replies rest) : (t.respond response).Answered bodies replies rest := by
  unfold respond
  split <;> exact ⟨h.handled, h.stream, h.output, h.framable⟩

/-- The resolver is honest with a connection. -/
def Honest (t : ConnTask) : ConnTaskAct → Prop
  | .resolved outcome _ _ =>
      ∀ query msg, t.phase = .resolving query → outcome = .ok msg → Validated query msg
  | _ => True

/-- **A step of a connection.** -/
theorem Sound.step (h : t.Sound) (hc : ReachableCache cache) (hhonest : t.Honest act)
    (hs : t.step cache act = some (t', cache')) : t'.Sound ∧ ReachableCache cache' := by
  obtain ⟨bodies, replies, rest, hans, hnext⟩ := h
  -- whatever else changes, what was read and written did not
  have hkeep : ∀ t' : ConnTask, t'.stream = t.stream → t'.output = t.output →
      t'.Answered bodies replies rest := by
    intro t' hstream houtput
    exact ⟨hans.handled, hstream.trans hans.stream, houtput.trans hans.output, hans.framable⟩
  cases act with
  | frame now =>
      simp only [ConnTask.step] at hs
      split at hs
      · rename_i hphase
        rw [Next, hphase] at hnext
        dsimp only at hnext
        subst hnext
        split at hs
        · cases hs
          exact ⟨⟨bodies, replies, t.input, hkeep _ rfl rfl, trivial⟩, hc⟩
        · rename_i body input hread
          have hrest := (frame_of_readFramed hread).1
          split at hs
          · cases hs
            exact ⟨⟨bodies, replies, t.input, hkeep _ rfl rfl, trivial⟩, hc⟩
          · rename_i query hparse
            split at hs
            · rename_i reply hlocal
              cases hs
              refine ⟨⟨bodies, replies, t.input, answered_respond (hkeep _ rfl rfl),
                next_respond hrest fun bytes hbytes => ?_⟩, hc⟩
              exact ⟨cache, query, now, failedResolver, hc, hparse, validated_failedResolver query,
                by rw [processQuery, hlocal]; exact hbytes⟩
            · rename_i hlocal
              cases hs
              exact ⟨⟨bodies, replies, t.input, hkeep _ rfl rfl,
                ⟨body, hrest, hparse, cache, now, hc, hlocal⟩⟩, hc⟩
      · cases hs
  | resolved outcome order now =>
      simp only [ConnTask.step] at hs
      split at hs
      · rename_i query hphase
        rw [Next, hphase] at hnext
        obtain ⟨body, hrest, hparse, c, now₀, hc₀, hmiss⟩ := hnext
        have hout : ∀ msg, outcome = .ok msg → Validated query msg :=
          fun msg hmsg => hhonest query msg hphase hmsg
        cases hs
        refine ⟨⟨bodies, replies, rest, answered_respond hans,
          next_respond hrest fun bytes hbytes => ?_⟩, hc.resolved hparse hmiss hout⟩
        refine ⟨c, query, now₀, { outcome, now, order }, hc₀, hparse, hout, ?_⟩
        rw [processQuery, hmiss]
        dsimp only
        rw [reply_resolvedReply c cache]
        exact hbytes
      · cases hs
  | written =>
      simp only [ConnTask.step] at hs
      split at hs
      · rename_i bytes hphase
        rw [Next, hphase] at hnext
        obtain ⟨body, hrest, hhandles⟩ := hnext
        split at hs
        · rename_i output hwrite
          obtain ⟨rfl, hle⟩ := frame_of_writeFramed hwrite
          cases hs
          refine ⟨⟨bodies ++ [body], replies ++ [bytes], t.input, ⟨?_, ?_, ?_, ?_⟩, rfl⟩, hc⟩
          · exact List.rel_append hans.handled (.cons hhandles .nil)
          · rw [List.flatMap_append, List.append_assoc]
            simpa [hrest] using hans.stream
          · rw [List.flatMap_append]
            simp [hans.output]
          · intro reply hreply
            rcases List.mem_append.mp hreply with hreply | hreply
            · exact hans.framable reply hreply
            · rw [List.mem_singleton.mp hreply]
              exact ⟨hhandles.pos, hle⟩
        · cases hs
          exact ⟨⟨bodies, replies, rest, hkeep _ rfl rfl, trivial⟩, hc⟩
      · cases hs
  | close =>
      simp only [ConnTask.step] at hs
      split at hs
      · cases hs
      · cases hs
        exact ⟨⟨bodies, replies, rest, hkeep _ rfl rfl, trivial⟩, hc⟩

end ConnTask

end Dnser
