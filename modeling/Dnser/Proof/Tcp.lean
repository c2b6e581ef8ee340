import Dnser.Proof.Replies
import Dnser.Server.Tcp

/-!
# Frames and connections

A stream of frames may end anywhere: behind a frame, in a body, or between the two bytes of a
length. Whole frames at its front are read as they were written (`readFramed_frame`), and what is
left of one that was cut is swallowed (`readFramed_cut`), so a reader is never out of step with
the writer. The connection loop reads and writes one frame a turn, and inherits this.
-/

namespace Dnser

open Utf8 (Str)
open Bytes Abort Loop

/-! ## One frame -/

/-- A message behind its length. -/
def frame (m : List UInt8) : List UInt8 := be16 (UInt16.ofNat m.length) ++ m

theorem length_frame (m : List UInt8) : (frame m).length = m.length + 2 := by
  simp [frame, Nat.add_comm]

/-- A message with a length a frame can carry. -/
def Framable (m : List UInt8) : Prop := 1 ≤ m.length ∧ m.length ≤ 65535

theorem writeFramed_of_framable {stream m : List UInt8} (h : Framable m) :
    writeFramed stream m = .ok (stream ++ frame m) := by
  rw [writeFramed, if_pos h.2, frame, List.append_assoc]

/-- The length is read back. -/
theorem frame_length_bytes {m : List UInt8} (h : Framable m) :
    (ofBe16 (UInt8.ofNat ((UInt16.ofNat m.length).toNat / 2 ^ 8))
      (UInt8.ofNat (UInt16.ofNat m.length).toNat)).toNat = m.length := by
  have := h.2
  rw [ofBe16_be16, UInt16.toNat_ofNat']
  omega

/-- Behind a length that is not zero, so many bytes are read. -/
theorem readFramed_length {m rest : List UInt8} (h : Framable m) :
    readFramed (be16 (UInt16.ofNat m.length) ++ rest) = readExact m.length rest := by
  have hlen := frame_length_bytes h
  have h0 : m.length ≠ 0 := by
    have := h.1
    omega
  have htwo : readExact 2 (be16 (UInt16.ofNat m.length) ++ rest) =
      (some (be16 (UInt16.ofNat m.length)), rest) := by
    rw [readExact, if_pos (by simp)]
    rfl
  unfold readFramed
  rw [htwo]
  simp only [be16, List.getD_cons_zero, List.getD_cons_succ, hlen, if_neg h0]

/-- **A whole frame is read as it was written.** -/
theorem readFramed_frame {m rest : List UInt8} (h : Framable m) :
    readFramed (frame m ++ rest) = (some m, rest) := by
  rw [frame, List.append_assoc, readFramed_length h, readExact, if_pos (by simp), List.take_left,
    List.drop_left]

theorem readFramed_of_length_lt {stream : List UInt8} (h : stream.length < 2) :
    readFramed stream = (none, []) := by
  unfold readFramed readExact
  rw [if_neg (by omega)]

/-- **A frame that was cut is swallowed.** -/
theorem readFramed_cut {m : List UInt8} (h : Framable m) {k : Nat} (hk : k < (frame m).length) :
    readFramed ((frame m).take k) = (none, []) := by
  rw [length_frame] at hk
  by_cases h2 : k < 2
  · refine readFramed_of_length_lt ?_
    rw [List.length_take]
    omega
  · -- the length is there, the body is not
    have hsplit : (frame m).take k = be16 (UInt16.ofNat m.length) ++ m.take (k - 2) := by
      rw [frame, List.take_append, List.take_of_length_le (by simp; omega), length_be16]
    rw [hsplit, readFramed_length h, readExact, if_neg]
    rw [List.length_take]
    omega

/-! ## Streams of frames -/

/-- The messages whose frames lie wholly within the first `cut` bytes. -/
def framesBefore : Nat → List (List UInt8) → List (List UInt8)
  | _, [] => []
  | cut, m :: ms =>
      if (frame m).length ≤ cut then m :: framesBefore (cut - (frame m).length) ms else []

/-- All of them, if nothing is cut off. -/
theorem framesBefore_all (msgs : List (List UInt8)) :
    framesBefore (msgs.flatMap frame).length msgs = msgs := by
  induction msgs with
  | nil => rfl
  | cons m ms ih =>
      rw [List.flatMap_cons, List.length_append, framesBefore, if_pos (Nat.le_add_right _ _),
        Nat.add_sub_cancel_left, ih]

/-- Frame after frame. -/
theorem foldlM_writeFramed {msgs : List (List UInt8)} (h : ∀ m ∈ msgs, Framable m)
    (stream : List UInt8) :
    msgs.foldlM writeFramed stream = .ok (stream ++ msgs.flatMap frame) := by
  induction msgs generalizing stream with
  | nil => simp [pure, Except.pure]
  | cons m ms ih =>
      rw [List.foldlM_cons, writeFramed_of_framable (h m List.mem_cons_self)]
      have := ih (fun x hx => h x (List.mem_cons_of_mem _ hx)) (stream ++ frame m)
      rw [List.flatMap_cons, ← List.append_assoc, ← this]
      rfl

/-- What is cut off behind a whole frame is cut off the rest. -/
theorem take_frames_of_le {m : List UInt8} {ms : List (List UInt8)} {cut : Nat}
    (h : (frame m).length ≤ cut) :
    ((m :: ms).flatMap frame).take cut =
      frame m ++ (ms.flatMap frame).take (cut - (frame m).length) := by
  rw [List.flatMap_cons, List.take_append, List.take_of_length_le h]

theorem take_frames_of_lt {m : List UInt8} {ms : List (List UInt8)} {cut : Nat}
    (h : cut < (frame m).length) : ((m :: ms).flatMap frame).take cut = (frame m).take cut := by
  rw [List.flatMap_cons, List.take_append_of_le_length (by omega)]

/-- At the end of a stream there is nothing but its end. -/
theorem readFrames_nil (n : Nat) : readFrames n [] = List.replicate n none := by
  induction n with
  | zero => rfl
  | succ n ih =>
      rw [readFrames, readFramed_of_length_lt (by simp), ih]
      rfl

/--
**A stream that was cut gives the messages before the cut, and then its end.** Induction on the
messages: the first frame is there as a whole, or nothing behind it is there at all.
-/
theorem readFrames_take {msgs : List (List UInt8)} (h : ∀ m ∈ msgs, Framable m) (cut n : Nat) :
    readFrames ((framesBefore cut msgs).length + n) ((msgs.flatMap frame).take cut) =
      (framesBefore cut msgs).map some ++ List.replicate n none := by
  induction msgs generalizing cut with
  | nil => simp [framesBefore, readFrames_nil]
  | cons m ms ih =>
      have hm := h m List.mem_cons_self
      rw [framesBefore]
      split
      · rename_i hle
        have hrest := ih (fun x hx => h x (List.mem_cons_of_mem _ hx)) (cut - (frame m).length)
        rw [take_frames_of_le hle, List.length_cons, Nat.add_right_comm, readFrames,
          readFramed_frame hm, hrest]
        rfl
      · rename_i hlt
        rw [take_frames_of_lt (by omega), List.length_nil, Nat.zero_add]
        cases n with
        | zero => rfl
        | succ n =>
            rw [readFrames, readFramed_cut hm (by omega), readFrames_nil]
            rfl

/-! ## One connection -/

/-- A reply has the id of its query, if the resolver answers for the query. -/
theorem id_processQuery {c : Cache} {query : Message} {now : Nat} {w : Awaited}
    (hvalid : ∀ msg, w.outcome = .ok msg → Validated query msg) :
    (processQuery c query now w).1.header.id = query.header.id := by
  rcases processQuery_cases c query now w with
    ⟨-, hrun⟩ | ⟨reply, hhit, hrun⟩ | ⟨msg, hout, hrun⟩ | ⟨e, -, hrun⟩
  · rw [hrun]
    rfl
  · rw [hrun]
    unfold cacheHit at hhit
    split at hhit
    · obtain ⟨cached, -, rfl⟩ := Option.map_eq_some_iff.mp hhit
      exact (header_cachedReply query cached).1
    · cases hhit
  · rw [hrun]
    have hid := (hvalid msg hout).upstream.id
    dsimp only
    split
    · exact hid
    · exact hid
  · rw [hrun]
    rfl

/-- A turn that answers the query `m` with `out`. -/
structure Answers (t : ConnTurn) (m out : List UInt8) : Prop where
  query : ∃ query, Message.parse m = .ok query ∧ (t.reply query).toBytes = .ok out ∧
    be16 query.header.id <+: out
  framable : Framable out

/-- The message is a query that the resolver answers for, and the reply to it goes into a frame. -/
def Answerable (t : ConnTurn) (m : List UInt8) : Prop :=
  ∃ query, Message.parse m = .ok query ∧ (∀ msg, t.w.outcome = .ok msg → Validated query msg) ∧
    ∃ out, (t.reply query).toBytes = .ok out ∧ Framable out

theorem Answerable.answers {t : ConnTurn} {m : List UInt8} (h : Answerable t m) :
    ∃ out, Answers t m out := by
  obtain ⟨query, hp, hvalid, out, hout, hframe⟩ := h
  refine ⟨out, ⟨query, hp, hout, ?_⟩, hframe⟩
  have hid : (t.reply query).header.id = query.header.id := id_processQuery hvalid
  have hhead := header_prefix_toBytes hout
  rw [← hid]
  refine List.IsPrefix.trans ?_ hhead
  simp only [Header.bytes, List.append_assoc]
  exact List.prefix_append _ _

/-- One reply a query, in order, each given in its own turn. -/
inductive AnswersFrom (turns : Nat → ConnTurn) :
    Nat → List (List UInt8) → List (List UInt8) → Prop where
  | nil {t : Nat} : AnswersFrom turns t [] []
  | cons {t : Nat} {m out : List UInt8} {ms outs : List (List UInt8)} : Answers (turns t) m out →
      AnswersFrom turns (t + 1) ms outs → AnswersFrom turns t (m :: ms) (out :: outs)

theorem AnswersFrom.framable {turns : Nat → ConnTurn} {t : Nat} {ms outs : List (List UInt8)}
    (h : AnswersFrom turns t ms outs) : ∀ out ∈ outs, Framable out := by
  induction h with
  | nil => simp
  | cons ha _ ih =>
      intro out hout
      rcases List.mem_cons.mp hout with rfl | hout
      · exact ha.framable
      · exact ih out hout

/-- `handle_conn` from the middle of a conversation. -/
def connLoop (turns : Nat → ConnTurn) (s : ConnLoop) : ConnEnd :=
  match loop (fun s => (.ok (handleConnBody turns s) : Except Empty _)) (fun s => s.input.length)
    (handleConnBody_decreases turns) s with
  | .ok a => a
  | .error e => nomatch e

/-- **One turn of the conversation.** -/
theorem connLoop_eq (turns : Nat → ConnTurn) (s : ConnLoop) :
    connLoop turns s =
      match handleConnBody turns s with
      | .done a => a
      | .again s' => connLoop turns s' := by
  unfold connLoop
  rw [loop_eq]
  cases handleConnBody turns s with
  | done a => rfl
  | again s' => rfl

theorem handleConnBody_answers {turns : Nat → ConnTurn} {t : Nat} {m out rest output : List UInt8}
    (hidle : (turns t).idle = false) (hm : Framable m) (h : Answers (turns t) m out) :
    handleConnBody turns ⟨t, frame m ++ rest, output⟩ = .again ⟨t + 1, rest, output ++ frame out⟩ := by
  obtain ⟨⟨query, hp, hout, -⟩, hframe⟩ := h
  simp [handleConnBody, hidle, readFramed_frame hm, hp, liftAbort, hout,
    writeFramed_of_framable hframe]

theorem handleConnBody_end {turns : Nat → ConnTurn} {t : Nat} {input rest output : List UInt8}
    (hidle : (turns t).idle = false) (h : readFramed input = (none, rest)) :
    handleConnBody turns ⟨t, input, output⟩ = .done ⟨output, .ok ()⟩ := by
  simp [handleConnBody, hidle, h]

/--
**A connection answers every query it receives as a whole, in order.** Induction on the messages;
the turn number goes along, because each turn finds another cache.
-/
theorem connLoop_take {turns : Nat → ConnTurn} (hidle : ∀ t, (turns t).idle = false)
    {msgs : List (List UInt8)} (h : ∀ m ∈ msgs, Framable m) {t : Nat}
    (hanswer : ∀ i m, msgs[i]? = some m → Answerable (turns (t + i)) m) (cut : Nat)
    (output : List UInt8) :
    ∃ outs, AnswersFrom turns t (framesBefore cut msgs) outs ∧
      connLoop turns ⟨t, (msgs.flatMap frame).take cut, output⟩ =
        ⟨output ++ outs.flatMap frame, .ok ()⟩ := by
  induction msgs generalizing t cut output with
  | nil =>
      refine ⟨[], .nil, ?_⟩
      have hread : readFramed (List.take cut (List.flatMap frame [])) = (none, []) :=
        readFramed_of_length_lt (by simp)
      rw [connLoop_eq, handleConnBody_end (hidle t) hread]
      simp
  | cons m ms ih =>
      have hm := h m List.mem_cons_self
      rw [framesBefore]
      split
      · rename_i hle
        obtain ⟨out, hout⟩ := (hanswer 0 m rfl).answers
        have hnext : ∀ i x, ms[i]? = some x → Answerable (turns (t + 1 + i)) x := by
          intro i x hx
          have := hanswer (i + 1) x hx
          rwa [Nat.add_comm i 1, ← Nat.add_assoc] at this
        obtain ⟨outs, houts, hrun⟩ := ih (fun x hx => h x (List.mem_cons_of_mem _ hx)) hnext
          (cut - (frame m).length) (output ++ frame out)
        refine ⟨out :: outs, .cons hout houts, ?_⟩
        rw [take_frames_of_le hle, connLoop_eq, handleConnBody_answers (hidle t) hm hout]
        dsimp only
        rw [hrun, List.flatMap_cons, List.append_assoc]
      · rename_i hlt
        refine ⟨[], .nil, ?_⟩
        rw [take_frames_of_lt (by omega), connLoop_eq,
          handleConnBody_end (hidle t) (readFramed_cut hm (by omega))]
        simp

/--
**Nothing is lost or misread on a TCP stream.** Whatever messages are framed one after the other,
and wherever the stream is cut: reading frame by frame gives exactly the messages whose frames
lie before the cut, in order, and then the end of the stream, again and again. And if they are
queries whose replies go into frames, a connection that is not idle for too long sends frames that
are read as one reply for each of those queries, in the same order, each with its query's id.
-/
theorem tcp_stream (msgs : List (List UInt8)) (hmsgs : ∀ m ∈ msgs, Framable m) :
    ∃ stream, msgs.foldlM writeFramed [] = .ok stream ∧ ∀ cut,
      (∀ n, readFrames ((framesBefore cut msgs).length + n) (stream.take cut) =
        (framesBefore cut msgs).map some ++ List.replicate n none) ∧
      ∀ turns, (∀ t, (turns t).idle = false) →
        (∀ i m, msgs[i]? = some m → Answerable (turns i) m) →
          ∃ outs, AnswersFrom turns 0 (framesBefore cut msgs) outs ∧
            (handleConn turns (stream.take cut)).result = .ok () ∧
            ∀ n, readFrames (outs.length + n) (handleConn turns (stream.take cut)).output =
              outs.map some ++ List.replicate n none := by
  refine ⟨msgs.flatMap frame, foldlM_writeFramed hmsgs [], fun cut =>
    ⟨readFrames_take hmsgs cut, fun turns hidle hanswer => ?_⟩⟩
  obtain ⟨outs, houts, hrun⟩ := connLoop_take hidle hmsgs (t := 0)
    (fun i m hm => by rw [Nat.zero_add]; exact hanswer i m hm) cut []
  have hconn : handleConn turns ((msgs.flatMap frame).take cut) = ⟨outs.flatMap frame, .ok ()⟩ := hrun
  refine ⟨outs, houts, by rw [hconn], fun n => ?_⟩
  -- the replies are a stream of frames themselves, cut behind the last one
  have hread := readFrames_take houts.framable (outs.flatMap frame).length n
  rw [framesBefore_all, List.take_length] at hread
  rw [hconn]
  exact hread

/-- Every query finds an empty cache, and the resolver has the answer. -/
def rootTurn : ConnTurn := { cache := Cache.new Cache.plainHashing 10 300, now := 0, w := rootAwaited }

theorem rootTurn_answerable : Answerable rootTurn rootQuery := by
  refine ⟨queryFor Str.empty, rfl, rootEvent_valid.2, rootAnswer, by decide +kernel, ?_, ?_⟩
  · decide
  · decide

/-- A query for the root, and one of which the last byte is missing. -/
theorem tcp_stream_root :
    ∃ stream outs, [rootQuery, rootQuery].foldlM writeFramed [] = .ok stream ∧
      AnswersFrom (fun _ => rootTurn) 0 [rootQuery] outs ∧
      readFrames (outs.length + 1) (handleConn (fun _ => rootTurn) (stream.take 37)).output =
        outs.map some ++ [none] := by
  obtain ⟨stream, hwrite, hread⟩ := tcp_stream [rootQuery, rootQuery] (by
    intro m hm
    rcases List.mem_pair.mp hm with rfl | rfl <;> exact ⟨by decide, by decide⟩)
  obtain ⟨outs, houts, -, hout⟩ := (hread 37).2 (fun _ => rootTurn) (fun _ => rfl) (by
    intro i m hm
    have := List.mem_of_getElem? hm
    rcases List.mem_pair.mp this with rfl | rfl <;> exact rootTurn_answerable)
  exact ⟨stream, outs, hwrite, houts, hout 1⟩

end Dnser
