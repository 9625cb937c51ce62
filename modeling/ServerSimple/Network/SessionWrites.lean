import Mathlib.Data.List.Perm.Basic
import ServerSimple.Network.PersistentServer

/-! # The outgoing messages of a session

The write queue doubles as the flag that a write is under way: its front is the message being written,
and it stays there until that write is over. After a failed write the front stays for ever, so that
every later handler finds the queue in use and starts nothing.
-/

namespace ServerSimple.Network

open Library

namespace WebsocketSession

/-- What holds of the write pump between any two handlers. -/
structure Pumped (session : WebsocketSession) : Prop where
  accounted : session.sent.Perm (session.handled ++ session.posted)
  /-- What was handed over is what has left the queue, and then its front. -/
  handed : ∃ completed, session.handled = completed ++ session.writeQueue ∧
    session.written.map Prod.snd = completed ++ session.writeQueue.take 1
  outstanding : session.writes = if session.writeFailed then [] else session.writeQueue.take 1
  stuck : session.writeFailed = true → session.writeQueue ≠ []

variable {session session' : WebsocketSession}

theorem pumped_initial : Pumped initial :=
  ⟨.refl _, ⟨[], rfl, rfl⟩, rfl, nofun⟩

/-- The pump looks at the fields of the writing side only. -/
theorem Pumped.congr (h : Pumped session) (hqueue : session'.writeQueue = session.writeQueue)
    (hwrites : session'.writes = session.writes) (hposted : session'.posted = session.posted)
    (hsent : session'.sent = session.sent) (hhandled : session'.handled = session.handled)
    (hwritten : session'.written = session.written)
    (hfailed : session'.writeFailed = session.writeFailed) : Pumped session' := by
  refine ⟨?_, ?_, ?_, ?_⟩
  · rw [hsent, hhandled, hposted]
    exact h.accounted
  · rw [hhandled, hwritten, hqueue]
    exact h.handed
  · rw [hwrites, hfailed, hqueue]
    exact h.outstanding
  · rw [hfailed, hqueue]
    exact h.stuck

theorem Pumped.send (h : Pumped session) (message : Message) : Pumped (session.send message) := by
  refine ⟨?_, h.handed, h.outstanding, h.stuck⟩
  simp only [WebsocketSession.send, ← List.append_assoc]
  exact h.accounted.append_right _

/-- A message moves from the posted handlers to the end of the handled ones. -/
theorem Pumped.perm_handled (h : Pumped session) {i : ℕ} {message : Message}
    (hi : session.posted[i]? = some message) :
    session.sent.Perm (session.handled ++ [message] ++ session.posted.eraseIdx i) := by
  obtain ⟨hlt, hget⟩ := List.getElem?_eq_some_iff.mp hi
  have hcons : session.posted.Perm (message :: session.posted.eraseIdx i) := by
    rw [← hget]
    exact (List.getElem_cons_eraseIdx_perm hlt).symm
  rw [List.append_assoc]
  exact h.accounted.trans (hcons.append_left _)

/-- The writes that a posted handler starts: of its own message, if it finds the queue empty. -/
def startedBy (session : WebsocketSession) (message : Message) : List Message :=
  if session.writeQueue = [] then [message] else []

/-- A posted handler always finds a message at the front of the queue, at least its own. -/
theorem sendHandler_eq (session : WebsocketSession) (i : ℕ) (message : Message) :
    (session.takePosted i).sendHandler message = some { session with
      posted := session.posted.eraseIdx i
      writeQueue := session.writeQueue ++ [message]
      handled := session.handled ++ [message]
      writes := session.writes ++ session.startedBy message
      written := session.written ++ (session.startedBy message).map (session.handshake, ·) } := by
  by_cases hqueue : session.writeQueue = []
  · simp [sendHandler, takePosted, writeMessageAsync, startedBy, hqueue]
  · simp [sendHandler, takePosted, startedBy, hqueue]

theorem startedBy_of_ne (h : session.writeQueue ≠ []) (message : Message) :
    session.startedBy message = [] :=
  if_neg h

/-- The outstanding write, its message and the state of the pump are one. -/
theorem Pumped.of_writes (h : Pumped session) {i : ℕ} {message : Message}
    (hi : session.writes[i]? = some message) :
    session.writeFailed = false ∧ i = 0 ∧ ∃ rest, session.writeQueue = message :: rest := by
  rw [h.outstanding] at hi
  cases hfailed : session.writeFailed with
  | true => simp [hfailed] at hi
  | false =>
    cases hqueue : session.writeQueue with
    | nil => simp [hfailed, hqueue] at hi
    | cons front rest =>
      simp only [hfailed, Bool.false_eq_true, if_false, hqueue, List.take_succ_cons,
        List.take_zero, List.getElem?_singleton] at hi
      split_ifs at hi with hzero
      exact ⟨rfl, hzero, rest, by rw [Option.some.inj hi]⟩

/-- The completion of a write, from which the rest of the queue goes on. -/
theorem writeHandler_cases {i : ℕ} {ok : Bool}
    (h : (session.takeWrite i).writeHandler ok = some session') :
    (ok = false ∧ session' = { session.takeWrite i with failed := true, writeFailed := true }) ∨
    ok = true ∧ ∃ front rest, session.writeQueue = front :: rest ∧
      session' = { session with
        writeQueue := rest
        writes := session.writes.eraseIdx i ++ rest.take 1
        written := session.written ++ (rest.take 1).map (session.handshake, ·) } := by
  cases ok with
  | false =>
    cases h
    exact .inl ⟨rfl, rfl⟩
  | true =>
    refine .inr ⟨rfl, ?_⟩
    cases hqueue : session.writeQueue with
    | nil => simp [writeHandler, takeWrite, hqueue] at h
    | cons front rest =>
      refine ⟨front, rest, rfl, ?_⟩
      cases rest with
      | nil => simpa [writeHandler, takeWrite, hqueue] using h.symm
      | cons next rest => simpa [writeHandler, takeWrite, writeMessageAsync, hqueue] using h.symm

theorem Pumped.sendHandler (h : Pumped session) {i : ℕ} {message : Message}
    (hi : session.posted[i]? = some message)
    (hrun : (session.takePosted i).sendHandler message = some session') : Pumped session' := by
  obtain ⟨completed, hhandled, hwritten⟩ := h.handed
  rw [sendHandler_eq, Option.some.injEq] at hrun
  rw [← hrun]
  refine ⟨h.perm_handled hi, ⟨completed, by simp [hhandled], ?_⟩, ?_, by simp⟩
  · by_cases hqueue : session.writeQueue = []
    · simp [hwritten, hqueue, startedBy]
    · obtain ⟨front, rest, hcons⟩ := List.exists_cons_of_ne_nil hqueue
      simp [hwritten, hcons, startedBy]
  · by_cases hqueue : session.writeQueue = []
    · have hfailed : session.writeFailed = false :=
        Bool.eq_false_iff.mpr fun hfailed => h.stuck hfailed hqueue
      simp [h.outstanding, hfailed, hqueue, startedBy]
    · obtain ⟨front, rest, hcons⟩ := List.exists_cons_of_ne_nil hqueue
      simp [h.outstanding, hcons, startedBy]

theorem Pumped.writeHandler (h : Pumped session) {i : ℕ} {message : Message} {ok : Bool}
    (hi : session.writes[i]? = some message)
    (hrun : (session.takeWrite i).writeHandler ok = some session') : Pumped session' := by
  obtain ⟨hfailed, rfl, rest, hqueue⟩ := h.of_writes hi
  have hwrites : session.writes = [message] := by simp [h.outstanding, hfailed, hqueue]
  obtain ⟨completed, hhandled, hwritten⟩ := h.handed
  rcases writeHandler_cases hrun with ⟨_, rfl⟩ | ⟨_, front, rest', hfront, rfl⟩
  · refine ⟨h.accounted, ⟨completed, hhandled, hwritten⟩, ?_, ?_⟩
    · simp [takeWrite, hwrites]
    · simp [takeWrite, hqueue]
  · -- the front has been written, and what follows it is the front now
    refine ⟨h.accounted, ⟨completed ++ [front], ?_, ?_⟩, ?_, by simp [hfailed]⟩
    · simp [hhandled, hfront]
    · simp [hwritten, hfront, Function.comp_def]
    · simp [hfailed, hwrites]

theorem Pumped.move (h : Pumped session) {e : SessionEvent} (hmove : Move e session session') :
    Pumped session' := by
  cases hmove with
  | start _ => exact h.congr rfl rfl rfl rfl rfl rfl rfl
  | handshake ok _ => cases ok <;> exact h.congr rfl rfl rfl rfl rfl rfl rfl
  | send message => exact h.send message
  | posted hi hrun => exact h.sendHandler hi hrun
  | readError _ => exact h.congr rfl rfl rfl rfl rfl rfl rfl
  | readData data accepted _ => exact h.congr rfl rfl rfl rfl rfl rfl rfl
  | write ok hi hrun => exact h.writeHandler hi hrun

/-- Nothing but the completion of a write takes a message out of the queue. -/
theorem Move.prefix_writeQueue {e : SessionEvent} (he : ∀ ok, e ≠ .write ok)
    (hmove : Move e session session') : session.writeQueue <+: session'.writeQueue := by
  cases hmove with
  | start _ => exact List.prefix_rfl
  | handshake ok _ => cases ok <;> exact List.prefix_rfl
  | send _ => exact List.prefix_rfl
  | posted _ hrun =>
    rw [sendHandler_eq, Option.some.injEq] at hrun
    rw [← hrun]
    exact List.prefix_append _ _
  | readError _ => exact List.prefix_rfl
  | readData _ _ _ => exact List.prefix_rfl
  | write ok _ _ => exact absurd rfl (he ok)

/-- After a failed write nothing more is handed over. -/
theorem Pumped.written_of_failed (h : Pumped session) (hfailed : session.writeFailed = true)
    {e : SessionEvent} (hmove : Move e session session') :
    session'.writeFailed = true ∧ session'.written = session.written := by
  cases hmove with
  | start _ => exact ⟨hfailed, rfl⟩
  | handshake ok _ => cases ok <;> exact ⟨hfailed, rfl⟩
  | send _ => exact ⟨hfailed, rfl⟩
  | posted _ hrun =>
    rw [sendHandler_eq, startedBy_of_ne (h.stuck hfailed), Option.some.injEq] at hrun
    rw [← hrun]
    exact ⟨hfailed, List.append_nil _⟩
  | readError _ => exact ⟨hfailed, rfl⟩
  | readData _ _ _ => exact ⟨hfailed, rfl⟩
  | write _ hi _ =>
    rw [(h.of_writes hi).1] at hfailed
    cases hfailed

theorem Pumped.writes_length_le (h : Pumped session) : session.writes.length ≤ 1 := by
  rw [h.outstanding]
  split_ifs
  · simp
  · exact List.length_take_le _ _

theorem Pumped.written_prefix (h : Pumped session) :
    session.written.map Prod.snd <+: session.handled := by
  obtain ⟨completed, hhandled, hwritten⟩ := h.handed
  rw [hhandled, hwritten, List.prefix_append_right_inj]
  exact List.take_prefix _ _

theorem Pumped.writes_ne_nil_iff (h : Pumped session) (hfailed : session.writeFailed = false) :
    session.writes ≠ [] ↔ session.writeQueue ≠ [] := by
  rw [h.outstanding, if_neg (by simp [hfailed])]
  simp

/-- In a quiescent state everything that was sent has been written. -/
theorem Pumped.written_of_quiescent (h : Pumped session) (hfailed : session.writeFailed = false)
    (hposted : session.posted = []) (hwrites : session.writes = []) :
    session.written.map Prod.snd = session.handled ∧ session.sent.Perm session.handled := by
  have hqueue : session.writeQueue = [] := by
    by_contra hne
    exact (h.writes_ne_nil_iff hfailed).mpr hne hwrites
  obtain ⟨completed, hhandled, hwritten⟩ := h.handed
  constructor
  · rw [hhandled, hwritten, hqueue, List.take_nil]
  · simpa [hposted] using h.accounted

theorem Pumped.writeHandler_isSome (h : Pumped session) {i : ℕ} {message : Message}
    (hi : session.writes[i]? = some message) (ok : Bool) :
    ((session.takeWrite i).writeHandler ok).isSome := by
  obtain ⟨_, _, rest, hqueue⟩ := h.of_writes hi
  cases ok with
  | true => cases rest <;> simp [WebsocketSession.writeHandler, takeWrite, writeMessageAsync, hqueue]
  | false => rfl

end WebsocketSession

namespace PersistentServer

variable {κ : Type*} [DecidableEq κ] {lim : ThreadSafe.Limits} {s t : PersistentServer κ}
  {actions : List (PersistentAction κ)}

theorem pumped_run (hrun : run (step lim) initial actions = some s) (c : κ) :
    (s.sessions c).Pumped :=
  run_session (fun _ _ _ h hmove => h.move hmove) WebsocketSession.pumped_initial hrun

theorem written_of_failed_run {c : κ} (h : (s.sessions c).Pumped)
    (hfailed : (s.sessions c).writeFailed = true) (hrun : run (step lim) s actions = some t) :
    (t.sessions c).written = (s.sessions c).written := by
  have hinv := run_session
    (P := fun session => session.Pumped ∧ session.writeFailed = true ∧
      session.written = (s.sessions c).written)
    (fun w session session' h hmove => by
      obtain ⟨hfailed', hwritten⟩ := h.1.written_of_failed h.2.1 hmove
      exact ⟨h.1.move hmove, hfailed', hwritten.trans h.2.2⟩)
    ⟨h, hfailed, rfl⟩ hrun
  exact hinv.2.2

/-- The context can run every handler that is due. -/
theorem handlers_defined {c : κ} (h : (s.sessions c).Pumped) (hrunning : s.running = true) :
    (∀ i < (s.sessions c).posted.length, (s.step lim (.runPosted c i)).isSome) ∧
      ∀ i < (s.sessions c).writes.length, ∀ ok, (s.step lim (.writeDone c i ok)).isSome := by
  constructor
  · intro i hi
    simp only [step, hrunning, List.getElem?_eq_getElem hi, Option.isSome_map]
    rw [WebsocketSession.sendHandler_eq, Option.isSome_some]
  · intro i hi ok
    simp only [step, hrunning, List.getElem?_eq_getElem hi, Option.isSome_map]
    exact h.writeHandler_isSome (List.getElem?_eq_getElem hi) ok

/-- The outgoing messages of every session are written one at a time, in the order of their posted
handlers, and none is lost as long as no write fails. -/
theorem outgoing_in_order (hrun : run (step lim) initial actions = some s) (c : κ) :
    (s.sessions c).writes.length ≤ 1 ∧
    (∀ message ∈ (s.sessions c).writes, (s.sessions c).writeQueue.head? = some message) ∧
    (∀ a t, s.step lim a = some t → (∀ i ok, a ≠ .writeDone c i ok) →
      (s.sessions c).writeQueue <+: (t.sessions c).writeQueue) ∧
    (s.sessions c).written.map Prod.snd <+: (s.sessions c).handled ∧
    ((s.sessions c).writeFailed = false →
      ((s.sessions c).writes ≠ [] ↔ (s.sessions c).writeQueue ≠ [])) ∧
    ((s.sessions c).writeFailed = false → (s.sessions c).posted = [] → (s.sessions c).writes = [] →
      (s.sessions c).written.map Prod.snd = (s.sessions c).handled ∧
        (s.sessions c).sent.Perm (s.sessions c).handled) ∧
    ((s.sessions c).writeFailed = true → ∀ later t, run (step lim) s later = some t →
      (t.sessions c).written = (s.sessions c).written) ∧
    -- no handler that the context can run reads the front of an empty queue
    (s.running = true →
      (∀ i < (s.sessions c).posted.length, (s.step lim (.runPosted c i)).isSome) ∧
      ∀ i < (s.sessions c).writes.length, ∀ ok, (s.step lim (.writeDone c i ok)).isSome) := by
  have hpump := pumped_run hrun c
  refine ⟨hpump.writes_length_le, ?_, ?_, hpump.written_prefix, hpump.writes_ne_nil_iff,
    hpump.written_of_quiescent, ?_, handlers_defined hpump⟩
  · intro message hmem
    obtain ⟨i, hi⟩ := List.mem_iff_getElem?.mp hmem
    obtain ⟨_, _, rest, hqueue⟩ := hpump.of_writes hi
    rw [hqueue, List.head?_cons]
  · intro a t hstep hquiet
    rcases step_move lim hstep c with hsame | ⟨e, he, hmove⟩
    · exact hsame ▸ List.prefix_rfl
    · refine hmove.prefix_writeQueue ?_
      rintro ok rfl
      cases he with
      | write _ i _ _ => exact hquiet i ok rfl
  · intro hfailed later t hlater
    exact written_of_failed_run hpump hfailed hlater

/-- Two messages are sent, the handler of the second one runs first, and one write is over. -/
theorem outgoing_in_order_overtaken :
    ∃ s : PersistentServer ℕ,
      run (step ⟨true, true, 4, 64⟩) initial [.acceptDone (some 7), .handshakeDone 7 true,
        .send 7 [1], .send 7 [2], .runPosted 7 1, .runPosted 7 0, .writeDone 7 0 true] = some s ∧
      (s.sessions 7).written.map Prod.snd = [[2], [1]] ∧
      (s.sessions 7).written.map Prod.snd <+: (s.sessions 7).handled := by
  refine ⟨_, rfl, rfl, ?_⟩
  have hrun : run (step ⟨true, true, 4, 64⟩) initial [.acceptDone (some 7), .handshakeDone 7 true,
      .send 7 [1], .send 7 [2], .runPosted 7 1, .runPosted 7 0, .writeDone 7 0 true] = some _ := rfl
  exact (outgoing_in_order hrun 7).2.2.2.1

end PersistentServer
end ServerSimple.Network
