import ServerSimple.Network.ResponseOrder

/-! # What a step does to one connection

Most steps of the server leave a connection alone. The others are listed here once, with what they
need, so that an invariant of one connection is checked against the list and not against every step
of the server.
-/

namespace ServerSimple.Network

open Library ThreadSafe

namespace HttpConnection

variable {κ ω : Type*}

/-- What an action of the server can do to the connection `c`. -/
inductive Event (c : κ) (a : ServerAction κ ω) (conn : HttpConnection) : HttpConnection → Prop where
  | none : Event c a conn conn
  | started : a = .accept c → conn.started = false → Event c a conn conn.start
  /-- The read completes with an error. -/
  | ended (endpoint : Option String) : a = .readDone c .none endpoint → 0 < conn.reads →
    Event c a conn conn.takeRead.close
  | refused (request : HttpRequest) (endpoint : Option String) :
    a = .readDone c (some request) endpoint → 0 < conn.reads →
    Event c a conn (rejectOverloaded
      (conn.takeRead.arrive request (some (overloadedResponse request.version)))
      conn.nextSequenceId request.version)
  | queued (request : HttpRequest) (endpoint : Option String) :
    a = .readDone c (some request) endpoint → 0 < conn.reads →
    Event c a conn (conn.takeRead.arrive request .none).read
  | finished (w : ω) (arrival : ℕ) (response : HttpResponse) (sequenceId : ℕ) :
    a = .finish w response → conn.answer arrival = .none →
    Event c a conn ((conn.answered arrival response).sendResponse response sequenceId)
  | delivered (i : ℕ) (handler : Posted) : a = .runPosted c i → conn.posted[i]? = some handler →
    Event c a conn ((conn.takePosted i).deliver handler)
  | wrote (i : ℕ) (response : HttpResponse) (ok : Bool) : a = .writeDone c i ok →
    conn.writes[i]? = some response →
    Event c a conn ((conn.takeWrite i).writeHandler response ok)

variable {c : κ} {a : ServerAction κ ω} {conn conn' : HttpConnection}

/-- A response that was produced for a request stays the one for it. -/
theorem Event.answer (hevent : Event c a conn conn') {k : ℕ} {r : HttpResponse}
    (hanswer : conn.answer k = some r) : conn'.answer k = some r := by
  cases hevent with
  | none => exact hanswer
  | started _ _ => exact hanswer
  | ended _ _ _ => exact hanswer
  | refused request _ _ _ => exact answer_arrive hanswer
  | queued request _ _ _ => exact answer_arrive hanswer
  | finished _ arrival response _ _ hnone =>
    have hne : k ≠ arrival := by
      rintro rfl
      rw [hnone] at hanswer
      cases hanswer
    exact (answer_answered_of_ne response hne).trans hanswer
  | delivered i handler _ _ =>
    rw [HttpConnection.answer, deliver_arrivals]
    exact hanswer
  | wrote i response ok _ _ =>
    rw [HttpConnection.answer, writeHandler_arrivals]
    exact hanswer

/-- The read handler on the connection of the read. -/
theorem event_readHandler {lim : Limits} {queue queue' : ThreadSafeQueue (RequestTask κ)}
    {result : Option HttpRequest} {endpoint : Option String} (hreads : 0 < conn.reads)
    (h : conn.takeRead.readHandler lim c queue result endpoint = .ok (conn', queue')) :
    Event c (.readDone c result endpoint : ServerAction κ ω) conn conn' := by
  rcases readHandler_cases lim h with ⟨rfl, rfl, -⟩ | ⟨request, rfl, ⟨rfl, -⟩ | ⟨clientIp, rfl, -⟩⟩
  · exact .ended endpoint rfl hreads
  · exact .refused request endpoint rfl hreads
  · exact .queued request endpoint rfl hreads

end HttpConnection

namespace RequestServer

variable {κ ω : Type*} [DecidableEq κ] {s s' : RequestServer κ ω}

/-- A step that changes one connection. -/
theorem event_setConnection {c : κ} {a : ServerAction κ ω} {conn : HttpConnection}
    (h : HttpConnection.Event c a (s.connections c) conn) (d : κ) :
    HttpConnection.Event d a (s.connections d) ((s.setConnection c conn).connections d) := by
  by_cases hd : d = c
  · subst hd
    rwa [setConnection_self]
  · rw [setConnection_of_ne s conn hd]
    exact .none

variable [Fintype ω] [DecidableEq ω] {lim : Limits}

theorem Inv.event (h : Inv s) {a : ServerAction κ ω} (hstep : s.step lim a = some s') (c : κ) :
    HttpConnection.Event c a (s.connections c) (s'.connections c) := by
  cases a with
  | accept d =>
    simp only [step] at hstep
    split_ifs at hstep with haccept
    cases hstep
    exact event_setConnection (.started rfl haccept.2) c
  | readDone d result endpoint =>
    simp only [step] at hstep
    split_ifs at hstep with hread
    cases hhandler : (s.connections d).takeRead.readHandler lim d s.requestQueue result endpoint with
    | error what => simp [hhandler] at hstep
    | ok r =>
      rw [hhandler] at hstep
      cases hstep
      exact event_setConnection (HttpConnection.event_readHandler hread.2 hhandler) c
  | pop w =>
    simp only [step] at hstep
    split at hstep
    · cases hstep
      exact .none
    · cases hstep
  | finish w response =>
    cases hw : s.workers w with
    | none => simp [step, hw] at hstep
    | some task =>
      have hflight : s.InFlight task := .inr ⟨w, hw⟩
      have hnone := (h.ordered task.connection).unanswered _ (pending_pos hflight)
      rw [(h.tasks task hflight).1] at hnone
      simp only [step, hw, Option.some.injEq] at hstep
      rw [← hstep]
      exact event_setConnection (.finished w task.arrival response task.sequenceId rfl hnone) c
  | runPosted d i =>
    simp only [step] at hstep
    split at hstep
    case _ handler hrun hi =>
      cases hstep
      exact event_setConnection (.delivered i handler rfl hi) c
    case _ => cases hstep
  | writeDone d i ok =>
    simp only [step] at hstep
    split at hstep
    case _ response hrun hi =>
      cases hstep
      exact event_setConnection (.wrote i response ok rfl hi) c
    case _ => cases hstep
  | stopContext =>
    cases hstep
    exact .none
  | stopQueue =>
    simp only [step] at hstep
    split_ifs at hstep
    cases hstep
    exact .none

theorem Inv.run (h : Inv s) {actions : List (ServerAction κ ω)}
    (hrun : Library.run (step lim) s actions = some s') : Inv s' :=
  run_invariant (fun _ _ _ h => inv_step h lim) h hrun

/-- What every event keeps, every run keeps. -/
theorem Inv.run_event {P : HttpConnection → Prop} {c : κ} {actions : List (ServerAction κ ω)}
    (h : Inv s)
    (hevent : ∀ (a : ServerAction κ ω) conn conn', P conn → HttpConnection.Event c a conn conn' →
      P conn')
    (hs : P (s.connections c)) (hrun : Library.run (step lim) s actions = some s') :
    P (s'.connections c) := by
  have hkeep : ∀ (s : RequestServer κ ω) a t, Inv s ∧ P (s.connections c) → step lim s a = some t →
      Inv t ∧ P (t.connections c) := by
    rintro s a t ⟨hinv, hs⟩ hstep
    exact ⟨inv_step hinv lim hstep, hevent a _ _ hs (hinv.event hstep c)⟩
  exact (run_invariant hkeep ⟨h, hs⟩ hrun).2

end RequestServer
end ServerSimple.Network
