import Mathlib.Data.Fintype.Card
import ServerSimple.Network.ConnectionEvents
import ServerSimple.Network.SessionWrites

/-! # The outgoing buffers

The queues of requests and packets are bounded, but what leaves them turns into responses and
messages that wait in other buffers. A client that goes on sending without reading keeps the first
write outstanding. Each of its requests still passes through the queue, and its answer ends up behind
that write, so the buffer grows by one entry a round, whatever the limits are. Only a server without
workers, which answers none of the requests that it queues, keeps the responses bounded.
-/

namespace ServerSimple.Network

open Library ThreadSafe

/-! ## Responses -/

namespace RequestServer

variable {κ ω : Type*} [DecidableEq κ] [DecidableEq ω] {c : κ} {w : ω} {n : ℕ}
  {s : RequestServer κ ω}

/-- The client has sent `n` requests, which are all answered, but none of the answers has left the
map. The queue is empty and the worker is waiting for the next request. -/
structure Unread (c : κ) (w : ω) (n : ℕ) (s : RequestServer κ ω) : Prop where
  running : s.running = true
  queue : s.requestQueue = .empty
  idle : s.workers w = none
  reading : 0 < (s.connections c).reads
  opened : (s.connections c).closed = false
  posted : (s.connections c).posted = []
  issued : (s.connections c).nextSequenceId = n
  buffered : ∀ k < n, ((s.connections c).responses.lookup k).isSome

/-- A request without a body. -/
def getRequest : HttpRequest := ⟨11, "/", ""⟩

/-- The client sends a request, and the worker answers it. -/
def answeredRequest (c : κ) (w : ω) : List (ServerAction κ ω) :=
  [.readDone c (some getRequest) (some "::1"), .pop w, .finish w .fresh, .runPosted c 0]

/-- The task of the next request without a body. -/
def getTask (c : κ) (conn : HttpConnection) : RequestTask κ :=
  ⟨c, getRequest, "::1", conn.nextSequenceId, conn.arrivals.length⟩

theorem Unread.step_readDone (h : Unread c w n s) (lim : Limits) :
    s.step lim (.readDone c (some getRequest) (some "::1")) = some
      { s.setConnection c ((s.connections c).takeRead.arrive getRequest none).read with
        requestQueue := ⟨[getTask c (s.connections c)], false, 0⟩ } := by
  have hpush : s.requestQueue.tryPushBack lim (getTask c (s.connections c)) =
      (true, ⟨[getTask c (s.connections c)], false, 0⟩) := by
    rw [h.queue]
    exact ThreadSafeQueue.tryPushBack_empty lim rfl
  have hip : (s.connections c).takeRead.getClientIp (some "::1") = .ok "::1" := by
    simp [HttpConnection.getClientIp, HttpConnection.takeRead, h.opened]
  simp only [step, h.running, h.reading, and_self, if_true, HttpConnection.readHandler, hip]
  simp only [HttpConnection.takeRead, getTask] at hpush ⊢
  rw [hpush]

theorem step_pop (lim : Limits) {task : RequestTask κ}
    (hqueue : s.requestQueue = ⟨[task], false, 0⟩) (hbytes : QueueSizeTraits.get task = 0)
    (hidle : s.workers w = none) :
    s.step lim (.pop w) = some { s with
      requestQueue := .empty
      workers := Function.update s.workers w (some task) } := by
  simp only [step, hidle, hqueue, ThreadSafeQueue.waitAndPop_singleton lim hbytes]

theorem step_finish (lim : Limits) {task : RequestTask κ} {conn : HttpConnection}
    (hw : s.workers w = some task) (hconn : s.connections task.connection = conn)
    (response : HttpResponse) :
    s.step lim (.finish w response) = some
      { s.setConnection task.connection
          ((conn.answered task.arrival response).sendResponse response task.sequenceId) with
        workers := Function.update s.workers w none } := by
  simp only [step, hw, hconn]

theorem step_runPosted (lim : Limits) {conn : HttpConnection} {handler : Posted}
    (hrunning : s.running = true) (hconn : s.connections c = conn) (hposted : conn.posted = [handler]) :
    s.step lim (.runPosted c 0) = some
      (s.setConnection c ((conn.takePosted 0).deliver handler)) := by
  simp only [step, hrunning, hconn, hposted, List.getElem?_cons_zero]

/-- One more answer is in the map after a round. -/
theorem Unread.round (h : Unread c w n s) (lim : Limits) :
    ∃ t, run (step lim) s (answeredRequest c w) = some t ∧ Unread c w (n + 1) t := by
  -- the request is queued, taken by the worker, answered, and the answer put into the map
  let conn := s.connections c
  let queued := (conn.takeRead.arrive getRequest none).read
  let answered := (queued.answered conn.arrivals.length .fresh).sendResponse .fresh
    conn.nextSequenceId
  let handler : Posted := .sendResponse .fresh conn.nextSequenceId
  let s₁ : RequestServer κ ω :=
    { s.setConnection c queued with requestQueue := ⟨[getTask c conn], false, 0⟩ }
  let s₂ : RequestServer κ ω :=
    { s₁ with
      requestQueue := .empty
      workers := Function.update s₁.workers w (some (getTask c conn)) }
  let s₃ : RequestServer κ ω :=
    { s₂.setConnection c answered with workers := Function.update s₂.workers w none }
  have h₁ : s.step lim _ = some s₁ := h.step_readDone lim
  have h₂ : s₁.step lim (.pop w) = some s₂ := step_pop lim rfl rfl h.idle
  have hworker : s₂.workers w = some (getTask c conn) := Function.update_self w _ _
  have hqueued : s₂.connections c = queued := setConnection_self s c queued
  have h₃ : s₂.step lim (.finish w .fresh) = some s₃ := step_finish lim hworker hqueued .fresh
  have hposted : answered.posted = [handler] := congrArg (· ++ [handler]) h.posted
  have h₄ := step_runPosted lim (s := s₃) h.running (setConnection_self s₂ c answered) hposted
  refine ⟨_, run_cons_eq_some.mpr ⟨s₁, h₁, run_cons_eq_some.mpr ⟨s₂, h₂,
    run_cons_eq_some.mpr ⟨s₃, h₃, run_cons_eq_some.mpr ⟨_, h₄, rfl⟩⟩⟩⟩, ?_⟩
  obtain ⟨_, _, _, hdeliver⟩ := (answered.takePosted 0).deliver_frame handler
  rw [hdeliver]
  have hself := setConnection_self s₃ c
  refine ⟨h.running, rfl, Function.update_self w _ _, ?_, ?_, ?_, ?_, ?_⟩
  · rw [hself]
    exact Nat.succ_pos _
  · rw [hself]
    exact h.opened
  · rw [hself]
    exact congrArg (List.eraseIdx · 0) hposted
  · rw [hself]
    exact congrArg (· + 1) h.issued
  · intro k hk
    rw [hself]
    apply isSome_lookup_emplace
    rcases Nat.lt_succ_iff_lt_or_eq.mp hk with hlt | heq
    · exact .inr (h.buffered k hlt)
    · exact .inl (heq.trans h.issued.symm)

theorem unread_accept (lim : Limits) (c : κ) (w : ω) :
    ∃ t, run (step lim) initial [.accept c] = some t ∧ Unread c w 0 t := by
  refine ⟨_, rfl, rfl, rfl, rfl, ?_, ?_, ?_, ?_, nofun⟩
  all_goals simp [initial, HttpConnection.initial, HttpConnection.start, HttpConnection.read]

/-- One worker is enough for the map to outgrow every bound. -/
theorem not_responses_bounded (lim : Limits) (c : κ) (w : ω) :
    ¬ ∃ bound, ∀ actions (s : RequestServer κ ω), run (step lim) initial actions = some s →
      (s.connections c).responses.entries.length ≤ bound := by
  rintro ⟨bound, hbound⟩
  obtain ⟨actions, s, hrun, hunread⟩ := exists_run_rounds ⟨_, unread_accept lim c w⟩
    (fun n t (h : Unread c w n t) => ⟨_, h.round lim⟩) (bound + 1)
  have hlarge := length_le_of_lookup List.nodup_range
    fun k hk => hunread.buffered k (List.mem_range.mp hk)
  rw [List.length_range] at hlarge
  exact absurd (hbound actions s hrun) (Nat.not_le.mpr hlarge)

end RequestServer

/-! Without workers only the request that was refused is answered, and nothing is read after it. -/

namespace HttpConnection

/-- What is being read, posted or buffered: nothing before the start, then one at a time. -/
def AtMostOne (conn : HttpConnection) : Prop :=
  conn.reads + conn.posted.length + conn.responses.entries.length ≤ if conn.started then 1 else 0

theorem AtMostOne.event {κ ω : Type*} [IsEmpty ω] {c : κ} {a : ServerAction κ ω}
    {conn conn' : HttpConnection} (h : AtMostOne conn) (hevent : Event c a conn conn') :
    AtMostOne conn' := by
  unfold AtMostOne at h
  cases hevent with
  | none => exact h
  | started _ hstarted =>
    rw [hstarted, if_neg Bool.false_ne_true] at h
    change conn.reads + 1 + conn.posted.length + conn.responses.entries.length ≤ 1
    omega
  | ended _ _ hreads =>
    refine le_trans ?_ h
    simp [takeRead, close]
  | refused request _ _ hreads =>
    refine le_trans ?_ h
    simp only [rejectOverloaded, arrive, takeRead, List.length_append, List.length_singleton]
    omega
  | queued request _ _ hreads =>
    refine le_trans ?_ h
    simp only [read, arrive, takeRead]
    omega
  | finished w _ _ _ _ _ => exact isEmptyElim w
  | delivered i handler _ hi =>
    obtain ⟨_, _, _, hdeliver⟩ := (conn.takePosted i).deliver_frame handler
    rw [hdeliver]
    refine le_trans ?_ h
    have hlength := List.length_eraseIdx_add_one (List.getElem?_eq_some_iff.mp hi).1
    have hmap := length_emplace_le conn.responses handler.sequenceId handler.response
    simp only [takePosted]
    omega
  | wrote i response ok _ _ =>
    obtain ⟨_, _, _, _, responses, _, hmap, hhandler⟩ :=
      (conn.takeWrite i).writeHandler_frame response ok
    rw [hhandler]
    refine le_trans ?_ h
    have hlength : responses.entries.length ≤ conn.responses.entries.length := by
      rcases hmap with rfl | rfl
      · exact le_rfl
      · exact length_erase_le conn.responses _
    exact Nat.add_le_add_left hlength _

end HttpConnection

namespace RequestServer

variable {κ ω : Type*} [DecidableEq κ] [DecidableEq ω]

theorem responses_le_one [Fintype ω] [IsEmpty ω] {lim : Limits} {s : RequestServer κ ω}
    {actions : List (ServerAction κ ω)} (hrun : run (step lim) initial actions = some s) (c : κ) :
    (s.connections c).responses.entries.length ≤ 1 := by
  have hone : (s.connections c).AtMostOne :=
    inv_initial.run_event (fun _ _ _ h => h.event) (Nat.zero_le _) hrun
  unfold HttpConnection.AtMostOne at hone
  split_ifs at hone <;> omega

end RequestServer

/-! ## Messages -/

namespace PersistentServer

variable {κ : Type*} [DecidableEq κ] {c : κ} {n : ℕ} {s : PersistentServer κ}

/-- The client has been sent `n` messages and has read none of them. The queue is empty. -/
structure Unread (c : κ) (n : ℕ) (s : PersistentServer κ) : Prop where
  running : s.running = true
  queue : s.incomingPacketsQueue = .empty
  active : c ∈ s.activeSessions
  reading : 0 < (s.sessions c).reads
  posted : (s.sessions c).posted = []
  buffered : (s.sessions c).writeQueue.length = n

/-- The client sends a packet, which the update loop passes on to everyone. -/
def relayedPacket (c : κ) : List (PersistentAction κ) :=
  [.readDone c (some []), .waitAndPop, .broadcast [], .runPosted c 0]

theorem Unread.step_readDone (h : Unread c n s) (lim : Limits) :
    s.step lim (.readDone c (some [])) = some
      { s.setSession c ((s.sessions c).readData [] true) with
        incomingPacketsQueue := ⟨[⟨c, []⟩], false, 0⟩ } := by
  have hpush : s.incomingPacketsQueue.tryPushBack lim ⟨c, []⟩ = (true, ⟨[⟨c, []⟩], false, 0⟩) := by
    rw [h.queue]
    exact ThreadSafeQueue.tryPushBack_empty lim rfl
  simp only [step, h.running, h.reading, and_self, if_true, WebsocketSession.readHandler_some, hpush]

theorem step_waitAndPop (lim : Limits) {packet : IncomingPacket κ}
    (hqueue : s.incomingPacketsQueue = ⟨[packet], false, 0⟩)
    (hbytes : QueueSizeTraits.get packet = 0) :
    s.step lim .waitAndPop = some { s with
      incomingPacketsQueue := .empty
      consumed := s.consumed ++ [packet] } := by
  simp only [step, consume, ThreadSafeQueue.exec, hqueue,
    ThreadSafeQueue.waitAndPop_singleton lim hbytes]

theorem step_runPosted (lim : Limits) {session session' : WebsocketSession} {message : Message}
    (hrunning : s.running = true) (hsession : s.sessions c = session)
    (hposted : session.posted = [message])
    (hhandler : (session.takePosted 0).sendHandler message = some session') :
    s.step lim (.runPosted c 0) = some (s.setSession c session') := by
  simp only [step, hrunning, hsession, hposted, List.getElem?_cons_zero, hhandler, Option.map_some]

/-- One more message is in the queue after a round. -/
theorem Unread.round (h : Unread c n s) (lim : Limits) :
    ∃ t, run (step lim) s (relayedPacket c) = some t ∧ Unread c (n + 1) t := by
  -- the packet is queued, taken by the update loop and sent, and the message put into the queue
  let read := (s.sessions c).readData [] true
  let s₁ : PersistentServer κ :=
    { s.setSession c read with incomingPacketsQueue := ⟨[⟨c, []⟩], false, 0⟩ }
  let s₂ : PersistentServer κ :=
    { s₁ with incomingPacketsQueue := .empty, consumed := s₁.consumed ++ [⟨c, []⟩] }
  let s₃ : PersistentServer κ := s₂.broadcast []
  have h₁ : s.step lim _ = some s₁ := h.step_readDone lim
  have h₂ : s₁.step lim .waitAndPop = some s₂ := step_waitAndPop lim rfl rfl
  have h₃ : s₂.step lim (.broadcast []) = some s₃ := rfl
  have hsent : s₃.sessions c = read.send [] := by
    simp only [s₃, broadcast, if_pos (show c ∈ s₂.activeSessions from h.active)]
    exact congrArg (·.send []) (setSession_self s c read)
  have hposted : (read.send []).posted = [[]] := congrArg (· ++ [[]]) h.posted
  have h₄ := step_runPosted lim (s := s₃) h.running hsent hposted
    (WebsocketSession.sendHandler_eq _ 0 [])
  refine ⟨_, run_cons_eq_some.mpr ⟨s₁, h₁, run_cons_eq_some.mpr ⟨s₂, h₂,
    run_cons_eq_some.mpr ⟨s₃, h₃, run_cons_eq_some.mpr ⟨_, h₄, rfl⟩⟩⟩⟩, ?_⟩
  have hself := setSession_self s₃ c
  refine ⟨h.running, rfl, h.active, ?_, ?_, ?_⟩
  · rw [hself]
    exact Nat.succ_pos _
  · rw [hself]
    exact congrArg (List.eraseIdx · 0) hposted
  · rw [hself, List.length_append]
    exact congrArg (· + 1) h.buffered

theorem unread_handshake (lim : Limits) (c : κ) :
    ∃ t, run (step lim) initial [.acceptDone (some c), .handshakeDone c true] = some t ∧
      Unread c 0 t := by
  let s₁ : PersistentServer κ := initial.setupClientConnection c
  let s₂ := s₁.setSession c ((s₁.sessions c).acceptHandler true)
  have hstarted : s₁.sessions c = WebsocketSession.initial.start :=
    setSession_self { initial with activeSessions := [c] } c _
  have h₁ : initial.step lim (.acceptDone (some c)) = some s₁ := rfl
  have h₂ : s₁.step lim (.handshakeDone c true) = some s₂ :=
    if_pos ⟨rfl, congrArg WebsocketSession.handshake hstarted⟩
  refine ⟨s₂, run_cons_eq_some.mpr ⟨s₁, h₁, run_cons_eq_some.mpr ⟨s₂, h₂, rfl⟩⟩, ?_⟩
  have hself : s₂.sessions c = WebsocketSession.initial.start.acceptHandler true := by
    rw [← hstarted]
    exact setSession_self s₁ c _
  refine ⟨rfl, rfl, List.mem_singleton_self c, ?_, ?_, ?_⟩
  · rw [hself]
    exact Nat.one_pos
  · rw [hself]
    rfl
  · rw [hself]
    rfl

/-- The limits of the incoming queue do not bound what waits for a client that does not read. -/
theorem not_writeQueue_bounded (lim : Limits) (c : κ) :
    ¬ ∃ bound, ∀ actions (s : PersistentServer κ), run (step lim) initial actions = some s →
      (s.sessions c).writeQueue.length ≤ bound := by
  rintro ⟨bound, hbound⟩
  obtain ⟨actions, s, hrun, hunread⟩ := exists_run_rounds ⟨_, unread_handshake lim c⟩
    (fun n t (h : Unread c n t) => ⟨_, h.round lim⟩) (bound + 1)
  exact absurd (hbound actions s hrun) (Nat.not_le.mpr hunread.buffered.ge)

end PersistentServer

/-! ## Both servers -/

/-- The responses of a connection are bounded exactly if the server has no workers, and the messages
of a session are not, whatever the limits of the incoming queues. -/
theorem outgoing_bounded_iff {κ ω : Type*} [DecidableEq κ] [DecidableEq ω] [Fintype ω]
    (requests packets : Limits) (c : κ) :
    ((∃ bound, ∀ actions (s : RequestServer κ ω),
        run (RequestServer.step requests) RequestServer.initial actions = some s →
        (s.connections c).responses.entries.length ≤ bound) ↔ Fintype.card ω = 0) ∧
      ¬ ∃ bound, ∀ actions (s : PersistentServer κ),
        run (PersistentServer.step packets) PersistentServer.initial actions = some s →
        (s.sessions c).writeQueue.length ≤ bound := by
  refine ⟨⟨?_, ?_⟩, PersistentServer.not_writeQueue_bounded packets c⟩
  · intro hbounded
    rw [Fintype.card_eq_zero_iff]
    exact ⟨fun w => RequestServer.not_responses_bounded requests c w hbounded⟩
  · intro hzero
    have hempty := Fintype.card_eq_zero_iff.mp hzero
    exact ⟨1, fun actions s hrun => RequestServer.responses_le_one hrun c⟩

/-- A single worker and a queue for a single request. -/
theorem outgoing_unbounded_small_queue :
    (¬ ∃ bound, ∀ actions (s : RequestServer Unit Unit),
      run (RequestServer.step ⟨true, true, 1, 64⟩) RequestServer.initial actions = some s →
      (s.connections ()).responses.entries.length ≤ bound) ∧
    ¬ ∃ bound, ∀ actions (s : PersistentServer Unit),
      run (PersistentServer.step ⟨true, true, 1, 64⟩) PersistentServer.initial actions = some s →
      (s.sessions ()).writeQueue.length ≤ bound :=
  ⟨RequestServer.not_responses_bounded _ () (), PersistentServer.not_writeQueue_bounded _ ()⟩

end ServerSimple.Network
