import ServerSimple.Library.Runs
import ServerSimple.Network.WebsocketSession

/-! # The persistent server

The context thread accepts connections and runs the completion handlers of the sessions, in any order;
the update loop calls `broadcast`, `send` and the pops of the incoming queue. A session is put among
the active ones before its handshake has begun. `update` belongs to the application, so the calls of
the update loop are chosen by the environment; so are the clients and what their sockets deliver.
-/

namespace ServerSimple.Network

open Library ThreadSafe

/-- A call of one of the hooks of the application. -/
inductive Hook (κ : Type*) where
  | clientConnected (c : κ)
  | clientDisconnected (c : κ)
  deriving DecidableEq

/-- `κ` names the sessions. -/
structure PersistentServer (κ : Type*) where
  running : Bool
  /-- The outstanding `async_accept` operations of the acceptor. -/
  accepts : ℕ
  sessions : κ → WebsocketSession
  activeSessions : List κ
  incomingPacketsQueue : ThreadSafeQueue (IncomingPacket κ)
  /-- The calls of `on_client_connected` and `on_client_disconnected` so far. -/
  hooks : List (Hook κ)
  /-- The packets that the update loop has taken out of the queue so far. -/
  consumed : List (IncomingPacket κ)

inductive PersistentAction (κ : Type*) where
  /-- The acceptor completes, with the new connection or an error code. -/
  | acceptDone (client : Option κ)
  /-- The websocket handshake of a session completes. -/
  | handshakeDone (c : κ) (ok : Bool)
  /-- A read completes, with the message or an error code. -/
  | readDone (c : κ) (result : Option Message)
  /-- The context runs the `i`-th of the handlers that `send` has posted. -/
  | runPosted (c : κ) (i : ℕ)
  /-- The `i`-th of the outstanding writes completes. -/
  | writeDone (c : κ) (i : ℕ) (ok : Bool)
  | broadcast (message : Message)
  | send (c : κ) (message : Message)
  | popFront
  | waitAndPop
  | stopContext
  | stopQueue

namespace PersistentServer

variable {κ : Type*}

/-- A launched server without clients. -/
def initial : PersistentServer κ := ⟨true, 1, fun _ => .initial, [], .empty, [], []⟩

variable [DecidableEq κ]

/-- Each active session is sent the message. -/
def broadcast (s : PersistentServer κ) (message : Message) : PersistentServer κ :=
  { s with sessions := fun c =>
      if c ∈ s.activeSessions then (s.sessions c).send message else s.sessions c }

def setSession (s : PersistentServer κ) (c : κ) (session : WebsocketSession) :
    PersistentServer κ :=
  { s with sessions := Function.update s.sessions c session }

/-- `setup_client_connection` for a new session. -/
def setupClientConnection (s : PersistentServer κ) (c : κ) : PersistentServer κ :=
  let s := { s with activeSessions := c :: s.activeSessions }
  let s := s.setSession c (s.sessions c).start
  { s with hooks := s.hooks ++ [.clientConnected c] }

/-- A pop by the update loop. It returns a packet, or throws, waits or returns nothing and leaves the
queue as it is. -/
def consume (s : PersistentServer κ) (popped : Outcome (IncomingPacket κ)) : PersistentServer κ :=
  match popped.result with
  | .item packet =>
    { s with incomingPacketsQueue := popped.queue, consumed := s.consumed ++ [packet] }
  | _ => { s with incomingPacketsQueue := popped.queue }

variable (lim : Limits)

def step (s : PersistentServer κ) : PersistentAction κ → Option (PersistentServer κ)
  | .acceptDone client =>
    if s.running = true ∧ 0 < s.accepts then
      -- the context runs, so the handler starts the next `async_accept`
      match client with
      | none => some s
      | some c =>
        if (s.sessions c).handshake = .unstarted then some (s.setupClientConnection c) else none
    else none
  | .handshakeDone c ok =>
    if s.running = true ∧ (s.sessions c).handshake = .pending then
      some (s.setSession c ((s.sessions c).acceptHandler ok))
    else none
  | .readDone c result =>
    if s.running = true ∧ 0 < (s.sessions c).reads then
      let handled := (s.sessions c).takeRead.readHandler lim c s.incomingPacketsQueue result
      some { s.setSession c handled.1 with incomingPacketsQueue := handled.2 }
    else none
  | .runPosted c i =>
    match s.running, (s.sessions c).posted[i]? with
    | true, some message =>
      (((s.sessions c).takePosted i).sendHandler message).map (s.setSession c)
    | _, _ => none
  | .writeDone c i ok =>
    match s.running, (s.sessions c).writes[i]? with
    | true, some _ => (((s.sessions c).takeWrite i).writeHandler ok).map (s.setSession c)
    | _, _ => none
  | .broadcast message => some (s.broadcast message)
  | .send c message =>
    if (s.sessions c).handshake ≠ .unstarted then
      some (s.setSession c ((s.sessions c).send message))
    else none
  | .popFront => some (s.consume (s.incomingPacketsQueue.exec lim .popFront))
  | .waitAndPop => some (s.consume (s.incomingPacketsQueue.exec lim .waitAndPop))
  | .stopContext => some { s with running := false }
  | .stopQueue =>
    if s.running = false then
      some { s with incomingPacketsQueue := s.incomingPacketsQueue.stop.2 }
    else none

/-! ## What a step does to one session -/

@[simp] theorem setSession_self (s : PersistentServer κ) (c : κ) (session : WebsocketSession) :
    (s.setSession c session).sessions c = session := by
  simp [setSession]

theorem setSession_of_ne (s : PersistentServer κ) {c d : κ} (session : WebsocketSession)
    (h : d ≠ c) : (s.setSession c session).sessions d = s.sessions d := by
  simp [setSession, h]

open WebsocketSession (SessionEvent Move)

/-- Which event an action is for which session; the handlers need a running context. -/
inductive Touches (s : PersistentServer κ) : PersistentAction κ → κ → SessionEvent → Prop
  | accept (c : κ) (h : s.running = true) : Touches s (.acceptDone (some c)) c .start
  | handshake (c : κ) (ok : Bool) (h : s.running = true) :
    Touches s (.handshakeDone c ok) c (.handshake ok)
  | readError (c : κ) (h : s.running = true) : Touches s (.readDone c none) c .readError
  | readData (c : κ) (data : Message) (accepted : Bool) (h : s.running = true) :
    Touches s (.readDone c (some data)) c (.readData data accepted)
  | posted (c : κ) (i : ℕ) (h : s.running = true) : Touches s (.runPosted c i) c .posted
  | write (c : κ) (i : ℕ) (ok : Bool) (h : s.running = true) :
    Touches s (.writeDone c i ok) c (.write ok)
  | broadcast (message : Message) {c : κ} (h : c ∈ s.activeSessions) :
    Touches s (.broadcast message) c (.send message)
  | send (c : κ) (message : Message) (h : (s.sessions c).handshake ≠ .unstarted) :
    Touches s (.send c message) c (.send message)

/-- A session is left alone unless it makes a move. -/
theorem setSession_move {s : PersistentServer κ} {c : κ} {session : WebsocketSession}
    {P : κ → SessionEvent → Prop} {e : SessionEvent} (h : Move e (s.sessions c) session)
    (he : P c e) (d : κ) :
    (s.setSession c session).sessions d = s.sessions d ∨
      ∃ e, P d e ∧ Move e (s.sessions d) ((s.setSession c session).sessions d) := by
  by_cases hd : d = c
  · subst hd
    rw [setSession_self]
    exact .inr ⟨e, he, h⟩
  · exact .inl (setSession_of_ne s session hd)

omit [DecidableEq κ] in
@[simp] theorem consume_sessions (s : PersistentServer κ) (popped : Outcome (IncomingPacket κ)) :
    (s.consume popped).sessions = s.sessions := by
  unfold consume
  split <;> rfl

omit [DecidableEq κ] in
@[simp] theorem consume_running (s : PersistentServer κ) (popped : Outcome (IncomingPacket κ)) :
    (s.consume popped).running = s.running := by
  unfold consume
  split <;> rfl

omit [DecidableEq κ] in
@[simp] theorem consume_hooks (s : PersistentServer κ) (popped : Outcome (IncomingPacket κ)) :
    (s.consume popped).hooks = s.hooks := by
  unfold consume
  split <;> rfl

omit [DecidableEq κ] in
@[simp] theorem consume_activeSessions (s : PersistentServer κ)
    (popped : Outcome (IncomingPacket κ)) :
    (s.consume popped).activeSessions = s.activeSessions := by
  unfold consume
  split <;> rfl

/-- What an action does to everything but the sessions. -/
def outside (s : PersistentServer κ) : PersistentAction κ → PersistentServer κ
  | .acceptDone (some c) => { s with
      activeSessions := c :: s.activeSessions
      hooks := s.hooks ++ [.clientConnected c] }
  | .readDone c (some data) => { s with
      incomingPacketsQueue := (s.incomingPacketsQueue.tryPushBack lim ⟨c, data⟩).2 }
  | .popFront => s.consume (s.incomingPacketsQueue.exec lim .popFront)
  | .waitAndPop => s.consume (s.incomingPacketsQueue.exec lim .waitAndPop)
  | .stopContext => { s with running := false }
  | .stopQueue => { s with incomingPacketsQueue := s.incomingPacketsQueue.stop.2 }
  | _ => s

/-- Each step leaves a session alone or makes one of its moves, and changes the rest as the action
says. -/
theorem step_cases {s t : PersistentServer κ} {a : PersistentAction κ}
    (h : s.step lim a = some t) :
    (∀ d, t.sessions d = s.sessions d ∨
      ∃ e, s.Touches a d e ∧ Move e (s.sessions d) (t.sessions d)) ∧
    { t with sessions := s.sessions } = s.outside lim a := by
  cases a with
  | acceptDone client =>
    simp only [step, Option.ite_none_right_eq_some] at h
    cases client with
    | none =>
      cases h.2
      exact ⟨fun _ => .inl rfl, rfl⟩
    | some c =>
      simp only [Option.ite_none_right_eq_some, Option.some.injEq] at h
      rw [← h.2.2]
      exact ⟨setSession_move (s := { s with activeSessions := c :: s.activeSessions })
        (.start h.2.1) (.accept c h.1.1), rfl⟩
  | handshakeDone c ok =>
    simp only [step, Option.ite_none_right_eq_some, Option.some.injEq] at h
    rw [← h.2]
    exact ⟨setSession_move (.handshake ok h.1.2) (.handshake c ok h.1.1), rfl⟩
  | readDone c result =>
    simp only [step, Option.ite_none_right_eq_some, Option.some.injEq] at h
    rw [← h.2]
    cases result with
    | none => exact ⟨setSession_move (.readError h.1.2) (.readError c h.1.1), rfl⟩
    | some data =>
      rw [WebsocketSession.readHandler_some]
      exact ⟨setSession_move (.readData data _ h.1.2) (.readData c data _ h.1.1), rfl⟩
  | runPosted c i =>
    simp only [step] at h
    split at h
    · rename_i message hrunning hposted
      obtain ⟨session, hsession, rfl⟩ := Option.map_eq_some_iff.mp h
      exact ⟨setSession_move (.posted hposted hsession) (.posted c i hrunning), rfl⟩
    · cases h
  | writeDone c i ok =>
    simp only [step] at h
    split at h
    · rename_i message hrunning hwrites
      obtain ⟨session, hsession, rfl⟩ := Option.map_eq_some_iff.mp h
      exact ⟨setSession_move (.write ok hwrites hsession) (.write c i ok hrunning), rfl⟩
    · cases h
  | broadcast message =>
    cases h
    refine ⟨fun d => ?_, rfl⟩
    by_cases hd : d ∈ s.activeSessions
    · refine .inr ?_
      simp only [broadcast, if_pos hd]
      exact ⟨.send message, .broadcast message hd, .send message⟩
    · refine .inl ?_
      simp only [broadcast, if_neg hd]
  | send c message =>
    simp only [step, Option.ite_none_right_eq_some, Option.some.injEq] at h
    rw [← h.2]
    exact ⟨setSession_move (.send message) (.send c message h.1), rfl⟩
  | popFront =>
    cases h
    refine ⟨fun d => .inl (by rw [consume_sessions]), ?_⟩
    rw [← consume_sessions s (s.incomingPacketsQueue.exec lim .popFront)]
    rfl
  | waitAndPop =>
    cases h
    refine ⟨fun d => .inl (by rw [consume_sessions]), ?_⟩
    rw [← consume_sessions s (s.incomingPacketsQueue.exec lim .waitAndPop)]
    rfl
  | stopContext =>
    cases h
    exact ⟨fun _ => .inl rfl, rfl⟩
  | stopQueue =>
    simp only [step, Option.ite_none_right_eq_some, Option.some.injEq] at h
    rw [← h.2]
    exact ⟨fun _ => .inl rfl, rfl⟩

theorem step_move {s t : PersistentServer κ} {a : PersistentAction κ}
    (h : s.step lim a = some t) (d : κ) :
    t.sessions d = s.sessions d ∨ ∃ e, s.Touches a d e ∧ Move e (s.sessions d) (t.sessions d) :=
  (step_cases lim h).1 d

variable {lim}

theorem step_outside {s t : PersistentServer κ} {a : PersistentAction κ}
    (h : s.step lim a = some t) : { t with sessions := s.sessions } = s.outside lim a :=
  (step_cases lim h).2

/-- A stopped context is not started again. -/
theorem step_running {s t : PersistentServer κ} {a : PersistentAction κ}
    (h : s.step lim a = some t) (ht : t.running = true) : s.running = true := by
  have hrunning : t.running = (s.outside lim a).running := by
    rw [← step_outside h]
  rw [hrunning] at ht
  revert ht
  unfold outside
  split <;> simp

/-- What every move of a session preserves, every run preserves. -/
theorem run_session {P : WebsocketSession → Prop}
    (hmove : ∀ e session session', P session → Move e session session' → P session')
    {s t : PersistentServer κ} {actions : List (PersistentAction κ)} {c : κ}
    (hs : P (s.sessions c)) (hrun : run (step lim) s actions = some t) : P (t.sessions c) := by
  have hstep : ∀ s a t, P (s.sessions c) → step lim s a = some t → P (t.sessions c) := by
    intro s a t hs hstep
    rcases step_move lim hstep c with hsame | ⟨e, _, he⟩
    · rw [hsame]
      exact hs
    · exact hmove e _ _ hs he
  exact run_invariant hstep hs hrun

end PersistentServer
end ServerSimple.Network
