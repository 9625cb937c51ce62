import ServerSimple.Network.RateLimiter
import ServerSimple.Network.RequestServer

/-! # The context thread of the request server

`launch` starts the first `async_accept` and runs the context on a thread of its own, without a
handler for exceptions: one that leaves a completion handler ends the process. This is the request
server with its accept loop, its limiter of connections and the exceptions of every handler.
`remote_endpoint` throws when the socket is closed or the peer is gone, and `prepare_payload` throws
on a body that the status does not allow.
-/

namespace ServerSimple.Network

open Library ThreadSafe

/-- `socket->remote_endpoint().address().to_string()` on an open socket. -/
def remoteEndpoint : Option String → Except String String
  | none => .error "remote_endpoint: Transport endpoint is not connected"
  | some ip => .ok ip

/-- The status codes whose response has no body: 1xx, 204 and 304. -/
def HttpResponse.forbidsBody (response : HttpResponse) : Bool :=
  (100 ≤ response.result && response.result < 200) || response.result == 204 ||
    response.result == 304

/-- `prepare_payload`, which sets the `Content-Length` that is left out here. -/
def HttpResponse.preparePayload (response : HttpResponse) : Except String HttpResponse :=
  if response.forbidsBody && response.body != "" then .error "invalid response body"
  else .ok response

/-- What the computation throws, if it does. -/
def thrown {α : Type*} : Except String α → Option String
  | .error what => some what
  | .ok _ => none

namespace HttpConnection

/-- The exception that leaves `write`. -/
def writeThrows (conn : HttpConnection) : Option String :=
  match conn.responses.lookup conn.nextResponseSequenceId with
  | none => none
  | some response => thrown response.preparePayload

/-- The exception that leaves a posted handler. -/
def deliverThrows (conn : HttpConnection) (handler : Posted) : Option String :=
  let conn := { conn with
    responses := emplace conn.responses handler.sequenceId handler.response }
  if conn.writing then none else conn.writeThrows

/-- The exception that leaves the completion handler of `async_write`. -/
def writeHandlerThrows (conn : HttpConnection) (response : HttpResponse) (ok : Bool) :
    Option String :=
  if ok ∧ response.keepAlive then
    writeThrows { conn with
      responses := conn.responses.erase conn.nextResponseSequenceId
      nextResponseSequenceId := conn.nextResponseSequenceId + 1 }
  else none

end HttpConnection

/-- The exception that leaves the handler which an action runs on the context thread. -/
def RequestServer.throws {κ ω : Type*} (s : RequestServer κ ω) : ServerAction κ ω → Option String
  | .readDone c (some _) endpoint =>
    if s.running ∧ 0 < (s.connections c).reads then
      thrown ((s.connections c).takeRead.getClientIp endpoint)
    else none
  | .runPosted c i =>
    match s.running, (s.connections c).posted[i]? with
    | true, some handler => ((s.connections c).takePosted i).deliverThrows handler
    | _, _ => none
  | .writeDone c i ok =>
    match s.running, (s.connections c).writes[i]? with
    | true, some response => ((s.connections c).takeWrite i).writeHandlerThrows response ok
    | _, _ => none
  | _ => none

structure ContextThread (κ ω : Type*) where
  server : RequestServer κ ω
  ipRateLimiter : RateLimiter
  /-- The outstanding `async_accept` operations of the acceptor. -/
  accepts : ℕ
  /-- The exception that has left a completion handler. -/
  escaped : Option String

inductive ContextEvent (κ ω : Type*) where
  /-- The acceptor completes at the given time: with an error code, or with a connection and the
  endpoint that `remote_endpoint` finds when the handler runs. -/
  | acceptDone (now : ℚ) (result : Option (κ × Option String))
  /-- The cleanup thread of the limiter goes over its entries. -/
  | limiterCleanup (now : ℚ)
  /-- Anything else that happens to the server. -/
  | server (action : ServerAction κ ω)

namespace ContextThread

variable {κ ω : Type*}

/-- The server as `launch` leaves it. -/
def initial : ContextThread κ ω := ⟨.initial, .initial, 1, none⟩

/-- The completion handler of the acceptor ends with `start_accept_async`, unless it throws. -/
def startAcceptAsync (s : ContextThread κ ω) : ContextThread κ ω :=
  { s with accepts := s.accepts + 1 }

/-- The outstanding `async_accept` is over. -/
def takeAccept (s : ContextThread κ ω) : ContextThread κ ω := { s with accepts := s.accepts - 1 }

variable [DecidableEq κ] [DecidableEq ω] (limits : RateLimits) (lim : Limits)

/-- The completion handler of the acceptor. -/
def acceptHandler (s : ContextThread κ ω) (now : ℚ) :
    Option (κ × Option String) → ContextThread κ ω
  | none => s.startAcceptAsync
  | some (c, endpoint) =>
    match remoteEndpoint endpoint with
    | .error what => { s with escaped := some what }
    | .ok clientIp =>
      match s.ipRateLimiter.consume limits ⟨now, clientIp, 1⟩ with
      | (false, limiter) => startAcceptAsync { s with ipRateLimiter := limiter }
      | (true, limiter) =>
        startAcceptAsync { s with
          ipRateLimiter := limiter
          server := s.server.setConnection c (s.server.connections c).start }

/-- Nothing happens any more once an exception has escaped. -/
def step (s : ContextThread κ ω) : ContextEvent κ ω → Option (ContextThread κ ω)
  | .acceptDone now result =>
    if s.escaped = none ∧ s.server.running = true ∧ 0 < s.accepts ∧
        (∀ client ∈ result, (s.server.connections client.1).started = false) then
      some (s.takeAccept.acceptHandler limits now result)
    else none
  | .limiterCleanup now =>
    if s.escaped = none then some { s with ipRateLimiter := s.ipRateLimiter.cleanup limits now }
    else none
  | .server (.accept _) => none
  | .server action =>
    if s.escaped = none then
      match s.server.throws action with
      | some what => some { s with escaped := some what }
      | none => (s.server.step lim action).map fun server => { s with server }
    else none

/-! ## The server below -/

variable {limits lim} {s t : ContextThread κ ω}

/-- Every other step either lets an exception escape or is a step of the server. -/
theorem step_server {action : ServerAction κ ω}
    (hstep : s.step limits lim (.server action) = some t) :
    s.escaped = none ∧ ((∃ what, s.server.throws action = some what ∧
        t = { s with escaped := some what }) ∨
      (s.server.throws action = none ∧ ∃ server, s.server.step lim action = some server ∧
        t = { s with server })) := by
  cases action with
  | accept c => cases hstep
  | _ =>
    simp only [step, Option.ite_none_right_eq_some] at hstep
    obtain ⟨hkept, hstep⟩ := hstep
    refine ⟨hkept, ?_⟩
    split at hstep
    · rename_i what hthrows
      cases hstep
      exact .inl ⟨what, hthrows, rfl⟩
    · rename_i hthrows
      obtain ⟨server, hserver, rfl⟩ := Option.map_eq_some_iff.mp hstep
      exact .inr ⟨hthrows, server, hserver, rfl⟩

omit [DecidableEq ω] in
/-- An accepted connection is started, and a refused one leaves the server alone. -/
theorem acceptHandler_server (s : ContextThread κ ω) (now : ℚ)
    (result : Option (κ × Option String)) :
    (s.takeAccept.acceptHandler limits now result).server = s.server ∨
      ∃ client ∈ result, (s.takeAccept.acceptHandler limits now result).server =
        s.server.setConnection client.1 (s.server.connections client.1).start := by
  match result with
  | none => exact .inl rfl
  | some (c, none) => exact .inl rfl
  | some (c, some clientIp) =>
    simp only [acceptHandler, remoteEndpoint]
    split
    · exact .inl rfl
    · exact .inr ⟨(c, some clientIp), rfl, rfl⟩

/-- Every run of the context thread is a run of the request server. -/
theorem run_server {events : List (ContextEvent κ ω)}
    (hrun : run (step limits lim) s events = some t) :
    ∃ actions, run (RequestServer.step lim) s.server actions = some t.server := by
  induction events generalizing s with
  | nil =>
    rw [run_nil, Option.some.injEq] at hrun
    exact ⟨[], by rw [hrun, run_nil]⟩
  | cons e events ih =>
    obtain ⟨u, hstep, hrest⟩ := run_cons_eq_some.mp hrun
    obtain ⟨actions, hactions⟩ := ih hrest
    cases e with
    | acceptDone now result =>
      simp only [step, Option.ite_none_right_eq_some, Option.some.injEq] at hstep
      obtain ⟨⟨_, hrunning, _, hfresh⟩, rfl⟩ := hstep
      rcases acceptHandler_server s now result with hsame | ⟨client, hclient, hstart⟩
      · exact ⟨actions, by rw [← hsame, hactions]⟩
      · refine ⟨.accept client.1 :: actions, run_cons_eq_some.mpr ⟨_, ?_, hactions⟩⟩
        rw [hstart]
        exact if_pos ⟨hrunning, hfresh client hclient⟩
    | limiterCleanup now =>
      simp only [step, Option.ite_none_right_eq_some, Option.some.injEq] at hstep
      rw [← hstep.2] at hactions
      exact ⟨actions, hactions⟩
    | server action =>
      obtain ⟨_, ⟨what, _, rfl⟩ | ⟨_, server, hserver, rfl⟩⟩ := step_server hstep
      · exact ⟨actions, hactions⟩
      · exact ⟨action :: actions, run_cons_eq_some.mpr ⟨server, hserver, hactions⟩⟩

end ContextThread
end ServerSimple.Network
