import ServerSimple.Library.Runs
import ServerSimple.Library.Counting
import ServerSimple.Network.HttpConnection

/-! # The request server

Connections share one bounded queue of tasks with a pool of workers. A worker takes a task, runs
`process_client_request` for as long as it likes, and posts the response to the connection of the
task; the response is chosen by the environment, since `process_client_request` is virtual. Posted
handlers and completions of reads and writes run while the context does, in any order. The limits of
the queue and the number of workers are the constructor's parameters.
-/

namespace ServerSimple.Network

open Library ThreadSafe

/-- `κ` names the connections, `ω` the workers. -/
structure RequestServer (κ ω : Type*) where
  running : Bool
  requestQueue : ThreadSafeQueue (RequestTask κ)
  workers : ω → Option (RequestTask κ)
  connections : κ → HttpConnection

inductive ServerAction (κ ω : Type*) where
  /-- A connection is accepted and started. -/
  | accept (c : κ)
  /-- A read completes, with the endpoint that `remote_endpoint` would find. -/
  | readDone (c : κ) (result : Option HttpRequest) (endpoint : Option String)
  /-- `wait_and_pop` hands a task to a worker. -/
  | pop (w : ω)
  /-- `process_client_request` returns and the worker sends the response. -/
  | finish (w : ω) (response : HttpResponse)
  /-- The strand runs the `i`-th of the posted handlers. -/
  | runPosted (c : κ) (i : ℕ)
  /-- The `i`-th of the outstanding writes completes. -/
  | writeDone (c : κ) (i : ℕ) (ok : Bool)
  | stopContext
  | stopQueue

namespace RequestServer

variable {κ ω : Type*}

/-- A launched server without clients. -/
def initial : RequestServer κ ω := ⟨true, .empty, fun _ => none, fun _ => .initial⟩

variable [DecidableEq κ]

def setConnection (s : RequestServer κ ω) (c : κ) (conn : HttpConnection) : RequestServer κ ω :=
  { s with connections := Function.update s.connections c conn }

@[simp] theorem setConnection_running (s : RequestServer κ ω) (c : κ) (conn : HttpConnection) :
    (s.setConnection c conn).running = s.running := rfl

@[simp] theorem setConnection_requestQueue (s : RequestServer κ ω) (c : κ)
    (conn : HttpConnection) : (s.setConnection c conn).requestQueue = s.requestQueue := rfl

@[simp] theorem setConnection_workers (s : RequestServer κ ω) (c : κ) (conn : HttpConnection) :
    (s.setConnection c conn).workers = s.workers := rfl

@[simp] theorem setConnection_self (s : RequestServer κ ω) (c : κ) (conn : HttpConnection) :
    (s.setConnection c conn).connections c = conn := by
  simp [setConnection]

theorem setConnection_of_ne (s : RequestServer κ ω) {c d : κ} (conn : HttpConnection)
    (h : d ≠ c) : (s.setConnection c conn).connections d = s.connections d := by
  simp [setConnection, h]

variable [DecidableEq ω] (lim : Limits)

def step (s : RequestServer κ ω) : ServerAction κ ω → Option (RequestServer κ ω)
  | .accept c =>
    if s.running ∧ (s.connections c).started = false then
      some (s.setConnection c (s.connections c).start)
    else none
  | .readDone c result endpoint =>
    if s.running ∧ 0 < (s.connections c).reads then
      match (s.connections c).takeRead.readHandler lim c s.requestQueue result endpoint with
      -- the exception leaves `io_context::run` on the context thread and ends the process
      | .error _ => none
      | .ok (conn, queue) => some { s.setConnection c conn with requestQueue := queue }
    else none
  | .pop w =>
    match s.workers w, (s.requestQueue.waitAndPop lim).result with
    | none, .item task =>
      some { s with
        requestQueue := (s.requestQueue.waitAndPop lim).queue
        workers := Function.update s.workers w (some task) }
    | _, _ => none
  | .finish w response =>
    match s.workers w with
    | none => none
    | some task =>
      let conn := (s.connections task.connection).answered task.arrival response
      some { s.setConnection task.connection (conn.sendResponse response task.sequenceId) with
        workers := Function.update s.workers w none }
  | .runPosted c i =>
    match s.running, (s.connections c).posted[i]? with
    | true, some handler =>
      some (s.setConnection c (((s.connections c).takePosted i).deliver handler))
    | _, _ => none
  | .writeDone c i ok =>
    match s.running, (s.connections c).writes[i]? with
    | true, some response =>
      some (s.setConnection c (((s.connections c).takeWrite i).writeHandler response ok))
    | _, _ => none
  | .stopContext => some { s with running := false }
  | .stopQueue =>
    if s.running = false then some { s with requestQueue := s.requestQueue.stop.2 } else none

/-- The tasks of a connection with a given sequence id that are queued or held by a worker. -/
def pending [Fintype ω] (s : RequestServer κ ω) (c : κ) (k : ℕ) : ℕ :=
  s.requestQueue.dequeue.countP (fun t => t.connection = c ∧ t.sequenceId = k) +
    occurrences (fun o => ∃ t ∈ o, t.connection = c ∧ t.sequenceId = k) s.workers

/-- A task that is queued or held by a worker. -/
def InFlight (s : RequestServer κ ω) (task : RequestTask κ) : Prop :=
  task ∈ s.requestQueue.dequeue ∨ ∃ w, s.workers w = some task

end RequestServer
end ServerSimple.Network
