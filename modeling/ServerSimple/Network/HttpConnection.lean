import ServerSimple.Library.Maps
import ServerSimple.ThreadSafe.Queue

/-! # One HTTP connection

The members of `http_connection` and its completion handlers, each as one atomic step because the
strand runs them one at a time. An asynchronous operation in progress is part of the state: reads
as a count, writes as the responses handed to `async_write`, and the handlers posted on the strand
as a list. `arrivals` and `written` only record history: the requests in the order in which they
were read, each with the response produced for it, and the responses in the order of `async_write`.
The counters are `uint64_t` in the code; they advance once per request and are kept unbounded here.
-/

namespace ServerSimple.Network

open Library ThreadSafe

/-- The parts of a request that the connection and the queue look at. -/
structure HttpRequest where
  version : ℕ
  target : String
  body : String
  deriving DecidableEq

/-- The `Content-Length` field that `prepare_payload` derives from the body is left out. -/
structure HttpResponse where
  version : ℕ
  result : ℕ
  contentType : String
  body : String
  keepAlive : Bool
  deriving DecidableEq

/-- A response as Beast constructs it: HTTP/1.1, status 200, persistent. -/
def HttpResponse.fresh : HttpResponse := ⟨11, 200, "", "", true⟩

/-- `http_parser::set_response_server_overloaded`. -/
def setResponseServerOverloaded (response : HttpResponse) : HttpResponse :=
  { response with result := 503, contentType := "text/plain", body := "Server overloaded" }

/-- The response that `reject_overloaded` builds for a refused request. -/
def overloadedResponse (requestVersion : ℕ) : HttpResponse :=
  { setResponseServerOverloaded { HttpResponse.fresh with version := requestVersion } with
    keepAlive := false }

/-- `request_task`. The last field is not in the code: it remembers how many requests had been read
on the connection before this one, independently of the sequence id. -/
structure RequestTask (κ : Type*) where
  connection : κ
  request : HttpRequest
  clientIp : String
  sequenceId : ℕ
  arrival : ℕ

/-- A task is accounted with the size of its request body. -/
instance {κ : Type*} : QueueSizeTraits (RequestTask κ) :=
  ⟨fun task => UInt64.ofNat task.request.body.utf8ByteSize⟩

/-- A handler posted on the strand, with what its lambda captured. -/
inductive Posted where
  | sendResponse (response : HttpResponse) (sequenceId : ℕ)
  | rejectOverloaded (sequenceId : ℕ) (requestVersion : ℕ)

namespace Posted

def sequenceId : Posted → ℕ
  | .sendResponse _ sequenceId => sequenceId
  | .rejectOverloaded sequenceId _ => sequenceId

/-- The response that the handler puts into the map. -/
def response : Posted → HttpResponse
  | .sendResponse response _ => response
  | .rejectOverloaded _ requestVersion => overloadedResponse requestVersion

end Posted

/-- A request that was read, with the response produced for it once there is one. -/
structure Arrival where
  request : HttpRequest
  answer : Option HttpResponse

structure HttpConnection where
  responses : AList fun _ : ℕ => HttpResponse
  writing : Bool
  nextSequenceId : ℕ
  nextResponseSequenceId : ℕ
  /-- Whether `close()` has been called on the socket. -/
  closed : Bool
  started : Bool
  reads : ℕ
  writes : List HttpResponse
  posted : List Posted
  arrivals : List Arrival
  written : List HttpResponse

namespace HttpConnection

/-- A connection as its constructor leaves it. -/
def initial : HttpConnection := ⟨∅, false, 0, 0, false, false, 0, [], [], [], []⟩

/-- `get_client_ip`: `remote_endpoint` throws on a closed socket, and whenever the peer is gone
(no endpoint). -/
def getClientIp (conn : HttpConnection) (endpoint : Option String) : Except String String :=
  if conn.closed then .error "remote_endpoint: Bad file descriptor"
  else
    match endpoint with
    | none => .error "remote_endpoint: Transport endpoint is not connected"
    | some ip => .ok ip

def close (conn : HttpConnection) : HttpConnection := { conn with closed := true }

/-- Start the next `async_read`. -/
def read (conn : HttpConnection) : HttpConnection := { conn with reads := conn.reads + 1 }

def start (conn : HttpConnection) : HttpConnection := read { conn with started := true }

/-- Hand the response that is next in order to `async_write`, if it is there. -/
def write (conn : HttpConnection) : HttpConnection :=
  match conn.responses.lookup conn.nextResponseSequenceId with
  | none => { conn with writing := false }
  | some response =>
    { conn with
      writing := true
      writes := conn.writes ++ [response]
      written := conn.written ++ [response] }

/-- `send_response`, called by the worker that has the answer. -/
def sendResponse (conn : HttpConnection) (response : HttpResponse) (sequenceId : ℕ) :
    HttpConnection :=
  { conn with posted := conn.posted ++ [.sendResponse response sequenceId] }

def rejectOverloaded (conn : HttpConnection) (sequenceId requestVersion : ℕ) : HttpConnection :=
  { conn with posted := conn.posted ++ [.rejectOverloaded sequenceId requestVersion] }

/-- The body of a posted handler: buffer the response, and write unless a write is under way. -/
def deliver (conn : HttpConnection) (handler : Posted) : HttpConnection :=
  let conn := { conn with
    responses := emplace conn.responses handler.sequenceId handler.response }
  if conn.writing then conn else write conn

/-- The completion handler of `async_write`. -/
def writeHandler (conn : HttpConnection) (response : HttpResponse) (ok : Bool) : HttpConnection :=
  if ok then
    let conn := { conn with
      responses := conn.responses.erase conn.nextResponseSequenceId
      nextResponseSequenceId := conn.nextResponseSequenceId + 1 }
    if response.keepAlive then write conn else close conn
  else close conn

/-- The outstanding read is over. -/
def takeRead (conn : HttpConnection) : HttpConnection := { conn with reads := conn.reads - 1 }

/-- The strand has taken the `i`-th of the posted handlers. -/
def takePosted (conn : HttpConnection) (i : ℕ) : HttpConnection :=
  { conn with posted := conn.posted.eraseIdx i }

/-- The `i`-th of the outstanding writes is over. -/
def takeWrite (conn : HttpConnection) (i : ℕ) : HttpConnection :=
  { conn with writes := conn.writes.eraseIdx i }

/-- `next_sequence_id++`, with the request recorded as read. -/
def arrive (conn : HttpConnection) (request : HttpRequest) (answer : Option HttpResponse) :
    HttpConnection :=
  { conn with
    nextSequenceId := conn.nextSequenceId + 1
    arrivals := conn.arrivals ++ [⟨request, answer⟩] }

/-- Record that the request with the given arrival number has been answered. -/
def answered (conn : HttpConnection) (arrival : ℕ) (response : HttpResponse) : HttpConnection :=
  { conn with
    arrivals := conn.arrivals.modify arrival fun a => { a with answer := some response } }

/-- The response produced so far for the request with the given arrival number. -/
def answer (conn : HttpConnection) (arrival : ℕ) : Option HttpResponse :=
  conn.arrivals[arrival]?.bind Arrival.answer

variable {κ : Type*} (lim : Limits)

/-- The completion handler of `async_read`: `none` is an error code. An exception out of
`get_client_ip` is passed on to the caller. -/
def readHandler (c : κ) (conn : HttpConnection) (queue : ThreadSafeQueue (RequestTask κ))
    (result : Option HttpRequest) (endpoint : Option String) :
    Except String (HttpConnection × ThreadSafeQueue (RequestTask κ)) :=
  match result with
  | none => .ok (conn.close, queue)
  | some request =>
    match conn.getClientIp endpoint with
    | .error what => .error what
    | .ok clientIp =>
      let task : RequestTask κ :=
        ⟨c, request, clientIp, conn.nextSequenceId, conn.arrivals.length⟩
      match queue.tryPushBack lim task with
      | (false, queue) =>
        .ok ((conn.arrive request (some (overloadedResponse request.version))).rejectOverloaded
          task.sequenceId request.version, queue)
      | (true, queue) => .ok ((conn.arrive request none).read, queue)

/-- What a completed read can do: close on an error, refuse the request, or queue it. -/
theorem readHandler_cases {c : κ} {conn conn' : HttpConnection}
    {queue queue' : ThreadSafeQueue (RequestTask κ)} {result : Option HttpRequest}
    {endpoint : Option String}
    (h : readHandler lim c conn queue result endpoint = .ok (conn', queue')) :
    (result = none ∧ conn' = conn.close ∧ queue' = queue) ∨
    ∃ request, result = some request ∧
      ((conn' = (conn.arrive request (some (overloadedResponse request.version))).rejectOverloaded
          conn.nextSequenceId request.version ∧ queue' = queue) ∨
        ∃ clientIp, conn' = (conn.arrive request none).read ∧
          queue'.dequeue = queue.dequeue ++
            [⟨c, request, clientIp, conn.nextSequenceId, conn.arrivals.length⟩]) := by
  cases result with
  | none =>
    simp only [readHandler, Except.ok.injEq, Prod.mk.injEq] at h
    exact .inl ⟨rfl, h.1.symm, h.2.symm⟩
  | some request =>
    refine .inr ⟨request, rfl, ?_⟩
    simp only [readHandler] at h
    cases hip : conn.getClientIp endpoint with
    | error what => simp [hip] at h
    | ok clientIp =>
      simp only [hip] at h
      rcases ThreadSafeQueue.tryPush_cases lim queue ThreadSafeQueue.atBack
        ⟨c, request, clientIp, conn.nextSequenceId, conn.arrivals.length⟩ with hpush | ⟨_, hpush⟩
      · simp only [ThreadSafeQueue.tryPushBack, hpush, Except.ok.injEq, Prod.mk.injEq] at h
        exact .inl ⟨h.1.symm, h.2.symm⟩
      · simp only [ThreadSafeQueue.tryPushBack, hpush, Except.ok.injEq, Prod.mk.injEq] at h
        exact .inr ⟨clientIp, h.1.symm, by rw [← h.2]; rfl⟩

end HttpConnection
end ServerSimple.Network
