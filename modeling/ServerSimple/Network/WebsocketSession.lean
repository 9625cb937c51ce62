import ServerSimple.ThreadSafe.Queue

/-! # One websocket session

The members of `websocket_session` and its completion handlers, each as one atomic step because a
single thread runs the context. Asynchronous operations in progress are part of the state: the
handshake, reads as a count, writes as the messages handed to `async_write`, and the handlers that
`send` has posted as the messages they captured. A result `none` is undefined behaviour: the front of
an empty write queue.

The last fields only record history: what was sent, in which order the posted handlers ran, what was
handed to `async_write` and how far the handshake was then, what was read, and whether a completion
handler has run with an error code.
-/

namespace ServerSimple.Network

open ThreadSafe

/-- The bytes of a `std::string`; a frame need not be text. -/
abbrev Message := List UInt8

/-- `incoming_packet`. -/
structure IncomingPacket (κ : Type*) where
  session : κ
  payload : Message
  deriving DecidableEq

/-- A packet is accounted with the size of its payload. -/
instance {κ : Type*} : QueueSizeTraits (IncomingPacket κ) :=
  ⟨fun packet => UInt64.ofNat packet.payload.length⟩

/-- How far `web_socket.async_accept` has come. -/
inductive Handshake where
  | unstarted
  | pending
  | succeeded
  | failed
  deriving DecidableEq

structure WebsocketSession where
  handshake : Handshake
  writeQueue : List Message
  /-- Whether `web_socket.close` has been called. -/
  closed : Bool
  reads : ℕ
  writes : List Message
  posted : List Message
  sent : List Message
  handled : List Message
  written : List (Handshake × Message)
  received : List Message
  failed : Bool
  writeFailed : Bool
  deriving DecidableEq

namespace WebsocketSession

/-- A session as its constructor leaves it. -/
def initial : WebsocketSession := ⟨.unstarted, [], false, 0, [], [], [], [], [], [], false, false⟩

/-- Start the next `async_read`. -/
def readMessageAsync (session : WebsocketSession) : WebsocketSession :=
  { session with reads := session.reads + 1 }

def start (session : WebsocketSession) : WebsocketSession :=
  { session with handshake := .pending }

/-- The completion handler of `async_accept`. -/
def acceptHandler (session : WebsocketSession) (ok : Bool) : WebsocketSession :=
  if ok then readMessageAsync { session with handshake := .succeeded }
  else { session with handshake := .failed, failed := true }

def send (session : WebsocketSession) (message : Message) : WebsocketSession :=
  { session with posted := session.posted ++ [message], sent := session.sent ++ [message] }

/-- Hand the front of the write queue to `async_write`. -/
def writeMessageAsync (session : WebsocketSession) : Option WebsocketSession :=
  match session.writeQueue with
  | [] => none
  | message :: _ => some { session with
      writes := session.writes ++ [message]
      written := session.written ++ [(session.handshake, message)] }

/-- The body of the handler that `send` posts. -/
def sendHandler (session : WebsocketSession) (message : Message) : Option WebsocketSession :=
  let writeInProgress := !session.writeQueue.isEmpty
  let session := { session with
    writeQueue := session.writeQueue ++ [message]
    handled := session.handled ++ [message] }
  if writeInProgress then some session else session.writeMessageAsync

/-- The completion handler of `async_write`. -/
def writeHandler (session : WebsocketSession) (ok : Bool) : Option WebsocketSession :=
  if ok then
    match session.writeQueue with
    | [] => none
    | _ :: rest =>
      let session := { session with writeQueue := rest }
      if rest.isEmpty then some session else session.writeMessageAsync
  else some { session with failed := true, writeFailed := true }

variable {κ : Type*} (lim : Limits)

/-- `push_incoming_packet`: a packet that the queue refuses closes the session. -/
def pushIncomingPacket (c : κ) (session : WebsocketSession)
    (queue : ThreadSafeQueue (IncomingPacket κ)) (payload : Message) :
    WebsocketSession × ThreadSafeQueue (IncomingPacket κ) :=
  match queue.tryPushBack lim ⟨c, payload⟩ with
  | (false, queue) => ({ session with closed := true }, queue)
  | (true, queue) => (session, queue)

/-- The completion handler of `async_read`, with the message in the buffer; `none` is an error code.
Reading goes on even after a refused packet. -/
def readHandler (c : κ) (session : WebsocketSession) (queue : ThreadSafeQueue (IncomingPacket κ)) :
    Option Message → WebsocketSession × ThreadSafeQueue (IncomingPacket κ)
  | none => ({ session with failed := true }, queue)
  | some data =>
    let pushed := pushIncomingPacket lim c { session with received := session.received ++ [data] }
      queue data
    (pushed.1.readMessageAsync, pushed.2)

/-! ## What a step does to a session -/

/-- The outstanding read is over. -/
def takeRead (session : WebsocketSession) : WebsocketSession :=
  { session with reads := session.reads - 1 }

/-- The `i`-th of the posted handlers has been taken to run. -/
def takePosted (session : WebsocketSession) (i : ℕ) : WebsocketSession :=
  { session with posted := session.posted.eraseIdx i }

/-- The `i`-th of the outstanding writes is over. -/
def takeWrite (session : WebsocketSession) (i : ℕ) : WebsocketSession :=
  { session with writes := session.writes.eraseIdx i }

/-- A read that leaves the message in the queue, or closes the session. -/
def readData (session : WebsocketSession) (data : Message) (accepted : Bool) : WebsocketSession :=
  { session with
    reads := session.reads - 1 + 1
    received := session.received ++ [data]
    closed := session.closed || !accepted }

/-- What can happen to one session. A read comes with the answer of the shared queue. -/
inductive SessionEvent where
  | start
  | handshake (ok : Bool)
  | send (message : Message)
  | posted
  | readError
  | readData (data : Message) (accepted : Bool)
  | write (ok : Bool)

/-- Everything that a step of the server can do to one session. -/
inductive Move : SessionEvent → WebsocketSession → WebsocketSession → Prop
  | start {session : WebsocketSession} (h : session.handshake = .unstarted) :
    Move .start session session.start
  | handshake {session : WebsocketSession} (ok : Bool) (h : session.handshake = .pending) :
    Move (.handshake ok) session (session.acceptHandler ok)
  | send {session : WebsocketSession} (message : Message) :
    Move (.send message) session (session.send message)
  | posted {session session' : WebsocketSession} {i : ℕ} {message : Message}
    (h : session.posted[i]? = some message)
    (hrun : (session.takePosted i).sendHandler message = some session') :
    Move .posted session session'
  | readError {session : WebsocketSession} (h : 0 < session.reads) :
    Move .readError session { session.takeRead with failed := true }
  | readData {session : WebsocketSession} (data : Message) (accepted : Bool)
    (h : 0 < session.reads) :
    Move (.readData data accepted) session (session.readData data accepted)
  | write {session session' : WebsocketSession} {i : ℕ} {message : Message} (ok : Bool)
    (h : session.writes[i]? = some message)
    (hrun : (session.takeWrite i).writeHandler ok = some session') :
    Move (.write ok) session session'

/-- What a completed read does to the session and to the queue. -/
theorem readHandler_some (c : κ) (session : WebsocketSession)
    (queue : ThreadSafeQueue (IncomingPacket κ)) (data : Message) :
    readHandler lim c session.takeRead queue (some data) =
      (session.readData data (queue.tryPushBack lim ⟨c, data⟩).1,
        (queue.tryPushBack lim ⟨c, data⟩).2) := by
  simp only [readHandler, pushIncomingPacket]
  rcases hpush : queue.tryPushBack lim ⟨c, data⟩ with ⟨accepted, queue'⟩
  cases accepted <;> simp [readMessageAsync, takeRead, readData]

end WebsocketSession
end ServerSimple.Network
