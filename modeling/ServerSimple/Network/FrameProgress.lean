import ServerSimple.Network.SessionWrites

/-! # Every message is written in the end

A message that was sent to a session costs the context one posted handler and one completed write.
As long as something is left of either kind, a running context can go on with it.
-/

namespace ServerSimple.Network

open Library

namespace WebsocketSession

/-- The handlers and writes that the messages in the session still take. -/
def stepsLeft (session : WebsocketSession) : ℕ :=
  2 * session.posted.length + if session.writeFailed then 0 else session.writeQueue.length

variable {session session' : WebsocketSession}

end WebsocketSession

namespace PersistentServer

variable {κ : Type*} [DecidableEq κ] {lim : ThreadSafe.Limits} {s t : PersistentServer κ}
  {actions : List (PersistentAction κ)} {c : κ}

end PersistentServer
end ServerSimple.Network
