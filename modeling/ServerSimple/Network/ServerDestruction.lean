import ServerSimple.Network.ShutdownProgress
import ServerSimple.ThreadSafe.QueueAdmission

/-! # Destroying a request server

The destructor of the base class calls `try_stop` when the part that overrides
`process_client_request` is already gone. From then on no worker may be inside that function or
enter it. The moments at which this is certain are those at which every worker has left its loop, or
the queue is empty and no handler can fill it any more.
-/

namespace ServerSimple.Network.ServerLife

open Library ThreadSafe

variable {n : ℕ} {κ T : Type*}

variable [DecidableEq κ] [Fintype κ] [QueueSizeTraits T] {lim : Limits} {s u : ServerLife n κ T}

end ServerSimple.Network.ServerLife
