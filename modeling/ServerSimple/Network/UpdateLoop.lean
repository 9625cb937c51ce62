import ServerSimple.Library.Potential
import ServerSimple.Network.BroadcastServer

/-! # The end of the update loop

`stop` joins the update loop after it has stopped the context. `update` itself does not look at
`is_running`: once inside, it drains the queue to the end. Whether packets are left behind depends
on where the loop is when the context stops.
-/

namespace ServerSimple.Network.BroadcastServer

open Library ThreadSafe

variable {κ : Type*} [DecidableEq κ] {lim : Limits} {s u : BroadcastServer κ}

/-- How many steps a phase is worth. -/
def phaseWeight : UpdatePhase κ → ℕ
  | .frame | .popping => 1
  | .draining => 2
  | .relaying _ => 3
  | .thrown _ | .exited => 0

end ServerSimple.Network.BroadcastServer
