import Swim.Transition.Run
import Swim.ShuffleExact
import Swim.Worker
import Swim.Suspicion
import Swim.Check
import Swim.Find
import Swim.Pack
import Swim.Cluster
import Swim.Rumor.Agreement
import Swim.Holding
import Swim.Simulation
import Swim.Clocks
import Swim.Quiescence
import Swim.Refines
import Swim.Statuses
import Swim.Changes
import Swim.Incarnations
import Swim.Storm
import Swim.Protocol
import Swim.Listener
import Swim.Origins
import Swim.Sources
import Swim.Round
import Swim.Network
import Swim.Ghosts
import Swim.Aggregates
import Swim.Notified
import Swim.Received
import Swim.Fragments
import Swim.Acks
import Swim.Stale
import Swim.Progress
import Swim.Relays
import Swim.ByName
import Swim.Coherence
import Swim.Address
import Swim.Files.Calls
import Swim.Sync
import Swim.SyncExact
import Swim.Bare
import Swim.Carried
import Swim.Conserved
import Swim.Daemon
import Swim.Silence
import Swim.Deployment
import Swim.Files.Returns
import Swim.SyncCleanup
import Swim.Announced
import Swim.SyncProgram
