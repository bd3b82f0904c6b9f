import Collectives.Blocking
import Collectives.Probe
import Collectives.Transport.Endpoints
import Collectives.Transport.Scripted
import Collectives.Proofs.Ring
import Collectives.Proofs.Layout
import Collectives.Proofs.Partition
import Collectives.Proofs.Allreduce
import Collectives.Proofs.RingAllreduce
import Collectives.Proofs.Bandwidth
import Collectives.Proofs.RecursiveDoubling
import Collectives.Proofs.RingAllgatherv
import Collectives.Proofs.Agenda
import Collectives.Proofs.DoublingAgenda
import Collectives.Proofs.RingAgenda
import Collectives.Proofs.CountDisagreement
import Collectives.Proofs.FaultyRuns
import Collectives.Proofs.TrackedRuns
import Collectives.Proofs.Standing
import Collectives.Proofs.Heard
import Collectives.Proofs.Barrier
import Collectives.Proofs.Spreading
import Collectives.Proofs.Broadcast
import Collectives.Proofs.ExactReduction
import Collectives.Proofs.CollectiveCalls
import Collectives.Proofs.Openness
import Collectives.Proofs.Confluence
import Collectives.Proofs.Channels
import Collectives.Proofs.TeamOperations
import Collectives.Proofs.ReachableSessions
import Collectives.Proofs.ConcurrentTeams
import Collectives.Proofs.CollectiveSequences
import Collectives.Proofs.Requests
import Collectives.Proofs.Calls
import Collectives.Proofs.Hashing
import Collectives.Proofs.Grants
import Collectives.Proofs.OwnTasks
import Collectives.Proofs.Lifecycle
import Collectives.Proofs.Leftovers
import Collectives.Proofs.Queues
import Collectives.Proofs.Answers
import Collectives.Proofs.Pending
import Collectives.Proofs.Ledger
import Collectives.Proofs.Releases
import Collectives.Proofs.Encounters
import Collectives.Proofs.CollectiveAgendas
import Collectives.Proofs.FirstFailure
import Collectives.Proofs.Robustness
import Collectives.Proofs.WireForm
import Collectives.Proofs.Grouping
import Collectives.Proofs.Acceptance
