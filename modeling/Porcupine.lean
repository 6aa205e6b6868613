import Porcupine.Check.Agreement
import Porcupine.Check.Append
import Porcupine.Check.Branches
import Porcupine.Check.Contract
import Porcupine.Check.Conversions
import Porcupine.Check.Decides
import Porcupine.Check.Degenerate
import Porcupine.Check.Fencing
import Porcupine.Check.GroupOrder
import Porcupine.Check.Grouping
import Porcupine.Check.Halting
import Porcupine.Check.HashedPowerSet
import Porcupine.Check.Jepsen
import Porcupine.Check.KvLog
import Porcupine.Check.Liveness
import Porcupine.Check.Locality
import Porcupine.Check.Malformed
import Porcupine.Check.Monotone
import Porcupine.Check.Operations
import Porcupine.Check.Panics
import Porcupine.Check.Partitions
import Porcupine.Check.PerKey
import Porcupine.Check.PowerSet
import Porcupine.Check.Precedence
import Porcupine.Check.Quint
import Porcupine.Check.Relisting
import Porcupine.Check.S2
import Porcupine.Check.S2Log
import Porcupine.Check.Schedules
import Porcupine.Check.Session
import Porcupine.Check.SortedSet
import Porcupine.Check.Soundness
import Porcupine.Check.Timeout
import Porcupine.Common.Backtrack
import Porcupine.Common.Branching
import Porcupine.Common.Budget
import Porcupine.Common.ClientLog
import Porcupine.Common.Completion
import Porcupine.Common.Cuts
import Porcupine.Common.Failure
import Porcupine.Common.Intervals
import Porcupine.Common.Json
import Porcupine.Common.Ledger
import Porcupine.Common.Linearization
import Porcupine.Common.Links
import Porcupine.Common.Locality
import Porcupine.Common.Loop
import Porcupine.Common.Machine
import Porcupine.Common.Numbering
import Porcupine.Common.Product
import Porcupine.Common.Progress
import Porcupine.Common.Text
import Porcupine.Common.Visits
import Porcupine.Entries.Acceptance
import Porcupine.Entries.Builders
import Porcupine.Entries.Canonical
import Porcupine.Entries.Covering
import Porcupine.Entries.Diagnosis
import Porcupine.Entries.Events
import Porcupine.Entries.Frontier
import Porcupine.Entries.Gate
import Porcupine.Entries.Logs
import Porcupine.Entries.Names
import Porcupine.Entries.Operations
import Porcupine.Entries.Paired
import Porcupine.Entries.Pairing
import Porcupine.Entries.Represents
import Porcupine.Model.Arena
import Porcupine.Model.Bitset
import Porcupine.Model.Checker
import Porcupine.Model.Conversions
import Porcupine.Model.Entries
import Porcupine.Model.Fixtures
import Porcupine.Model.GoCompat
import Porcupine.Model.Invariants
import Porcupine.Model.Parallel
import Porcupine.Model.PowerSet
import Porcupine.Model.Quint
import Porcupine.Model.S2
import Porcupine.Model.S2Log
import Porcupine.Model.Search
import Porcupine.Model.Types
import Porcupine.Parallel.Abort
import Porcupine.Parallel.Cancellation
import Porcupine.Parallel.Deadline
import Porcupine.Parallel.Invariant
import Porcupine.Parallel.Morphism
import Porcupine.Parallel.Progress
import Porcupine.Parallel.Safety
import Porcupine.Parallel.Stages
import Porcupine.Parallel.Tasks
import Porcupine.Parallel.Verdict
import Porcupine.Search.Arena
import Porcupine.Search.Bitset
import Porcupine.Search.Cost
import Porcupine.Search.FiniteSets
import Porcupine.Search.Graph
import Porcupine.Search.Hashing
import Porcupine.Search.Lifting
import Porcupine.Search.Once
import Porcupine.Search.Order
import Porcupine.Search.Passes
import Porcupine.Search.Pruning
import Porcupine.Search.Simulation
import Porcupine.Search.Stack
import Porcupine.Search.Verdict
import Porcupine.Search.Visits
import Porcupine.Spec.Events
import Porcupine.Spec.History
import Porcupine.Common.Ways
import Porcupine.Search.CallOrder
import Porcupine.Search.First
