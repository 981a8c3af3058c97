import DistStudy.Lib.Prog
import DistStudy.Lib.Behavior
import DistStudy.Lib.Quorum
import DistStudy.Lib.ReplicatedLog
import DistStudy.Lib.ReplicatedLogSafety
import DistStudy.Raft.Types
import DistStudy.Raft.Server
import DistStudy.Raft.Cluster
import DistStudy.Raft.Handlers
import DistStudy.Raft.Outcome
import DistStudy.Raft.Steps
import DistStudy.Raft.Ballot
import DistStudy.Raft.Election
import DistStudy.Raft.DuplicateVotes
import DistStudy.Raft.LogShape
import DistStudy.Raft.Rules
import DistStudy.Raft.ApplyOrder
import DistStudy.Raft.SnapshotPairing
import DistStudy.Lib.ReplicatedLogMoves
import DistStudy.Raft.FullLog
import DistStudy.Raft.Refinement
import DistStudy.Raft.RefinementEvents
import DistStudy.Raft.RefinementOutcome
import DistStudy.Raft.RefinementRuns
import DistStudy.Raft.WithoutSnapshots
import DistStudy.Raft.WithSnapshots
import DistStudy.Raft.LeaderAppendOnly
import DistStudy.Raft.LogTerms
import DistStudy.Raft.Merge
import DistStudy.Lib.Grouping
import DistStudy.MapReduce.Tasks
import DistStudy.MapReduce.Sequential
import DistStudy.MapReduce.Coordinator
import DistStudy.MapReduce.Steps
import DistStudy.MapReduce.Conservation
import DistStudy.MapReduce.Effects
import DistStudy.MapReduce.Dependencies
import DistStudy.MapReduce.ReduceInputs
import DistStudy.MapReduce.Finish
import DistStudy.MapReduce.Intermediate
import DistStudy.MapReduce.Output
import DistStudy.Raft.Compaction
import DistStudy.Raft.Persistence
import DistStudy.Raft.NextIndex
import DistStudy.Raft.BackOff
import DistStudy.MapReduce.BucketKeys
import DistStudy.Lib.RecordStream
import DistStudy.MapReduce.Records
import DistStudy.MapReduce.ReduceTask
import DistStudy.Lib.Linearizability
import DistStudy.Lib.Search
import DistStudy.Porcupine.Bitset
import DistStudy.Porcupine.History
import DistStudy.Porcupine.Model
import DistStudy.Porcupine.LinkedList
import DistStudy.Porcupine.CheckSingle
import DistStudy.Porcupine.Entries
import DistStudy.Porcupine.CheckParallel
import DistStudy.Porcupine.ParallelRuns
import DistStudy.Porcupine.KvModel
import DistStudy.MapReduce.WholeJob
import DistStudy.MapReduce.Plugins
import DistStudy.MapReduce.Tracking
import DistStudy.MapReduce.Progress
import DistStudy.Raft.Deliveries
import DistStudy.Raft.Harness
import DistStudy.Raft.Availability
