import DistStudy.Lib.Prog
import Mathlib.Algebra.Group.Int.Defs

/-!
# The data of a Raft peer

The records of `raft/raft.go` and `raft/persister.go`: log entries, RPC
arguments and replies, what the service gets on `applyCh`, the persisted
record and the server's memory.

* Go's `int` is `Int`: terms and indexes are compared with `-1` and index
  arithmetic goes below zero before it is range checked. It has no bounds:
  the terms and indexes of a cluster count its own elections and commands.
  Where requests carry arbitrary terms (`DuplicateVotes`), the term after
  `math.MaxInt` is that of 64 bits.
* A byte slice is an `Option (List UInt8)`, `none` being `nil`: the code
  tests `args.Data == nil`.
* The commands of the log are an arbitrary type `α`.
-/

namespace DistStudy.Raft

/-- `[]byte`; `none` is `nil`. -/
abbrev GoBytes : Type := Option (List UInt8)

/-- The bytes of a slice; `nil` has none. -/
def bytesOf (b : GoBytes) : List UInt8 := b.getD []

/-- `persister.go`'s `clone`: the copy of `nil` is empty but not `nil`. -/
def clone (orig : GoBytes) : GoBytes := some (bytesOf orig)

/-- What `labgob` makes of a byte field: an empty slice arrives as `nil`. -/
def labgobBytes : GoBytes → GoBytes
  | some [] => none
  | b => b

/-- `math.MaxInt`. -/
def maxInt : Int := 2 ^ 63 - 1

/-- The status of a peer. `run` sets `FOLLOWER` before its first event, so
`UNDEFINED` is never seen by a handler. -/
inductive Status where
  | leader
  | candidate
  | follower
deriving DecidableEq, Repr

/-- A log entry. -/
structure Log (α : Type) where
  term : Int
  index : Int
  command : α
deriving DecidableEq, Repr

/-- A message on `applyCh`. The constructors stand for `CommandValid` and
`SnapshotValid`. -/
inductive ApplyMsg (α : Type) where
  | command (command : α) (commandIndex : Int)
  | snapshot (snapshot : GoBytes) (snapshotTerm snapshotIndex : Int)
deriving DecidableEq, Repr

/-- The index that a message delivers. -/
def ApplyMsg.index {α : Type} : ApplyMsg α → Int
  | .command _ commandIndex => commandIndex
  | .snapshot _ _ snapshotIndex => snapshotIndex

structure SnapshotRequest where
  index : Int
  snapshot : GoBytes
deriving DecidableEq, Repr

structure RequestVoteArgs where
  term : Int
  candidateId : Int
  lastLogIndex : Int
  lastLogTerm : Int
deriving DecidableEq, Repr

/-- The defaults are Go's zero values. -/
structure RequestVoteReply where
  term : Int := 0
  voteGranted : Bool := false
deriving DecidableEq, Repr

structure AppendEntriesArgs (α : Type) where
  term : Int
  leaderId : Int
  prevLogIndex : Int
  prevLogTerm : Int
  entries : List (Log α)
  leaderCommit : Int
deriving DecidableEq, Repr

/-- The defaults are Go's zero values. -/
structure AppendEntriesReply where
  term : Int := 0
  success : Bool := false
  firstConflictingIndex : Int := 0
  conflictingTerm : Int := 0
deriving DecidableEq, Repr

/-- `Offset` and `Done` are constants that no handler reads. -/
structure InstallSnapshotRequest where
  term : Int
  leaderId : Int
  lastIncludedIndex : Int
  lastIncludedTerm : Int
  data : GoBytes
deriving DecidableEq, Repr

/-- The default is Go's zero value. -/
structure InstallSnapshotReply where
  term : Int := 0
deriving DecidableEq, Repr

/-- The persisted record. The defaults are the zero values of the fields that
an encoding leaves out. -/
structure Data (α : Type) where
  votedFor : Int
  currentTerm : Int
  logs : List (Log α)
  snapshotIndex : Int := 0
  snapshotTerm : Int := 0
deriving DecidableEq, Repr

/-- The persister. `labgob` round-trips `Data`, so the record stands for its
encoding; `none` is a `raftstate` without bytes. -/
structure Persister (α : Type) where
  raftstate : Option (Data α) := none
  snapshot : GoBytes := none
deriving DecidableEq, Repr

/-- `SaveStateAndSnapshot`: both parts are replaced at once. -/
def saveStateAndSnapshot {α : Type} (state : Data α) (snapshot : GoBytes) : Persister α :=
  { raftstate := some state, snapshot := clone snapshot }

end DistStudy.Raft

namespace DistStudy

open Raft

/-- The memory of a peer of a cluster of `n`. `grantedVotes` and `voteCh` are
the locals of the candidate loop; a vote channel is named by the number of
elections that the incarnation has started. `nextIndex` and `matchIndex` are
read by the leader loop only, which sizes them first. -/
structure Raft (n : ℕ) (α : Type) where
  status : Status
  currentTerm : Int
  votedFor : Int
  logs : List (Log α)
  commitIndex : Int
  lastApplied : Int
  nextIndex : Vector Int n
  matchIndex : Vector Int n
  snapshot : GoBytes
  snapshotIndex : Int
  snapshotTerm : Int
  grantedVotes : Int
  voteCh : ℕ
deriving DecidableEq, Repr

end DistStudy

namespace DistStudy.Raft

/-- An RPC as its caller's goroutine remembers it. -/
inductive Call (α : Type) where
  | requestVote (voteCh : ℕ) (args : RequestVoteArgs)
  | appendEntries (args : AppendEntriesArgs α)
  | installSnapshot (args : InstallSnapshotRequest)
deriving DecidableEq, Repr

inductive Reply where
  | requestVote (reply : RequestVoteReply)
  | appendEntries (reply : AppendEntriesReply)
  | installSnapshot (reply : InstallSnapshotReply)
deriving DecidableEq, Repr

/-- The reply that a caller holds when `Call` returns false: it is untouched. -/
def Call.zeroReply {α : Type} : Call α → Reply
  | .requestVote _ _ => .requestVote {}
  | .appendEntries _ => .appendEntries {}
  | .installSnapshot _ => .installSnapshot {}

/-- What a handler does to the outside, in the order in which it does it. -/
inductive Effect (n : ℕ) (α : Type) where
  /-- The persister is overwritten. -/
  | save (persister : Persister α)
  /-- A goroutine is started that calls `server`. -/
  | call (server : Fin n) (call : Call α)
  /-- The reply of the RPC that is being handled. -/
  | reply (reply : Reply)
  /-- A send on `applyCh`. -/
  | apply (msg : ApplyMsg α)
  /-- The result of a `Start` call. -/
  | started (index term : Int) (isLeader : Bool)
deriving DecidableEq, Repr

/-- The cases of the `select` statements of the three main loops. -/
inductive Input (n : ℕ) (α : Type) where
  | requestVote (args : RequestVoteArgs)
  | appendEntries (args : AppendEntriesArgs α)
  | installSnapshot (args : InstallSnapshotRequest)
  | snapshotRequest (req : SnapshotRequest)
  | command (command : α)
  | electionTimer
  | applyTimer
  | heartbeatTimer
  | broadcastEntriesTimer
  | vote (voteCh : ℕ) (vote : RequestVoteReply)
  | appendEntriesReply (reply : AppendEntriesReply) (args : AppendEntriesArgs α) (server : Fin n)
  | installSnapshotReply (reply : InstallSnapshotReply) (server : Fin n)
deriving DecidableEq, Repr

/-- A handler of the main goroutine. -/
abbrev Handler (n : ℕ) (α : Type) : Type → Type := Prog (Raft n α) (Effect n α)

end DistStudy.Raft
