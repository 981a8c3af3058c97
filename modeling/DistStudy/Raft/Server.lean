import DistStudy.Raft.Types
import Mathlib.Data.List.FinRange
import Mathlib.Tactic.Simps.Basic

/-!
# One Raft peer: the handlers and the main loops of `raft/raft.go`

Every function runs in the peer's main goroutine, so a handler is a `Prog`
over the peer's memory. Its effects are the writes to the persister, the RPCs
it starts, the reply of the RPC it handles and the sends on `applyCh`.

A slice or index expression that is out of range panics (`orPanic`).
-/

namespace DistStudy.Raft

open Prog

variable {n : ℕ} {α : Type}

/-! ## Slices -/

/-- `xs[i]`. -/
def index? {β : Type} (xs : List β) (i : Int) : Option β :=
  if 0 ≤ i then xs[i.toNat]? else none

/-- `xs[i:]`. -/
def sliceFrom? {β : Type} (xs : List β) (i : Int) : Option (List β) :=
  if 0 ≤ i ∧ i ≤ xs.length then some (xs.drop i.toNat) else none

/-! ## Derived values -/

/-- The last log index, as `startElection`, `handleRequestVote`, `appendEntries`
and the leader loop compute it. -/
def lastLogIndex (rf : Raft n α) : Int :=
  match rf.logs.getLast? with
  | none => rf.snapshotIndex
  | some l => l.index

/-- The term of the last log entry, the snapshot's when the log is empty. -/
def lastLogTerm (rf : Raft n α) : Int :=
  match rf.logs.getLast? with
  | none => rf.snapshotTerm
  | some l => l.term

/-! ## Persistence -/

/-- What `persist` writes: without a snapshot the snapshot fields are left out. -/
def persisted (rf : Raft n α) : Persister α :=
  if 0 < (bytesOf rf.snapshot).length then
    saveStateAndSnapshot
      { votedFor := rf.votedFor, currentTerm := rf.currentTerm, logs := rf.logs,
        snapshotIndex := rf.snapshotIndex, snapshotTerm := rf.snapshotTerm }
      rf.snapshot
  else
    saveStateAndSnapshot
      { votedFor := rf.votedFor, currentTerm := rf.currentTerm, logs := rf.logs } none

def persist : Handler n α Unit := emitWith fun rf => .save rf.persisted

def readPersist (data : Option (Data α)) (rf : Raft n α) : Raft n α :=
  match data with
  | none => rf
  | some buf =>
    { rf with currentTerm := buf.currentTerm, votedFor := buf.votedFor, logs := buf.logs,
              snapshotIndex := buf.snapshotIndex, snapshotTerm := buf.snapshotTerm }

/-- `Make` up to the start of the main loop, in which the peer is a follower. -/
def make (persister : Persister α) : Raft n α :=
  let rf : Raft n α :=
    { status := .follower, currentTerm := 0, votedFor := -1, logs := [],
      commitIndex := 0, lastApplied := 0,
      nextIndex := Vector.replicate n 0, matchIndex := Vector.replicate n 0,
      snapshot := none, snapshotIndex := 0, snapshotTerm := -1,
      grantedVotes := 0, voteCh := 0 }
  let rf := readPersist persister.raftstate rf
  { rf with snapshot := clone persister.snapshot,
            commitIndex := rf.snapshotIndex, lastApplied := rf.snapshotIndex }

/-! ## Terms and votes -/

/-- The memory after a higher term was seen. -/
@[simps]
def steppedDown (rf : Raft n α) (term : Int) : Raft n α :=
  { rf with currentTerm := term, status := .follower, votedFor := -1 }

def handleHigherTermFound (term : Int) : Handler n α Unit := do
  modify fun rf => rf.steppedDown term
  persist

/-- The candidate's log is at least as up to date as the peer's. -/
def upToDate (rf : Raft n α) (args : RequestVoteArgs) : Prop :=
  args.lastLogTerm > rf.lastLogTerm ∨
    args.lastLogTerm = rf.lastLogTerm ∧ args.lastLogIndex ≥ rf.lastLogIndex

instance (rf : Raft n α) (args : RequestVoteArgs) : Decidable (rf.upToDate args) :=
  inferInstanceAs (Decidable (_ ∨ _))

def handleRequestVote (args : RequestVoteArgs) : Handler n α RequestVoteReply := do
  let rf ← get
  if args.term > rf.currentTerm then
    handleHigherTermFound args.term
  let rf ← get
  if args.term < rf.currentTerm then
    return { term := rf.currentTerm, voteGranted := false }
  else if rf.votedFor = -1 ∨ rf.votedFor = args.candidateId then
    if rf.upToDate args then
      modify fun rf => { rf with votedFor := args.candidateId }
      persist
      return { term := rf.currentTerm, voteGranted := true }
    else
      modify fun rf => { rf with votedFor := -1 }
      persist
      return { term := rf.currentTerm, voteGranted := false }
  else
    return {}

/-! ## Log replication, the receiver -/

/-- The first loop of `handleAppendEntries`: cut the log at the first entry
that conflicts with a new one. It stops at an entry that the log does not hold. -/
def removeConflicts : List (Log α) → Handler n α Unit
  | [] => pure ()
  | val :: rest => do
    let rf ← get
    let i := val.index - rf.snapshotIndex - 1
    if i < 0 ∨ i ≥ rf.logs.length then
      pure ()
    else
      let l ← orPanic (index? rf.logs i)
      if l.term ≠ val.term then
        modify fun rf => { rf with logs := rf.logs.take i.toNat }
        persist
      else
        removeConflicts rest

/-- The second loop of `handleAppendEntries`: append what lies beyond the log. -/
def appendNew : List (Log α) → Handler n α Unit
  | [] => pure ()
  | val :: rest => do
    let rf ← get
    if val.index > rf.logs.length + rf.snapshotIndex then
      modify fun rf => { rf with logs := rf.logs ++ [val] }
      persist
    appendNew rest

/-- The log check of `handleAppendEntries` failed at `prevLogIndex`: the reply
names the term found there and the first index of that term. -/
def conflictReply (rf : Raft n α) (conflictingTerm : Int) : AppendEntriesReply :=
  { term := rf.currentTerm, success := false, conflictingTerm := conflictingTerm,
    firstConflictingIndex :=
      match rf.logs.find? fun val => val.term = conflictingTerm with
      | some val => val.index
      | none => 0 }

/-- The part of `handleAppendEntries` after the log checks have passed. -/
def acceptEntries (args : AppendEntriesArgs α) : Handler n α AppendEntriesReply := do
  removeConflicts args.entries
  let rf ← get
  -- the last index *before* the new entries are appended
  let lastNewEntryIndex :=
    match rf.logs.getLast? with
    | some l => l.index
    | none => maxInt
  appendNew args.entries
  let rf ← get
  if args.leaderCommit > 0 ∧ args.leaderCommit > rf.commitIndex then
    modify fun rf => { rf with commitIndex := min args.leaderCommit lastNewEntryIndex }
  return { term := rf.currentTerm, success := true }

def handleAppendEntries (args : AppendEntriesArgs α) : Handler n α AppendEntriesReply := do
  let rf ← get
  if args.term > rf.currentTerm then
    handleHigherTermFound args.term
  let rf ← get
  if args.term < rf.currentTerm then
    return { term := rf.currentTerm, success := false }
  else if args.prevLogIndex > rf.logs.length + rf.snapshotIndex then
    return { term := rf.currentTerm, success := false }
  else if args.prevLogIndex > rf.snapshotIndex then
    let l ← orPanic (index? rf.logs (args.prevLogIndex - rf.snapshotIndex - 1))
    if l.term ≠ args.prevLogTerm then
      return conflictReply rf l.term
    else
      acceptEntries args
  else
    acceptEntries args

/-! ## Snapshots -/

def handleSnapshot (req : SnapshotRequest) : Handler n α Unit := do
  modify fun rf => { rf with snapshot := req.snapshot }
  let rf ← get
  let toKeep := req.index + 1
  if req.index - 1 - rf.snapshotIndex < 0 ∨ rf.logs.length < req.index - 1 - rf.snapshotIndex then
    modify fun rf => { rf with snapshotTerm := -1 }
  else
    let l ← orPanic (index? rf.logs (req.index - 1 - rf.snapshotIndex))
    modify fun rf => { rf with snapshotTerm := l.term }
  let logs ← orPanic (sliceFrom? rf.logs (toKeep - rf.snapshotIndex - 1))
  modify fun rf => { rf with logs := logs, snapshotIndex := req.index }

/-- The record that `handleInstallSnapshot` saves: the log of before the
install, without the snapshot fields. -/
def installed (rf : Raft n α) (data : GoBytes) : Persister α :=
  saveStateAndSnapshot
    { votedFor := rf.votedFor, currentTerm := rf.currentTerm, logs := rf.logs } data

/-- The condition under which `handleInstallSnapshot` keeps the rest of the log:
the last index is compared with the snapshot index of before the install. -/
def Retains (rf : Raft n α) (args : InstallSnapshotRequest) : Prop :=
  (rf.logs.getLast?.map Log.index).getD (-1) = rf.snapshotIndex ∧
    (rf.logs.getLast?.map Log.term).getD 0 = args.lastIncludedTerm

instance (rf : Raft n α) (args : InstallSnapshotRequest) : Decidable (rf.Retains args) :=
  inferInstanceAs (Decidable (_ ∧ _))

/-- The memory after an install that leaves `logs`. -/
@[simps]
def replaced (rf : Raft n α) (args : InstallSnapshotRequest) (logs : List (Log α)) : Raft n α :=
  { rf with logs := logs, snapshotIndex := args.lastIncludedIndex,
            snapshotTerm := args.lastIncludedTerm, lastApplied := args.lastIncludedIndex }

/-- The part of `handleInstallSnapshot` after the terms were compared. -/
def acceptSnapshot (args : InstallSnapshotRequest) : Handler n α Unit := do
  modify fun rf => { rf with snapshot := args.data }
  emitWith fun rf => .save (rf.installed args.data)
  if args.data = none then
    pure ()
  else
    let rf ← get
    if rf.Retains args then
      let logs ← orPanic (sliceFrom? rf.logs (args.lastIncludedIndex - rf.snapshotIndex))
      modify fun rf => rf.replaced args logs
    else
      modify fun rf => rf.replaced args []
      emit (.apply (.snapshot args.data args.lastIncludedTerm args.lastIncludedIndex))

def handleInstallSnapshot (args : InstallSnapshotRequest) :
    Handler n α InstallSnapshotReply := do
  let rf ← get
  -- the reply carries the term of before the request
  let reply : InstallSnapshotReply := { term := rf.currentTerm }
  if args.term < rf.currentTerm then
    return reply
  else
    if args.term > rf.currentTerm then
      handleHigherTermFound args.term
    acceptSnapshot args
    return reply

/-! ## Commands, commits and deliveries -/

/-- Returns the index, the term and whether the peer is the leader. -/
def handleCommand (command : α) : Handler n α (Int × Int × Bool) := do
  let rf ← get
  let index := rf.logs.length + rf.snapshotIndex + 1
  if rf.status ≠ .leader then
    return (index, rf.currentTerm, false)
  else
    modify fun rf =>
      { rf with logs := rf.logs ++ [{ term := rf.currentTerm, index, command }] }
    persist
    return (index, rf.currentTerm, true)

/-- The number of peers, the leader included, that hold the entry at `N`. -/
def matchCount (me : Fin n) (rf : Raft n α) (N : Int) : Int :=
  1 + ((List.finRange n).countP fun idx => idx ≠ me ∧ rf.matchIndex[idx] ≥ N : ℕ)

/-- The loop of `updateCommitIndex`: `k` candidates for `N` are left. -/
def updateCommitLoop (me : Fin n) : ℕ → Int → Handler n α Unit
  | 0, _ => pure ()
  | k + 1, N => do
    let rf ← get
    if rf.matchCount me N > (n / 2 : ℕ) then
      let l ← orPanic (index? rf.logs (N - 1 - rf.snapshotIndex))
      if l.term = rf.currentTerm then
        modify fun rf => { rf with commitIndex := N }
    updateCommitLoop me k (N + 1)

def updateCommitIndex (me : Fin n) : Handler n α Unit := do
  let rf ← get
  updateCommitLoop me (rf.logs.length + rf.snapshotIndex - rf.commitIndex).toNat
    (rf.commitIndex + 1)

/-- The loop of `applyToClient`: `k` entries are left. -/
def applyLoop : ℕ → Handler n α Unit
  | 0 => pure ()
  | k + 1 => do
    modify fun rf => { rf with lastApplied := rf.lastApplied + 1 }
    let rf ← get
    let l ← orPanic (index? rf.logs (rf.lastApplied - 1 - rf.snapshotIndex))
    emit (.apply (.command l.command l.index))
    applyLoop k

def applyToClient : Handler n α Unit := do
  let rf ← get
  if rf.logs.length = 0 then
    pure ()
  else
    applyLoop (rf.commitIndex - rf.lastApplied).toNat

/-! ## Requests -/

/-- The peers other than `me`, in the order of the loops over `rf.peers`. -/
def others (me : Fin n) : List (Fin n) := (List.finRange n).filter (· ≠ me)

/-- Run a handler for every peer of a list. -/
def forPeers (f : Fin n → Handler n α Unit) : List (Fin n) → Handler n α Unit
  | [] => pure ()
  | server :: rest => do
    f server
    forPeers f rest

def requestVoteToPeers (me : Fin n) (req : RequestVoteArgs) : Handler n α Unit := do
  let rf ← get
  forPeers (fun server => emit (.call server (.requestVote rf.voteCh req))) (others me)

/-- The new vote channel is numbered by the elections started so far. -/
def startElection (me : Fin n) : Handler n α Unit := do
  modify fun rf => { rf with currentTerm := rf.currentTerm + 1, votedFor := me }
  persist
  modify fun rf => { rf with voteCh := rf.voteCh + 1 }
  let rf ← get
  requestVoteToPeers me
    { term := rf.currentTerm, candidateId := me,
      lastLogIndex := rf.lastLogIndex, lastLogTerm := rf.lastLogTerm }

/-- Start the RPC that carries `entries`; without entries it is a heartbeat. -/
def appendEntries (me server : Fin n) (entries : List (Log α)) : Handler n α Unit := do
  let rf ← get
  let next := rf.nextIndex[server]
  let (prevLogIndex, prevLogTerm) ←
    if entries.length = 0 then
      pure (rf.lastLogIndex, rf.lastLogTerm)
    else if next - rf.snapshotIndex ≤ 1 then
      pure (rf.snapshotIndex, rf.snapshotTerm)
    else do
      let l ← orPanic (index? rf.logs (next - rf.snapshotIndex - 2))
      pure (l.index, l.term)
  emit (.call server (.appendEntries
    { term := rf.currentTerm, leaderId := me, prevLogIndex, prevLogTerm, entries,
      leaderCommit := rf.commitIndex }))

/-- The body of the loop of `broadcastAppendEntries`. -/
def broadcastTo (me server : Fin n) : Handler n α Unit := do
  let rf ← get
  let next := rf.nextIndex[server]
  if rf.lastLogIndex ≥ next ∧ next - rf.snapshotIndex ≥ 1 then
    let entries ← orPanic (sliceFrom? rf.logs (next - 1 - rf.snapshotIndex))
    appendEntries me server entries
  else
    pure ()

def broadcastAppendEntries (me : Fin n) : Handler n α Unit :=
  forPeers (broadcastTo me) (others me)

def sendHeartBeat (me : Fin n) : Handler n α Unit :=
  forPeers (fun server => appendEntries me server []) (others me)

def requestInstallSnapshot (me server : Fin n) : Handler n α Unit := do
  let rf ← get
  emit (.call server (.installSnapshot
    { term := rf.currentTerm, leaderId := me, lastIncludedIndex := rf.snapshotIndex,
      lastIncludedTerm := rf.snapshotTerm, data := rf.snapshot }))

/-! ## The main loops -/

/-- What `runAsCandidate` does before its loop. -/
def enterCandidate (me : Fin n) : Handler n α Unit := do
  modify fun rf => { rf with grantedVotes := 1 }
  startElection me

/-- What `runAsLeader` does before its loop. -/
def enterLeader (me : Fin n) : Handler n α Unit := do
  modify fun rf =>
    { rf with nextIndex := Vector.replicate n (rf.lastLogIndex + 1),
              matchIndex := Vector.replicate n 0 }
  sendHeartBeat me

/-- What `runAsCandidate` does with a reply from its vote channel. -/
def handleVote (me : Fin n) (vote : RequestVoteReply) : Handler n α Unit := do
  let rf ← get
  if vote.term > rf.currentTerm then
    handleHigherTermFound vote.term
  else
    if vote.voteGranted then
      modify fun rf => { rf with grantedVotes := rf.grantedVotes + 1 }
    let rf ← get
    if rf.grantedVotes > (n / 2 : ℕ) then
      modify fun rf => { rf with status := .leader }
      enterLeader me

/-- The new `nextIndex` after a rejected append: the leader's last entry of the
conflicting term or its first entry, if that is above the follower's first. -/
def backedOff (rf : Raft n α) (reply : AppendEntriesReply) : Int :=
  let x := match (rf.logs.filter fun val => val.term = reply.conflictingTerm).getLast? with
    | some val => val.index
    | none => rf.snapshotIndex + 1
  max x reply.firstConflictingIndex

def handleAppendEntriesReply (me : Fin n) (reply : AppendEntriesReply)
    (req : AppendEntriesArgs α) (server : Fin n) : Handler n α Unit := do
  let rf ← get
  if rf.currentTerm > reply.term ∨ rf.currentTerm > req.term then
    pure ()
  else if reply.term > rf.currentTerm then
    handleHigherTermFound reply.term
  else if reply.success then
    if req.entries.length ≠ 0 ∧
        req.prevLogIndex + req.entries.length > rf.matchIndex[server] then
      modify fun rf =>
        { rf with
          matchIndex := rf.matchIndex.set server (req.prevLogIndex + req.entries.length),
          nextIndex := rf.nextIndex.set server (req.prevLogIndex + req.entries.length + 1) }
    updateCommitIndex me
  else
    modify fun rf => { rf with nextIndex := rf.nextIndex.set server (rf.backedOff reply) }
    match rf.logs.head? with
    | some l =>
      if rf.backedOff reply ≤ l.index then
        requestInstallSnapshot me server
      else
        pure ()
    | none => pure ()

/-- The cases that all three loops have; a candidate also leaves its loop when
it gets an append of its own term. -/
def serveCommon (input : Input n α) : Option (Handler n α Unit) :=
  match input with
  | .requestVote args => some do
    let reply ← handleRequestVote args
    emit (.reply (.requestVote reply))
  | .appendEntries args => some do
    let reply ← handleAppendEntries args
    emit (.reply (.appendEntries reply))
  | .installSnapshot args => some do
    let reply ← handleInstallSnapshot args
    emit (.reply (.installSnapshot reply))
  | .snapshotRequest req => some (handleSnapshot req)
  | .command command => some do
    let (index, term, isLeader) ← handleCommand command
    emit (.started index term isLeader)
  | .applyTimer => some applyToClient
  | _ => none

/-- The `select` of `runAsFollower`. -/
def runAsFollower (me : Fin n) : Input n α → Option (Handler n α Unit)
  | .electionTimer => some do
    modify fun rf => { rf with status := .candidate }
    enterCandidate me
  | input => serveCommon input

/-- The `select` of `runAsCandidate`. A channel other than the current election's
has no reader. Reading the closed channel has no effect and is left out. -/
def runAsCandidate (me : Fin n) (rf : Raft n α) : Input n α → Option (Handler n α Unit)
  | .electionTimer => some (enterCandidate me)
  | .vote voteCh vote =>
    if voteCh = rf.voteCh then some (handleVote me vote) else none
  | .appendEntries args => some do
    let reply ← handleAppendEntries args
    emit (.reply (.appendEntries reply))
    let rf ← get
    if args.term ≥ rf.currentTerm then
      modify fun rf => { rf with status := .follower }
  | input => serveCommon input

/-- The `select` of `runAsLeader`. -/
def runAsLeader (me : Fin n) : Input n α → Option (Handler n α Unit)
  | .broadcastEntriesTimer => some (broadcastAppendEntries me)
  | .heartbeatTimer => some (sendHeartBeat me)
  | .appendEntriesReply reply args server => some (handleAppendEntriesReply me reply args server)
  | .installSnapshotReply reply _ => some do
    let rf ← get
    if reply.term > rf.currentTerm then
      handleHigherTermFound reply.term
  | input => serveCommon input

/-- The handler that the main loop runs on an input; `none` where the current
loop has no such case. -/
def serve (me : Fin n) (rf : Raft n α) (input : Input n α) : Option (Handler n α Unit) :=
  match rf.status with
  | .follower => runAsFollower me input
  | .candidate => runAsCandidate me rf input
  | .leader => runAsLeader me input

end DistStudy.Raft
