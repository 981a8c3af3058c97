import DistStudy.Raft.Handlers

/-!
# Everything one event can do to a peer

`Outcome me rf input es res` lists the cases of the three main loops: from the
memory `rf` the input has the effects `es` and ends with the memory `res`, or
panics after `es`. `serve_outcome` shows that there is no other case, so that
an invariant is proved by cases on `Outcome`.
-/

namespace DistStudy.Raft

open Prog

variable {n : ℕ} {α : Type}

/-! ## The leader's requests -/

/-- An append request that a leader with memory `rf` sends: a heartbeat, or the
log from the peer's next index on. -/
def Sends (me : Fin n) (rf : Raft n α) (e : Effect n α) : Prop :=
  ∃ server entries prev, server ≠ me ∧ rf.previous server entries = some prev ∧
    e = .call server (.appendEntries (appendRequest me rf entries prev)) ∧
    (entries = [] ∨ getElem rf.nextIndex server server.isLt - rf.snapshotIndex ≥ 1 ∧
      sliceFrom? rf.logs (getElem rf.nextIndex server server.isLt - 1 - rf.snapshotIndex) =
        some entries)

theorem Sends.append {me : Fin n} {rf : Raft n α} {e : Effect n α} (h : Sends me rf e) :
    ∃ server args, server ≠ me ∧ e = .call server (.appendEntries args) := by
  rcases h with ⟨server, entries, prev, hne, -, heq, -⟩
  exact ⟨server, _, hne, heq⟩

theorem sendHeartBeat_run (me : Fin n) (rf : Raft n α) :
    (∀ e ∈ (sendHeartBeat me rf).1, Sends me rf e) ∧ (sendHeartBeat me rf).2 = some ((), rf) := by
  have hbody : ∀ server, appendEntries me server [] rf =
      ([.call server (.appendEntries (appendRequest me rf [] (rf.lastLogIndex, rf.lastLogTerm)))],
        some ((), rf)) := fun server => appendEntries_run me server [] rf
  have hreturns : ∀ server, (appendEntries me server [] rf).2 = some ((), rf) := by
    intro server
    rw [hbody server]
  refine ⟨fun e he => ?_, forPeers_returns hreturns (others me)⟩
  have hrun := forPeers_run (f := fun server => appendEntries me server [])
    (fun server x rf' h => by simpa using h.symm.trans (hreturns server)) (others me)
  rcases hrun.1 e he with ⟨server, hmem, he'⟩
  rw [hbody server] at he'
  exact ⟨server, [], _, mem_others.mp hmem, rfl, by simpa using he', Or.inl rfl⟩

theorem broadcastTo_run (me server : Fin n) (rf : Raft n α) :
    (server ≠ me → ∀ e ∈ (broadcastTo me server rf).1, Sends me rf e) ∧
      ∀ x rf', (broadcastTo me server rf).2 = some (x, rf') → rf' = rf := by
  simp only [broadcastTo, get_bind_run]
  by_cases hc : rf.lastLogIndex ≥ rf.nextIndex[server] ∧
      rf.nextIndex[server] - rf.snapshotIndex ≥ 1
  · rw [if_pos hc]
    cases hs : sliceFrom? rf.logs (rf.nextIndex[server] - 1 - rf.snapshotIndex) with
    | none => simp
    | some entries =>
      rw [orPanic_some_bind_run, appendEntries_run]
      cases hp : rf.previous server entries with
      | none => simp
      | some prev =>
        refine ⟨fun hne e he => ?_, fun x rf' h => by simpa using h.symm⟩
        exact ⟨server, entries, prev, hne, hp, by simpa using he, Or.inr ⟨hc.2, hs⟩⟩
  · rw [if_neg hc]
    simp

theorem broadcastAppendEntries_run (me : Fin n) (rf : Raft n α) :
    (∀ e ∈ (broadcastAppendEntries me rf).1, Sends me rf e) ∧
      ∀ x rf', (broadcastAppendEntries me rf).2 = some (x, rf') → rf' = rf := by
  have hrun := forPeers_run (fun server => (broadcastTo_run me server rf).2) (others me)
  refine ⟨fun e he => ?_, hrun.2⟩
  rcases hrun.1 e he with ⟨server, hmem, he'⟩
  exact (broadcastTo_run me server rf).1 (mem_others.mp hmem) e he'

/-! ## The cases -/

/-- A candidate that gets an append of its own term follows. -/
def heard (rf rf' : Raft n α) : Raft n α :=
  if rf.status = .candidate then { rf' with status := .follower } else rf'

/-- The memory after one vote reply was counted. -/
@[simps]
def counted (rf : Raft n α) (vote : RequestVoteReply) : Raft n α :=
  { rf with grantedVotes := rf.grantedVotes + if vote.voteGranted then 1 else 0 }

/-- The memory of a candidate that has just become the leader. -/
@[simps]
def inaugurated (rf : Raft n α) : Raft n α :=
  { rf with
    status := .leader
    nextIndex := Vector.replicate n (rf.lastLogIndex + 1)
    matchIndex := Vector.replicate n 0 }

/-- The memory after a successful append was credited to `server`. -/
def credited (rf : Raft n α) (req : AppendEntriesArgs α) (server : Fin n) : Raft n α :=
  if req.entries.length ≠ 0 ∧
      req.prevLogIndex + req.entries.length > getElem rf.matchIndex server server.isLt then
    { rf with
      matchIndex := rf.matchIndex.set server (req.prevLogIndex + req.entries.length) server.isLt
      nextIndex :=
        rf.nextIndex.set server (req.prevLogIndex + req.entries.length + 1) server.isLt }
  else rf

/-- The memory after the next index of `server` was moved back. -/
@[simps]
def retargeted (rf : Raft n α) (reply : AppendEntriesReply) (server : Fin n) : Raft n α :=
  { rf with nextIndex := rf.nextIndex.set server (rf.backedOff reply) server.isLt }

/-- The snapshot request of a leader. -/
def snapshotRequest (me : Fin n) (rf : Raft n α) : InstallSnapshotRequest :=
  { term := rf.currentTerm, leaderId := me, lastIncludedIndex := rf.snapshotIndex,
    lastIncludedTerm := rf.snapshotTerm, data := rf.snapshot }

/-- A reply that shows a higher term to the loop that reads it. -/
inductive ShowsTerm (rf : Raft n α) : Input n α → Int → Prop
  | vote (vote : RequestVoteReply) (h : rf.status = .candidate) :
      ShowsTerm rf (.vote rf.voteCh vote) vote.term
  | append (reply : AppendEntriesReply) (args : AppendEntriesArgs α) (server : Fin n)
      (h : rf.status = .leader) : ShowsTerm rf (.appendEntriesReply reply args server) reply.term
  | install (reply : InstallSnapshotReply) (server : Fin n) (h : rf.status = .leader) :
      ShowsTerm rf (.installSnapshotReply reply server) reply.term

/-- What an input does to a peer with memory `rf`: its effects, and the memory
it ends with, `none` if the peer panics. -/
inductive Outcome (me : Fin n) (rf : Raft n α) :
    Input n α → List (Effect n α) → Option (Raft n α) → Prop
  | voteStale (args : RequestVoteArgs) (h : args.term < rf.currentTerm) :
      Outcome me rf (.requestVote args)
        [.reply (.requestVote { term := rf.currentTerm, voteGranted := false })] (some rf)
  | voteGranted (args : RequestVoteArgs) (h : ¬ args.term < rf.currentTerm)
      (hv : (rf.caughtUp args.term).votedFor = -1 ∨
        (rf.caughtUp args.term).votedFor = args.candidateId)
      (hu : (rf.caughtUp args.term).upToDate args) :
      Outcome me rf (.requestVote args)
        (rf.catchUp args.term ++
          [.save ((rf.caughtUp args.term).voted args.candidateId).persisted,
            .reply (.requestVote { term := args.term, voteGranted := true })])
        (some ((rf.caughtUp args.term).voted args.candidateId))
  /-- The candidate's log is too old: the vote is set to none, also if it was
  this candidate's. -/
  | voteRefused (args : RequestVoteArgs) (h : ¬ args.term < rf.currentTerm)
      (hv : (rf.caughtUp args.term).votedFor = -1 ∨
        (rf.caughtUp args.term).votedFor = args.candidateId)
      (hu : ¬ (rf.caughtUp args.term).upToDate args) :
      Outcome me rf (.requestVote args)
        (rf.catchUp args.term ++
          [.save ((rf.caughtUp args.term).voted (-1)).persisted,
            .reply (.requestVote { term := args.term, voteGranted := false })])
        (some ((rf.caughtUp args.term).voted (-1)))
  /-- The vote of the term is another candidate's: the reply is left zero. -/
  | voteTaken (args : RequestVoteArgs) (h : ¬ args.term < rf.currentTerm)
      (hv : ¬ ((rf.caughtUp args.term).votedFor = -1 ∨
        (rf.caughtUp args.term).votedFor = args.candidateId)) :
      Outcome me rf (.requestVote args)
        (rf.catchUp args.term ++ [.reply (.requestVote {})]) (some (rf.caughtUp args.term))
  | appendStale (args : AppendEntriesArgs α) (h : args.term < rf.currentTerm) :
      Outcome me rf (.appendEntries args)
        [.reply (.appendEntries { term := rf.currentTerm, success := false })] (some rf)
  | appendRejected (args : AppendEntriesArgs α) (reply : AppendEntriesReply)
      (h : ¬ args.term < rf.currentTerm)
      (hr : (rf.caughtUp args.term).rejects args = some reply) :
      Outcome me rf (.appendEntries args)
        (rf.catchUp args.term ++ [.reply (.appendEntries reply)])
        (some (rf.heard (rf.caughtUp args.term)))
  | appendAccepted (args : AppendEntriesArgs α) (h : ¬ args.term < rf.currentTerm)
      (hr : (rf.caughtUp args.term).rejects args = none) :
      Outcome me rf (.appendEntries args)
        (rf.catchUp args.term ++ (rf.caughtUp args.term).acceptSaves args.entries ++
          [.reply (.appendEntries { term := args.term, success := true })])
        (some (rf.heard ((rf.caughtUp args.term).accepted args)))
  | installStale (args : InstallSnapshotRequest) (h : args.term < rf.currentTerm) :
      Outcome me rf (.installSnapshot args)
        [.reply (.installSnapshot { term := rf.currentTerm })] (some rf)
  | installEmpty (args : InstallSnapshotRequest) (h : ¬ args.term < rf.currentTerm)
      (hd : args.data = none) :
      Outcome me rf (.installSnapshot args)
        (rf.catchUp args.term ++
          [.save ((rf.caughtUp args.term).installed args.data),
            .reply (.installSnapshot { term := rf.currentTerm })])
        (some ((rf.caughtUp args.term).withSnapshot args.data))
  | installCleared (args : InstallSnapshotRequest) (h : ¬ args.term < rf.currentTerm)
      (hd : args.data ≠ none) (hr : ¬ (rf.caughtUp args.term).Retains args) :
      Outcome me rf (.installSnapshot args)
        (rf.catchUp args.term ++
          [.save ((rf.caughtUp args.term).installed args.data),
            .apply (.snapshot args.data args.lastIncludedTerm args.lastIncludedIndex),
            .reply (.installSnapshot { term := rf.currentTerm })])
        (some (((rf.caughtUp args.term).withSnapshot args.data).replaced args []))
  | installRetained (args : InstallSnapshotRequest) (logs : List (Log α))
      (h : ¬ args.term < rf.currentTerm) (hd : args.data ≠ none)
      (hr : (rf.caughtUp args.term).Retains args)
      (hl : sliceFrom? (rf.caughtUp args.term).logs
        (args.lastIncludedIndex - (rf.caughtUp args.term).snapshotIndex) = some logs) :
      Outcome me rf (.installSnapshot args)
        (rf.catchUp args.term ++
          [.save ((rf.caughtUp args.term).installed args.data),
            .reply (.installSnapshot { term := rf.currentTerm })])
        (some (((rf.caughtUp args.term).withSnapshot args.data).replaced args logs))
  | installPanics (args : InstallSnapshotRequest) (h : ¬ args.term < rf.currentTerm)
      (hd : args.data ≠ none) (hr : (rf.caughtUp args.term).Retains args) :
      Outcome me rf (.installSnapshot args)
        (rf.catchUp args.term ++ [.save ((rf.caughtUp args.term).installed args.data)]) none
  | compacted (req : SnapshotRequest)
      (h : rf.snapshotIndex ≤ req.index ∧ req.index ≤ rf.snapshotIndex + rf.logs.length) :
      Outcome me rf (.snapshotRequest req) [] (some (rf.compacted req))
  | compactPanics (req : SnapshotRequest)
      (h : ¬ (rf.snapshotIndex ≤ req.index ∧ req.index ≤ rf.snapshotIndex + rf.logs.length)) :
      Outcome me rf (.snapshotRequest req) [] none
  | started (command : α) (h : rf.status = .leader) :
      Outcome me rf (.command command)
        [.save (rf.withLogs (rf.logs ++ [rf.newEntry command])).persisted,
          .started (rf.logs.length + rf.snapshotIndex + 1) rf.currentTerm true]
        (some (rf.withLogs (rf.logs ++ [rf.newEntry command])))
  | notLeader (command : α) (h : rf.status ≠ .leader) :
      Outcome me rf (.command command)
        [.started (rf.logs.length + rf.snapshotIndex + 1) rf.currentTerm false] (some rf)
  | applied (es : List (Log α)) (res : Option (Raft n α))
      (hes : es = deliverable rf.logs rf.backlog (rf.lastApplied - rf.snapshotIndex))
      (hres : res = none ∨ es.length = rf.backlog ∧
        res = some (rf.withApplied (rf.lastApplied + rf.backlog))) :
      Outcome me rf .applyTimer (es.map Log.deliver) res
  | elected (h : rf.status ≠ .leader) :
      Outcome me rf .electionTimer
        (.save (elected me rf).persisted ::
          (others me).map fun server =>
            .call server (.requestVote (rf.voteCh + 1) (ballotRequest me rf)))
        (some (elected me rf))
  | higherTerm {input : Input n α} {term : Int} (hin : ShowsTerm rf input term)
      (h : term > rf.currentTerm) :
      Outcome me rf input [.save (rf.steppedDown term).persisted] (some (rf.steppedDown term))
  | voteCounted (vote : RequestVoteReply) (hs : rf.status = .candidate)
      (h : ¬ vote.term > rf.currentTerm) (hn : ¬ (rf.counted vote).grantedVotes > (n / 2 : ℕ)) :
      Outcome me rf (.vote rf.voteCh vote) [] (some (rf.counted vote))
  | leaderElected (vote : RequestVoteReply) (es : List (Effect n α))
      (hs : rf.status = .candidate) (h : ¬ vote.term > rf.currentTerm)
      (hn : (rf.counted vote).grantedVotes > (n / 2 : ℕ))
      (hes : ∀ e ∈ es, Sends me (rf.counted vote).inaugurated e) :
      Outcome me rf (.vote rf.voteCh vote) es (some (rf.counted vote).inaugurated)
  | sent (input : Input n α) (es : List (Effect n α)) (res : Option (Raft n α))
      (hin : input = .heartbeatTimer ∨ input = .broadcastEntriesTimer)
      (hs : rf.status = .leader) (hes : ∀ e ∈ es, Sends me rf e)
      (hres : res = none ∨ res = some rf) : Outcome me rf input es res
  | replyStale (reply : AppendEntriesReply) (args : AppendEntriesArgs α) (server : Fin n)
      (hs : rf.status = .leader) (h : rf.currentTerm > reply.term ∨ rf.currentTerm > args.term) :
      Outcome me rf (.appendEntriesReply reply args server) [] (some rf)
  | replySuccess (reply : AppendEntriesReply) (args : AppendEntriesArgs α) (server : Fin n)
      (res : Option (Raft n α)) (hs : rf.status = .leader) (h : reply.term = rf.currentTerm)
      (hreq : ¬ rf.currentTerm > args.term) (hok : reply.success = true)
      (hres : res = none ∨ res = some (rf.credited args server) ∨
        ∃ M, rf.commitIndex < M ∧ M ≤ rf.logs.length + rf.snapshotIndex ∧
          (rf.credited args server).Committable me M ∧
          res = some ((rf.credited args server).withCommit M)) :
      Outcome me rf (.appendEntriesReply reply args server) [] res
  | replyFailure (reply : AppendEntriesReply) (args : AppendEntriesArgs α) (server : Fin n)
      (es : List (Effect n α)) (hs : rf.status = .leader) (h : reply.term = rf.currentTerm)
      (hreq : ¬ rf.currentTerm > args.term) (hok : reply.success = false)
      (hes : es = [] ∨ es = [.call server (.installSnapshot (snapshotRequest me rf))] ∧
        ∃ l, rf.logs.head? = some l ∧ rf.backedOff reply ≤ l.index) :
      Outcome me rf (.appendEntriesReply reply args server) es (some (rf.retargeted reply server))
  | installReply (reply : InstallSnapshotReply) (server : Fin n) (hs : rf.status = .leader)
      (h : ¬ reply.term > rf.currentTerm) :
      Outcome me rf (.installSnapshotReply reply server) [] (some rf)

/-! ## There are no other cases -/

/-- The outcome of running a handler. -/
def Ends (me : Fin n) (rf : Raft n α) (input : Input n α) (h : Handler n α Unit) : Prop :=
  Outcome me rf input (h rf).1 ((h rf).2.map Prod.snd)

theorem requestVote_ends (me : Fin n) (rf : Raft n α) (args : RequestVoteArgs) :
    Ends me rf (.requestVote args)
      (handleRequestVote args >>= fun reply => emit (.reply (.requestVote reply))) := by
  unfold Ends
  rw [bind_run, handleRequestVote_run]
  split_ifs with h hv hu
  · exact .voteStale args h
  · simpa using (.voteGranted args h hv hu :
        Outcome me rf (.requestVote args) _ _)
  · simpa using (.voteRefused args h hv hu :
        Outcome me rf (.requestVote args) _ _)
  · exact .voteTaken args h hv

/-- The three ways in which an append ends, for a peer that then does `f`. -/
theorem appendEntries_ends (me : Fin n) (rf : Raft n α) (args : AppendEntriesArgs α)
    (f : Handler n α Unit)
    (hf : ∀ rf', f rf' = ([], some ((), if rf.status = .candidate ∧ args.term ≥ rf'.currentTerm then
      { rf' with status := .follower } else rf'))) :
    Ends me rf (.appendEntries args) (handleAppendEntries args >>= fun reply =>
      emit (.reply (.appendEntries reply)) >>= fun _ => f) := by
  unfold Ends
  rw [bind_run, handleAppendEntries_run]
  by_cases h : args.term < rf.currentTerm
  · have hge : ¬ args.term ≥ rf.currentTerm := by omega
    simpa [h, hf, hge] using (.appendStale args h :
        Outcome me rf (.appendEntries args) _ _)
  have hterm : (rf.caughtUp args.term).currentTerm = args.term := caughtUp_currentTerm rf h
  cases hr : (rf.caughtUp args.term).rejects args with
  | some reply =>
    have hrej : Outcome me rf (.appendEntries args) _ _ := .appendRejected args reply h hr
    simpa [h, hr, hf, hterm, heard] using hrej
  | none =>
    have hacc : Outcome me rf (.appendEntries args) _ _ := .appendAccepted args h hr
    simpa [h, hr, hf, hterm, heard] using hacc

theorem installSnapshot_ends (me : Fin n) (rf : Raft n α) (args : InstallSnapshotRequest) :
    Ends me rf (.installSnapshot args) (handleInstallSnapshot args >>= fun reply =>
      emit (.reply (.installSnapshot reply))) := by
  unfold Ends
  rw [bind_run, handleInstallSnapshot_run]
  by_cases h : args.term < rf.currentTerm
  · simpa [h] using (.installStale args h :
        Outcome me rf (.installSnapshot args) _ _)
  by_cases hd : args.data = none
  · simpa [h, acceptSnapshot_run, hd] using (.installEmpty args h hd :
        Outcome me rf (.installSnapshot args) _ _)
  by_cases hr : (rf.caughtUp args.term).Retains args
  · cases hl : sliceFrom? (rf.caughtUp args.term).logs
        (args.lastIncludedIndex - (rf.caughtUp args.term).snapshotIndex) with
    | none =>
      simpa [h, acceptSnapshot_run, hd, hr, hl] using (.installPanics args h hd hr :
        Outcome me rf (.installSnapshot args) _ _)
    | some logs =>
      simpa [h, acceptSnapshot_run, hd, hr, hl] using
        (.installRetained args logs h hd hr hl :
        Outcome me rf (.installSnapshot args) _ _)
  · simpa [h, acceptSnapshot_run, hd, hr] using (.installCleared args h hd hr :
        Outcome me rf (.installSnapshot args) _ _)

theorem snapshotRequest_ends (me : Fin n) (rf : Raft n α) (req : SnapshotRequest) :
    Ends me rf (.snapshotRequest req) (handleSnapshot req) := by
  unfold Ends
  rw [handleSnapshot_run]
  split_ifs with h
  · exact .compacted req h
  · exact .compactPanics req h

theorem command_ends (me : Fin n) (rf : Raft n α) (command : α) :
    Ends me rf (.command command) (handleCommand command >>= fun r =>
      emit (.started r.1 r.2.1 r.2.2)) := by
  unfold Ends
  rw [bind_run, handleCommand_run]
  split_ifs with h
  · exact .started command h
  · exact .notLeader command h

theorem applyTimer_ends (me : Fin n) (rf : Raft n α) :
    Ends me rf .applyTimer applyToClient := by
  unfold Ends
  rw [applyToClient_run, applyLoop_run]
  refine .applied _ _ rfl ?_
  split_ifs with h
  · exact Or.inr ⟨h, rfl⟩
  · exact Or.inl rfl

theorem appendEntriesReply_ends (me : Fin n) (rf : Raft n α) (reply : AppendEntriesReply)
    (args : AppendEntriesArgs α) (server : Fin n) (hs : rf.status = .leader) :
    Ends me rf (.appendEntriesReply reply args server)
      (handleAppendEntriesReply me reply args server) := by
  unfold Ends
  simp only [handleAppendEntriesReply, get_bind_run]
  by_cases hstale : rf.currentTerm > reply.term ∨ rf.currentTerm > args.term
  · rw [if_pos hstale]
    exact .replyStale reply args server hs hstale
  by_cases hgt : reply.term > rf.currentTerm
  · rw [if_neg hstale, if_pos hgt]
    exact .higherTerm (.append reply args server hs) hgt
  rw [if_neg hstale, if_neg hgt]
  have hterm : reply.term = rf.currentTerm := by omega
  have hreq : ¬ rf.currentTerm > args.term := by omega
  cases hok : reply.success with
  | true =>
    -- the credit is given, and then the commit loop runs
    have hrun : (updateCommitIndex me (rf.credited args server)).1 = [] ∧ _ :=
      updateCommitIndex_run me (rf.credited args server)
    have hcommit : (rf.credited args server).commitIndex = rf.commitIndex := by
      unfold credited; split_ifs <;> rfl
    have hlogs : ((rf.credited args server).logs.length : Int) +
        (rf.credited args server).snapshotIndex = rf.logs.length + rf.snapshotIndex := by
      unfold credited; split_ifs <;> rfl
    have hout : Outcome me rf (.appendEntriesReply reply args server)
        (updateCommitIndex me (rf.credited args server)).1
        ((updateCommitIndex me (rf.credited args server)).2.map Prod.snd) := by
      rw [hrun.1]
      refine .replySuccess reply args server _ hs hterm hreq hok ?_
      cases hres : (updateCommitIndex me (rf.credited args server)).2 with
      | none => exact Or.inl rfl
      | some r =>
        right
        rcases hrun.2 r.1 r.2 hres with h | ⟨M, hlo, hhi, hc, h⟩
        · exact Or.inl (by rw [Option.map_some, h])
        · exact Or.inr ⟨M, by omega, by omega, hc, by rw [Option.map_some, h]⟩
    rw [if_pos rfl]
    unfold credited at hout
    split_ifs at hout ⊢ <;> exact hout
  | false =>
    cases hh : rf.logs.head? with
    | none => exact .replyFailure reply args server [] hs hterm hreq hok (Or.inl rfl)
    | some l =>
      by_cases hle : rf.backedOff reply ≤ l.index
      · simp only [hle, if_true, Bool.false_eq_true, if_false]
        exact .replyFailure reply args server _ hs hterm hreq hok (Or.inr ⟨rfl, l, hh, hle⟩)
      · simp only [hle, if_false, Bool.false_eq_true]
        exact .replyFailure reply args server [] hs hterm hreq hok (Or.inl rfl)

theorem vote_ends (me : Fin n) (rf : Raft n α) (vote : RequestVoteReply)
    (hs : rf.status = .candidate) : Ends me rf (.vote rf.voteCh vote) (handleVote me vote) := by
  unfold Ends
  simp only [handleVote, get_bind_run]
  by_cases hgt : vote.term > rf.currentTerm
  · rw [if_pos hgt]
    exact .higherTerm (.vote vote hs) hgt
  rw [if_neg hgt]
  -- the end of the handler, from the memory in which the vote is counted
  have hend : ∀ rf', rf' = rf.counted vote → Outcome me rf (.vote rf.voteCh vote)
      ((if rf'.grantedVotes > (n / 2 : ℕ) then
        modify (fun rf => { rf with status := .leader }) >>= fun _ => enterLeader me
        else pure () : Handler n α Unit) rf').1
      (((if rf'.grantedVotes > (n / 2 : ℕ) then
        modify (fun rf => { rf with status := .leader }) >>= fun _ => enterLeader me
        else pure () : Handler n α Unit) rf').2.map Prod.snd) := by
    rintro rf' rfl
    by_cases hn : (rf.counted vote).grantedVotes > (n / 2 : ℕ)
    · have hbeat := sendHeartBeat_run me (rf.counted vote).inaugurated
      rw [if_pos hn]
      have hres : Outcome me rf (.vote rf.voteCh vote) _ _ :=
        .leaderElected vote _ hs hgt hn hbeat.1
      rw [← Option.map_some (f := Prod.snd) (a := ((), (rf.counted vote).inaugurated)),
        ← hbeat.2] at hres
      exact hres
    · rw [if_neg hn]
      exact .voteCounted vote hs hgt hn
  cases hg : vote.voteGranted with
  | true => exact hend _ (by simp [counted, hg])
  | false => exact hend _ (by simp [counted, hg])

theorem election_ends (me : Fin n) (rf : Raft n α) (h : rf.status ≠ .leader) :
    Ends me rf .electionTimer
      (modify (fun rf => { rf with status := .candidate }) >>= fun _ => enterCandidate me) := by
  unfold Ends
  rw [modify_bind_run, enterCandidate_run _ _ rfl]
  exact .elected h

/-- The cases that the loops share. A candidate does more on an append. -/
theorem serveCommon_ends (me : Fin n) (rf : Raft n α) {input : Input n α}
    {h : Handler n α Unit}
    (hc : ∀ args, input = .appendEntries args → rf.status ≠ .candidate)
    (hs : serveCommon input = some h) : Ends me rf input h := by
  cases input <;> simp only [serveCommon, Option.some.injEq, reduceCtorEq] at hs <;> subst hs
  case requestVote args => exact requestVote_ends me rf args
  case appendEntries args =>
    have happ := appendEntries_ends me rf args (pure ()) (by simp [hc args rfl])
    exact happ
  case installSnapshot args => exact installSnapshot_ends me rf args
  case snapshotRequest req => exact snapshotRequest_ends me rf req
  case command command => exact command_ends me rf command
  case applyTimer => exact applyTimer_ends me rf

theorem runAsFollower_ends (me : Fin n) (rf : Raft n α) (hf : rf.status = .follower)
    {input : Input n α} {h : Handler n α Unit} (hs : runAsFollower me input = some h) :
    Ends me rf input h := by
  have hne : ∀ args, input = .appendEntries args → rf.status ≠ .candidate := by simp [hf]
  cases input
  case electionTimer =>
    obtain rfl := Option.some.inj hs
    exact election_ends me rf (by simp [hf])
  all_goals exact serveCommon_ends me rf hne hs

theorem runAsCandidate_ends (me : Fin n) (rf : Raft n α) (hc : rf.status = .candidate)
    {input : Input n α} {h : Handler n α Unit} (hs : runAsCandidate me rf input = some h) :
    Ends me rf input h := by
  cases input
  case electionTimer =>
    obtain rfl := Option.some.inj hs
    have hrun := election_ends me rf (by simp [hc])
    have hsame : ({ rf with status := .candidate } : Raft n α) = rf := by rw [← hc]
    rw [Ends, modify_bind_run, hsame] at hrun
    exact hrun
  case vote voteCh vote =>
    simp only [runAsCandidate] at hs
    split_ifs at hs with hch
    obtain rfl := Option.some.inj hs
    rw [hch]
    exact vote_ends me rf vote hc
  case appendEntries args =>
    obtain rfl := Option.some.inj hs
    refine appendEntries_ends me rf args _ fun rf' => ?_
    rw [get_bind_run]
    split_ifs <;> simp_all
  all_goals exact serveCommon_ends me rf (by simp) hs

theorem runAsLeader_ends (me : Fin n) (rf : Raft n α) (hl : rf.status = .leader)
    {input : Input n α} {h : Handler n α Unit} (hs : runAsLeader me input = some h) :
    Ends me rf input h := by
  have hne : ∀ args, input = .appendEntries args → rf.status ≠ .candidate := by simp [hl]
  cases input
  case broadcastEntriesTimer =>
    obtain rfl := Option.some.inj hs
    have hrun := broadcastAppendEntries_run me rf
    refine .sent _ _ _ (Or.inr rfl) hl hrun.1 ?_
    cases hres : (broadcastAppendEntries me rf).2 with
    | none => exact Or.inl rfl
    | some r => exact Or.inr (by rw [Option.map_some, hrun.2 r.1 r.2 hres])
  case heartbeatTimer =>
    obtain rfl := Option.some.inj hs
    have hrun := sendHeartBeat_run me rf
    exact .sent _ _ _ (Or.inl rfl) hl hrun.1 (Or.inr (by rw [hrun.2]; rfl))
  case appendEntriesReply reply args server =>
    obtain rfl := Option.some.inj hs
    exact appendEntriesReply_ends me rf reply args server hl
  case installSnapshotReply reply server =>
    obtain rfl := Option.some.inj hs
    rw [Ends, get_bind_run]
    split_ifs with hgt
    · exact .higherTerm (.install reply server hl) hgt
    · exact .installReply reply server hl hgt
  all_goals exact serveCommon_ends me rf hne hs

/-- Every event has one of the listed outcomes. -/
theorem serve_outcome {me : Fin n} {rf : Raft n α} {input : Input n α} {h : Handler n α Unit}
    (hs : serve me rf input = some h) :
    Outcome me rf input (h rf).1 ((h rf).2.map Prod.snd) := by
  cases hst : rf.status with
  | follower => exact runAsFollower_ends me rf hst (by simpa [serve, hst] using hs)
  | candidate => exact runAsCandidate_ends me rf hst (by simpa [serve, hst] using hs)
  | leader => exact runAsLeader_ends me rf hst (by simpa [serve, hst] using hs)

/-! ## The requests of an event -/

/-- A peer sends vote requests when it starts an election, appends when it leads
or has just been elected, and snapshots after a rejected append. -/
theorem Outcome.call_cases {me : Fin n} {rf : Raft n α} {input : Input n α}
    {es : List (Effect n α)} {res : Option (Raft n α)} (h : Outcome me rf input es res)
    {server : Fin n} {call : Call α} (hc : .call server call ∈ es) :
    (input = .electionTimer ∧ server ≠ me ∧
        call = .requestVote (rf.voteCh + 1) (ballotRequest me rf)) ∨
      (rf.status = .leader ∧ Sends me rf (.call server call)) ∨
      (∃ vote, input = .vote rf.voteCh vote ∧ res = some (rf.counted vote).inaugurated ∧
        Sends me (rf.counted vote).inaugurated (.call server call)) ∨
      ∃ reply args, rf.status = .leader ∧ input = .appendEntriesReply reply args server ∧
        call = .installSnapshot (snapshotRequest me rf) := by
  have hcatch : ∀ term, .call server call ∉ rf.catchUp term := by
    intro term hmem
    cases (mem_catchUp.mp hmem).2
  cases h with
  | appendAccepted args h hr =>
    simp only [List.append_assoc, List.mem_append, List.mem_singleton, hcatch, false_or,
      reduceCtorEq, or_false] at hc
    exact absurd (acceptSaves_saves _ _ _ hc) (by simp)
  | applied es res hes hres => simp [Log.deliver] at hc
  | elected h =>
    simp only [List.mem_cons, reduceCtorEq, List.mem_map, false_or] at hc
    rcases hc with ⟨server', hmem, heq⟩
    cases heq
    exact Or.inl ⟨rfl, mem_others.mp hmem, rfl⟩
  | leaderElected vote es hs h hn hes =>
    exact Or.inr (Or.inr (Or.inl ⟨vote, rfl, rfl, hes _ hc⟩))
  | sent input es res hin hs hes hres => exact Or.inr (Or.inl ⟨hs, hes _ hc⟩)
  | replyFailure reply args server' es hs h hreq hok hes =>
    rcases hes with rfl | ⟨rfl, -⟩
    · simp at hc
    · obtain ⟨rfl, rfl⟩ : server = server' ∧ call = .installSnapshot (snapshotRequest me rf) := by
        simpa using hc
      exact Or.inr (Or.inr (Or.inr ⟨reply, args, hs, rfl, rfl⟩))
  | _ => simp [hcatch] at hc

end DistStudy.Raft
