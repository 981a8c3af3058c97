import DistStudy.Raft.Server

/-!
# What each handler computes

One equation for each handler of `Server.lean`: its effects in order, and the
memory and the reply it ends with, as a closed expression of the memory before.
Later modules use these equations and never unfold a handler.
-/

namespace DistStudy.Raft

open Prog

variable {n : ℕ} {α : Type}

/-! ## Terms and votes -/

theorem persist_run (rf : Raft n α) : persist rf = ([.save rf.persisted], some ((), rf)) := rfl

theorem handleHigherTermFound_run (term : Int) (rf : Raft n α) :
    handleHigherTermFound term rf =
      ([.save (rf.steppedDown term).persisted], some ((), rf.steppedDown term)) := rfl

/-- The memory after the term of a request has been looked at. -/
def caughtUp (rf : Raft n α) (term : Int) : Raft n α :=
  if term > rf.currentTerm then rf.steppedDown term else rf

/-- The effects of looking at the term of a request. -/
def catchUp (rf : Raft n α) (term : Int) : List (Effect n α) :=
  if term > rf.currentTerm then [.save (rf.steppedDown term).persisted] else []

theorem mem_catchUp {rf : Raft n α} {term : Int} {e : Effect n α} :
    e ∈ rf.catchUp term ↔ term > rf.currentTerm ∧ e = .save (rf.steppedDown term).persisted := by
  unfold catchUp
  split_ifs with h <;> simp [h]

/-- The memory after a vote was given or taken back. -/
@[simps]
def voted (rf : Raft n α) (v : Int) : Raft n α := { rf with votedFor := v }

theorem handleRequestVote_run (args : RequestVoteArgs) (rf : Raft n α) :
    handleRequestVote args rf =
      if args.term < rf.currentTerm then
        ([], some ({ term := rf.currentTerm, voteGranted := false }, rf))
      else if (rf.caughtUp args.term).votedFor = -1 ∨
          (rf.caughtUp args.term).votedFor = args.candidateId then
        if (rf.caughtUp args.term).upToDate args then
          (rf.catchUp args.term ++
              [.save ((rf.caughtUp args.term).voted args.candidateId).persisted],
            some ({ term := args.term, voteGranted := true },
              (rf.caughtUp args.term).voted args.candidateId))
        else
          (rf.catchUp args.term ++ [.save ((rf.caughtUp args.term).voted (-1)).persisted],
            some ({ term := args.term, voteGranted := false },
              (rf.caughtUp args.term).voted (-1)))
      else (rf.catchUp args.term, some ({}, rf.caughtUp args.term)) := by
  unfold handleRequestVote caughtUp catchUp
  by_cases h : args.term > rf.currentTerm
  · have hlt : ¬ args.term < rf.currentTerm := by omega
    simp only [bind_run, get_run, h, hlt, handleHigherTermFound_run, steppedDown, lt_irrefl,
      if_true, if_false, true_or, List.nil_append, List.cons_append]
    split_ifs <;> simp [bind_run, persist_run, voted]
  · by_cases hlt : args.term < rf.currentTerm
    · simp [bind_run, h, hlt]
    · have heq : args.term = rf.currentTerm := by omega
      simp only [bind_run, get_run, heq, lt_irrefl, gt_iff_lt, if_false, List.nil_append]
      split_ifs <;> simp [bind_run, persist_run, voted]

/-! ## Appends -/

/-- The position of the first entry of `logs` that conflicts with a new one. -/
def firstConflict (snapshotIndex : Int) (logs : List (Log α)) : List (Log α) → Option ℕ
  | [] => none
  | val :: rest =>
    let i := val.index - snapshotIndex - 1
    if i < 0 ∨ i ≥ logs.length then none
    else match logs[i.toNat]? with
      | none => none
      | some l => if l.term ≠ val.term then some i.toNat else firstConflict snapshotIndex logs rest

/-- The new entries that lie beyond a log that ends at `last`. -/
def beyond (last : Int) : List (Log α) → List (Log α)
  | [] => []
  | val :: rest => if val.index > last then val :: beyond (last + 1) rest else beyond last rest

/-- The memory with another log. -/
@[simps]
def withLogs (rf : Raft n α) (logs : List (Log α)) : Raft n α := { rf with logs := logs }

theorem removeConflicts_run (entries : List (Log α)) (rf : Raft n α) :
    removeConflicts entries rf =
      match firstConflict rf.snapshotIndex rf.logs entries with
      | none => ([], some ((), rf))
      | some i => ([.save (rf.withLogs (rf.logs.take i)).persisted],
          some ((), rf.withLogs (rf.logs.take i))) := by
  induction entries with
  | nil => rfl
  | cons val rest ih =>
    simp only [removeConflicts, firstConflict, bind_run, get_run, List.nil_append]
    by_cases hi : val.index - rf.snapshotIndex - 1 < 0 ∨
        val.index - rf.snapshotIndex - 1 ≥ rf.logs.length
    · simp only [if_pos hi, pure_run]
    · have h0 : 0 ≤ val.index - rf.snapshotIndex - 1 := by omega
      have hlt : (val.index - rf.snapshotIndex - 1).toNat < rf.logs.length := by omega
      simp only [if_neg hi, index?, if_pos h0, List.getElem?_eq_getElem hlt, bind_run,
        orPanic_some, List.nil_append]
      by_cases ht : (rf.logs[(val.index - rf.snapshotIndex - 1).toNat]).term = val.term
      · simp only [ht, ne_eq, not_true_eq_false, if_false, ih]
      · simp only [ht, ne_eq, not_false_eq_true, if_true, bind_run, modify_run, persist_run,
          List.nil_append, withLogs]

/-- The effects of appending new entries to `logs` one by one. -/
def appendSaves (rf : Raft n α) (logs : List (Log α)) : List (Log α) → List (Effect n α)
  | [] => []
  | val :: rest =>
    .save (rf.withLogs (logs ++ [val])).persisted :: appendSaves rf (logs ++ [val]) rest

theorem appendSaves_withLogs (rf : Raft n α) (l logs news : List (Log α)) :
    appendSaves (rf.withLogs l) logs news = appendSaves rf logs news := by
  induction news generalizing logs with
  | nil => rfl
  | cons val rest ih => simp only [appendSaves, ih]; rfl

theorem appendNew_run (entries : List (Log α)) (rf : Raft n α) :
    appendNew entries rf =
      (appendSaves rf rf.logs (beyond (rf.logs.length + rf.snapshotIndex) entries),
        some ((), rf.withLogs
          (rf.logs ++ beyond (rf.logs.length + rf.snapshotIndex) entries))) := by
  induction entries generalizing rf with
  | nil => simp [appendNew, beyond, appendSaves, withLogs]
  | cons val rest ih =>
    simp only [appendNew, beyond, bind_run, get_run, List.nil_append]
    by_cases hv : val.index > rf.logs.length + rf.snapshotIndex
    · have hlen : ((rf.logs ++ [val]).length : Int) + rf.snapshotIndex =
          rf.logs.length + rf.snapshotIndex + 1 := by simp; omega
      have hmod : { rf with logs := rf.logs ++ [val] } = rf.withLogs (rf.logs ++ [val]) := rfl
      simp only [hv, if_true, bind_run, modify_run, persist_run, hmod, ih, withLogs_logs,
        withLogs_snapshotIndex, hlen, appendSaves_withLogs, appendSaves, List.nil_append,
        List.cons_append, List.append_assoc]
      rfl
    · simp only [hv, if_false, ih]

/-- The log after the conflicting entries were removed. -/
def cut (rf : Raft n α) (entries : List (Log α)) : List (Log α) :=
  match firstConflict rf.snapshotIndex rf.logs entries with
  | none => rf.logs
  | some i => rf.logs.take i

def cutSaves (rf : Raft n α) (entries : List (Log α)) : List (Effect n α) :=
  match firstConflict rf.snapshotIndex rf.logs entries with
  | none => []
  | some i => [.save (rf.withLogs (rf.logs.take i)).persisted]

/-- The new entries that are appended. -/
def news (rf : Raft n α) (entries : List (Log α)) : List (Log α) :=
  beyond ((rf.cut entries).length + rf.snapshotIndex) entries

/-- The writes of an accepted append: one for the cut, one for each new entry. -/
def acceptSaves (rf : Raft n α) (entries : List (Log α)) : List (Effect n α) :=
  rf.cutSaves entries ++ appendSaves rf (rf.cut entries) (rf.news entries)

/-- The commit index after an accepted append; the bound is the last index of
the log before the new entries. -/
def commitAfter (rf : Raft n α) (args : AppendEntriesArgs α) : Int :=
  if args.leaderCommit > 0 ∧ args.leaderCommit > rf.commitIndex then
    min args.leaderCommit
      (match (rf.cut args.entries).getLast? with
        | some l => l.index
        | none => maxInt)
  else rf.commitIndex

/-- The memory after an accepted append. -/
@[simps]
def accepted (rf : Raft n α) (args : AppendEntriesArgs α) : Raft n α :=
  { rf with logs := rf.cut args.entries ++ rf.news args.entries
            commitIndex := rf.commitAfter args }

theorem removeConflicts_eq (entries : List (Log α)) (rf : Raft n α) :
    removeConflicts entries rf =
      (rf.cutSaves entries, some ((), rf.withLogs (rf.cut entries))) := by
  rw [removeConflicts_run, cutSaves, cut]
  cases firstConflict rf.snapshotIndex rf.logs entries <;> rfl

theorem acceptEntries_run (args : AppendEntriesArgs α) (rf : Raft n α) :
    acceptEntries args rf =
      (rf.acceptSaves args.entries,
        some ({ term := rf.currentTerm, success := true }, rf.accepted args)) := by
  have hnew := appendNew_run args.entries (rf.withLogs (rf.cut args.entries))
  simp only [withLogs_logs, withLogs_snapshotIndex, appendSaves_withLogs] at hnew
  simp only [acceptEntries, bind_run, removeConflicts_eq, get_run, hnew, withLogs_logs,
    withLogs_commitIndex, List.nil_append, acceptSaves, news, accepted, commitAfter]
  split_ifs
  · cases (rf.cut args.entries).getLast? <;> simp [withLogs]
  · simp [withLogs]

theorem appendSaves_saves (rf : Raft n α) (logs news : List (Log α)) :
    ∀ e ∈ appendSaves rf logs news, ∃ j, e = .save (rf.withLogs (logs ++ news.take j)).persisted := by
  induction news generalizing logs with
  | nil => simp [appendSaves]
  | cons val rest ih =>
    intro e he
    rcases List.mem_cons.mp he with rfl | he
    · exact ⟨1, by simp⟩
    · rcases ih _ e he with ⟨j, rfl⟩
      exact ⟨j + 1, by simp⟩

/-- An accepted append does nothing but write: the log after the cut and some of
the new entries. -/
theorem acceptSaves_saves (rf : Raft n α) (entries : List (Log α)) :
    ∀ e ∈ rf.acceptSaves entries,
      ∃ j, e = .save (rf.withLogs (rf.cut entries ++ (rf.news entries).take j)).persisted := by
  intro e he
  rcases List.mem_append.mp he with he | he
  · unfold cutSaves at he
    split at he
    · simp at he
    · rename_i hc
      exact ⟨0, by simpa [Raft.cut, hc] using he⟩
  · exact appendSaves_saves rf _ _ e he

/-- The reply of a log check that fails. -/
def rejects (rf : Raft n α) (args : AppendEntriesArgs α) : Option AppendEntriesReply :=
  if args.prevLogIndex > rf.logs.length + rf.snapshotIndex then
    some { term := rf.currentTerm, success := false }
  else if args.prevLogIndex > rf.snapshotIndex then
    (index? rf.logs (args.prevLogIndex - rf.snapshotIndex - 1)).bind fun l =>
      if l.term ≠ args.prevLogTerm then some (rf.conflictReply l.term) else none
  else none

theorem success_of_rejects {rf : Raft n α} {args : AppendEntriesArgs α}
    {reply : AppendEntriesReply} (h : rf.rejects args = some reply) : reply.success = false := by
  unfold rejects at h
  split_ifs at h
  · exact (Option.some.inj h) ▸ rfl
  · rw [Option.bind_eq_some_iff] at h
    rcases h with ⟨l, -, hl⟩
    split_ifs at hl
    exact (Option.some.inj hl) ▸ rfl

theorem caughtUp_currentTerm (rf : Raft n α) {term : Int} (h : ¬ term < rf.currentTerm) :
    (rf.caughtUp term).currentTerm = term := by
  unfold caughtUp
  split_ifs
  · rfl
  · omega

theorem handleAppendEntries_run (args : AppendEntriesArgs α) (rf : Raft n α) :
    handleAppendEntries args rf =
      if args.term < rf.currentTerm then
        ([], some ({ term := rf.currentTerm, success := false }, rf))
      else match (rf.caughtUp args.term).rejects args with
        | some reply => (rf.catchUp args.term, some (reply, rf.caughtUp args.term))
        | none =>
          (rf.catchUp args.term ++ (rf.caughtUp args.term).acceptSaves args.entries,
            some ({ term := args.term, success := true },
              (rf.caughtUp args.term).accepted args)) := by
  by_cases hlt : args.term < rf.currentTerm
  · have hgt : ¬ args.term > rf.currentTerm := by omega
    simp [handleAppendEntries, bind_run, hgt, hlt]
  -- after the first `if` the memory is the caught-up one
  have hrun : handleAppendEntries args rf =
      (rf.catchUp args.term ++ (handleAppendEntries args (rf.caughtUp args.term)).1,
        (handleAppendEntries args (rf.caughtUp args.term)).2) := by
    by_cases hgt : args.term > rf.currentTerm
    · simp [handleAppendEntries, bind_run, caughtUp, catchUp, hgt, handleHigherTermFound_run]
    · simp [caughtUp, catchUp, hgt]
  rw [hrun, if_neg hlt]
  generalize hrf : rf.caughtUp args.term = rf'
  have hterm : rf'.currentTerm = args.term := by rw [← hrf]; exact caughtUp_currentTerm rf hlt
  have hself : ¬ args.term > rf'.currentTerm := by omega
  have hself' : ¬ args.term < rf'.currentTerm := by omega
  simp only [handleAppendEntries, bind_run, get_run, hself, hself', if_false, List.nil_append,
    rejects]
  by_cases hlen : args.prevLogIndex > rf'.logs.length + rf'.snapshotIndex
  · simp [hlen]
  by_cases hprev : args.prevLogIndex > rf'.snapshotIndex
  · -- the index expression is in range: `prevLogIndex` was compared with the length
    have h0 : 0 ≤ args.prevLogIndex - rf'.snapshotIndex - 1 := by omega
    have hin : (args.prevLogIndex - rf'.snapshotIndex - 1).toNat < rf'.logs.length := by omega
    simp only [hlen, hprev, if_true, if_false, index?, h0, List.getElem?_eq_getElem hin, bind_run,
      orPanic_some, Option.bind_some, List.nil_append]
    split_ifs with ht
    · simp
    · simp [acceptEntries_run, hterm]
  · simp [hlen, hprev, acceptEntries_run, hterm]

/-! ## Snapshots -/

/-- The memory after the service's snapshot at `req.index` was taken over. The
term of an entry that is not in the log is recorded as `-1`. -/
@[simps]
def compacted (rf : Raft n α) (req : SnapshotRequest) : Raft n α :=
  { rf with
    snapshot := req.snapshot
    snapshotTerm := ((index? rf.logs (req.index - 1 - rf.snapshotIndex)).map Log.term).getD (-1)
    logs := rf.logs.drop (req.index - rf.snapshotIndex).toNat
    snapshotIndex := req.index }

theorem handleSnapshot_run (req : SnapshotRequest) (rf : Raft n α) :
    handleSnapshot req rf =
      ([], if rf.snapshotIndex ≤ req.index ∧ req.index ≤ rf.snapshotIndex + rf.logs.length then
        some ((), rf.compacted req) else none) := by
  simp only [handleSnapshot, bind_run, modify_run, get_run, List.nil_append]
  have hslice : req.index + 1 - rf.snapshotIndex - 1 = req.index - rf.snapshotIndex := by omega
  rw [hslice]
  by_cases hlo : req.index - 1 - rf.snapshotIndex < 0
  · have hnone : index? rf.logs (req.index - 1 - rf.snapshotIndex) = none := by
      simp [index?]; omega
    by_cases hge : rf.snapshotIndex ≤ req.index
    · have hle : req.index ≤ rf.snapshotIndex + rf.logs.length := by omega
      have hs : sliceFrom? rf.logs (req.index - rf.snapshotIndex) =
          some (rf.logs.drop (req.index - rf.snapshotIndex).toNat) := if_pos (by omega)
      simp [hlo, hge, hle, hs, hnone, bind_run, compacted]
    · have hs : sliceFrom? rf.logs (req.index - rf.snapshotIndex) = none := if_neg (by omega)
      simp [hlo, hge, hs, bind_run]
  · have hge : rf.snapshotIndex ≤ req.index := by omega
    have h0 : 0 ≤ req.index - 1 - rf.snapshotIndex := by omega
    by_cases hle : req.index ≤ rf.snapshotIndex + rf.logs.length
    · have hin : (req.index - 1 - rf.snapshotIndex).toNat < rf.logs.length := by omega
      have hlen : ¬ (rf.logs.length : Int) < req.index - 1 - rf.snapshotIndex := by omega
      have hsome : index? rf.logs (req.index - 1 - rf.snapshotIndex) =
          some (rf.logs[(req.index - 1 - rf.snapshotIndex).toNat]) := by
        rw [index?, if_pos h0, List.getElem?_eq_getElem hin]
      have hs : sliceFrom? rf.logs (req.index - rf.snapshotIndex) =
          some (rf.logs.drop (req.index - rf.snapshotIndex).toNat) := if_pos (by omega)
      simp only [hlo, hlen, or_self, if_false, hsome, hs, hge, hle, and_self, if_true, bind_run,
        orPanic_some, modify_run, List.nil_append, compacted, Option.map_some, Option.getD_some]
    · -- the read is one past the end, or the slice expression is
      have hs : sliceFrom? rf.logs (req.index - rf.snapshotIndex) = none := if_neg (by omega)
      by_cases hlen : (rf.logs.length : Int) < req.index - 1 - rf.snapshotIndex
      · simp [hlen, hle, hs, bind_run]
      · have hnone : index? rf.logs (req.index - 1 - rf.snapshotIndex) = none := by
          simp only [index?, if_pos h0, List.getElem?_eq_none_iff]; omega
        simp [hlo, hlen, hle, hnone, bind_run]

/-- The memory after a snapshot was received, before its data is looked at. -/
@[simps]
def withSnapshot (rf : Raft n α) (data : GoBytes) : Raft n α := { rf with snapshot := data }

theorem acceptSnapshot_run (args : InstallSnapshotRequest) (rf : Raft n α) :
    acceptSnapshot args rf =
      if args.data = none then
        ([.save (rf.installed args.data)], some ((), rf.withSnapshot args.data))
      else if rf.Retains args then
        ([.save (rf.installed args.data)],
          (sliceFrom? rf.logs (args.lastIncludedIndex - rf.snapshotIndex)).map fun logs =>
            ((), (rf.withSnapshot args.data).replaced args logs))
      else
        ([.save (rf.installed args.data),
          .apply (.snapshot args.data args.lastIncludedTerm args.lastIncludedIndex)],
          some ((), (rf.withSnapshot args.data).replaced args [])) := by
  have hsave : ({ rf with snapshot := args.data } : Raft n α).installed args.data =
      rf.installed args.data := rfl
  have hret : ({ rf with snapshot := args.data } : Raft n α).Retains args ↔ rf.Retains args :=
    Iff.rfl
  simp only [acceptSnapshot, bind_run, modify_run, emitWith_run, hsave, List.nil_append]
  by_cases hd : args.data = none
  · simp [hd, withSnapshot]
  by_cases hr : rf.Retains args
  · cases hs : sliceFrom? rf.logs (args.lastIncludedIndex - rf.snapshotIndex) with
    | none => simp [hd, hr, hret, hs, bind_run]
    | some logs => simp [hd, hr, hret, hs, bind_run, withSnapshot]
  · simp [hd, hr, hret, bind_run, withSnapshot]

theorem handleInstallSnapshot_run (args : InstallSnapshotRequest) (rf : Raft n α) :
    handleInstallSnapshot args rf =
      if args.term < rf.currentTerm then ([], some ({ term := rf.currentTerm }, rf))
      else
        (rf.catchUp args.term ++ (acceptSnapshot args (rf.caughtUp args.term)).1,
          (acceptSnapshot args (rf.caughtUp args.term)).2.map fun r =>
            ({ term := rf.currentTerm }, r.2)) := by
  by_cases hlt : args.term < rf.currentTerm
  · simp [handleInstallSnapshot, bind_run, hlt]
  · simp only [handleInstallSnapshot, get_bind_run, hlt, if_false, caughtUp, catchUp]
    by_cases hgt : args.term > rf.currentTerm
    · rw [if_pos hgt, if_pos hgt, if_pos hgt,
        bind_run_some (handleHigherTermFound_run args.term rf), bind_pure_run]
    · rw [if_neg hgt, if_neg hgt, if_neg hgt, bind_pure_run, List.nil_append]

/-! ## Commands, commits and deliveries -/

/-- The entry that a leader makes of a command. -/
def newEntry (rf : Raft n α) (command : α) : Log α :=
  { term := rf.currentTerm, index := rf.logs.length + rf.snapshotIndex + 1, command }

theorem handleCommand_run (command : α) (rf : Raft n α) :
    handleCommand command rf =
      if rf.status = .leader then
        ([.save (rf.withLogs (rf.logs ++ [rf.newEntry command])).persisted],
          some ((rf.logs.length + rf.snapshotIndex + 1, rf.currentTerm, true),
            rf.withLogs (rf.logs ++ [rf.newEntry command])))
      else ([], some ((rf.logs.length + rf.snapshotIndex + 1, rf.currentTerm, false), rf)) := by
  simp only [handleCommand, get_bind_run]
  by_cases h : rf.status = .leader
  · simp only [h, ne_eq, not_true_eq_false, if_false, if_true, bind_run,
      persist_run, pure_run, List.append_nil]
    rfl
  · simp [h]

/-- The memory with another commit index. -/
@[simps]
def withCommit (rf : Raft n α) (N : Int) : Raft n α := { rf with commitIndex := N }

/-- The leader `me` has counted a majority for its entry of the current term at `N`. -/
def Committable (me : Fin n) (rf : Raft n α) (N : Int) : Prop :=
  rf.matchCount me N > (n / 2 : ℕ) ∧
    ∃ l, index? rf.logs (N - 1 - rf.snapshotIndex) = some l ∧ l.term = rf.currentTerm

/-- The commit loop has no effects; it leaves the commit index alone or moves it
to an index of its range that is committable. -/
theorem updateCommitLoop_run (me : Fin n) (k : ℕ) (N : Int) (rf : Raft n α) :
    (updateCommitLoop me k N rf).1 = [] ∧
      ∀ x rf', (updateCommitLoop me k N rf).2 = some (x, rf') →
        rf' = rf ∨ ∃ M, N ≤ M ∧ M < N + k ∧ rf.Committable me M ∧ rf' = rf.withCommit M := by
  induction k generalizing N rf with
  | zero => simp [updateCommitLoop]
  | succ k ih =>
    simp only [updateCommitLoop, get_bind_run]
    -- what the rest of the loop does from `rf` itself
    have hrest : ∀ x rf', (updateCommitLoop me k (N + 1) rf).2 = some (x, rf') →
        rf' = rf ∨ ∃ M, N ≤ M ∧ M < N + (k + 1 : ℕ) ∧ rf.Committable me M ∧
          rf' = rf.withCommit M := by
      intro x rf' h
      rcases (ih (N + 1) rf).2 x rf' h with h | ⟨M, hlo, hhi, hc, h⟩
      · exact Or.inl h
      · exact Or.inr ⟨M, by omega, by omega, hc, h⟩
    by_cases hcount : rf.matchCount me N > (n / 2 : ℕ)
    · cases hi : index? rf.logs (N - 1 - rf.snapshotIndex) with
      | none =>
        simp only [hcount, if_true, orPanic_none_bind_run]
        exact ⟨trivial, fun x rf' h => absurd h (by simp)⟩
      | some l =>
        simp only [hcount, if_true, orPanic_some_bind_run]
        by_cases ht : l.term = rf.currentTerm
        · -- the index moves to `N`, and the loop goes on from there
          simp only [ht, if_true, modify_bind_run]
          refine ⟨(ih (N + 1) (rf.withCommit N)).1, fun x rf' h => Or.inr ?_⟩
          rcases (ih (N + 1) (rf.withCommit N)).2 x rf' h with h | ⟨M, hlo, hhi, hc, h⟩
          · exact ⟨N, le_refl N, by omega, ⟨hcount, l, hi, ht⟩, h⟩
          · exact ⟨M, by omega, by omega, hc, h⟩
        · simp only [ht, if_false]
          exact ⟨(ih (N + 1) rf).1, hrest⟩
    · simp only [hcount, if_false]
      exact ⟨(ih (N + 1) rf).1, hrest⟩

theorem updateCommitIndex_run (me : Fin n) (rf : Raft n α) :
    (updateCommitIndex me rf).1 = [] ∧
      ∀ x rf', (updateCommitIndex me rf).2 = some (x, rf') →
        rf' = rf ∨ ∃ M, rf.commitIndex < M ∧ M ≤ rf.logs.length + rf.snapshotIndex ∧
          rf.Committable me M ∧ rf' = rf.withCommit M := by
  have h := updateCommitLoop_run me (rf.logs.length + rf.snapshotIndex - rf.commitIndex).toNat
    (rf.commitIndex + 1) rf
  refine ⟨h.1, fun x rf' hx => ?_⟩
  rcases h.2 x rf' hx with h | ⟨M, hlo, hhi, hc, h⟩
  · exact Or.inl h
  · exact Or.inr ⟨M, by omega, by omega, hc, h⟩

/-- The memory with another last applied index. -/
@[simps]
def withApplied (rf : Raft n α) (N : Int) : Raft n α := { rf with lastApplied := N }

/-- The entries that the apply loop sends before it ends or panics. -/
def deliverable (logs : List (Log α)) : ℕ → Int → List (Log α)
  | 0, _ => []
  | k + 1, i =>
    match index? logs i with
    | none => []
    | some l => l :: deliverable logs k (i + 1)

def Log.deliver (l : Log α) : Effect n α := .apply (.command l.command l.index)

theorem applyLoop_run (k : ℕ) (rf : Raft n α) :
    applyLoop k rf =
      ((deliverable rf.logs k (rf.lastApplied - rf.snapshotIndex)).map Log.deliver,
        if (deliverable rf.logs k (rf.lastApplied - rf.snapshotIndex)).length = k then
          some ((), rf.withApplied (rf.lastApplied + k)) else none) := by
  induction k generalizing rf with
  | zero => simp [applyLoop, deliverable, withApplied]
  | succ k ih =>
    have hidx : rf.lastApplied + 1 - 1 - rf.snapshotIndex = rf.lastApplied - rf.snapshotIndex := by
      omega
    have hnext : rf.lastApplied + 1 - rf.snapshotIndex =
        rf.lastApplied - rf.snapshotIndex + 1 := by omega
    simp only [applyLoop, modify_bind_run, get_bind_run, hidx, deliverable]
    rcases Option.eq_none_or_eq_some (index? rf.logs (rf.lastApplied - rf.snapshotIndex)) with
      hi | ⟨l, hi⟩
    · simp [hi]
    · have hsum : rf.lastApplied + 1 + (k : Int) = rf.lastApplied + (k + 1 : ℕ) := by
        push_cast; omega
      simp only [hi, orPanic_some_bind_run, emit_bind_run, ih, hnext, List.map_cons,
        List.length_cons, Nat.add_right_cancel_iff, hsum]
      rfl

/-- How many entries one call of `applyToClient` is to send. -/
def backlog (rf : Raft n α) : ℕ :=
  if rf.logs.length = 0 then 0 else (rf.commitIndex - rf.lastApplied).toNat

theorem applyToClient_run (rf : Raft n α) :
    applyToClient rf = applyLoop rf.backlog rf := by
  simp only [applyToClient, get_bind_run, backlog]
  split_ifs <;> rfl

/-! ## Requests -/

theorem mem_others {me server : Fin n} : server ∈ others me ↔ server ≠ me := by
  simp [others]

/-- A loop over peers that performs one effect for each. -/
theorem forPeers_emit (f : Fin n → Effect n α) (servers : List (Fin n)) (rf : Raft n α) :
    forPeers (fun server => emit (f server)) servers rf = (servers.map f, some ((), rf)) := by
  induction servers with
  | nil => rfl
  | cons server rest ih => simp [forPeers, ih]

/-- A loop over peers whose body leaves the memory alone: every effect is one of
the body for some peer. -/
theorem forPeers_run {f : Fin n → Handler n α Unit} {rf : Raft n α}
    (hf : ∀ server x rf', (f server rf).2 = some (x, rf') → rf' = rf) (servers : List (Fin n)) :
    (∀ e ∈ (forPeers f servers rf).1, ∃ server ∈ servers, e ∈ (f server rf).1) ∧
      ∀ x rf', (forPeers f servers rf).2 = some (x, rf') → rf' = rf := by
  induction servers with
  | nil => simp [forPeers]
  | cons server rest ih =>
    simp only [forPeers, bind_run]
    rcases hs : f server rf with ⟨es, _ | ⟨x, rf'⟩⟩
    · exact ⟨fun e he => ⟨server, by simp, by rw [hs]; exact he⟩, fun x rf' h => absurd h (by simp)⟩
    · obtain rfl : rf' = rf := hf server x rf' (by rw [hs])
      refine ⟨fun e he => ?_, ih.2⟩
      rcases List.mem_append.mp he with he | he
      · exact ⟨server, by simp, by rw [hs]; exact he⟩
      · rcases ih.1 e he with ⟨server', hmem, he'⟩
        exact ⟨server', List.mem_cons_of_mem server hmem, he'⟩

/-- A loop over peers whose body returns for every peer returns. -/
theorem forPeers_returns {f : Fin n → Handler n α Unit} {rf : Raft n α}
    (hf : ∀ server, (f server rf).2 = some ((), rf)) (servers : List (Fin n)) :
    (forPeers f servers rf).2 = some ((), rf) := by
  induction servers with
  | nil => rfl
  | cons server rest ih =>
    have hs : f server rf = ((f server rf).1, some ((), rf)) := by rw [← hf server]
    rw [forPeers, bind_run_some hs]
    exact ih

/-- The memory of a candidate that has started its election. -/
@[simps]
def elected (me : Fin n) (rf : Raft n α) : Raft n α :=
  { rf with
    status := .candidate
    currentTerm := rf.currentTerm + 1
    votedFor := me
    grantedVotes := 1
    voteCh := rf.voteCh + 1 }

/-- The vote request of a candidate. -/
def ballotRequest (me : Fin n) (rf : Raft n α) : RequestVoteArgs :=
  { term := rf.currentTerm + 1, candidateId := me,
    lastLogIndex := rf.lastLogIndex, lastLogTerm := rf.lastLogTerm }

theorem enterCandidate_run (me : Fin n) (rf : Raft n α) (h : rf.status = .candidate) :
    enterCandidate me rf =
      (.save (elected me rf).persisted ::
          (others me).map fun server =>
            .call server (.requestVote (rf.voteCh + 1) (ballotRequest me rf)),
        some ((), elected me rf)) := by
  have hrun : enterCandidate me rf =
      (.save (elected me rf).persisted ::
        (requestVoteToPeers me (ballotRequest me rf) (elected me rf)).1,
        (requestVoteToPeers me (ballotRequest me rf) (elected me rf)).2) := by
    simp only [elected, ← h]
    rfl
  rw [hrun, requestVoteToPeers, get_bind_run, forPeers_emit]
  rfl

/-- The index and the term of the entry before the ones that are sent. -/
def previous (rf : Raft n α) (server : Fin n) (entries : List (Log α)) : Option (Int × Int) :=
  if entries.length = 0 then some (rf.lastLogIndex, rf.lastLogTerm)
  else if getElem rf.nextIndex server server.isLt - rf.snapshotIndex ≤ 1 then
    some (rf.snapshotIndex, rf.snapshotTerm)
  else (index? rf.logs (getElem rf.nextIndex server server.isLt - rf.snapshotIndex - 2)).map
    fun l => (l.index, l.term)

/-- The request that carries `entries`. -/
def appendRequest (me : Fin n) (rf : Raft n α) (entries : List (Log α)) (prev : Int × Int) :
    AppendEntriesArgs α :=
  { term := rf.currentTerm, leaderId := me, prevLogIndex := prev.1, prevLogTerm := prev.2,
    entries, leaderCommit := rf.commitIndex }

theorem appendEntries_run (me server : Fin n) (entries : List (Log α)) (rf : Raft n α) :
    appendEntries me server entries rf =
      match rf.previous server entries with
      | none => ([], none)
      | some prev =>
        ([.call server (.appendEntries (appendRequest me rf entries prev))], some ((), rf)) := by
  simp only [appendEntries, get_bind_run, previous]
  by_cases hlen : entries.length = 0
  · simp only [hlen, if_true]; rfl
  by_cases hnext : rf.nextIndex[server] - rf.snapshotIndex ≤ 1
  · simp only [hlen, hnext, if_true, if_false]; rfl
  cases hi : index? rf.logs (rf.nextIndex[server] - rf.snapshotIndex - 2) with
  | none => simp only [hlen, hnext, if_false]; rfl
  | some l => simp only [hlen, hnext, if_false]; rfl

end DistStudy.Raft
