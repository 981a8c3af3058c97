import DistStudy.Raft.ApplyOrder

/-!
# Writing the persister and reading it back

`persist` leaves the snapshot index and the snapshot term out of the record when there are
no snapshot bytes, and `Make` then reads their zero values. A peer that has never had a
snapshot has the term `-1` in memory and `0` after a restart, so that it refuses its vote
to a candidate with an empty log; a peer whose service has taken a snapshot without bytes
also loses the index. `roundTrips_iff` says that nothing else is lost.
-/

namespace DistStudy.Raft

open Prog

variable {n : ℕ} {α : Type}

/-- What `Make` finds after `persist`, whatever the persister held before. -/
def reborn (p : Persister α) (rf : Raft n α) : Raft n α := make (lastSave p (persist rf).1)

theorem reborn_eq (p : Persister α) (rf : Raft n α) : reborn p rf = make rf.persisted := by
  rw [reborn, persist_run, lastSave_save, lastSave_nil]

/-- The parts of a memory that a restart should not change, and what a candidate sees of
them. -/
structure RoundTrips (rf rf' : Raft n α) : Prop where
  currentTerm : rf'.currentTerm = rf.currentTerm
  votedFor : rf'.votedFor = rf.votedFor
  logs : rf'.logs = rf.logs
  snapshotIndex : rf'.snapshotIndex = rf.snapshotIndex
  snapshotTerm : rf'.snapshotTerm = rf.snapshotTerm
  snapshot : bytesOf rf'.snapshot = bytesOf rf.snapshot
  answers : ∀ args, (handleRequestVote args rf').2.map Prod.fst =
    (handleRequestVote args rf).2.map Prod.fst

/-- What a vote depends on. -/
theorem handleRequestVote_congr {rf rf' : Raft n α} (hterm : rf'.currentTerm = rf.currentTerm)
    (hvote : rf'.votedFor = rf.votedFor) (hlogs : rf'.logs = rf.logs)
    (hindex : rf'.snapshotIndex = rf.snapshotIndex) (hsterm : rf'.snapshotTerm = rf.snapshotTerm)
    (args : RequestVoteArgs) :
    (handleRequestVote args rf').2.map Prod.fst = (handleRequestVote args rf).2.map Prod.fst := by
  have hvoted : (rf'.caughtUp args.term).votedFor = (rf.caughtUp args.term).votedFor := by
    unfold caughtUp
    rw [hterm]
    split_ifs
    · rfl
    · exact hvote
  have hlast : (rf'.caughtUp args.term).lastLogIndex = (rf.caughtUp args.term).lastLogIndex ∧
      (rf'.caughtUp args.term).lastLogTerm = (rf.caughtUp args.term).lastLogTerm := by
    obtain ⟨hl, hi, ht, -⟩ := caughtUp_logs rf args.term
    obtain ⟨hl', hi', ht', -⟩ := caughtUp_logs rf' args.term
    unfold lastLogIndex lastLogTerm
    rw [hl, hi, ht, hl', hi', ht', hlogs, hindex, hsterm]
    exact ⟨rfl, rfl⟩
  have hup : (rf'.caughtUp args.term).upToDate args ↔ (rf.caughtUp args.term).upToDate args := by
    unfold upToDate
    rw [hlast.1, hlast.2]
  rw [handleRequestVote_run, handleRequestVote_run, hterm, hvoted]
  simp only [hup]
  split_ifs <;> rfl

/-- With snapshot bytes the record is complete. -/
theorem make_persisted_of_bytes {rf : Raft n α} (h : 0 < (bytesOf rf.snapshot).length) :
    let rf' : Raft n α := make rf.persisted
    rf'.currentTerm = rf.currentTerm ∧ rf'.votedFor = rf.votedFor ∧ rf'.logs = rf.logs ∧
      rf'.snapshotIndex = rf.snapshotIndex ∧ rf'.snapshotTerm = rf.snapshotTerm ∧
      bytesOf rf'.snapshot = bytesOf rf.snapshot := by
  unfold persisted
  rw [if_pos h]
  exact ⟨rfl, rfl, rfl, rfl, rfl, rfl⟩

/-- Without them the snapshot fields are read back as zero. -/
theorem make_persisted_of_empty {rf : Raft n α} (h : ¬ 0 < (bytesOf rf.snapshot).length) :
    let rf' : Raft n α := make rf.persisted
    rf'.currentTerm = rf.currentTerm ∧ rf'.votedFor = rf.votedFor ∧ rf'.logs = rf.logs ∧
      rf'.snapshotIndex = 0 ∧ rf'.snapshotTerm = 0 ∧
      bytesOf rf'.snapshot = bytesOf rf.snapshot := by
  have hnil : bytesOf rf.snapshot = [] := by
    rw [← List.length_eq_zero_iff]
    omega
  unfold persisted
  rw [if_neg h, hnil]
  exact ⟨rfl, rfl, rfl, rfl, rfl, rfl⟩

/-- **Persist and restore.** For every memory and every persister, `Make` after `persist`
restores the memory and its votes if and only if there are snapshot bytes, or the snapshot
fields have the zero values that are read for fields that were left out. -/
theorem roundTrips_iff (p : Persister α) (rf : Raft n α) :
    RoundTrips rf (reborn p rf) ↔
      0 < (bytesOf rf.snapshot).length ∨ rf.snapshotIndex = 0 ∧ rf.snapshotTerm = 0 := by
  rw [reborn_eq]
  by_cases hbytes : 0 < (bytesOf rf.snapshot).length
  · obtain ⟨hterm, hvote, hlogs, hindex, hsterm, hsnap⟩ := make_persisted_of_bytes hbytes
    refine ⟨fun _ => Or.inl hbytes, fun _ => ⟨hterm, hvote, hlogs, hindex, hsterm, hsnap, ?_⟩⟩
    exact handleRequestVote_congr hterm hvote hlogs hindex hsterm
  · obtain ⟨hterm, hvote, hlogs, hindex, hsterm, hsnap⟩ := make_persisted_of_empty hbytes
    constructor
    · intro h
      right
      exact ⟨h.snapshotIndex.symm.trans hindex, h.snapshotTerm.symm.trans hsterm⟩
    · rintro (h | ⟨hzero, htzero⟩)
      · exact absurd h hbytes
      · have hindex' := hindex.trans hzero.symm
        have hsterm' := hsterm.trans htzero.symm
        exact ⟨hterm, hvote, hlogs, hindex', hsterm', hsnap,
          handleRequestVote_congr hterm hvote hlogs hindex' hsterm'⟩

/-- A candidate that has never had a snapshot asks with an empty log. -/
def emptyLogBallot : RequestVoteArgs :=
  { term := 1, candidateId := 1, lastLogIndex := 0, lastLogTerm := -1 }

/-- Peer 0 compacts its first entry into a snapshot without bytes. -/
def emptySnapshotTaken : List (Event 3 ℕ) :=
  snapshotOffered.take 12 ++ [.snapshot 0 1 (some []), .handle (.snapshotRequest 0 0)]

/-- A new peer would vote for a candidate with an empty log, and does not after a restart;
a peer with a snapshot without bytes restarts with the snapshot index 0. -/
theorem restart_forgets_snapshot :
    (∃ (e : Behavior (World 3 ℕ)) (k : ℕ), Run ofDelivered.Allows e ∧
      ¬ RoundTrips ((e k).server 0).rf (reborn ((e k).server 0).persister ((e k).server 0).rf) ∧
      (handleRequestVote emptyLogBallot ((e k).server 0).rf).2.map Prod.fst =
        some { term := 1, voteGranted := true } ∧
      (handleRequestVote emptyLogBallot
          (reborn ((e k).server 0).persister ((e k).server 0).rf)).2.map Prod.fst =
        some { term := 1, voteGranted := false }) ∧
    ∃ (e : Behavior (World 3 ℕ)) (k : ℕ), Run ofDelivered.Allows e ∧
      ¬ RoundTrips ((e k).server 0).rf (reborn ((e k).server 0).persister ((e k).server 0).rf) ∧
      ((e k).server 0).rf.snapshotIndex = 1 ∧
      (reborn ((e k).server 0).persister ((e k).server 0).rf).snapshotIndex = 0 := by
  constructor
  · refine ⟨_, 0, Runs.play (by decide : Plays _ ofDelivered.Allows _ []), fun h => ?_,
      by decide +kernel, by decide +kernel⟩
    exact absurd h.snapshotTerm (by decide +kernel)
  · refine ⟨_, 14, Runs.play (by decide +kernel : Plays _ ofDelivered.Allows _ emptySnapshotTaken),
      fun h => ?_, by decide +kernel, by decide +kernel⟩
    exact absurd h.snapshotIndex (by decide +kernel)

end DistStudy.Raft
