import DistStudy.Raft.ApplyOrder

/-!
# What snapshots make of the log

Two handlers shorten a log: `handleInstallSnapshot` replaces what the snapshot of the
leader covers, and `handleSnapshot` drops what the service of the peer has covered.

* `KeepsSuffix` says what an install should leave: the entries after the snapshot if the
  log holds its last entry, nothing if it does not. The test of the code compares the last
  log index with the *old* snapshot index, so that the log is always cleared, and
  `keepsSuffix_iff` says when this makes no difference.
* `Compacts` says what a `Snapshot` request should do, also one that comes late. The
  requests of a service are not ordered with each other, and the handler takes every one
  of them for a new one: `compacts_iff`. That a request is never ahead of the log rests on
  what was delivered staying in the log (`KeepsDelivered`).
-/

namespace DistStudy.Raft

variable {n : ℕ} {α : Type}

/-! ## The snapshot of the leader -/

/-- The log holds the last entry that the snapshot covers. -/
def HoldsLast (rf : Raft n α) (args : InstallSnapshotRequest) : Prop :=
  ∃ l ∈ rf.logs, l.index = args.lastIncludedIndex ∧ l.term = args.lastIncludedTerm

instance (rf : Raft n α) (args : InstallSnapshotRequest) : Decidable (HoldsLast rf args) :=
  inferInstanceAs (Decidable (∃ l ∈ rf.logs, _ ∧ _))

/-- The install returns, with `logs` after the snapshot of the request. -/
def Leaves (args : InstallSnapshotRequest) (logs : List (Log α))
    (res : Option (InstallSnapshotReply × Raft n α)) : Prop :=
  ∃ reply rf', res = some (reply, rf') ∧ rf'.logs = logs ∧
    rf'.snapshotIndex = args.lastIncludedIndex ∧ rf'.snapshotTerm = args.lastIncludedTerm

/-- An install keeps the entries after the snapshot if the log holds its last entry, and
clears a log that does not reach or does not match it. -/
structure KeepsSuffix (rf : Raft n α) (args : InstallSnapshotRequest)
    (res : Option (InstallSnapshotReply × Raft n α)) : Prop where
  retained : HoldsLast rf args →
    Leaves args (rf.logs.filter fun l => args.lastIncludedIndex < l.index) res
  discarded : rf.snapshotIndex < args.lastIncludedIndex → ¬ HoldsLast rf args →
    Leaves args [] res

/-- A contiguous log meets the condition for keeping the rest of the log only if it is
empty: an empty log has the last index `-1`, which no snapshot index is. -/
theorem Contiguous.retains_iff {rf : Raft n α} (h : Contiguous rf.snapshotIndex rf.logs)
    (args : InstallSnapshotRequest) :
    rf.Retains args ↔ rf.logs = [] ∧ rf.snapshotIndex = -1 ∧ args.lastIncludedTerm = 0 := by
  constructor
  · rintro ⟨hidx, hterm⟩
    cases hl : rf.logs.getLast? with
    | none =>
      simp only [hl, Option.map_none, Option.getD_none] at hidx hterm
      exact ⟨List.getLast?_eq_none_iff.mp hl, hidx.symm, hterm.symm⟩
    | some l =>
      -- the last index of a log with entries is above the snapshot index
      have hlast := h.getLast?_eq hl
      have hpos : rf.logs.length ≠ 0 := by
        intro hzero
        simp [List.length_eq_zero_iff.mp hzero] at hl
      simp only [hl, Option.map_some, Option.getD_some] at hidx
      omega
  · rintro ⟨hlogs, hsnap, hterm⟩
    simp [Retains, hlogs, hsnap, hterm]

/-- What an install with data does to a peer with a contiguous log. -/
theorem Contiguous.install_run {rf : Raft n α} (h : Contiguous rf.snapshotIndex rf.logs)
    {args : InstallSnapshotRequest} (ht : rf.currentTerm ≤ args.term)
    (hd : bytesOf args.data ≠ []) :
    (rf.Retains args ∧ rf.snapshotIndex < args.lastIncludedIndex →
      (handleInstallSnapshot args rf).2 = none) ∧
    (¬ rf.Retains args → Leaves args [] (handleInstallSnapshot args rf).2) := by
  have hdata : args.data ≠ none := by
    intro hnone
    simp [bytesOf, hnone] at hd
  obtain ⟨hlogs, hsnap, -⟩ := caughtUp_logs rf args.term
  have hret : (rf.caughtUp args.term).Retains args ↔ rf.Retains args := by
    unfold Retains
    rw [hlogs, hsnap]
  rw [handleInstallSnapshot_run, if_neg (by omega), acceptSnapshot_run, if_neg hdata]
  constructor
  · rintro ⟨hr, hlt⟩
    -- the slice expression is beyond the empty log
    have hempty := ((h.retains_iff args).mp hr).1
    have hslice : sliceFrom? (rf.caughtUp args.term).logs
        (args.lastIncludedIndex - (rf.caughtUp args.term).snapshotIndex) = none := by
      rw [hlogs, hsnap, hempty]
      refine if_neg ?_
      simp only [List.length_nil]
      omega
    rw [if_pos (hret.mpr hr), hslice]
    rfl
  · intro hr
    rw [if_neg (hret.not.mpr hr)]
    exact ⟨_, _, rfl, rfl, rfl, rfl⟩

/-- **Installing over a log.** For every peer with a contiguous log and every install with
data of a term not below the peer's, the install leaves what it should if and only if the
log does not go on after a snapshot that it matches; the second condition is about a
snapshot index of `-1`, which is how the code marks an empty log. -/
theorem keepsSuffix_iff (rf : Raft n α) (args : InstallSnapshotRequest)
    (h : Contiguous rf.snapshotIndex rf.logs) (ht : rf.currentTerm ≤ args.term)
    (hd : bytesOf args.data ≠ []) :
    KeepsSuffix rf args (handleInstallSnapshot args rf).2 ↔
      (HoldsLast rf args → ∀ l ∈ rf.logs, l.index ≤ args.lastIncludedIndex) ∧
        ¬ (rf.logs = [] ∧ rf.snapshotIndex = -1 ∧ args.lastIncludedTerm = 0 ∧
          -1 < args.lastIncludedIndex) := by
  obtain ⟨hpanics, hclears⟩ := h.install_run ht hd
  constructor
  · intro hk
    constructor
    · intro hlast
      -- a log with entries is cleared, so nothing was after the snapshot
      have hne : rf.logs ≠ [] := by
        obtain ⟨l, hl, -⟩ := hlast
        exact List.ne_nil_of_mem hl
      have hret : ¬ rf.Retains args := fun hr => hne ((h.retains_iff args).mp hr).1
      obtain ⟨reply, rf', hres, hlogs, -⟩ := hk.retained hlast
      obtain ⟨reply₁, rf₁, hres₁, hlogs₁, -⟩ := hclears hret
      obtain ⟨-, rfl⟩ := Prod.mk.inj (Option.some.inj (hres.symm.trans hres₁))
      have hnil := hlogs.symm.trans hlogs₁
      intro l hl
      by_contra hgt
      have hmem : l ∈ rf.logs.filter fun l => args.lastIncludedIndex < l.index :=
        List.mem_filter.mpr ⟨hl, by simpa using hgt⟩
      rw [hnil] at hmem
      cases hmem
    · rintro ⟨hlogs, hsnap, hterm, hlt⟩
      have hnone := hpanics ⟨(h.retains_iff args).mpr ⟨hlogs, hsnap, hterm⟩, by omega⟩
      have hno : ¬ HoldsLast rf args := by
        rintro ⟨l, hl, -⟩
        rw [hlogs] at hl
        cases hl
      obtain ⟨reply, rf', hres, -⟩ := hk.discarded (by omega) hno
      rw [hnone] at hres
      cases hres
  · rintro ⟨hafter, hsentinel⟩
    constructor
    · intro hlast
      have hret : ¬ rf.Retains args := by
        intro hr
        obtain ⟨l, hl, -⟩ := hlast
        rw [((h.retains_iff args).mp hr).1] at hl
        cases hl
      have hnil : (rf.logs.filter fun l => args.lastIncludedIndex < l.index) = [] := by
        rw [List.filter_eq_nil_iff]
        intro l hl
        have hle := hafter hlast l hl
        simpa using hle
      rw [hnil]
      exact hclears hret
    · intro hlt hno
      refine hclears fun hr => ?_
      obtain ⟨hlogs, hsnap, hterm⟩ := (h.retains_iff args).mp hr
      exact hsentinel ⟨hlogs, hsnap, hterm, by omega⟩

/-- A follower with two entries of term 1. -/
def twoEntries : Raft 3 ℕ :=
  { (make {} : Raft 3 ℕ) with currentTerm := 1, logs := [⟨1, 1, 5⟩, ⟨1, 2, 6⟩] }

/-- The snapshot of the first `index` entries. -/
def snapshotOf (index : Int) : InstallSnapshotRequest :=
  { term := 1, leaderId := 0, lastIncludedIndex := index, lastIncludedTerm := 1,
    data := some [7] }

theorem keepsSuffix_iff_twoEntries :
    HoldsLast twoEntries (snapshotOf 2) ∧
      (KeepsSuffix twoEntries (snapshotOf 2) (handleInstallSnapshot (snapshotOf 2) twoEntries).2 ↔
        (HoldsLast twoEntries (snapshotOf 2) →
            ∀ l ∈ twoEntries.logs, l.index ≤ (snapshotOf 2).lastIncludedIndex) ∧
          ¬ (twoEntries.logs = [] ∧ twoEntries.snapshotIndex = -1 ∧
            (snapshotOf 2).lastIncludedTerm = 0 ∧ -1 < (snapshotOf 2).lastIncludedIndex)) :=
  ⟨by decide, keepsSuffix_iff twoEntries (snapshotOf 2) (by decide) (by decide) (by decide)⟩

/-- The snapshot of the first entry clears the second one. -/
theorem install_clears_suffix :
    Contiguous twoEntries.snapshotIndex twoEntries.logs ∧
      twoEntries.currentTerm ≤ (snapshotOf 1).term ∧ bytesOf (snapshotOf 1).data ≠ [] ∧
      HoldsLast twoEntries (snapshotOf 1) ∧
      ((handleInstallSnapshot (snapshotOf 1) twoEntries).2.map fun r => r.2.logs) = some [] ∧
      ¬ KeepsSuffix twoEntries (snapshotOf 1)
        (handleInstallSnapshot (snapshotOf 1) twoEntries).2 := by
  refine ⟨by decide, by decide, by decide, by decide, by rfl, fun h => ?_⟩
  obtain ⟨reply, rf', hres, hlogs, -⟩ := h.retained (by decide)
  have hnil : rf'.logs = [] := by
    have hmap := congrArg (Option.map fun r => r.2.logs) hres
    exact (Option.some.inj hmap).symm
  rw [hnil] at hlogs
  exact absurd hlogs (by decide)

/-! ## The snapshots of the service -/

/-- What a `Snapshot` request should do, whenever it is handled: a new one drops the entries
up to its index and takes over the term of the last of them, an old one does nothing. -/
def Compacts (rf : Raft n α) (req : SnapshotRequest) (res : Option (Unit × Raft n α)) : Prop :=
  ∃ rf', res = some ((), rf') ∧
    (rf.snapshotIndex < req.index →
      (rf'.logs = rf.logs.filter fun l => req.index < l.index) ∧ rf'.snapshot = req.snapshot ∧
        rf'.snapshotIndex = req.index ∧
        ∃ l ∈ rf.logs, l.index = req.index ∧ rf'.snapshotTerm = l.term) ∧
    (req.index ≤ rf.snapshotIndex →
      rf'.logs = rf.logs ∧ rf'.snapshot = rf.snapshot ∧ rf'.snapshotIndex = rf.snapshotIndex ∧
        rf'.snapshotTerm = rf.snapshotTerm)

/-- A repeated request that finds what it would write: its bytes, and the `-1` that the
handler writes for the term of an entry it does not find. -/
def Redundant (rf : Raft n α) (req : SnapshotRequest) : Prop :=
  req.index = rf.snapshotIndex ∧ rf.snapshotTerm = -1 ∧ rf.snapshot = req.snapshot

/-- A request is handled correctly exactly if it is about an entry of the log or changes
nothing. -/
theorem Aligned.compacts_request_iff {rf : Raft n α} (h : Aligned rf) (req : SnapshotRequest) :
    Compacts rf req (handleSnapshot req rf).2 ↔
      (rf.snapshotIndex < req.index ∧ req.index ≤ rf.snapshotIndex + rf.logs.length) ∨
        Redundant rf req := by
  rw [handleSnapshot_run]
  constructor
  · rintro ⟨rf', hres, -, hold⟩
    -- the handler has not panicked
    split_ifs at hres with hrange
    rcases Prod.mk.inj (Option.some.inj hres) with ⟨-, rfl⟩
    by_cases hlt : rf.snapshotIndex < req.index
    · exact Or.inl ⟨hlt, hrange.2⟩
    · right
      have heq : req.index = rf.snapshotIndex := by omega
      rcases hold heq.le with ⟨-, hbytes, -, hterm⟩
      have hnone : index? rf.logs (req.index - 1 - rf.snapshotIndex) = none := by
        rw [index?, if_neg (by omega)]
      refine ⟨heq, ?_, hbytes.symm⟩
      rw [← hterm, compacted_snapshotTerm, hnone]
      rfl
  · rintro (⟨hlt, hle⟩ | ⟨heq, hterm, hbytes⟩)
    · rw [if_pos ⟨hlt.le, hle⟩]
      refine ⟨_, rfl, fun _ => ⟨?_, rfl, rfl, ?_⟩, fun hge => by omega⟩
      · rw [h.contiguous.filter_above]
        rfl
      · -- the read is one before the slice, so that it is inside the log
        have hin : req.index - 1 - rf.snapshotIndex < rf.logs.length := by omega
        obtain ⟨l, hl⟩ := index?_of_lt (by omega) hin
        have hidx := (h.contiguous.index?_eq hl).1
        refine ⟨l, ?_, by omega, ?_⟩
        · unfold index? at hl
          split_ifs at hl
          exact List.mem_of_getElem? hl
        · rw [compacted_snapshotTerm, hl]
          rfl
    · rw [if_pos ⟨heq.ge, by omega⟩]
      refine ⟨_, rfl, fun hlt => by omega, fun _ => ⟨?_, hbytes.symm, heq, ?_⟩⟩
      · have hzero : (req.index - rf.snapshotIndex).toNat = 0 := by omega
        rw [compacted_logs, hzero, List.drop_zero]
      · have hnone : index? rf.logs (req.index - 1 - rf.snapshotIndex) = none := by
          rw [index?, if_neg (by omega)]
        rw [compacted_snapshotTerm, hnone, hterm]
        rfl

/-- No entry that was delivered is cut off by an append, and no install goes back behind
one. -/
def KeepsDelivered (rf : Raft n α) : Input n α → Prop
  | .appendEntries args =>
    args.term < rf.currentTerm ∨ ¬ rf.rejects args = none ∨
      rf.lastApplied ≤ rf.snapshotIndex + (rf.cut args.entries).length
  | .installSnapshot args =>
    args.term < rf.currentTerm ∨ args.data = none ∨ rf.lastApplied ≤ args.lastIncludedIndex
  | _ => True

instance (rf : Raft n α) : ∀ input, Decidable (KeepsDelivered rf input)
  | .appendEntries _ => inferInstanceAs (Decidable (_ ∨ ¬ _ = none ∨ _))
  | .installSnapshot _ => inferInstanceAs (Decidable (_ ∨ _ ∨ _))
  | .requestVote _ | .snapshotRequest _ | .command _ | .electionTimer | .applyTimer
  | .heartbeatTimer | .broadcastEntriesTimer | .vote _ _ | .appendEntriesReply _ _ _
  | .installSnapshotReply _ _ => inferInstanceAs (Decidable True)

/-- What was delivered and what the service asks for lies in the log or in the snapshot. -/
structure Reached (s : Server n α) : Prop where
  aligned : Aligned s.rf
  applied : s.rf.lastApplied ≤ s.rf.snapshotIndex + s.rf.logs.length
  delivered : ∀ msg ∈ s.applied.msgs, msg.index ≤ s.rf.lastApplied
  requests : ∀ req ∈ s.snapshotRequestCh, req.index ≤ s.rf.lastApplied

/-- Looking at the term of a request changes nothing that the log check and the cut read. -/
theorem caughtUp_cut (rf : Raft n α) (term : Int) (args : AppendEntriesArgs α) :
    (rf.caughtUp term).cut args.entries = rf.cut args.entries ∧
      ((rf.caughtUp term).rejects args = none ↔ rf.rejects args = none) := by
  unfold caughtUp
  split_ifs
  · refine ⟨rfl, ?_⟩
    unfold rejects
    simp only [steppedDown_logs, steppedDown_snapshotIndex]
    split_ifs
    · simp
    · cases index? rf.logs (args.prevLogIndex - rf.snapshotIndex - 1) with
      | none => simp
      | some l => by_cases hl : l.term = args.prevLogTerm <;> simp [hl]
    · simp
  · exact ⟨rfl, Iff.rfl⟩

/-- Every event that is not an install or the apply timer keeps the delivered entries. -/
theorem Outcome.end_le {me : Fin n} {rf rf' : Raft n α} {input : Input n α}
    {es : List (Effect n α)} (ho : Outcome me rf input es (some rf'))
    (hin : KeepsDelivered rf input) (hinstall : ∀ args, input ≠ .installSnapshot args)
    (happlied : rf.lastApplied ≤ rf.snapshotIndex + rf.logs.length) :
    rf.lastApplied ≤ rf'.snapshotIndex + rf'.logs.length := by
  have hcaught : ∀ t, (rf.caughtUp t).logs = rf.logs ∧
      (rf.caughtUp t).snapshotIndex = rf.snapshotIndex :=
    fun t => ⟨(caughtUp_logs rf t).1, (caughtUp_logs rf t).2.1⟩
  cases ho with
  | voteGranted args | voteRefused args | voteTaken args =>
    simpa [(hcaught args.term).1, (hcaught args.term).2] using happlied
  | appendRejected args reply ht hr =>
    obtain ⟨hlogs, hsnap, -⟩ := heard_logs rf (rf.caughtUp args.term)
    rw [hlogs, hsnap, (hcaught args.term).1, (hcaught args.term).2]
    exact happlied
  | appendAccepted args ht hr =>
    obtain ⟨hlogs, hsnap, -⟩ := heard_logs rf ((rf.caughtUp args.term).accepted args)
    obtain ⟨hcut, hrej⟩ := caughtUp_cut rf args.term args
    have hkept : rf.lastApplied ≤ rf.snapshotIndex + (rf.cut args.entries).length := by
      rcases hin with hlt | hno | hkept
      · exact absurd hlt ht
      · exact absurd (hrej.mp hr) hno
      · exact hkept
    rw [hlogs, hsnap, accepted_logs, accepted_snapshotIndex, (hcaught args.term).2, hcut,
      List.length_append]
    push_cast
    omega
  | installStale args | installEmpty args | installCleared args | installRetained args =>
    exact absurd rfl (hinstall args)
  | compacted req hreq =>
    rw [compacted_logs, compacted_snapshotIndex, List.length_drop]
    omega
  | started command hs =>
    rw [withLogs_logs, withLogs_snapshotIndex, List.length_append]
    push_cast
    omega
  | applied ls res hls hres =>
    rcases hres with hres | ⟨-, hres⟩ <;> cases hres
    exact happlied
  | sent input es res htimer hs hes hres =>
    rcases hres with hres | hres <;> cases hres
    exact happlied
  | replySuccess reply args server res hs ht hreq hok hres =>
    obtain ⟨hlogs, hsnap, -⟩ := credited_logs rf args server
    rcases hres with hres | hres | ⟨M, -, -, -, hres⟩ <;> cases hres
    · rw [hlogs, hsnap]
      exact happlied
    · rw [withCommit_logs, withCommit_snapshotIndex, hlogs, hsnap]
      exact happlied
  | _ => exact happlied

/-- What the apply loop has sent was in the log. -/
theorem deliverable_le (logs : List (Log α)) (k : ℕ) (i : Int) :
    deliverable logs k i = [] ∨ i + (deliverable logs k i).length ≤ logs.length := by
  induction k generalizing i with
  | zero => exact Or.inl rfl
  | succ k ih =>
    unfold deliverable
    cases hl : index? logs i with
    | none => exact Or.inl rfl
    | some l =>
      right
      have hlt : i < logs.length := by
        unfold index? at hl
        split_ifs at hl
        have hlt := (List.getElem?_eq_some_iff.mp hl).1
        omega
      simp only [List.length_cons]
      push_cast
      rcases ih (i + 1) with hnil | hle
      · rw [hnil]
        simp only [List.length_nil]
        omega
      · omega

namespace Reached

variable {s : Server n α} {i : Fin n} {input : Input n α} {es : List (Effect n α)}
  {rf : Raft n α}

theorem restart (h : Aligned (make s.persister : Raft n α)) : Reached s.restart := by
  refine ⟨h, ?_, by simp [Server.restart], by simp [Server.restart]⟩
  show (make s.persister : Raft n α).snapshotIndex ≤
    (make s.persister : Raft n α).snapshotIndex + (make s.persister : Raft n α).logs.length
  omega

/-- The peer goes on with a log that has what it has delivered. -/
theorem advance (h : Reached s) (hal : Aligned rf)
    (happlied : rf.lastApplied ≤ rf.snapshotIndex + rf.logs.length)
    (hle : s.rf.lastApplied ≤ rf.lastApplied)
    (hmsgs : ∀ msg, .apply msg ∈ es → msg.index ≤ rf.lastApplied) :
    Reached (s.perform es rf) := by
  refine ⟨hal, happlied, fun msg hmsg => ?_, fun req hreq => (h.requests req hreq).trans hle⟩
  rcases List.mem_append.mp hmsg with hold | hnew
  · exact (h.delivered msg hold).trans hle
  · exact hmsgs msg (mem_appliesOf.mp hnew)

/-- An install with data ends at or after what was delivered. -/
theorem install (h : Reached s) {args : InstallSnapshotRequest}
    (hin : KeepsDelivered s.rf (.installSnapshot args)) (hal : Aligned rf)
    (ho : Outcome i s.rf (.installSnapshot args) es (some rf)) : Reached (s.perform es rf) := by
  obtain ⟨hlogs, hsnap, -, -, -, hlast⟩ := caughtUp_logs s.rf args.term
  have hmsgs : ∀ msg, .apply msg ∈ es → args.data ≠ none ∧ msg.index = args.lastIncludedIndex := by
    intro msg hmsg
    rcases ho.apply_cases hmsg with ⟨args', heq, -, hd, rfl⟩ | ⟨heq, -⟩
    · cases heq
      exact ⟨hd, rfl⟩
    · cases heq
  cases ho with
  | installStale args hlt => exact h.advance hal h.applied (le_refl _) (by simp)
  | installEmpty args hge hd =>
    refine h.advance hal ?_ hlast.ge fun msg hmsg => absurd hd (hmsgs msg hmsg).1
    rw [withSnapshot_lastApplied, withSnapshot_snapshotIndex, withSnapshot_logs, hlogs, hsnap,
      hlast]
    exact h.applied
  | installCleared args hge hd hr =>
    refine h.advance hal ?_ ((hin.resolve_left hge).resolve_left hd)
      fun msg hmsg => (hmsgs msg hmsg).2.le
    show args.lastIncludedIndex ≤ args.lastIncludedIndex + ([] : List (Log α)).length
    simp
  | installRetained args logs hge hd hr hl =>
    exact absurd hr ((h.aligned.caughtUp args.term).not_retains args)
  | higherTerm hshow => cases hshow
  | sent input es res htimer => rcases htimer with htimer | htimer <;> cases htimer

/-- The apply loop stops at the end of the log, or panics. -/
theorem apply (h : Reached s) (hal : Aligned rf)
    (ho : Outcome i s.rf .applyTimer es (some rf)) : Reached (s.perform es rf) := by
  have hmsgs : ∀ msg, .apply msg ∈ es → msg.index ≤ s.rf.lastApplied + s.rf.backlog :=
    fun msg hmsg => ho.index_le_backlog h.aligned hmsg
  cases ho with
  | applied ls res hls hres =>
    rcases hres with hres | ⟨hlen, hres⟩ <;> cases hres
    refine h.advance hal ?_ ?_ hmsgs
    · show s.rf.lastApplied + s.rf.backlog ≤ s.rf.snapshotIndex + s.rf.logs.length
      have happlied := h.applied
      rcases deliverable_le s.rf.logs s.rf.backlog (s.rf.lastApplied - s.rf.snapshotIndex) with
        hnil | hle
      · rw [← hls] at hnil
        rw [← hlen, hnil]
        simpa using happlied
      · rw [← hls, hlen] at hle
        omega
    · show s.rf.lastApplied ≤ s.rf.lastApplied + s.rf.backlog
      omega
  | higherTerm hshow => cases hshow
  | sent input es res htimer => rcases htimer with htimer | htimer <;> cases htimer

/-- One event. -/
theorem handle (h : Reached s) (hshape : ShapedInput input) (hin : KeepsDelivered s.rf input)
    (ho : Outcome i s.rf input es (some rf)) : Reached (s.perform es rf) := by
  have hal := h.aligned.outcome hshape ho
  by_cases hinstall : ∃ args, input = .installSnapshot args
  · obtain ⟨args, rfl⟩ := hinstall
    exact h.install hin hal ho
  by_cases htimer : input = .applyTimer
  · subst htimer
    exact h.apply hal ho
  -- every other event leaves `lastApplied` and delivers nothing
  have hno : ∀ args, input ≠ .installSnapshot args := fun args heq => hinstall ⟨args, heq⟩
  have hlast := ho.lastApplied_eq hno htimer
  refine h.advance hal ?_ hlast.ge fun msg hmsg => ?_
  · rw [hlast]
    exact ho.end_le hin hno h.applied
  · rw [← mem_appliesOf, ho.appliesOf_eq_nil hno htimer] at hmsg
    cases hmsg

end Reached

/-- No event takes back what was delivered, and a peer restarts from a log that starts
right after its snapshot index. -/
abbrev keepsDelivered : Rules n α where
  input := KeepsDelivered
  restart _ persister := Aligned (make persister : Raft n α)
  resave _ persister := Aligned (make persister : Raft n α)

theorem keepsDelivered_local :
    Local (keepsDelivered : Rules n α) (fun _ s => Reached s) (fun _ call => Shaped call) where
  init := ⟨⟨le_refl _, .nil⟩, le_refl _, by simp, by simp⟩
  grow _ h := h
  growCall _ h := h
  channel hch h :=
    ⟨h.aligned, h.applied, h.delivered, fun req hreq => h.requests req (hch.subset hreq)⟩
  request h _ hindex _ := by
    refine ⟨h.aligned, h.applied, h.delivered, fun req hreq => ?_⟩
    rcases List.mem_append.mp hreq with hold | hnew
    · exact h.requests req hold
    · -- the service has got the index
      obtain rfl := List.mem_singleton.mp hnew
      rcases List.mem_map.mp hindex with ⟨msg, hmsg, rfl⟩
      exact h.delivered msg hmsg
  handle h hheard hin ho := h.handle (hheard.shaped fun _ hc => hc) hin ho
  calls h _ _ ho hc := h.aligned.calls ho hc
  crash _ hp := Reached.restart hp
  cut _ _ _ _ hp :=
    Reached.restart (hp.lastSave (Q := fun p => Aligned (make p : Raft n α)) id id)

/-- **Service snapshots in any order.** In every state of every run in which peers restart
from aligned logs, a `Snapshot` request would be handled correctly if and only if its index
is one of the peer's log, above the snapshot index and up to the last one, or it would change
nothing. Where no event takes back what was delivered, the index of a request that waits for
the main loop never is beyond the log. -/
theorem compacts_iff {e : Behavior (World n α)} (he : Run alignedRestarts.Allows e) (k : ℕ)
    (i : Fin n) (req : SnapshotRequest) :
    (Compacts ((e k).server i).rf req (handleSnapshot req ((e k).server i).rf).2 ↔
      (((e k).server i).rf.snapshotIndex < req.index ∧
          req.index ≤ ((e k).server i).rf.snapshotIndex + ((e k).server i).rf.logs.length) ∨
        Redundant ((e k).server i).rf req) ∧
    (Run keepsDelivered.Allows e → req ∈ ((e k).server i).snapshotRequestCh →
      (Compacts ((e k).server i).rf req (handleSnapshot req ((e k).server i).rf).2 ↔
        ((e k).server i).rf.snapshotIndex < req.index ∨ Redundant ((e k).server i).rf req)) := by
  have hiff := ((alignedRestarts_local.run he k).server i).compacts_request_iff req
  refine ⟨hiff, fun hkeeps hreq => ?_⟩
  have h := (keepsDelivered_local.run hkeeps k).server i
  have hle := (h.requests req hreq).trans h.applied
  rw [hiff, and_iff_left hle]

/-- Peer 0 commits two entries, its service asks for snapshots of the first and of both,
and the second request reaches the main loop first. -/
def requestsSwapped : List (Event 3 ℕ) :=
  snapshotOffered.take 12 ++
    [.handle (.start 0 6), .handle (.timer 0 .broadcastEntries), .drop 1, .handle (.deliver 0),
      .handle (.deliver 0), .handle (.timer 0 .apply), .snapshot 0 1 (some [7]),
      .snapshot 0 2 (some [8]), .handle (.snapshotRequest 0 1), .snapshot 0 2 (some [8])]

theorem compacts_iff_requestsSwapped :
    (⟨2, some [8]⟩ : SnapshotRequest) ∈
        ((play World.step World.init (requestsSwapped.take 20)).server 0).snapshotRequestCh ∧
      (Compacts ((play World.step World.init (requestsSwapped.take 20)).server 0).rf
          ⟨2, some [8]⟩ (handleSnapshot ⟨2, some [8]⟩
            ((play World.step World.init (requestsSwapped.take 20)).server 0).rf).2 ↔
        ((play World.step World.init (requestsSwapped.take 20)).server 0).rf.snapshotIndex < 2 ∨
          Redundant ((play World.step World.init (requestsSwapped.take 20)).server 0).rf
            ⟨2, some [8]⟩) := by
  have hmem : (⟨2, some [8]⟩ : SnapshotRequest) ∈
      ((play World.step World.init (requestsSwapped.take 20)).server 0).snapshotRequestCh := by
    decide +kernel
  have haligned : Plays World.step (alignedRestarts (n := 3) (α := ℕ)).Allows World.init
      requestsSwapped := by decide +kernel
  have hkeeps : Plays World.step (keepsDelivered (n := 3) (α := ℕ)).Allows World.init
      requestsSwapped := by decide +kernel
  exact ⟨hmem, (compacts_iff (Runs.play haligned) 20 0 ⟨2, some [8]⟩).2 (Runs.play hkeeps) hmem⟩

/-- The request of the first snapshot, which was overtaken, makes the peer panic; the second
request of the other one makes it forget the term of its snapshot. -/
theorem late_request_mishandled :
    ∃ (e : Behavior (World 3 ℕ)) (k : ℕ), Run ofDelivered.Allows e ∧
      ((e k).server 0).snapshotRequestCh = [⟨1, some [7]⟩, ⟨2, some [8]⟩] ∧
      ((e k).server 0).rf.snapshotIndex = 2 ∧
      (handleSnapshot ⟨1, some [7]⟩ ((e k).server 0).rf).2 = none ∧
      ¬ Compacts ((e k).server 0).rf ⟨1, some [7]⟩
        (handleSnapshot ⟨1, some [7]⟩ ((e k).server 0).rf).2 ∧
      ¬ Compacts ((e k).server 0).rf ⟨2, some [8]⟩
        (handleSnapshot ⟨2, some [8]⟩ ((e k).server 0).rf).2 := by
  have hpanics : (handleSnapshot ⟨1, some [7]⟩
      ((play World.step World.init (requestsSwapped.take 22)).server 0).rf).2 = none := by
    decide +kernel
  have hterm : ((handleSnapshot ⟨2, some [8]⟩
      ((play World.step World.init (requestsSwapped.take 22)).server 0).rf).2.map fun r =>
        r.2.snapshotTerm) = some (-1) := by decide +kernel
  have hold : ((play World.step World.init (requestsSwapped.take 22)).server 0).rf.snapshotTerm =
      1 := by decide +kernel
  have hindex : ((play World.step World.init (requestsSwapped.take 22)).server 0).rf.snapshotIndex =
      2 := by decide +kernel
  refine ⟨_, 22, Runs.play (by decide +kernel : Plays _ ofDelivered.Allows _ requestsSwapped),
    by decide +kernel, hindex, hpanics, ?_, ?_⟩
  · rintro ⟨rf', hres, -⟩
    rw [hpanics] at hres
    cases hres
  · rintro ⟨rf', hres, -, hsame⟩
    rw [hres] at hterm
    have hkept := (hsame hindex.ge).2.2.2
    rw [hold] at hkept
    exact absurd (hkept.symm.trans (Option.some.inj hterm)) (by decide)

end DistStudy.Raft
