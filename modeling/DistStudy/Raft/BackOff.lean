import DistStudy.Raft.NextIndex
import DistStudy.Raft.RefinementRuns

/-!
# Backing off after a rejected append

A leader answers a rejection at `PrevLogIndex` by moving the next index of the peer back,
or by sending its snapshot. The new next index is the larger one of two indexes: that of
the leader's last entry of the conflicting term, or the one after its snapshot, and that
of the peer's first entry of that term.

* `progresses_iff` computes when this is progress. It is not for a leader whose log is
  empty: the next index is then after its snapshot, and only a leader with a log compares
  it with its first entry to send the snapshot.
* The other obstacle, an entry of the conflicting term above `PrevLogIndex`, is one of
  logs that disagree about a term. Complete logs do not (`Disputes.not_recurs`), so that
  it cannot occur in the runs that refine the replicated log.
-/

namespace DistStudy.Raft

open Prog ReplicatedLog

variable {n : ℕ} {α : Type}

/-! ## One rejection -/

/-- On the reply the next index of the peer moves to `PrevLogIndex` or below, or the leader
sends the peer its snapshot. -/
def Progresses (me : Fin n) (rf : Raft n α) (reply : AppendEntriesReply)
    (args : AppendEntriesArgs α) (server : Fin n) : Prop :=
  (∃ rf' ∈ (handleAppendEntriesReply me reply args server rf).2.map Prod.snd,
      getElem rf'.nextIndex server server.isLt ≤ args.prevLogIndex) ∨
    ∃ req, .call server (.installSnapshot req) ∈
      (handleAppendEntriesReply me reply args server rf).1

/-- The leader has an entry of the conflicting term above `PrevLogIndex`, and not only as
the first one of its log. -/
def Recurs (rf : Raft n α) (reply : AppendEntriesReply) (args : AppendEntriesArgs α) : Prop :=
  ∃ l ∈ rf.logs, l.term = reply.conflictingTerm ∧ args.prevLogIndex < l.index ∧
    rf.snapshotIndex + 1 < l.index

theorem handleAppendEntriesReply_failed {rf : Raft n α} {reply : AppendEntriesReply}
    {args : AppendEntriesArgs α} (hreply : reply.term = rf.currentTerm)
    (hargs : args.term = rf.currentTerm) (hok : reply.success = false) (me server : Fin n) :
    handleAppendEntriesReply me reply args server rf =
      (match rf.logs.head? with
        | some l => if rf.backedOff reply ≤ l.index then
            [.call server (.installSnapshot (snapshotRequest me rf))] else []
        | none => [],
        some ((), rf.retargeted reply server)) := by
  have hstale : ¬ (rf.currentTerm > reply.term ∨ rf.currentTerm > args.term) := by omega
  have hhigher : ¬ reply.term > rf.currentTerm := by omega
  simp only [handleAppendEntriesReply, get_bind_run, if_neg hstale, if_neg hhigher, hok]
  cases rf.logs.head? with
  | none => rfl
  | some l =>
    by_cases hle : rf.backedOff reply ≤ l.index
    · simp only [hle, if_true]
      rfl
    · simp only [hle, if_false]
      rfl

/-- A leader with a log sends its snapshot if the next index is at the first entry. -/
theorem Aligned.progresses {rf : Raft n α} (h : Aligned rf) {reply : AppendEntriesReply}
    {args : AppendEntriesArgs α} (hreply : reply.term = rf.currentTerm)
    (hargs : args.term = rf.currentTerm) (hok : reply.success = false) (me server : Fin n) :
    Progresses me rf reply args server ↔
      rf.backedOff reply ≤ args.prevLogIndex ∨
        rf.logs ≠ [] ∧ rf.backedOff reply ≤ rf.snapshotIndex + 1 := by
  unfold Progresses
  rw [handleAppendEntriesReply_failed hreply hargs hok]
  refine or_congr ?_ ?_
  · simp
  · cases hl : rf.logs with
    | nil => simp
    | cons l logs =>
      have hfirst : l.index = rf.snapshotIndex + 1 := h.contiguous.head?_eq (by rw [hl]; rfl)
      simp only [List.head?_cons, hfirst, ne_eq, reduceCtorEq, not_false_eq_true, true_and]
      split_ifs with hle <;> simp [hle]

/-- The next index after a rejection that points at or before `PrevLogIndex`. -/
theorem Aligned.progresses_iff {rf : Raft n α} (h : Aligned rf) {reply : AppendEntriesReply}
    {args : AppendEntriesArgs α} (hreply : reply.term = rf.currentTerm)
    (hargs : args.term = rf.currentTerm) (hok : reply.success = false)
    (hfirst : reply.firstConflictingIndex ≤ args.prevLogIndex)
    (hlast : args.prevLogIndex ≤ rf.lastLogIndex) (me server : Fin n) :
    Progresses me rf reply args server ↔ rf.logs ≠ [] ∧ ¬ Recurs rf reply args := by
  rw [h.progresses hreply hargs hok]
  cases hval : (rf.logs.filter fun val => val.term = reply.conflictingTerm).getLast? with
  | none =>
    -- no entry of the conflicting term: back to the start of the log
    have hx : rf.backedOff reply = max (rf.snapshotIndex + 1) reply.firstConflictingIndex := by
      simp only [backedOff, hval]
    have hnone : ¬ Recurs rf reply args := by
      rintro ⟨l, hl, hterm, -⟩
      have hnil := List.getLast?_eq_none_iff.mp hval
      have hmem : l ∈ rf.logs.filter fun val => val.term = reply.conflictingTerm :=
        List.mem_filter.mpr ⟨hl, by simpa using hterm⟩
      rw [hnil] at hmem
      cases hmem
    have hempty : rf.logs = [] → args.prevLogIndex ≤ rf.snapshotIndex := by
      intro hnil
      have hend := h.lastLogIndex_eq
      rw [hnil, List.length_nil] at hend
      omega
    rw [hx]
    constructor
    · rintro (hle | ⟨hne, -⟩)
      · exact ⟨fun hnil => by have hp := hempty hnil; omega, hnone⟩
      · exact ⟨hne, hnone⟩
    · rintro ⟨hne, -⟩
      by_cases hp : rf.snapshotIndex + 1 ≤ args.prevLogIndex
      · left
        omega
      · right
        exact ⟨hne, by omega⟩
  | some val =>
    have hx : rf.backedOff reply = max val.index reply.firstConflictingIndex := by
      simp only [backedOff, hval]
    have hmem := List.mem_of_getLast? hval
    have hlog := List.mem_of_mem_filter hmem
    have hterm : val.term = reply.conflictingTerm := by simpa using List.of_mem_filter hmem
    have hne : rf.logs ≠ [] := List.ne_nil_of_mem hlog
    rw [hx]
    constructor
    · intro hle
      refine ⟨hne, ?_⟩
      rintro ⟨l, hl, hlterm, habove, hhead⟩
      have hle' := h.contiguous.index_le_getLast? hval
        (List.mem_filter.mpr ⟨hl, by simpa using hlterm⟩)
      rcases hle with hle | ⟨-, hle⟩ <;> omega
    · rintro ⟨-, hno⟩
      by_cases hp : val.index ≤ args.prevLogIndex
      · left
        omega
      · right
        have hhead : ¬ rf.snapshotIndex + 1 < val.index :=
          fun hlt => hno ⟨val, hlog, hterm, by omega, hlt⟩
        exact ⟨hne, by omega⟩

/-! ## Rejections and complete logs -/

/-- An answer about the terms of the logs: some rooted log has the conflicting term at
`PrevLogIndex`, where the leader has another one. -/
def Disputes (a : Abstract n α) (args : AppendEntriesArgs α) (r : AppendEntriesReply) : Prop :=
  r.conflictingTerm = 0 ∨ r.conflictingTerm ≠ args.prevLogTerm ∧ 0 < args.prevLogIndex ∧
    ∃ F, a.Rooted F ∧ TermAt F args.prevLogIndex.toNat r.conflictingTerm

section

variable {a a' : Abstract n α} {F L : List (Entry Int α)} {rf : Raft n α}
  {args : AppendEntriesArgs α} {r : AppendEntriesReply}

theorem Disputes.mono (hle : a ≤ a') (h : Disputes a args r) : Disputes a' args r := by
  rcases h with hzero | ⟨hne, hpos, F, hF, hterm⟩
  · exact Or.inl hzero
  · exact Or.inr ⟨hne, hpos, F, hF.mono hle, hterm⟩

/-- The term of a stored entry is the one of the complete log. -/
theorem Stores.termAt_of_mem (hs : Stores F rf) {l : Log α} (hl : l ∈ rf.logs) :
    0 < l.index ∧ TermAt F l.index.toNat l.term := by
  rw [hs.logs, mem_indexed_drop] at hl
  rcases hl with ⟨k, x, -, hx, rfl⟩
  have hk : ((k : Int) + 1).toNat = k + 1 := by omega
  refine ⟨by simp only; omega, ?_⟩
  simp [TermAt, hk, hx]

/-- A failed log check is about the complete log of the peer. -/
theorem Stores.disputes (hs : Stores F rf) (hF : a.Rooted F) (hr : rf.rejects args = some r) :
    Disputes a args r := by
  rcases hs.aligned.rejects_cases hr with ⟨-, rfl⟩ | ⟨l, hl, hidx, hne, -, -, hterm, -⟩
  · exact Or.inl rfl
  · right
    obtain ⟨hpos, hat⟩ := hs.termAt_of_mem hl
    rw [hidx] at hpos hat
    rw [hterm]
    exact ⟨hne, hpos, F, hF, hat⟩

/-- If the log of the leader goes on with the conflicting term above `PrevLogIndex`, it has
that term at `PrevLogIndex`, too. -/
theorem Disputes.not_recurs (h : Disputes a args r) (hs : Stores L rf) (hL : a.Rooted L)
    (hprev : TermAt L args.prevLogIndex.toNat args.prevLogTerm)
    (hterms : ∀ l ∈ rf.logs, 1 ≤ l.term) : ¬ Recurs rf r args := by
  rintro ⟨l, hl, hterm, habove, -⟩
  rcases h with hzero | ⟨hne, hpos, F, hF, hat⟩
  · have hpos := hterms l hl
    omega
  obtain ⟨-, hat'⟩ := hs.termAt_of_mem hl
  rw [hterm] at hat'
  have hd : args.prevLogIndex.toNat ≠ 0 := by omega
  have htake := take_eq_of_le hF hL hd (by omega) hat hat'
  have hsame : TermAt L args.prevLogIndex.toNat r.conflictingTerm := by
    have hF' := hat.take
    rw [htake] at hF'
    exact hF'.of_isPrefix (List.take_prefix _ _)
  simp only [TermAt, if_neg hd] at hsame hprev
  exact hne (Option.some.inj (hsame.symm.trans hprev))

end

/-- All answers to appends in flight. -/
def Disputed (a : Abstract n α) (w : World n α) : Prop :=
  ∀ p ∈ w.net, ∀ args r, p.caller.call = .appendEntries args →
    p.answer = some (.appendEntries r) → Disputes a args r

/-- The answers of a step come from the complete log of the peer that gives them. -/
theorem Disputed.step {a a' : Abstract n α} {w w' : World n α} {event : Event n α}
    (h : Disputed a w) (hsim : Sim a w) (hle : a ≤ a') (hs : Steps w event w') :
    Disputed a' w' := by
  intro p hp args r hcall hans
  refine Disputes.mono hle ?_
  cases hs.origin hp with
  | kept q hq hcaller hanswer =>
    rcases hanswer with hsame | hnone | hzero
    · exact h q hq args r (hcaller ▸ hcall) (hsame ▸ hans)
    · rw [hnone] at hans
      cases hans
    · rw [hzero, hcall] at hans
      cases hans
      exact Or.inl rfl
  | sent cause arr es res server call ha ho hc hp =>
    subst hp
    cases hans
  | answered cause arr es res c reply ha ho hc hr hp =>
    subst hp
    obtain rfl : reply = .appendEntries r := Option.some.inj hans
    have hinput := (ha.caller_mem hc).2
    rw [show c.call = .appendEntries args from hcall] at hinput
    rcases ho.append_reply hinput hr with ⟨-, heq⟩ | ⟨-, r', hrej, heq⟩ | ⟨-, heq⟩
    · cases heq
      exact Or.inl rfl
    · cases heq
      have hstores := ((hsim.arrives ha).servers arr.server).memory.stores
      obtain ⟨hl, hi, ht, -⟩ := caughtUp_logs (arr.world.server arr.server).rf args.term
      exact (hstores.congr hi ht hl).disputes (hsim.inv.log_rooted arr.server) hrej
    · cases heq
      exact Or.inl rfl

/-- Every position of a run under the rules stands for a state of the replicated log in
which the rejections in flight have their cause. -/
theorem Run.disputed {e : Behavior (World n α)} (h : Run (sound n α).Allows e) (k : ℕ) :
    ∃ a : Abstract n α, Sim a (e k) ∧ Disputed a (e k) := by
  obtain ⟨a, -, -, ha, -⟩ := h.simulation (fun a w => Sim a w ∧ Disputed a w)
    ⟨_, Sim.init, fun p hp => by cases hp⟩
    (fun a w event w' hR hallow hstep => by
      obtain ⟨a', hle, hsim⟩ := hR.1.step hallow (steps_of_step hstep)
      exact ⟨a', hle, hsim, hR.2.step hR.1 hle (steps_of_step hstep)⟩) (le_refl k)
  exact ⟨a, ha⟩

/-! ## Rejections in flight -/

/-- On its way to the leader `i` is the answer of `server` to an append of the leader's
term: `server` is in that term, too, and its log check has failed. -/
structure Rejection (w : World n α) (i server : Fin n) (args : AppendEntriesArgs α)
    (reply : AppendEntriesReply) : Prop where
  flight : .response ⟨i, (w.server i).incarnation, .appendEntries args⟩ server
    (.appendEntries reply) ∈ w.net
  leads : (w.server i).rf.status = .leader
  request : args.term = (w.server i).rf.currentTerm
  answer : reply.term = args.term
  failed : reply.success = false

/-- **Log back-off.** In every run without crashes a leader that handles a rejection makes
progress exactly if its log has entries, and none of the conflicting term above
`PrevLogIndex` but its first one. The latter holds if the peer's log was too short, and for
all rejections in the runs that refine the replicated log. -/
theorem backOff_progresses_iff {e : Behavior (World n α)} (he : Run noCrashes.Allows e) (k : ℕ)
    {i server : Fin n} {args : AppendEntriesArgs α} {reply : AppendEntriesReply}
    (h : Rejection (e k) i server args reply) :
    (Progresses i ((e k).server i).rf reply args server ↔
      ((e k).server i).rf.logs ≠ [] ∧ ¬ Recurs ((e k).server i).rf reply args) ∧
    (reply.conflictingTerm = 0 ∨ Run (sound n α).Allows e →
      ¬ Recurs ((e k).server i).rf reply args) := by
  obtain ⟨hal, htermed⟩ := (he.orderly k).everywhere.server i
  have hoffered : Offered ((e k).server i).rf args := (he.aimed k).offered _ h.flight rfl
  have hend := (hoffered.leads h.request).2
  refine ⟨hal.progresses_iff (h.answer.trans h.request) h.request h.failed
    ((he.aimed k).answer _ h.flight rfl rfl) (by omega) i server, ?_⟩
  have hterms : ∀ l ∈ ((e k).server i).rf.logs, 1 ≤ l.term := fun l hl => (htermed.logs l hl).1
  rintro (hshort | hsound)
  · rintro ⟨l, hl, hterm, -⟩
    have hpos := hterms l hl
    omega
  · obtain ⟨a, hsim, hdisputed⟩ := hsound.disputed k
    have hmem := (hsim.servers i).memory
    obtain ⟨L₀, hL₀⟩ := (hsim.packets _ h.flight).call
    -- the append carries a prefix of the log that the leader still has
    obtain ⟨L, hlead, hpre⟩ := hL₀.lead
    rw [h.request] at hlead
    obtain ⟨-, rfl⟩ := State.lead_inj (hmem.leader h.leads).1 hlead
    exact (hdisputed _ h.flight args reply rfl rfl).not_recurs hmem.stores
      (hsim.inv.log_rooted i) (hL₀.carries.term.of_isPrefix hpre) hterms

/-- A follower whose log is too short is sent the snapshot. -/
theorem backOff_progresses_offered :
    Progresses 0 ((play World.step World.init (snapshotOffered.take 18)).server 0).rf
      { term := 1 } ⟨1, 0, 2, 1, [], 1⟩ 2 := by
  have hiff := backOff_progresses_iff (Runs.play (by decide +kernel) : Run noCrashes.Allows
    (fun k => play World.step World.init (snapshotOffered.take k))) 18
    (⟨by decide +kernel, by decide +kernel, by decide +kernel, rfl, rfl⟩ :
      Rejection _ 0 2 ⟨1, 0, 2, 1, [], 1⟩ { term := 1 })
  exact hiff.1.mpr ⟨by decide +kernel, hiff.2 (Or.inr (Runs.play (by decide +kernel)))⟩

/-- A heartbeat of peer 0 to peer 2 and its answer. -/
def heartbeatRound : List (Event 3 ℕ) :=
  [.handle (.timer 0 .heartbeat), .drop 0, .handle (.deliver 0), .handle (.deliver 0)]

/-- Peer 0 of three leads, commits an entry with peer 1 and compacts it away. Its log is
empty when peer 2 rejects its heartbeat. -/
def wholeLogCompacted : List (Event 3 ℕ) := snapshotOffered.take 14 ++ heartbeatRound

/-- The service of the leader hands over its snapshot twice, and two more entries of the
term follow, which peer 1 rejects. -/
def snapshotTakenTwice : List (Event 3 ℕ) :=
  snapshotOffered.take 13 ++ [.snapshot 0 1 (some [7]), .handle (.snapshotRequest 0 0),
    .handle (.snapshotRequest 0 0), .handle (.start 0 6), .handle (.start 0 7),
    .handle (.timer 0 .broadcastEntries), .handle (.deliver 0)]

/-- The heartbeats of a leader with an empty log are rejected forever at the same index.
With a log a leader is stuck if its snapshot has lost its term. -/
theorem rejection_repeats :
    (∃ (e : Behavior (World 3 ℕ)) (args : AppendEntriesArgs ℕ) (reply : AppendEntriesReply),
      Run noCrashes.Allows e ∧ ∀ j, Rejection (e (21 + 4 * j)) 0 2 args reply ∧
        ¬ Progresses 0 ((e (21 + 4 * j)).server 0).rf reply args 2) ∧
    ∃ (e : Behavior (World 3 ℕ)) (k : ℕ) (args : AppendEntriesArgs ℕ)
      (reply : AppendEntriesReply), Run noCrashes.Allows e ∧ Rejection (e k) 0 1 args reply ∧
        ((e k).server 0).rf.logs ≠ [] ∧ ¬ Progresses 0 ((e k).server 0).rf reply args 1 := by
  constructor
  · have hrun : Run noCrashes.Allows (fun k => play World.step World.init
        ((wholeLogCompacted ++ heartbeatRound).take
          (lassoAt wholeLogCompacted heartbeatRound k))) :=
      Runs.lasso (by decide +kernel) (by decide) (by decide +kernel)
    refine ⟨_, ⟨1, 0, 1, 1, [], 1⟩, { term := 1 }, hrun, fun j => ?_⟩
    have hat : lassoAt wholeLogCompacted heartbeatRound (21 + 4 * j) = 21 := by
      have hlead : wholeLogCompacted.length = 18 := rfl
      have hloop : heartbeatRound.length = 4 := rfl
      unfold lassoAt
      rw [hlead, hloop, if_neg (by omega)]
      omega
    rw [hat]
    refine ⟨⟨by decide +kernel, by decide +kernel, by decide +kernel, rfl, rfl⟩, ?_⟩
    rw [Aligned.progresses (by decide +kernel) (by decide +kernel) (by decide +kernel) rfl]
    decide +kernel
  · refine ⟨_, 20, ⟨1, 0, 1, -1, [⟨1, 2, 6⟩, ⟨1, 3, 7⟩], 1⟩,
      { term := 1, firstConflictingIndex := 1, conflictingTerm := 1 },
      Runs.play (by decide +kernel : Plays _ noCrashes.Allows _ snapshotTakenTwice),
      ⟨by decide +kernel, by decide +kernel, by decide +kernel, rfl, rfl⟩, by decide +kernel, ?_⟩
    rw [Aligned.progresses (by decide +kernel) (by decide +kernel) (by decide +kernel) rfl]
    decide +kernel

end DistStudy.Raft
