import DistStudy.Raft.FullLog

/-!
# What an accepted append makes of the log

`Merges` says what the entries of an accepted append should do to a log: the log
agrees with them afterwards, a conflict cuts it at the first index that differs, and
without one nothing is lost.

The scan for conflicts of `handleAppendEntries` stops at the first entry that the log
does not hold, also at one that the follower has already compacted away. So a request
that starts below the snapshot is merged without any scan, and `merges_iff` says that
this is wrong exactly if there is a conflict to be found.
-/

namespace DistStudy.Raft

variable {n : ℕ} {α : Type}

/-- The log and the new entries have different terms at the index `d`. -/
def DiffersAt (logs entries : List (Log α)) (d : Int) : Prop :=
  ∃ l ∈ logs, ∃ val ∈ entries, l.index = d ∧ val.index = d ∧ l.term ≠ val.term

theorem noConflict_iff {logs entries : List (Log α)} :
    NoConflict logs entries ↔ ∀ d, ¬ DiffersAt logs entries d := by
  constructor
  · rintro h d ⟨l, hl, val, hval, rfl, hidx, hne⟩
    exact hne (h val hval l hl hidx.symm)
  · intro h val hval l hl hidx
    by_contra hne
    exact h l.index ⟨l, hl, val, hval, rfl, hidx.symm, hne⟩

/-- The log of `rf'` is that of `rf` with the entries of the request merged into it. -/
structure Merges (rf : Raft n α) (args : AppendEntriesArgs α) (rf' : Raft n α) : Prop where
  /-- The log agrees with the entries above the snapshot. -/
  agrees : ∀ val ∈ args.entries, rf.snapshotIndex < val.index →
    ∃ l, rf'.entry? val.index = some l ∧ l.term = val.term
  /-- A conflict keeps what is before the first one, and the log ends with the entries. -/
  conflict : ∀ d, DiffersAt rf.logs args.entries d →
    (∀ d', d' < d → ¬ DiffersAt rf.logs args.entries d') →
    (∀ l ∈ rf.logs, l.index < d → rf'.entry? l.index = some l) ∧
      rf'.lastLogIndex = args.prevLogIndex + args.entries.length
  /-- Without a conflict everything is kept. -/
  kept : (∀ d, ¬ DiffersAt rf.logs args.entries d) → ∀ l ∈ rf.logs, rf'.entry? l.index = some l

/-- Only the log and the snapshot index of before matter. -/
theorem Merges.congr {rf rf₁ rf' : Raft n α} {args : AppendEntriesArgs α}
    (h : Merges rf args rf') (hl : rf₁.logs = rf.logs)
    (hs : rf₁.snapshotIndex = rf.snapshotIndex) : Merges rf₁ args rf' := by
  constructor
  · rw [hs]
    exact h.agrees
  · rw [hl]
    exact h.conflict
  · rw [hl]
    exact h.kept

/-- An entry of an aligned log is found at its index. -/
theorem Aligned.entry?_of_mem {rf : Raft n α} (h : Aligned rf) {l : Log α} (hl : l ∈ rf.logs) :
    rf.entry? l.index = some l := by
  rcases List.mem_iff_getElem?.mp hl with ⟨k, hk⟩
  have hidx := h.contiguous k l hk
  have h0 : 0 ≤ l.index - 1 - rf.snapshotIndex := by omega
  have hk' : (l.index - 1 - rf.snapshotIndex).toNat = k := by omega
  unfold entry? index?
  rw [if_pos h0, hk', hk]

section

variable {rf : Raft n α} {args : AppendEntriesArgs α}

/-- The scan finds nothing in a request that starts below the snapshot. -/
theorem firstConflict_below {snap prev : Int} {logs entries : List (Log α)}
    (he : Contiguous prev entries) (hp : prev < snap) : firstConflict snap logs entries = none := by
  cases entries with
  | nil => rfl
  | cons val rest =>
    have hidx := (Contiguous.cons_iff.mp he).1
    have hrange : val.index - snap - 1 < 0 ∨ val.index - snap - 1 ≥ logs.length := by omega
    rw [firstConflict, if_pos hrange]

/-- What is left after the cut agrees with the new entries. -/
theorem Aligned.cut_agrees (h : Aligned rf) (he : Contiguous args.prevLogIndex args.entries)
    (hc : rf.snapshotIndex ≤ args.prevLogIndex ∨ NoConflict rf.logs args.entries) {val l : Log α}
    (hval : val ∈ args.entries) (hl : l ∈ rf.cut args.entries) (hidx : l.index = val.index) :
    l.term = val.term := by
  have hlogs : l ∈ rf.logs := by
    unfold Raft.cut at hl
    split at hl
    · exact hl
    · exact List.mem_of_mem_take hl
  rcases hc with hp | hc
  · refine firstConflict_before h.contiguous he hp hval hlogs hidx fun i hi => ?_
    -- the cut is at position `i`, and `l` is before it
    rw [Raft.cut, hi] at hl
    rcases List.mem_iff_getElem?.mp hl with ⟨k, hk⟩
    rw [List.getElem?_take] at hk
    split_ifs at hk with hlt
    have hlk := h.contiguous k l hk
    omega
  · exact hc val hval l hlogs hidx

/-- A new entry is in the log after the cut, or is appended. -/
theorem Aligned.entry_cases (h : Aligned rf) (he : Contiguous args.prevLogIndex args.entries)
    (hr : rf.rejects args = none) {val : Log α} (hval : val ∈ args.entries)
    (habove : rf.snapshotIndex < val.index) :
    val ∈ rf.news args.entries ∨ ∃ l ∈ rf.cut args.entries, l.index = val.index := by
  obtain ⟨hcut, hprev⟩ := h.cut he (prevLogIndex_le_of_rejects hr)
  rcases List.mem_iff_getElem?.mp hval with ⟨k, hk⟩
  have hidx := he k val hk
  by_cases hlt : val.index ≤ (rf.cut args.entries).length + rf.snapshotIndex
  · right
    have hpos : (val.index - rf.snapshotIndex - 1).toNat < (rf.cut args.entries).length := by omega
    refine ⟨_, List.getElem_mem hpos, ?_⟩
    have hcidx := hcut _ _ (List.getElem?_eq_getElem hpos)
    omega
  · left
    rw [news, beyond_eq_drop he hprev]
    refine List.mem_iff_getElem?.mpr
      ⟨k - ((rf.cut args.entries).length + rf.snapshotIndex - args.prevLogIndex).toNat, ?_⟩
    rw [List.getElem?_drop, ← hk]
    congr 1
    omega

/-- The first index that differs is where the scan cuts. -/
theorem Aligned.firstConflict_eq (h : Aligned rf) (he : Contiguous args.prevLogIndex args.entries)
    (hp : rf.snapshotIndex ≤ args.prevLogIndex) {d : Int}
    (hd : DiffersAt rf.logs args.entries d)
    (hfirst : ∀ d', d' < d → ¬ DiffersAt rf.logs args.entries d') :
    ∃ i : ℕ, firstConflict rf.snapshotIndex rf.logs args.entries = some i ∧
      d = rf.snapshotIndex + 1 + i := by
  rcases hd with ⟨l, hl, val, hval, rfl, hidx, hne⟩
  cases hc : firstConflict rf.snapshotIndex rf.logs args.entries with
  | none =>
    exact absurd (firstConflict_before h.contiguous he hp hval hl hidx.symm (by simp [hc])) hne
  | some i =>
    refine ⟨i, rfl, ?_⟩
    rcases firstConflict_some hc with ⟨l', val', hl', hval', hidx', hne'⟩
    have hli := h.contiguous i l' hl'
    -- not after the cut, since the conflict at the cut is not before the first one
    have hle : l.index ≤ rf.snapshotIndex + 1 + i := by
      by_contra hgt
      exact hfirst _ (by omega)
        ⟨l', List.mem_of_getElem? hl', val', hval', rfl, by omega, hne'⟩
    -- not before it, since the scan would have found it
    by_contra hlt
    refine hne (firstConflict_before h.contiguous he hp hval hl hidx.symm fun j hj => ?_)
    rw [hc] at hj
    obtain rfl := Option.some.inj hj
    omega

/-- The requests whose entries start at or after the snapshot, and those that agree with
the log, are merged correctly. -/
theorem Aligned.merges (h : Aligned rf) (he : Contiguous args.prevLogIndex args.entries)
    (hr : rf.rejects args = none)
    (hc : rf.snapshotIndex ≤ args.prevLogIndex ∨ NoConflict rf.logs args.entries) :
    Merges rf args (rf.accepted args) := by
  have hacc := h.accepted he hr
  have hprev := (h.cut he (prevLogIndex_le_of_rejects hr)).2
  -- what the cut leaves is found at its index
  have hleft : ∀ l ∈ rf.cut args.entries, entry? (rf.accepted args) l.index = some l := by
    intro l hl
    exact hacc.entry?_of_mem (List.mem_append_left _ hl)
  constructor
  · intro val hval habove
    rcases h.entry_cases he hr hval habove with hnew | ⟨l, hl, hidx⟩
    · exact ⟨val, hacc.entry?_of_mem (List.mem_append_right _ hnew), rfl⟩
    · exact ⟨l, hidx ▸ hleft l hl, h.cut_agrees he hc hval hl hidx⟩
  · intro d hd hfirst
    have hp : rf.snapshotIndex ≤ args.prevLogIndex :=
      hc.resolve_right fun hno => noConflict_iff.mp hno d hd
    obtain ⟨i, hi, rfl⟩ := h.firstConflict_eq he hp hd hfirst
    have hcut : rf.cut args.entries = rf.logs.take i := by rw [Raft.cut, hi]
    constructor
    · intro l hl hlt
      refine hleft l ?_
      rcases List.mem_iff_getElem?.mp hl with ⟨k, hk⟩
      have hidx := h.contiguous k l hk
      rw [hcut]
      refine List.mem_iff_getElem?.mpr ⟨k, ?_⟩
      rw [List.getElem?_take, if_pos (by omega), hk]
    · -- the cut is inside the log and before the end of the entries
      obtain ⟨l, hl, val, hval, hlidx, hvidx, -⟩ := hd
      obtain ⟨j, hj⟩ := List.mem_iff_getElem?.mp hval
      have hjlt := (List.getElem?_eq_some_iff.mp hj).1
      have hjidx := he j val hj
      obtain ⟨k, hk⟩ := List.mem_iff_getElem?.mp hl
      have hklt := (List.getElem?_eq_some_iff.mp hk).1
      have hkidx := h.contiguous k l hk
      have hlen : (rf.cut args.entries).length = i := by
        rw [hcut, List.length_take]
        omega
      rw [hacc.lastLogIndex_eq, accepted_logs, List.length_append, news, beyond_eq_drop he hprev,
        List.length_drop, hlen, accepted_snapshotIndex]
      rw [hlen] at hprev
      omega
  · intro hno l hl
    refine hleft l ?_
    cases hi : firstConflict rf.snapshotIndex rf.logs args.entries with
    | none =>
      rw [Raft.cut, hi]
      exact hl
    | some i =>
      obtain ⟨l', val, hl', hval, hidx, hne⟩ := firstConflict_some hi
      have hli := h.contiguous i l' hl'
      exact absurd ⟨l', List.mem_of_getElem? hl', val, hval, hli, hidx, hne⟩ (hno _)

/-- A request that starts below the snapshot and disagrees with the log is not. -/
theorem Merges.noConflict (h : Aligned rf) (he : Contiguous args.prevLogIndex args.entries)
    (hr : rf.rejects args = none) (hm : Merges rf args (rf.accepted args))
    (hp : args.prevLogIndex < rf.snapshotIndex) : NoConflict rf.logs args.entries := by
  have hcut : rf.cut args.entries = rf.logs := by rw [Raft.cut, firstConflict_below he hp]
  intro val hval l hl hidx
  have habove := h.contiguous.lt_index hl
  obtain ⟨l', hl', hterm⟩ := hm.agrees val hval (by omega)
  -- the old entry is still there
  have hold : entry? (rf.accepted args) l.index = some l := by
    refine (h.accepted he hr).entry?_of_mem (List.mem_append_left _ ?_)
    rw [hcut]
    exact hl
  rw [hidx] at hold
  obtain rfl := Option.some.inj (hold.symm.trans hl')
  exact hterm

end

/-- **Merging over a compacted log.** A follower with an aligned log that answers an
append of consecutive entries with success has merged them correctly if and only if they
start at or after its snapshot index or do not conflict with its log. -/
theorem merges_iff (rf : Raft n α) (args : AppendEntriesArgs α) (h : Aligned rf)
    (hterm : rf.currentTerm ≤ args.term) (he : Contiguous args.prevLogIndex args.entries)
    (reply : AppendEntriesReply) (rf' : Raft n α)
    (hrun : (handleAppendEntries args rf).2 = some (reply, rf')) (hok : reply.success = true) :
    Merges rf args rf' ↔
      rf.snapshotIndex ≤ args.prevLogIndex ∨ NoConflict rf.logs args.entries := by
  rw [handleAppendEntries_run, if_neg (by omega)] at hrun
  cases hr : (rf.caughtUp args.term).rejects args with
  | some reply' =>
    -- a request that fails the log check is not answered with success
    rw [hr] at hrun
    obtain ⟨rfl, -⟩ := Prod.mk.inj (Option.some.inj hrun)
    rw [success_of_rejects hr] at hok
    cases hok
  | none =>
    rw [hr] at hrun
    obtain ⟨-, rfl⟩ := Prod.mk.inj (Option.some.inj hrun)
    -- the terms that are compared first do not matter for the log
    obtain ⟨hlogs, hsnap, -⟩ := caughtUp_logs rf args.term
    have hal := h.caughtUp args.term
    have hcongr : Merges rf args ((rf.caughtUp args.term).accepted args) ↔
        Merges (rf.caughtUp args.term) args ((rf.caughtUp args.term).accepted args) :=
      ⟨fun hm => hm.congr hlogs hsnap, fun hm => hm.congr hlogs.symm hsnap.symm⟩
    rw [hcongr, ← hlogs, ← hsnap]
    constructor
    · intro hm
      by_cases hp : (rf.caughtUp args.term).snapshotIndex ≤ args.prevLogIndex
      · exact Or.inl hp
      · exact Or.inr (hm.noConflict hal he hr (by omega))
    · exact hal.merges he hr

/-- A follower that has compacted the index 1 and holds an entry of term 1 at 2. -/
def compactedFollower : Raft 3 ℕ :=
  { (make {} : Raft 3 ℕ) with currentTerm := 2, logs := [⟨1, 2, 5⟩], snapshotIndex := 1,
                              snapshotTerm := 1, commitIndex := 1, lastApplied := 1 }

/-- The log of a leader of term 2 from its start on. -/
def fromTheStart : AppendEntriesArgs ℕ :=
  { term := 2, leaderId := 0, prevLogIndex := 0, prevLogTerm := -1,
    entries := [⟨1, 1, 4⟩, ⟨2, 2, 6⟩], leaderCommit := 1 }

theorem merges_iff_fromTheStart :
    (handleAppendEntries fromTheStart compactedFollower).2 =
        some ({ term := 2, success := true }, compactedFollower) ∧
      ¬ (compactedFollower.snapshotIndex ≤ fromTheStart.prevLogIndex ∨
        NoConflict compactedFollower.logs fromTheStart.entries) ∧
      (Merges compactedFollower fromTheStart compactedFollower ↔
        compactedFollower.snapshotIndex ≤ fromTheStart.prevLogIndex ∨
          NoConflict compactedFollower.logs fromTheStart.entries) :=
  ⟨by rfl, by decide, merges_iff compactedFollower fromTheStart (by decide) (by decide) (by decide)
    { term := 2, success := true } compactedFollower (by rfl) rfl⟩

/-- The follower answers with success and keeps the conflicting entry at the index 2. -/
theorem append_keeps_conflict :
    Aligned compactedFollower ∧ compactedFollower.currentTerm ≤ fromTheStart.term ∧
      Contiguous fromTheStart.prevLogIndex fromTheStart.entries ∧
      (handleAppendEntries fromTheStart compactedFollower).2 =
        some ({ term := 2, success := true }, compactedFollower) ∧
      ¬ Merges compactedFollower fromTheStart compactedFollower := by
  refine ⟨by decide, by decide, by decide, by rfl, fun h => ?_⟩
  obtain ⟨l, hl, hterm⟩ := h.agrees ⟨2, 2, 6⟩ (by decide) (by decide)
  obtain rfl := Option.some.inj (hl.symm.trans (by rfl : _ = some (⟨1, 2, 5⟩ : Log ℕ)))
  exact absurd hterm (by decide)

end DistStudy.Raft
