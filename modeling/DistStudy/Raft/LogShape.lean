import DistStudy.Raft.Outcome

/-!
# Contiguous logs

`Contiguous snap logs`: the entries of `logs` have the indexes `snap + 1`,
`snap + 2` and so on. A peer whose log is contiguous from its snapshot index
keeps it so through every event whose request carries consecutive entries, and
the requests it sends carry consecutive entries.
-/

namespace DistStudy.Raft

variable {n : ℕ} {α : Type}

/-- The indexes of `logs` follow `snap` without a gap. -/
def Contiguous (snap : Int) (logs : List (Log α)) : Prop :=
  ∀ (k : ℕ) (l : Log α), logs[k]? = some l → l.index = snap + 1 + k

instance (snap : Int) (logs : List (Log α)) : Decidable (Contiguous snap logs) :=
  decidable_of_iff (∀ k : Fin logs.length, logs[k].index = snap + 1 + (k : ℕ)) <| by
    constructor
    · intro h k l hl
      obtain ⟨hk, rfl⟩ := List.getElem?_eq_some_iff.mp hl
      exact h ⟨k, hk⟩
    · intro h k
      exact h k _ (List.getElem?_eq_getElem k.isLt)

namespace Contiguous

variable {snap : Int} {logs logs' : List (Log α)} {l : Log α}

theorem nil : Contiguous snap ([] : List (Log α)) := by
  intro k l h
  simp at h

theorem cons_iff : Contiguous snap (l :: logs) ↔ l.index = snap + 1 ∧ Contiguous (snap + 1) logs := by
  constructor
  · intro h
    refine ⟨?_, fun k l' hl => ?_⟩
    · have h0 := h 0 l rfl
      simpa using h0
    · have hk := h (k + 1) l' hl
      push_cast at hk
      omega
  · rintro ⟨h0, h⟩ k l' hl
    cases k with
    | zero =>
      obtain rfl : l = l' := by simpa using hl
      simpa using h0
    | succ k =>
      have hk := h k l' hl
      push_cast
      omega

theorem append_iff : Contiguous snap (logs ++ logs') ↔
    Contiguous snap logs ∧ Contiguous (snap + logs.length) logs' := by
  induction logs generalizing snap with
  | nil => simp [nil]
  | cons l logs ih =>
    have hlen : snap + 1 + (logs.length : Int) = snap + (l :: logs).length := by
      push_cast [List.length_cons]
      omega
    rw [List.cons_append, cons_iff, cons_iff, ih, hlen, and_assoc]

theorem take (h : Contiguous snap logs) (k : ℕ) : Contiguous snap (logs.take k) := by
  rw [← List.take_append_drop k logs] at h
  exact (append_iff.mp h).1

theorem drop (h : Contiguous snap logs) {k : ℕ} (hk : k ≤ logs.length) :
    Contiguous (snap + k) (logs.drop k) := by
  rw [← List.take_append_drop k logs] at h
  have hdrop := (append_iff.mp h).2
  rwa [List.length_take, Nat.min_eq_left hk] at hdrop

theorem lt_index (h : Contiguous snap logs) (hl : l ∈ logs) : snap < l.index := by
  rcases List.mem_iff_getElem?.mp hl with ⟨k, hk⟩
  have hidx := h k l hk
  omega

/-- The entry that an index expression reads. -/
theorem index?_eq (h : Contiguous snap logs) {i : Int} (hl : index? logs i = some l) :
    l.index = snap + 1 + i ∧ 0 ≤ i ∧ i < logs.length := by
  unfold index? at hl
  split_ifs at hl with hi
  have hlt := (List.getElem?_eq_some_iff.mp hl).1
  have hidx := h _ _ hl
  omega

theorem getLast?_eq (h : Contiguous snap logs) (hl : logs.getLast? = some l) :
    l.index = snap + logs.length := by
  have hne : logs ≠ [] := by
    rintro rfl
    simp at hl
  have hpos : 0 < logs.length := List.length_pos_iff.mpr hne
  rw [List.getLast?_eq_getElem?] at hl
  have hidx := h _ _ hl
  omega

theorem head?_eq (h : Contiguous snap logs) (hl : logs.head? = some l) : l.index = snap + 1 := by
  rw [List.head?_eq_getElem?] at hl
  have hidx := h _ _ hl
  simpa using hidx

/-- The entries above an index of a contiguous log are what is left after the positions
up to it. -/
theorem filter_above (h : Contiguous snap logs) (d : Int) :
    (logs.filter fun l => d < l.index) = logs.drop (d - snap).toNat := by
  induction logs generalizing snap with
  | nil => simp
  | cons l logs ih =>
    obtain ⟨hl, hrest⟩ := cons_iff.mp h
    by_cases hd : d < l.index
    · have hzero : (d - snap).toNat = 0 := by omega
      have hzero' : (d - (snap + 1)).toNat = 0 := by omega
      rw [List.filter_cons_of_pos (by simpa using hd), ih hrest, hzero, hzero', List.drop_zero,
        List.drop_zero]
    · have hsucc : (d - snap).toNat = (d - (snap + 1)).toNat + 1 := by omega
      rw [List.filter_cons_of_neg (by simpa using hd), ih hrest, hsucc, List.drop_succ_cons]

theorem pairwise_index (h : Contiguous snap logs) :
    logs.Pairwise fun l l' => l.index < l'.index := by
  induction logs generalizing snap with
  | nil => exact .nil
  | cons l logs ih =>
    obtain ⟨hl, hrest⟩ := cons_iff.mp h
    refine .cons (fun l' hl' => ?_) (ih hrest)
    have hlt := hrest.lt_index hl'
    omega

/-- The last one of some entries has the largest index. -/
theorem index_le_getLast? (h : Contiguous snap logs) {p : Log α → Bool} {last : Log α}
    (hlast : (logs.filter p).getLast? = some last) (hl : l ∈ logs.filter p) :
    l.index ≤ last.index := by
  obtain ⟨before, heq⟩ := List.getLast?_eq_some_iff.mp hlast
  have hpair := h.pairwise_index.filter p
  rw [heq] at hpair hl
  rcases List.mem_append.mp hl with hl | hl
  · exact ((List.pairwise_append.mp hpair).2.2 l hl last (by simp)).le
  · obtain rfl := List.mem_singleton.mp hl
    exact le_refl _

end Contiguous

/-- The entry of a log at an index above the snapshot. -/
theorem index?_of_lt {logs : List (Log α)} {i : Int} (h0 : 0 ≤ i) (hlt : i < logs.length) :
    ∃ l, index? logs i = some l := by
  have hlt' : i.toNat < logs.length := by omega
  exact ⟨logs[i.toNat], by rw [index?, if_pos h0, List.getElem?_eq_getElem hlt']⟩

/-- What `applyToClient` sends is read from the log in order. -/
theorem index?_of_mem_deliverable {logs : List (Log α)} {l : Log α} {k : ℕ} {i : Int}
    (h : l ∈ deliverable logs k i) : ∃ j < k, index? logs (i + j) = some l := by
  induction k generalizing i with
  | zero => simp [deliverable] at h
  | succ k ih =>
    unfold deliverable at h
    split at h
    · simp at h
    · rename_i l' hl'
      rcases List.mem_cons.mp h with rfl | h
      · exact ⟨0, by omega, by simpa using hl'⟩
      · rcases ih h with ⟨j, hj, hl⟩
        refine ⟨j + 1, by omega, ?_⟩
        rw [← hl]
        congr 1
        omega

theorem mem_of_mem_deliverable {logs : List (Log α)} {l : Log α} {k : ℕ} {i : Int}
    (h : l ∈ deliverable logs k i) : l ∈ logs := by
  rcases index?_of_mem_deliverable h with ⟨j, -, hl⟩
  unfold index? at hl
  split_ifs at hl
  exact List.mem_of_getElem? hl

/-! ## Merging consecutive entries -/

section

variable {snap prev : Int} {logs entries : List (Log α)}

/-- The first conflict is between an entry of the request and the log's entry of
the same index; there is none before it. -/
theorem firstConflict_some {i : ℕ} (h : firstConflict snap logs entries = some i) :
    ∃ l val, logs[i]? = some l ∧ val ∈ entries ∧ val.index = snap + 1 + i ∧ l.term ≠ val.term := by
  induction entries with
  | nil => cases h
  | cons val rest ih =>
    simp only [firstConflict] at h
    split_ifs at h with hrange
    cases hl : logs[(val.index - snap - 1).toNat]? with
    | none =>
      simp only [hl] at h
      cases h
    | some l =>
      simp only [hl] at h
      split_ifs at h with hterm
      · obtain rfl := Option.some.inj h
        exact ⟨l, val, hl, by simp, by omega, hterm⟩
      · rcases ih h with ⟨l', val', hl', hmem, hidx, hne⟩
        exact ⟨l', val', hl', List.mem_cons_of_mem _ hmem, hidx, hne⟩

/-- No new entry has another term than the log's entry of the same index. -/
def NoConflict (logs entries : List (Log α)) : Prop :=
  ∀ val ∈ entries, ∀ l ∈ logs, l.index = val.index → l.term = val.term

instance (logs entries : List (Log α)) : Decidable (NoConflict logs entries) :=
  inferInstanceAs (Decidable (∀ val ∈ entries, ∀ l ∈ logs, l.index = val.index → l.term = val.term))

/-- There is no conflict before the first one, if the entries start after the snapshot. -/
theorem firstConflict_before (hlogs : Contiguous snap logs) (he : Contiguous prev entries)
    (hp : snap ≤ prev) {val l : Log α} (hval : val ∈ entries) (hl : l ∈ logs)
    (hidx : l.index = val.index)
    (hbefore : ∀ i, firstConflict snap logs entries = some i → val.index < snap + 1 + i) :
    l.term = val.term := by
  induction entries generalizing prev with
  | nil => cases hval
  | cons val' rest ih =>
    obtain ⟨hidx', hrest⟩ := Contiguous.cons_iff.mp he
    rcases List.mem_iff_getElem?.mp hl with ⟨k, hk⟩
    have hklt : k < logs.length := (List.getElem?_eq_some_iff.mp hk).1
    have hlk := hlogs k l hk
    have hge : prev + 1 ≤ val.index := by
      rcases List.mem_cons.mp hval with rfl | hval
      · omega
      · have hlt := hrest.lt_index hval
        omega
    -- the scan does not stop here, since the log reaches beyond this entry
    have hrange : ¬ (val'.index - snap - 1 < 0 ∨ val'.index - snap - 1 ≥ logs.length) := by omega
    simp only [firstConflict, if_neg hrange] at hbefore
    cases hl' : logs[(val'.index - snap - 1).toNat]? with
    | none =>
      rw [List.getElem?_eq_none_iff] at hl'
      omega
    | some l' =>
      simp only [hl'] at hbefore
      by_cases hterm : l'.term = val'.term
      · rw [if_neg (not_not.mpr hterm)] at hbefore
        rcases List.mem_cons.mp hval with rfl | hval
        · have hkeq : k = (val.index - snap - 1).toNat := by omega
          rw [← hkeq, hk] at hl'
          obtain rfl := Option.some.inj hl'
          exact hterm
        · exact ih hrest (by omega) hval hbefore
      · rw [if_pos hterm] at hbefore
        have hlt := hbefore _ rfl
        omega

/-- What lies beyond the end of the log is a suffix of consecutive entries. -/
theorem beyond_eq_drop {last : Int} (h : Contiguous prev entries) (hle : prev ≤ last) :
    beyond last entries = entries.drop (last - prev).toNat := by
  induction entries generalizing prev last with
  | nil => simp [beyond]
  | cons val rest ih =>
    obtain ⟨hidx, hrest⟩ := Contiguous.cons_iff.mp h
    unfold beyond
    split_ifs with hgt
    · have hz : (last - prev).toNat = 0 := by omega
      have hz' : (last + 1 - (prev + 1)).toNat = 0 := by omega
      rw [ih hrest (by omega), hz, hz', List.drop_zero, List.drop_zero]
    · have hs : (last - prev).toNat = (last - (prev + 1)).toNat + 1 := by omega
      rw [ih hrest (by omega), hs, List.drop_succ_cons]

theorem Contiguous.beyond {last : Int} (h : Contiguous prev entries) (hle : prev ≤ last) :
    Contiguous last (beyond last entries) := by
  rw [beyond_eq_drop h hle]
  by_cases hlen : (last - prev).toNat ≤ entries.length
  · have hdrop := h.drop hlen
    have heq : prev + ((last - prev).toNat : Int) = last := by omega
    rwa [heq] at hdrop
  · rw [List.drop_of_length_le (by omega)]
    exact .nil

end

/-! ## Aligned peers -/

/-- The log of the peer is contiguous from its snapshot index. -/
structure Aligned (rf : Raft n α) : Prop where
  nonneg : 0 ≤ rf.snapshotIndex
  contiguous : Contiguous rf.snapshotIndex rf.logs

instance (rf : Raft n α) : Decidable (Aligned rf) :=
  decidable_of_iff (0 ≤ rf.snapshotIndex ∧ Contiguous rf.snapshotIndex rf.logs)
    ⟨fun h => ⟨h.1, h.2⟩, fun h => ⟨h.1, h.2⟩⟩

/-- A request with consecutive entries, or a snapshot at a real index. -/
def Shaped : Call α → Prop
  | .requestVote _ _ => True
  | .appendEntries args => Contiguous args.prevLogIndex args.entries
  | .installSnapshot args => 0 ≤ args.lastIncludedIndex

/-- An input that is not a request, or that of a shaped request. -/
def ShapedInput : Input n α → Prop
  | .appendEntries args => Contiguous args.prevLogIndex args.entries
  | .installSnapshot args => 0 ≤ args.lastIncludedIndex
  | _ => True

section

variable {rf rf' : Raft n α}

theorem Aligned.congr (h : Aligned rf) (hs : rf'.snapshotIndex = rf.snapshotIndex)
    (hl : rf'.logs = rf.logs) : Aligned rf' :=
  ⟨by rw [hs]; exact h.nonneg, by rw [hs, hl]; exact h.contiguous⟩

theorem caughtUp_logs (rf : Raft n α) (term : Int) :
    (rf.caughtUp term).logs = rf.logs ∧ (rf.caughtUp term).snapshotIndex = rf.snapshotIndex ∧
      (rf.caughtUp term).snapshotTerm = rf.snapshotTerm ∧
      (rf.caughtUp term).snapshot = rf.snapshot ∧
      (rf.caughtUp term).commitIndex = rf.commitIndex ∧
      (rf.caughtUp term).lastApplied = rf.lastApplied := by
  unfold caughtUp
  split_ifs <;> exact ⟨rfl, rfl, rfl, rfl, rfl, rfl⟩

theorem Aligned.caughtUp (h : Aligned rf) (term : Int) : Aligned (rf.caughtUp term) :=
  h.congr (caughtUp_logs rf term).2.1 (caughtUp_logs rf term).1

theorem heard_logs (rf rf₁ : Raft n α) :
    (rf.heard rf₁).logs = rf₁.logs ∧ (rf.heard rf₁).snapshotIndex = rf₁.snapshotIndex ∧
      (rf.heard rf₁).snapshotTerm = rf₁.snapshotTerm ∧ (rf.heard rf₁).snapshot = rf₁.snapshot ∧
      (rf.heard rf₁).commitIndex = rf₁.commitIndex ∧
      (rf.heard rf₁).lastApplied = rf₁.lastApplied := by
  unfold heard
  split_ifs <;> exact ⟨rfl, rfl, rfl, rfl, rfl, rfl⟩

theorem credited_logs (rf : Raft n α) (req : AppendEntriesArgs α) (server : Fin n) :
    (rf.credited req server).logs = rf.logs ∧
      (rf.credited req server).snapshotIndex = rf.snapshotIndex ∧
      (rf.credited req server).snapshotTerm = rf.snapshotTerm ∧
      (rf.credited req server).snapshot = rf.snapshot ∧
      (rf.credited req server).commitIndex = rf.commitIndex ∧
      (rf.credited req server).lastApplied = rf.lastApplied := by
  unfold credited
  split_ifs <;> exact ⟨rfl, rfl, rfl, rfl, rfl, rfl⟩

/-- Only an install and a `Snapshot` request change the snapshot. -/
theorem Outcome.snapshot_eq {me : Fin n} {input : Input n α} {es : List (Effect n α)}
    (h : Outcome me rf input es (some rf')) (hinstall : ∀ args, input ≠ .installSnapshot args)
    (hcompact : ∀ req, input ≠ .snapshotRequest req) :
    rf'.snapshot = rf.snapshot ∧ rf'.snapshotIndex = rf.snapshotIndex ∧
      rf'.snapshotTerm = rf.snapshotTerm := by
  have hcaught : ∀ term, (rf.caughtUp term).snapshot = rf.snapshot ∧
      (rf.caughtUp term).snapshotIndex = rf.snapshotIndex ∧
      (rf.caughtUp term).snapshotTerm = rf.snapshotTerm := fun term =>
    ⟨(caughtUp_logs rf term).2.2.2.1, (caughtUp_logs rf term).2.1, (caughtUp_logs rf term).2.2.1⟩
  have hheard : ∀ rf₁ : Raft n α, (rf.heard rf₁).snapshot = rf₁.snapshot ∧
      (rf.heard rf₁).snapshotIndex = rf₁.snapshotIndex ∧
      (rf.heard rf₁).snapshotTerm = rf₁.snapshotTerm := fun rf₁ =>
    ⟨(heard_logs rf rf₁).2.2.2.1, (heard_logs rf rf₁).2.1, (heard_logs rf rf₁).2.2.1⟩
  cases h with
  | voteGranted args | voteRefused args | voteTaken args => exact hcaught args.term
  | appendRejected args => simpa [hheard] using hcaught args.term
  | appendAccepted args => simpa [hheard] using hcaught args.term
  | installStale args | installEmpty args | installCleared args | installRetained args =>
    exact absurd rfl (hinstall args)
  | compacted req => exact absurd rfl (hcompact req)
  | applied es res hes hres =>
    rcases hres with hres | ⟨-, hres⟩ <;> cases hres
    exact ⟨rfl, rfl, rfl⟩
  | sent input es res hin hs hes hres =>
    rcases hres with hres | hres <;> cases hres
    exact ⟨rfl, rfl, rfl⟩
  | replySuccess reply args server res hs ht hreq hok hres =>
    have hcred := credited_logs rf args server
    rcases hres with hres | hres | ⟨M, -, -, -, hres⟩ <;> cases hres
    · exact ⟨hcred.2.2.2.1, hcred.2.1, hcred.2.2.1⟩
    · exact ⟨hcred.2.2.2.1, hcred.2.1, hcred.2.2.1⟩
  | _ => exact ⟨rfl, rfl, rfl⟩

/-- Only an install and the apply timer change `lastApplied`. -/
theorem Outcome.lastApplied_eq {me : Fin n} {input : Input n α} {es : List (Effect n α)}
    (h : Outcome me rf input es (some rf')) (hinstall : ∀ args, input ≠ .installSnapshot args)
    (htimer : input ≠ .applyTimer) : rf'.lastApplied = rf.lastApplied := by
  have hcaught : ∀ term, (rf.caughtUp term).lastApplied = rf.lastApplied :=
    fun term => (caughtUp_logs rf term).2.2.2.2.2
  have hheard : ∀ rf₁ : Raft n α, (rf.heard rf₁).lastApplied = rf₁.lastApplied :=
    fun rf₁ => (heard_logs rf rf₁).2.2.2.2.2
  cases h with
  | voteGranted args | voteRefused args | voteTaken args => exact hcaught args.term
  | appendRejected args => rw [hheard, hcaught]
  | appendAccepted args => rw [hheard, accepted_lastApplied, hcaught]
  | installStale args | installEmpty args | installCleared args | installRetained args =>
    exact absurd rfl (hinstall args)
  | applied es res hes hres => exact absurd rfl htimer
  | sent input es res hin hs hes hres =>
    rcases hres with hres | hres <;> cases hres
    rfl
  | replySuccess reply args server res hs ht hreq hok hres =>
    have hcred := (credited_logs rf args server).2.2.2.2.2
    rcases hres with hres | hres | ⟨M, -, -, -, hres⟩ <;> cases hres
    · exact hcred
    · exact hcred
  | _ => rfl

theorem Aligned.lastLogIndex_eq (h : Aligned rf) :
    rf.lastLogIndex = rf.snapshotIndex + rf.logs.length := by
  unfold lastLogIndex
  split
  · rename_i hl
    simp [List.getLast?_eq_none_iff.mp hl]
  · rename_i l hl
    exact h.contiguous.getLast?_eq hl

/-- An append that passes the log check starts inside the log or right after it. -/
theorem prevLogIndex_le_of_rejects {args : AppendEntriesArgs α} (h : rf.rejects args = none) :
    args.prevLogIndex ≤ rf.logs.length + rf.snapshotIndex := by
  unfold rejects at h
  split_ifs at h with hgt <;> omega

/-- The log after the cut, and where it ends. -/
theorem Aligned.cut (h : Aligned rf) {args : AppendEntriesArgs α}
    (he : Contiguous args.prevLogIndex args.entries)
    (hp : args.prevLogIndex ≤ rf.logs.length + rf.snapshotIndex) :
    Contiguous rf.snapshotIndex (rf.cut args.entries) ∧
      args.prevLogIndex ≤ (rf.cut args.entries).length + rf.snapshotIndex := by
  unfold Raft.cut
  cases hc : firstConflict rf.snapshotIndex rf.logs args.entries with
  | none => exact ⟨h.contiguous, hp⟩
  | some i =>
    rcases firstConflict_some hc with ⟨l, val, hl, hmem, hidx, -⟩
    refine ⟨h.contiguous.take i, ?_⟩
    -- the conflicting entry comes after `prevLogIndex`
    obtain ⟨j, hj⟩ := List.mem_iff_getElem?.mp hmem
    have hval := he j val hj
    have hlt : i < rf.logs.length := (List.getElem?_eq_some_iff.mp hl).1
    simp only [List.length_take]
    omega

theorem Aligned.accepted (h : Aligned rf) {args : AppendEntriesArgs α}
    (he : Contiguous args.prevLogIndex args.entries) (hr : rf.rejects args = none) :
    Aligned (rf.accepted args) := by
  have hcut := h.cut he (prevLogIndex_le_of_rejects hr)
  refine ⟨h.nonneg, Contiguous.append_iff.mpr ⟨hcut.1, ?_⟩⟩
  have hnews : Contiguous ((rf.cut args.entries).length + rf.snapshotIndex)
      (rf.news args.entries) := he.beyond hcut.2
  rwa [Int.add_comm] at hnews

/-- A contiguous log never meets the condition for keeping the rest of the log:
its last index is above the snapshot index. -/
theorem Aligned.not_retains (h : Aligned rf) (args : InstallSnapshotRequest) :
    ¬ rf.Retains args := by
  rintro ⟨hidx, -⟩
  cases hl : rf.logs.getLast? with
  | none =>
    have hnonneg := h.nonneg
    simp only [hl, Option.map_none, Option.getD_none] at hidx
    omega
  | some l =>
    have hlast := h.contiguous.getLast?_eq hl
    have hpos : 0 < rf.logs.length := by
      rw [List.length_pos_iff]
      rintro hnil
      simp [hnil] at hl
    simp only [hl, Option.map_some, Option.getD_some] at hidx
    omega

theorem Aligned.compacted (h : Aligned rf) {req : SnapshotRequest}
    (hreq : rf.snapshotIndex ≤ req.index ∧ req.index ≤ rf.snapshotIndex + rf.logs.length) :
    Aligned (rf.compacted req) := by
  refine ⟨h.nonneg.trans hreq.1, ?_⟩
  have hk : (req.index - rf.snapshotIndex).toNat ≤ rf.logs.length := by omega
  have hdrop := h.contiguous.drop hk
  have heq : rf.snapshotIndex + ((req.index - rf.snapshotIndex).toNat : Int) = req.index := by omega
  rw [heq] at hdrop
  exact hdrop

/-- The log that an event writes: the old one, the old one with a command, or the
log of an accepted append after the cut and some of the new entries. -/
inductive Writes (rf : Raft n α) (input : Input n α) : List (Log α) → Prop
  | same : Writes rf input rf.logs
  | command (command : α) (hin : input = .command command) (hs : rf.status = .leader) :
      Writes rf input (rf.logs ++ [rf.newEntry command])
  | append (args : AppendEntriesArgs α) (j : ℕ) (hin : input = .appendEntries args)
      (ht : ¬ args.term < rf.currentTerm) (hr : (rf.caughtUp args.term).rejects args = none) :
      Writes rf input ((rf.caughtUp args.term).cut args.entries ++
        ((rf.caughtUp args.term).news args.entries).take j)

/-- A record that `persist` writes with an unchanged snapshot. -/
def Persists (rf : Raft n α) (input : Input n α) (p : Persister α) : Prop :=
  ∃ rf₁ : Raft n α, p = rf₁.persisted ∧ rf₁.snapshot = rf.snapshot ∧
    rf₁.snapshotIndex = rf.snapshotIndex ∧ rf₁.snapshotTerm = rf.snapshotTerm ∧
    Writes rf input rf₁.logs

theorem Persists.same {rf₁ : Raft n α} {input : Input n α} {p : Persister α}
    (hp : p = rf₁.persisted) (hb : rf₁.snapshot = rf.snapshot)
    (hi : rf₁.snapshotIndex = rf.snapshotIndex) (ht : rf₁.snapshotTerm = rf.snapshotTerm)
    (hl : rf₁.logs = rf.logs) : Persists rf input p :=
  ⟨rf₁, hp, hb, hi, ht, by rw [hl]; exact .same⟩

/-- Everything that an event saves: a record of `persist`, or that of an install. -/
theorem Outcome.save_cases {me : Fin n} {input : Input n α} {es : List (Effect n α)}
    {res : Option (Raft n α)} (h : Outcome me rf input es res) {p : Persister α}
    (hp : .save p ∈ es) :
    Persists rf input p ∨ ∃ args, input = .installSnapshot args ∧ ¬ args.term < rf.currentTerm ∧
      p = (rf.caughtUp args.term).installed args.data := by
  have hcatch : ∀ term, .save p ∈ rf.catchUp term → Persists rf input p := by
    intro term hp
    exact .same (Effect.save.inj (mem_catchUp.mp hp).2) rfl rfl rfl rfl
  have hvoted : ∀ term v, p = ((rf.caughtUp term).voted v).persisted → Persists rf input p := by
    intro term v hp
    obtain ⟨hl, hi, ht, hb, -⟩ := caughtUp_logs rf term
    exact .same hp hb hi ht hl
  have hsends : ∀ {rf' : Raft n α}, ¬ Sends me rf' (.save p) := by
    intro rf' hs
    obtain ⟨_, _, -, heq⟩ := hs.append
    cases heq
  cases h with
  | voteGranted args ht hv hu =>
    rcases List.mem_append.mp hp with hp | hp
    · exact Or.inl (hcatch _ hp)
    · exact Or.inl (hvoted args.term args.candidateId (by simpa using hp))
  | voteRefused args ht hv hu =>
    rcases List.mem_append.mp hp with hp | hp
    · exact Or.inl (hcatch _ hp)
    · exact Or.inl (hvoted args.term (-1) (by simpa using hp))
  | voteTaken args | appendRejected args =>
    rcases List.mem_append.mp hp with hp | hp
    · exact Or.inl (hcatch _ hp)
    · simp at hp
  | appendAccepted args ht hr =>
    simp only [List.mem_append, List.mem_singleton, reduceCtorEq, or_false] at hp
    rcases hp with hp | hp
    · exact Or.inl (hcatch _ hp)
    · rcases acceptSaves_saves _ _ _ hp with ⟨j, heq⟩
      obtain ⟨-, hi, ht', hb, -⟩ := caughtUp_logs rf args.term
      have heq := Effect.save.inj heq
      exact Or.inl ⟨_, heq, hb, hi, ht', .append args j rfl ht hr⟩
  | installEmpty args ht | installCleared args ht | installRetained args _ ht
  | installPanics args ht =>
    rcases List.mem_append.mp hp with hp | hp
    · exact Or.inl (hcatch _ hp)
    · exact Or.inr ⟨args, rfl, ht, by simpa using hp⟩
  | started command hs =>
    have hp : p = (rf.withLogs (rf.logs ++ [rf.newEntry command])).persisted := by simpa using hp
    exact Or.inl ⟨_, hp, rfl, rfl, rfl, .command command rfl hs⟩
  | applied logs res hes hres =>
    rcases List.mem_map.mp hp with ⟨l, -, heq⟩
    simp [Log.deliver] at heq
  | elected hs =>
    have hp : p = (Raft.elected me rf).persisted := by simpa using hp
    exact Or.inl (.same hp rfl rfl rfl rfl)
  | higherTerm hin ht =>
    have hp := Effect.save.inj (List.mem_singleton.mp hp)
    exact Or.inl (.same hp rfl rfl rfl rfl)
  | leaderElected vote es hs ht hn hes => exact absurd (hes _ hp) hsends
  | sent input es res hin hs hes hres => exact absurd (hes _ hp) hsends
  | replyFailure reply args server es hs ht hreq hok hes =>
    rcases hes with rfl | ⟨rfl, -⟩ <;> simp at hp
  | _ => simp at hp

/-- What an event writes is contiguous. -/
theorem Aligned.written (h : Aligned rf) {input : Input n α} (hin : ShapedInput input)
    {logs : List (Log α)} (hw : Writes rf input logs) : Contiguous rf.snapshotIndex logs := by
  cases hw with
  | same => exact h.contiguous
  | command command _ hs =>
    refine Contiguous.append_iff.mpr ⟨h.contiguous, Contiguous.cons_iff.mpr ⟨?_, .nil⟩⟩
    simp only [newEntry]
    omega
  | append args j heq ht hr =>
    subst heq
    have hacc := ((h.caughtUp args.term).accepted hin hr).contiguous
    have hsnap : ((rf.caughtUp args.term).accepted args).snapshotIndex = rf.snapshotIndex :=
      (caughtUp_logs rf args.term).2.1
    rw [hsnap, accepted_logs] at hacc
    obtain ⟨hcut, hnews⟩ := Contiguous.append_iff.mp hacc
    exact Contiguous.append_iff.mpr ⟨hcut, hnews.take j⟩

/-- Every event keeps the log aligned. -/
theorem Aligned.outcome (h : Aligned rf) {me : Fin n} {input : Input n α}
    {es : List (Effect n α)} (hin : ShapedInput input)
    (ho : Outcome me rf input es (some rf')) : Aligned rf' := by
  cases ho with
  | voteGranted args ht hv hu => exact (h.caughtUp args.term).congr rfl rfl
  | voteRefused args ht hv hu => exact (h.caughtUp args.term).congr rfl rfl
  | voteTaken args ht hv => exact h.caughtUp args.term
  | appendRejected args reply ht hr =>
    have hk := heard_logs rf (rf.caughtUp args.term)
    exact (h.caughtUp args.term).congr hk.2.1 hk.1
  | appendAccepted args ht hr =>
    have hk := heard_logs rf ((rf.caughtUp args.term).accepted args)
    exact ((h.caughtUp args.term).accepted hin hr).congr hk.2.1 hk.1
  | installEmpty args ht hd => exact (h.caughtUp args.term).congr rfl rfl
  | installCleared args ht hd hr => exact ⟨hin, .nil⟩
  | installRetained args logs ht hd hr hl =>
    exact absurd hr ((h.caughtUp args.term).not_retains args)
  | compacted req hreq => exact h.compacted hreq
  | started command hl =>
    refine ⟨h.nonneg, Contiguous.append_iff.mpr ⟨h.contiguous, Contiguous.cons_iff.mpr ⟨?_, .nil⟩⟩⟩
    simp only [newEntry, withLogs_snapshotIndex]
    omega
  | applied es res hes hres =>
    rcases hres with hres | ⟨-, hres⟩ <;> cases hres
    exact h.congr rfl rfl
  | sent input es res hin' hs hes hres =>
    rcases hres with hres | hres <;> cases hres
    exact h
  | replySuccess reply args server res hs ht hreq hok hres =>
    have hcred : Aligned (rf.credited args server) :=
      h.congr (credited_logs rf args server).2.1 (credited_logs rf args server).1
    rcases hres with hres | hres | ⟨M, -, -, -, hres⟩ <;> cases hres
    · exact hcred
    · exact hcred.congr rfl rfl
  | _ => exact h.congr rfl rfl

/-- An append of a leader with an aligned log: a heartbeat after its last entry, or the
entries after an entry of its log or after its snapshot. -/
theorem Aligned.sends_cases (h : Aligned rf) {me server : Fin n} {args : AppendEntriesArgs α}
    (hs : Sends me rf (.call server (.appendEntries args))) :
    (args.entries = [] ∧ args.prevLogIndex = rf.lastLogIndex ∧
        args.prevLogTerm = rf.lastLogTerm) ∨
      (args.entries ≠ [] ∧ rf.snapshotIndex ≤ args.prevLogIndex ∧
        args.prevLogIndex ≤ rf.snapshotIndex + rf.logs.length ∧
        args.entries = rf.logs.drop (args.prevLogIndex - rf.snapshotIndex).toNat ∧
        (args.prevLogIndex = rf.snapshotIndex ∧ args.prevLogTerm = rf.snapshotTerm ∨
          ∃ l ∈ rf.logs, l.index = args.prevLogIndex ∧ l.term = args.prevLogTerm)) := by
  rcases hs with ⟨server', entries, prev, -, hprev, heq, hentries⟩
  obtain ⟨rfl, rfl⟩ : server = server' ∧ args = appendRequest me rf entries prev := by
    simpa using heq
  simp only [appendRequest]
  unfold previous at hprev
  by_cases hlen : entries.length = 0
  · left
    rw [if_pos hlen] at hprev
    obtain rfl := Option.some.inj hprev
    exact ⟨List.length_eq_zero_iff.mp hlen, rfl, rfl⟩
  have hne : entries ≠ [] := fun hnil => hlen (List.length_eq_zero_iff.mpr hnil)
  right
  rcases hentries with hnil | ⟨hnext, hslice⟩
  · exact absurd hnil hne
  -- the entries start at the next index of the peer, and `prev` is right before it
  rw [if_neg hlen] at hprev
  generalize rf.nextIndex[server] = next at hprev hnext hslice
  unfold sliceFrom? at hslice
  split_ifs at hslice with hrange
  obtain rfl := Option.some.inj hslice
  split_ifs at hprev with hfirst
  · obtain rfl := Option.some.inj hprev
    have hpos : next - 1 - rf.snapshotIndex = rf.snapshotIndex - rf.snapshotIndex := by omega
    exact ⟨hne, le_refl _, by omega, by rw [hpos], Or.inl ⟨rfl, rfl⟩⟩
  · rw [Option.map_eq_some_iff] at hprev
    rcases hprev with ⟨l, hl, rfl⟩
    have hidx := (h.contiguous.index?_eq hl).1
    have hpos : next - 1 - rf.snapshotIndex = l.index - rf.snapshotIndex := by omega
    refine ⟨hne, by omega, by omega, by rw [hpos], Or.inr ⟨l, ?_, rfl, rfl⟩⟩
    unfold index? at hl
    split_ifs at hl
    exact List.mem_of_getElem? hl

/-- The requests of a leader with an aligned log. -/
theorem Aligned.sends (h : Aligned rf) {me : Fin n} {server : Fin n} {call : Call α}
    (hs : Sends me rf (.call server call)) : Shaped call := by
  obtain ⟨server', args, -, heq⟩ := hs.append
  cases heq
  show Contiguous args.prevLogIndex args.entries
  rcases h.sends_cases hs with ⟨hnil, -⟩ | ⟨-, hlo, hhi, hentries, -⟩
  · rw [hnil]
    exact .nil
  · have hk : (args.prevLogIndex - rf.snapshotIndex).toNat ≤ rf.logs.length := by omega
    have hdrop := h.contiguous.drop hk
    have hstart : rf.snapshotIndex + ((args.prevLogIndex - rf.snapshotIndex).toNat : Int) =
        args.prevLogIndex := by omega
    rw [hentries]
    rwa [hstart] at hdrop

/-- Every request that a peer with an aligned log sends is shaped. -/
theorem Aligned.calls (h : Aligned rf) {me : Fin n} {input : Input n α} {es : List (Effect n α)}
    {res : Option (Raft n α)} (ho : Outcome me rf input es res) {server : Fin n} {call : Call α}
    (hc : .call server call ∈ es) : Shaped call := by
  rcases ho.call_cases hc with ⟨-, -, rfl⟩ | ⟨-, hs⟩ | ⟨vote, -, -, hs⟩ | ⟨reply, args, -, -, rfl⟩
  · exact trivial
  · exact h.sends hs
  · have hin : Aligned (rf.counted vote).inaugurated := h.congr rfl rfl
    exact hin.sends hs
  · exact h.nonneg

end

end DistStudy.Raft
