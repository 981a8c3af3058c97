import DistStudy.Raft.WithoutSnapshots

/-!
# Runs with snapshots

* `match_index_sound`: in the runs under the rules `sound`, a peer still holds
  what the leader of its term counts it as holding. Without them it does not:
  `handleInstallSnapshot` clears the log also when it goes on after the snapshot.
* `index_order`: `snapshotIndex`, `lastApplied`, `commitIndex` and the end of the
  log stay in this order, so that no loop reads outside the log, if also every
  snapshot that is installed ends at the commit index; the handler moves
  `lastApplied` there and leaves `commitIndex` as it was.
* `repeated_request_loses_entry`: without the rule on repeated `Snapshot` requests
  committed entries are lost even if no snapshot is ever installed.
-/

namespace DistStudy.Raft

open Prog ReplicatedLog

variable {n : ℕ} {α : Type}

/-! ## Match indexes -/

/-- A peer in the term of a leader holds everything up to its match index, with the
entries of the leader. -/
theorem match_index_sound {e : Behavior (World n α)} (he : Run (sound n α).Allows e) (k : ℕ)
    (i f : Fin n) (hi : ((e k).server i).rf.status = .leader)
    (ht : ((e k).server f).rf.currentTerm = ((e k).server i).rf.currentTerm) :
    ((e k).server i).rf.matchIndex[f] ≤
        ((e k).server f).rf.snapshotIndex + ((e k).server f).rf.logs.length ∧
      ∀ d, ((e k).server i).rf.snapshotIndex < d → ((e k).server f).rf.snapshotIndex < d →
        d ≤ ((e k).server i).rf.matchIndex[f] →
        ∃ l, ((e k).server i).rf.entry? d = some l ∧ l.index = d ∧
          ((e k).server f).rf.entry? d = some l := by
  rcases he.sim (le_refl k) with ⟨a, -, -, h, -⟩
  have hmi := (h.servers i).memory
  have hmf := (h.servers f).memory
  obtain ⟨hlead, hmatch⟩ := hmi.leader hi
  rcases hmatch f with ⟨P, hlen, hP⟩
  -- what was acknowledged in the current term is a prefix of both logs
  have hPf : P <+: a.log f := by
    rcases hP with rfl | hack
    · exact List.nil_prefix
    · refine h.inv.ack_now ?_
      rw [hmf.term, ht]
      exact hack
  have hPi : P <+: a.log i := by
    rcases hP with rfl | hack
    · exact List.nil_prefix
    · exact h.inv.holds_prefix ⟨P, hack, List.prefix_refl _⟩ hlead
  refine ⟨?_, fun d hdi hdf hd => hmi.stores.entry?_eq hmf.stores hPi hPf hdi hdf (by omega)⟩
  rw [← hlen, hmf.stores.length]
  exact_mod_cast hPf.length_le

/-- Peer 2 installs the first of two equal snapshots and acknowledges the entry after it. -/
def snapshotOvertaken : List (Event 3 ℕ) :=
  snapshotOffered ++ [.handle (.timer 0 .heartbeat), .drop 1, .handle (.deliver 1),
    .handle (.deliver 1), .handle (.deliver 0),
    .handle (.timer 0 .broadcastEntries), .drop 2, .handle (.deliver 2), .handle (.deliver 2)]

theorem match_index_sound_overtaken :
    ((play World.step World.init (snapshotOvertaken.take 28)).server 0).rf.matchIndex[(2 : Fin 3)] =
        2 ∧
      ∃ l, ((play World.step World.init (snapshotOvertaken.take 28)).server 0).rf.entry? 2 = some l ∧
        l.index = 2 ∧
        ((play World.step World.init (snapshotOvertaken.take 28)).server 2).rf.entry? 2 = some l :=
  ⟨by decide +kernel,
    (match_index_sound (Runs.play (by decide +kernel : Plays _ _ _ snapshotOvertaken)) 28 0 2
      (by decide +kernel) (by decide +kernel)).2 2 (by decide +kernel) (by decide +kernel)
      (by decide +kernel)⟩

/-- The second snapshot arrives: peer 2 loses the entry that the leader has just
committed with it. -/
theorem install_drops_entry :
    ∃ (e : Behavior (World 3 ℕ)) (k : ℕ), Run ofDelivered.Allows e ∧
      ((e k).server 0).rf.status = .leader ∧
      ((e k).server 2).rf.currentTerm = ((e k).server 0).rf.currentTerm ∧
      ((e k).server 2).rf.snapshotIndex + ((e k).server 2).rf.logs.length <
        ((e k).server 0).rf.matchIndex[(2 : Fin 3)] :=
  ⟨_, 29, Runs.play (by decide +kernel : Plays _ ofDelivered.Allows _
    (snapshotOvertaken ++ [.handle (.deliver 0)])), by decide +kernel⟩

/-! ## The order of the indexes -/

/-- A snapshot that is installed ends at the commit index. Every `LeaderCommit` is an
`int` of Go. -/
def InstallsCommitted (rf : Raft n α) : Input n α → Prop
  | .appendEntries args => args.leaderCommit ≤ maxInt
  | .installSnapshot args =>
    args.term < rf.currentTerm ∨ args.data = none ∨ args.lastIncludedIndex = rf.commitIndex
  | _ => True

instance (rf : Raft n α) : ∀ input, Decidable (InstallsCommitted rf input)
  | .appendEntries _ => inferInstanceAs (Decidable (_ ≤ _))
  | .installSnapshot _ => inferInstanceAs (Decidable (_ ∨ _ ∨ _))
  | .requestVote _ | .snapshotRequest _ | .command _ | .electionTimer | .applyTimer
  | .heartbeatTimer | .broadcastEntriesTimer | .vote _ _ | .appendEntriesReply _ _ _
  | .installSnapshotReply _ _ => inferInstanceAs (Decidable True)

/-- The rules `sound`, and no install moves `lastApplied` away from the commit index. -/
abbrev ordered (n : ℕ) (α : Type) : Rules n α where
  input rf input := Sound rf input ∧ InstallsCommitted rf input
  restart := Restorable
  resave := KeepsIndex

theorem Run.sound_of_ordered {e : Behavior (World n α)} (he : Run (ordered n α).Allows e) :
    Run (sound n α).Allows e := by
  refine he.mono fun k event hev => ?_
  cases event with
  | handle cause => exact fun a harr => (hev a harr).1
  | crashDuring cause j => exact fun a harr => ⟨(hev a harr).1.1, (hev a harr).2⟩
  | _ => exact hev

/-- An accepted append does not move the commit index back. -/
def KeepsCommit (rf : Raft n α) (input : Input n α) : Prop :=
  ∀ args, input = .appendEntries args → ¬ args.term < rf.currentTerm →
    (rf.caughtUp args.term).rejects args = none →
    rf.commitIndex ≤ (rf.caughtUp args.term).commitAfter args

/-- The new commit index is not below the old one: the cut keeps the committed entries, and
an empty log bounds it by `math.MaxInt` only. -/
theorem Ready.commitIndex_le {a₀ a : Abstract n α} {i : Fin n} {rf : Raft n α}
    (h : Ready a₀ a i rf) {args : AppendEntriesArgs α} (hterm : rf.currentTerm = args.term)
    {c : Fin n} {L₀ : List (Entry Int α)} (hA : Appends a c args L₀) (hr : rf.rejects args = none)
    (hok : rf.snapshotIndex ≤ args.prevLogIndex ∨ NoConflict rf.logs args.entries)
    (hmax : args.leaderCommit ≤ maxInt) : rf.commitIndex ≤ rf.commitAfter args := by
  rcases hA.lead with ⟨L, hl, hL₀⟩
  rw [← hterm] at hl
  have hcut := h.commitIndex_le_cut hl hL₀ hA.carries hr hok
  have hal := h.memory.stores.aligned.cut hA.carries.contiguous
    (prevLogIndex_le_of_rejects hr)
  unfold commitAfter
  split_ifs with hc
  · refine le_min (le_of_lt hc.2) ?_
    cases hlast : (rf.cut args.entries).getLast? with
    | none => exact (le_of_lt hc.2).trans hmax
    | some l =>
      show rf.commitIndex ≤ l.index
      rw [hal.1.getLast?_eq hlast]
      exact hcut
  · exact le_refl _

/-- No event moves the commit index back. -/
theorem Outcome.commitIndex_le {me : Fin n} {rf rf' : Raft n α} {input : Input n α}
    {es : List (Effect n α)} (ho : Outcome me rf input es (some rf')) (hk : KeepsCommit rf input) :
    rf.commitIndex ≤ rf'.commitIndex := by
  have hcaught : ∀ t, (rf.caughtUp t).commitIndex = rf.commitIndex :=
    fun t => (caughtUp_logs rf t).2.2.2.2.1
  have hheard : ∀ rf₁ : Raft n α, (rf.heard rf₁).commitIndex = rf₁.commitIndex :=
    fun rf₁ => (heard_logs rf rf₁).2.2.2.2.1
  cases ho with
  | voteGranted args | voteRefused args | voteTaken args | installEmpty args
  | installCleared args | installRetained args => exact (hcaught args.term).ge
  | appendRejected args reply ht hr =>
    rw [hheard]
    exact (hcaught args.term).ge
  | appendAccepted args ht hr =>
    rw [hheard]
    exact hk args rfl ht hr
  | applied ls res hls hres =>
    rcases hres with hres | ⟨-, hres⟩ <;> cases hres
    exact le_refl _
  | sent input es res hin hs hes hres =>
    rcases hres with hres | hres <;> cases hres
    exact le_refl _
  | replySuccess reply args server res hs ht hreq hok hres =>
    have hcred := (credited_logs rf args server).2.2.2.2.1
    rcases hres with hres | hres | ⟨M, hlt, -, -, hres⟩ <;> cases hres
    · exact hcred.ge
    · exact le_of_lt hlt
  | _ => exact le_refl _

/-- `snapshotIndex`, `lastApplied` and `commitIndex` are in order, and nothing that was
delivered or that the service asks for is ahead of `lastApplied`. -/
structure Chained (s : Server n α) : Prop where
  snapshot : s.rf.snapshotIndex ≤ s.rf.lastApplied
  applied : s.rf.lastApplied ≤ s.rf.commitIndex
  delivered : ∀ msg ∈ s.applied.msgs, msg.index ≤ s.rf.lastApplied
  requests : ∀ req ∈ s.snapshotRequestCh, req.index ≤ s.rf.lastApplied

/-- What is known of the inputs of a run under the rules `ordered`. -/
abbrev chaining (n : ℕ) (α : Type) : Rules n α where
  input rf input := Aligned rf ∧ InstallsCommitted rf input ∧ KeepsCommit rf input

namespace Chained

variable {s : Server n α} {i : Fin n} {input : Input n α} {es : List (Effect n α)}
  {rf : Raft n α}

theorem restart (s : Server n α) : Chained s.restart :=
  ⟨le_refl _, le_refl _, by simp [Server.restart], by simp [Server.restart]⟩

/-- The peer goes on with indexes that are in order, and delivers nothing ahead of them. -/
theorem advance (h : Chained s) (hsnap : rf.snapshotIndex ≤ rf.lastApplied)
    (happlied : s.rf.lastApplied ≤ rf.lastApplied) (hcommit : rf.lastApplied ≤ rf.commitIndex)
    (hmsgs : ∀ msg, .apply msg ∈ es → msg.index ≤ rf.lastApplied) : Chained (s.perform es rf) := by
  refine ⟨hsnap, hcommit, fun msg hmsg => ?_, fun req hreq => (h.requests req hreq).trans happlied⟩
  rcases List.mem_append.mp hmsg with hold | hnew
  · exact (h.delivered msg hold).trans happlied
  · exact hmsgs msg (mem_appliesOf.mp hnew)

/-- An install with data ends at the commit index. -/
theorem install (h : Chained s) {args : InstallSnapshotRequest}
    (hin : InstallsCommitted s.rf (.installSnapshot args))
    (ho : Outcome i s.rf (.installSnapshot args) es (some rf)) : Chained (s.perform es rf) := by
  obtain ⟨-, hsnap, -, -, hcommit, happlied⟩ := caughtUp_logs s.rf args.term
  have hmsgs : ∀ msg, .apply msg ∈ es → ¬ args.term < s.rf.currentTerm ∧ args.data ≠ none ∧
      msg.index = args.lastIncludedIndex := by
    intro msg hmsg
    rcases ho.apply_cases hmsg with ⟨args', heq, hge, hd, rfl⟩ | ⟨heq, -⟩
    · cases heq
      exact ⟨hge, hd, rfl⟩
    · cases heq
  have hreplaced : ¬ args.term < s.rf.currentTerm → args.data ≠ none →
      ∀ logs, rf = ((s.rf.caughtUp args.term).withSnapshot args.data).replaced args logs →
        Chained (s.perform es rf) := by
    intro hge hd logs heq
    have hidx : args.lastIncludedIndex = s.rf.commitIndex := (hin.resolve_left hge).resolve_left hd
    subst heq
    refine h.advance (le_refl _) ?_ ?_ fun msg hmsg => (hmsgs msg hmsg).2.2.le
    · show s.rf.lastApplied ≤ args.lastIncludedIndex
      rw [hidx]
      exact h.applied
    · show args.lastIncludedIndex ≤ (s.rf.caughtUp args.term).commitIndex
      rw [hidx, hcommit]
  cases ho with
  | installStale args hlt => exact h.advance h.snapshot (le_refl _) h.applied (by simp)
  | installEmpty args hge hd =>
    refine h.advance ?_ happlied.ge ?_ fun msg hmsg => absurd hd (hmsgs msg hmsg).2.1
    · rw [withSnapshot_snapshotIndex, withSnapshot_lastApplied, hsnap, happlied]
      exact h.snapshot
    · rw [withSnapshot_commitIndex, withSnapshot_lastApplied, hcommit, happlied]
      exact h.applied
  | installCleared args hge hd hr => exact hreplaced hge hd _ rfl
  | installRetained args logs hge hd hr hl => exact hreplaced hge hd _ rfl
  | higherTerm hshow => cases hshow
  | sent input es res hin => rcases hin with hin | hin <;> cases hin

/-- The apply loop stops at the commit index. -/
theorem apply (h : Chained s) (hal : Aligned s.rf)
    (ho : Outcome i s.rf .applyTimer es (some rf)) : Chained (s.perform es rf) := by
  have hbacklog : s.rf.lastApplied + s.rf.backlog ≤ s.rf.commitIndex := by
    have happlied := h.applied
    unfold backlog
    split_ifs <;> omega
  have hsnap := h.snapshot
  have hmsgs : ∀ msg, .apply msg ∈ es → msg.index ≤ s.rf.lastApplied + s.rf.backlog :=
    fun msg hmsg => ho.index_le_backlog hal hmsg
  cases ho with
  | applied ls res hls hres =>
    rcases hres with hres | ⟨-, hres⟩ <;> cases hres
    refine h.advance ?_ ?_ hbacklog hmsgs
    · show s.rf.snapshotIndex ≤ s.rf.lastApplied + s.rf.backlog
      omega
    · show s.rf.lastApplied ≤ s.rf.lastApplied + s.rf.backlog
      omega
  | higherTerm hshow => cases hshow
  | sent input es res hin => rcases hin with hin | hin <;> cases hin

/-- The service asks for a snapshot of what was delivered. -/
theorem compact (h : Chained s) {req : SnapshotRequest} (hreq : req.index ≤ s.rf.lastApplied)
    (ho : Outcome i s.rf (.snapshotRequest req) es (some rf)) : Chained (s.perform es rf) := by
  have hnil := ho.appliesOf_eq_nil (by simp) (by simp)
  have hmsgs : ∀ msg, (.apply msg : Effect n α) ∉ es := by
    intro msg hmsg
    rw [← mem_appliesOf, hnil] at hmsg
    cases hmsg
  cases ho with
  | compacted req hrange =>
    exact h.advance hreq (le_refl _) h.applied fun msg hmsg => absurd hmsg (hmsgs msg)
  | higherTerm hshow => cases hshow
  | sent input es res hin => rcases hin with hin | hin <;> cases hin

/-- Every other event leaves `snapshotIndex` and `lastApplied`. -/
theorem other (h : Chained s) (hk : KeepsCommit s.rf input)
    (hinstall : ∀ args, input ≠ .installSnapshot args) (htimer : input ≠ .applyTimer)
    (hcompact : ∀ req, input ≠ .snapshotRequest req) (ho : Outcome i s.rf input es (some rf)) :
    Chained (s.perform es rf) := by
  have hsnap := (ho.snapshot_eq hinstall hcompact).2.1
  have happlied := ho.lastApplied_eq hinstall htimer
  have hcommit := ho.commitIndex_le hk
  have hnil := ho.appliesOf_eq_nil hinstall htimer
  refine h.advance ?_ happlied.ge ?_ fun msg hmsg => ?_
  · rw [hsnap, happlied]
    exact h.snapshot
  · rw [happlied]
    exact h.applied.trans hcommit
  · rw [← mem_appliesOf, hnil] at hmsg
    cases hmsg

end Chained

theorem chaining_local :
    Local (chaining n α) (fun _ s => Chained s) (fun _ _ => True) where
  init := ⟨le_refl _, le_refl _, by simp, by simp⟩
  grow _ h := h
  growCall _ h := h
  channel hch h :=
    ⟨h.snapshot, h.applied, h.delivered, fun req hreq => h.requests req (hch.subset hreq)⟩
  request h _ hindex _ := by
    refine ⟨h.snapshot, h.applied, h.delivered, fun req hreq => ?_⟩
    rcases List.mem_append.mp hreq with hold | hnew
    · exact h.requests req hold
    · obtain rfl := List.mem_singleton.mp hnew
      rcases List.mem_map.mp hindex with ⟨msg, hmsg, rfl⟩
      exact h.delivered msg hmsg
  handle := by
    intro T s i input es rf h hheard hin ho
    obtain ⟨hal, hinstall, hkeep⟩ := hin
    cases input with
    | installSnapshot args => exact h.install hinstall ho
    | applyTimer => exact h.apply hal ho
    | snapshotRequest req =>
      rcases hheard.request rfl with ⟨ch, hmem, hs⟩
      exact h.compact (hs.requests req hmem) ho
    | _ => exact h.other hkeep (by simp) (by simp) (by simp) ho
  calls _ _ _ _ _ := trivial
  crash _ _ := Chained.restart _
  cut _ _ _ _ _ := Chained.restart _

/-- What the relation to the replicated log says of an input. -/
theorem Sim.chaining {a : Abstract n α} {w : World n α} (h : Sim a w) {cause : Cause n α}
    {arr : Arrival n α} (ha : Arrives w cause arr)
    (hin : Sound (arr.world.server arr.server).rf arr.input ∧
      InstallsCommitted (arr.world.server arr.server).rf arr.input) :
    (Raft.chaining n α).input (arr.world.server arr.server).rf arr.input := by
  have hready := (h.arrives ha).ready arr.server
  refine ⟨hready.memory.stores.aligned, hin.2, fun args hargs hge hr => ?_⟩
  obtain ⟨hok, hmax⟩ := hin
  rw [hargs] at hok hmax
  rcases ((h.informed ha).append hargs).1 with ⟨c, L₀, -, hA⟩
  rcases hready.caughtUp none args.term with ⟨a₁, -, hm, hready₁⟩
  obtain ⟨hlogs, hsnap, -, -, hcommit, -⟩ := caughtUp_logs (arr.world.server arr.server).rf args.term
  rw [← hcommit]
  refine hready₁.commitIndex_le (caughtUp_currentTerm _ hge) (hA.mono (hm.le h.inv)) hr ?_ hmax
  rw [hlogs, hsnap]
  exact hok.resolve_left hge

theorem Run.chaining_of_ordered {e : Behavior (World n α)} (he : Run (ordered n α).Allows e) :
    Run (chaining n α).Allows e := by
  refine he.mono fun k event hev => ?_
  rcases (Run.sound_of_ordered he).sim (le_refl k) with ⟨a, -, -, h, -⟩
  cases event with
  | handle cause => exact fun arr harr => h.chaining (arrives_of_arrival harr) (hev arr harr)
  | crashDuring cause j =>
    refine fun arr harr => ⟨h.chaining (arrives_of_arrival harr) (hev arr harr).1, fun _ _ => ?_⟩
    unfold Rules.Restarts
    split_ifs <;> trivial
  | _ => trivial

/-! ## The loops stay inside the log -/

theorem updateCommitLoop_ne_none (me : Fin n) (k : ℕ) (N : Int) (rf : Raft n α)
    (hlo : rf.snapshotIndex < N) (hhi : N + k ≤ rf.snapshotIndex + rf.logs.length + 1) :
    (updateCommitLoop me k N rf).2 ≠ none := by
  induction k generalizing N rf with
  | zero => simp [updateCommitLoop]
  | succ k ih =>
    have hrest : ∀ rf' : Raft n α, rf'.snapshotIndex = rf.snapshotIndex → rf'.logs = rf.logs →
        (updateCommitLoop me k (N + 1) rf').2 ≠ none := by
      intro rf' hs hl
      refine ih (N + 1) rf' (by omega) ?_
      rw [hs, hl]
      push_cast at hhi
      omega
    simp only [updateCommitLoop, get_bind_run]
    split_ifs with hcount
    · -- the entry that is read is in the log
      have hin : N - 1 - rf.snapshotIndex < rf.logs.length := by
        push_cast at hhi
        omega
      rcases index?_of_lt (by omega) hin with ⟨l, hl⟩
      rw [hl, orPanic_some_bind_run]
      split_ifs
      · exact hrest _ rfl rfl
      · exact hrest _ rfl rfl
    · exact hrest rf rfl rfl

theorem updateCommitIndex_ne_none (me : Fin n) (rf : Raft n α)
    (hlo : rf.snapshotIndex ≤ rf.commitIndex)
    (hhi : rf.commitIndex ≤ rf.snapshotIndex + rf.logs.length) :
    (updateCommitIndex me rf).2 ≠ none :=
  updateCommitLoop_ne_none me _ _ rf (by omega) (by omega)

theorem deliverable_length {logs : List (Log α)} {k : ℕ} {i : Int} (h0 : 0 ≤ i)
    (hle : i + k ≤ logs.length) : (deliverable logs k i).length = k := by
  induction k generalizing i with
  | zero => rfl
  | succ k ih =>
    push_cast at hle
    rcases index?_of_lt h0 (by omega : i < logs.length) with ⟨l, hl⟩
    rw [deliverable, hl, List.length_cons, ih (by omega) (by omega)]

theorem applyToClient_ne_none (rf : Raft n α) (hlo : rf.snapshotIndex ≤ rf.lastApplied)
    (happlied : rf.lastApplied ≤ rf.commitIndex)
    (hhi : rf.commitIndex ≤ rf.snapshotIndex + rf.logs.length) : (applyToClient rf).2 ≠ none := by
  have hlen : (deliverable rf.logs rf.backlog (rf.lastApplied - rf.snapshotIndex)).length =
      rf.backlog := by
    refine deliverable_length (by omega) ?_
    unfold backlog
    split_ifs <;> omega
  rw [applyToClient_run, applyLoop_run, if_pos hlen]
  simp

/-- In every state of a run under the rules `ordered` the indexes of every peer are in
order, and neither `updateCommitIndex`, which is called after a credit, nor `applyToClient`
reads outside the log. -/
theorem index_order {e : Behavior (World n α)} (he : Run (ordered n α).Allows e) (k : ℕ)
    (i : Fin n) :
    let rf := ((e k).server i).rf
    rf.snapshotIndex ≤ rf.lastApplied ∧ rf.lastApplied ≤ rf.commitIndex ∧
      rf.commitIndex ≤ rf.snapshotIndex + rf.logs.length ∧
      (∀ args server, (updateCommitIndex i (rf.credited args server)).2 ≠ none) ∧
      (applyToClient rf).2 ≠ none := by
  intro rf
  have hc := (chaining_local.run (Run.chaining_of_ordered he) k).server i
  rcases (Run.sound_of_ordered he).sim (le_refl k) with ⟨a, -, -, h, -⟩
  have hmem := (h.servers i).memory
  have hend : rf.commitIndex ≤ rf.snapshotIndex + rf.logs.length := by
    rw [hmem.stores.length]
    exact hmem.commit.le_length
  refine ⟨hc.snapshot, hc.applied, hend, fun args server => ?_,
    applyToClient_ne_none rf hc.snapshot hc.applied hend⟩
  obtain ⟨hlogs, hsnap, -, -, hcommit, -⟩ := credited_logs rf args server
  refine updateCommitIndex_ne_none i _ ?_ ?_
  · rw [hsnap, hcommit]
    exact hc.snapshot.trans hc.applied
  · rw [hsnap, hcommit, hlogs]
    exact hend

/-- The leader of `snapshotOffered` has compacted its first entry. -/
theorem index_order_offered :
    ((play World.step World.init (snapshotOffered.take 19)).server 0).rf.snapshotIndex = 1 ∧
      ((play World.step World.init (snapshotOffered.take 19)).server 0).rf.snapshotIndex ≤
        ((play World.step World.init (snapshotOffered.take 19)).server 0).rf.lastApplied :=
  ⟨by decide +kernel,
    (index_order (Runs.play (by decide +kernel : Plays _ (ordered 3 ℕ).Allows _ snapshotOffered))
      19 0).1⟩

/-- The install moves `lastApplied` of peer 2 past its commit index. -/
theorem install_passes_commit :
    ∃ (e : Behavior (World 3 ℕ)) (k : ℕ), Run ofDelivered.Allows e ∧
      ((e k).server 2).rf.commitIndex < ((e k).server 2).rf.lastApplied :=
  ⟨_, 20, Runs.play (by decide +kernel : Plays _ ofDelivered.Allows _ snapshotInstalled),
    by decide +kernel⟩

/-! ## Repeated requests -/

/-- The inputs of the rules `ordered` without installs, but with all `Snapshot` requests. -/
def SoundOrRepeated (rf : Raft n α) : Input n α → Prop
  | .snapshotRequest _ => True
  | .installSnapshot _ => False
  | input => Sound rf input ∧ InstallsCommitted rf input

instance (rf : Raft n α) : ∀ input, Decidable (SoundOrRepeated rf input)
  | .snapshotRequest _ => inferInstanceAs (Decidable True)
  | .installSnapshot _ => inferInstanceAs (Decidable False)
  | .appendEntries _ | .requestVote _ | .command _ | .electionTimer | .applyTimer
  | .heartbeatTimer | .broadcastEntriesTimer | .vote _ _ | .appendEntriesReply _ _ _
  | .installSnapshotReply _ _ => inferInstanceAs (Decidable (Sound rf _ ∧ InstallsCommitted rf _))

/-- No peer crashes and none installs a snapshot. -/
abbrev uninstalled : Rules n α where
  input := SoundOrRepeated
  restart _ _ := False
  resave _ _ := False

/-- Peer 0 commits three entries with peer 1, of which peer 2 has the first one. The request
of a snapshot of all three reaches peer 1 twice, and peer 2 stands for election, with the vote
of peer 1, and sends peer 0 a command of its own. -/
def termForgotten : List (Event 3 ℕ) :=
  [.handle (.timer 0 .election), .handle (.deliver 0), .handle (.deliver 1),
    .drop 0, .drop 0, .drop 0,
    .handle (.start 0 5), .handle (.timer 0 .broadcastEntries), .handle (.deliver 0),
    .handle (.deliver 0), .handle (.deliver 0), .drop 0,
    .handle (.start 0 6), .handle (.start 0 7), .handle (.timer 0 .broadcastEntries), .drop 1,
    .handle (.deliver 0), .handle (.deliver 0),
    .handle (.timer 0 .heartbeat), .drop 1, .handle (.deliver 0), .drop 0,
    .handle (.timer 1 .apply), .snapshot 1 3 (some [7]), .snapshot 1 3 (some [7]),
    .handle (.snapshotRequest 1 0), .handle (.snapshotRequest 1 0),
    .handle (.timer 2 .election), .drop 0, .handle (.deliver 0), .handle (.deliver 0),
    .handle (.start 2 9), .handle (.timer 2 .broadcastEntries), .handle (.deliver 2)]

/-- The repeated request makes peer 1 forget the term of its last entry, so that it votes for a
peer without the entries that are committed, and peer 0 loses one of them. So `Sound` has to
leave such requests out, whatever it asks of installs. -/
theorem repeated_request_loses_entry :
    ∃ (e : Behavior (World 3 ℕ)) (k : ℕ), Run uninstalled.Allows e ∧
      ((e k).server 1).rf.snapshotTerm = -1 ∧ ((e k).server 2).rf.status = .leader ∧
      ((e k).server 0).rf.snapshotIndex + ((e k).server 0).rf.logs.length <
        ((e k).server 0).rf.commitIndex :=
  ⟨_, 34, Runs.play (by decide +kernel : Plays _ uninstalled.Allows _ termForgotten),
    by decide +kernel⟩

end DistStudy.Raft
