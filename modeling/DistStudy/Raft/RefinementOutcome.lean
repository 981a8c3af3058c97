import DistStudy.Raft.RefinementEvents

/-!
# Every outcome follows a path

One lemma for each kind of input, from the memory of the peer and what is known
of the input (`Informed`) to a path of the abstract protocol. `Ready.outcome`
puts them together: for a `Sound` input every outcome listed in `Outcome` is a
path, and the memory after it is again that of the peer.
-/

namespace DistStudy.Raft

open ReplicatedLog

variable {n : ℕ} {α : Type}

/-- What is known of an input of peer `i` with memory `rf`. -/
structure Informed (a : Abstract n α) (i : Fin n) (rf : Raft n α) (input : Input n α)
    (caller : Option (Caller n α)) : Prop where
  vote : ∀ {args}, input = .requestVote args → ∃ (c : Fin n) (l : List (Entry Int α)),
    args.candidateId = c ∧ a.vote i args.term ≠ some c ∧ Asks a c args l
  append : ∀ {args}, input = .appendEntries args → (∃ c L₀, c ≠ i ∧ Appends a c args L₀) ∧
    ∀ c, caller = some c → c.call = .appendEntries args
  install : ∀ {args}, input = .installSnapshot args → ∃ c Q, c ≠ i ∧ Installs a c args Q
  reply : ∀ {reply args server}, input = .appendEntriesReply reply args server →
    reply.success = true → Acked a server args reply
  request : ∀ {req}, input = .snapshotRequest req → Covered a i req.index
  majority : ∀ {r}, input = .vote rf.voteCh r → rf.status = .candidate →
    (rf.counted r).grantedVotes > (n / 2 : ℕ) →
    Majority fun v => a.vote v rf.currentTerm = some i

/-- A reply that does not acknowledge an append needs no justification. -/
theorem justified_reply {a : Abstract n α} {i : Fin n} {caller : Option (Caller n α)}
    {reply : Reply} (h : ∀ r, reply = .appendEntries r → r.success = false) :
    (∀ q, (Effect.reply reply : Effect n α) ≠ .save q) ∧ Justified a i caller (.reply reply) := by
  refine ⟨by simp, fun c _ args r _ hr hs => ?_⟩
  rw [h r hr] at hs
  cases hs

theorem heard_cases (rf rf' : Raft n α) :
    rf.heard rf' = rf' ∧ rf.status ≠ .candidate ∨ rf.heard rf' = rf'.following := by
  by_cases hs : rf.status = .candidate
  · exact Or.inr (if_pos hs)
  · exact Or.inl ⟨if_neg hs, hs⟩

theorem caughtUp_status (rf : Raft n α) (t : Int) :
    (rf.caughtUp t).status = .follower ∨ (rf.caughtUp t).status = rf.status := by
  unfold caughtUp
  split_ifs
  · exact Or.inl rfl
  · exact Or.inr rfl

/-- A committed entry can be sent to the service. -/
theorem Covered.sent {a : Abstract n α} {i : Fin n} {d : ℕ} {x : Entry Int α}
    (h : Covered a i (d + 1)) (hx : (a.log i)[d]? = some x) :
    Sent a (.command x.value (d + 1)) := by
  have hlt : d < (a.log i).length := (List.getElem?_eq_some_iff.mp hx).1
  have hnat : ((d : Int) + 1).toNat = d + 1 := by omega
  have hcom := h.committed.2
  rw [hnat] at hcom
  have hget : ((a.log i).take (d + 1))[d]? = some x := by
    rw [List.getElem?_take_of_lt (by omega)]
    exact hx
  rcases hcom with hnil | ⟨t, P, hc, -, hP⟩
  · rw [hnil] at hget
    cases hget
  · exact ⟨t, P, d, x, hc, rfl, getElem?_of_isPrefix hP hget, rfl⟩

namespace Ready

variable {a₀ a : Abstract n α} {i : Fin n} {rf rf' : Raft n α} {caller : Option (Caller n α)}
  {es : List (Effect n α)}

/-! ## Vote requests -/

/-- The peer only replies, and not to acknowledge an append. -/
theorem reply_follows (h : Ready a₀ a i rf) {reply : Reply}
    (hr : ∀ r, reply = .appendEntries r → r.success = false) :
    Follows a₀ a i caller rf.snapshotIndex [.reply reply] (some rf) := by
  refine h.quiet .refl Same.refl (fun e he => ?_) rfl h.memory (by simp)
  obtain rfl := List.mem_singleton.mp he
  exact justified_reply hr

/-- A vote that may be given to `c`, who does not have it, is not given. -/
theorem not_voted (h : Ready a₀ a i rf) {c : Fin n}
    (hv : rf.votedFor = -1 ∨ rf.votedFor = c) (hne : a.vote i rf.currentTerm ≠ some c) :
    a.vote i rf.currentTerm = none := by
  have hvoted := h.voted
  rcases hv with hv | hv
  · have hnone : rf.votedFor = code (none : Option (Fin n)) := hv
    exact code_injective (hvoted.symm.trans hnone)
  · have hsome : rf.votedFor = code (some c) := hv
    exact absurd (code_injective (hvoted.symm.trans hsome)) hne

/-- A vote that is not granted is left as it was. -/
theorem refused_follows (h : Ready a₀ a i rf) {r : RequestVoteReply}
    (hnone : a.vote i rf.currentTerm = none) :
    Follows a₀ a i caller rf.snapshotIndex
      [.save (rf.voted (-1)).persisted, .reply (.requestVote r)] (some (rf.voted (-1))) := by
  have hready : Ready a₀ a i (rf.voted (-1)) := by
    refine ⟨h.inv, h.positive, h.memory.congr rfl rfl rfl rfl rfl rfl (Or.inr ⟨rfl, rfl⟩),
      h.votes, ?_⟩
    show -1 = code (a.vote i rf.currentTerm)
    rw [hnone]
    rfl
  refine save_follows .refl hready.saved (fun e he => ?_) hready.tally hready.memory (by simp)
  obtain rfl := List.mem_singleton.mp he
  exact justified_reply (by simp)

/-! ## Appends -/

/-- A peer does not lead the term of another leader. -/
theorem not_leader (h : Ready a₀ a i rf) {c : Fin n} (hc : c ≠ i) {L : List (Entry Int α)}
    (hl : a.lead rf.currentTerm = some (c, L)) : rf.status ≠ .leader := by
  intro hs
  exact hc (State.lead_inj hl (h.memory.leader hs).1).1

theorem rejected_follows (h : Ready a₀ a i rf) {rf₀ : Raft n α} {args : AppendEntriesArgs α}
    {reply : AppendEntriesReply} (hr : rf.rejects args = some reply) :
    Follows a₀ a i caller rf.snapshotIndex [.reply (.appendEntries reply)]
      (some (rf₀.heard rf)) := by
  have hsuccess : ∀ r, Reply.appendEntries reply = .appendEntries r → r.success = false := by
    intro r hrep
    cases hrep
    exact success_of_rejects hr
  rcases heard_cases rf₀ rf with ⟨heq, -⟩ | heq
  · rw [heq]
    exact h.reply_follows hsuccess
  · rw [heq]
    exact h.following.reply_follows hsuccess

/-! ## Snapshots of the leader -/

/-- The record that an install writes is correct as long as the log is the old one. -/
theorem installed_saved (h : Ready a₀ a i rf) (data : GoBytes) :
    Saved a₀ a i rf.snapshotIndex (rf.installed data) :=
  .of_restores h.inv h.memory.stores (restores_installed rf data) h.tally

theorem empty_follows (h : Ready a₀ a i rf) (data : GoBytes) (r : InstallSnapshotReply) :
    Follows a₀ a i caller rf.snapshotIndex
      [.save (rf.installed data), .reply (.installSnapshot r)] (some (rf.withSnapshot data)) := by
  refine save_follows .refl (h.installed_saved data) (fun e he => ?_) h.tally
    (h.memory.congr rfl rfl rfl rfl rfl rfl (Or.inr ⟨rfl, rfl⟩)) (by simp)
  obtain rfl := List.mem_singleton.mp he
  exact justified_reply (by simp)

/-- What a sound install drops is not in the log of the leader. -/
theorem install_keeps (h : Ready a₀ a i rf) {args : InstallSnapshotRequest} {c : Fin n}
    {Q L : List (Entry Int α)} (hI : Installs a c args Q) (hQ : Q <+: L)
    (hok : rf.lastLogIndex ≤ args.lastIncludedIndex ∨
      rf.snapshotIndex < args.lastIncludedIndex ∧
        ∀ l ∈ rf.logs, l.index = args.lastIncludedIndex → l.term ≠ args.lastIncludedTerm)
    {P : List (Entry Int α)} (hP : P <+: a.log i) (hPL : P <+: L) : P <+: Q := by
  refine List.prefix_of_prefix_length_le hPL hQ ?_
  have hidx := hI.index
  rcases hok with hlast | ⟨hlt, hno⟩
  · have hlen := hP.length_le
    rw [h.memory.stores.lastLogIndex_eq] at hlast
    omega
  · -- otherwise the log and the snapshot agree on the last included entry
    by_contra hgt
    have hs0 := h.memory.stores.nonneg
    have hpos : Q.length ≠ 0 := by omega
    have hQP : Q <+: P := List.prefix_of_prefix_length_le hQ hPL (by omega)
    have hterm := hI.term
    rw [TermAt, if_neg hpos, Option.map_eq_some_iff] at hterm
    rcases hterm with ⟨x, hx, hxt⟩
    have hxi := getElem?_of_isPrefix (hQP.trans hP) hx
    have hl := h.memory.stores.index?_eq hxi (by omega)
    unfold index? at hl
    split_ifs at hl
    refine hno _ (List.mem_of_getElem? hl) ?_ hxt
    show ((Q.length - 1 : ℕ) : Int) + 1 = args.lastIncludedIndex
    omega

/-- The memory after the snapshot of the leader has replaced the log. -/
theorem cleared_memory (h : Ready a₀ a i rf) {args : InstallSnapshotRequest}
    (hterm : rf.currentTerm = args.term) {c : Fin n} (hc : c ≠ i) {Q L : List (Entry Int α)}
    (hI : Installs a c args Q) (hl : a.lead rf.currentTerm = some (c, L))
    (hm : Moves i a (a.adopt i Q)) (data : GoBytes) :
    Covered (a.adopt i Q) i args.lastIncludedIndex ∧
      MemSim (a.adopt i Q) i ((rf.withSnapshot data).replaced args []) := by
  have hidx := hI.index
  have hcov : Covered (a.adopt i Q) i args.lastIncludedIndex := by
    refine ⟨Q, hidx, by simp, ?_⟩
    rw [State.adopt_term, h.memory.term, hterm]
    exact hI.settled
  have hst : Stores Q ((rf.withSnapshot data).replaced args []) := by
    have hnat : args.lastIncludedIndex.toNat = Q.length := by omega
    refine ⟨?_, ?_, ?_, ?_⟩
    · simpa using (by omega : 0 ≤ args.lastIncludedIndex)
    · simpa using (by omega : args.lastIncludedIndex ≤ Q.length)
    · rw [replaced_logs, replaced_snapshotIndex, hnat, List.drop_of_length_le (by simp)]
    · rw [replaced_snapshotIndex, replaced_snapshotTerm, hnat]
      exact hI.term
  refine ⟨hcov, h.memory.term, by simpa using hst, h.memory.commit.moves h.inv hm, hcov, hcov,
    fun hs => ?_, fun hs => ?_⟩
  · exact absurd hs (h.not_leader hc hl)
  · -- a candidate stays one, but the term has a leader
    obtain ⟨hnot, l, hbid, -⟩ := h.memory.candidate hs
    refine ⟨hnot, l, hbid, Or.inr ?_⟩
    show a.lead rf.currentTerm ≠ none
    rw [hl]
    simp

/-- A sound install. The write comes first: it has the old log. -/
theorem cleared_follows (h : Ready a₀ a i rf) {args : InstallSnapshotRequest}
    (hterm : rf.currentTerm = args.term) {c : Fin n} (hc : c ≠ i) {Q : List (Entry Int α)}
    (hI : Installs a c args Q)
    (hok : rf.lastLogIndex ≤ args.lastIncludedIndex ∨
      rf.snapshotIndex < args.lastIncludedIndex ∧
        ∀ l ∈ rf.logs, l.index = args.lastIncludedIndex → l.term ≠ args.lastIncludedTerm)
    (r : InstallSnapshotReply) :
    Follows a₀ a i caller rf.snapshotIndex
      [.save (rf.installed args.data),
        .apply (.snapshot args.data args.lastIncludedTerm args.lastIncludedIndex),
        .reply (.installSnapshot r)]
      (some ((rf.withSnapshot args.data).replaced args [])) := by
  rcases hI.lead with ⟨L, hl, hQ⟩
  rw [← hterm] at hl
  have hstep : Step a i (a.adopt i Q) :=
    .adopt c L Q (by rw [h.memory.term]; exact hl) hQ fun P hP hPL => h.install_keeps hI hQ hok hP hPL
  have hm : Moves i a (a.adopt i Q) := .single hstep
  obtain ⟨hcov, hmem⟩ := h.cleared_memory hterm hc hI hl hm args.data
  have hreply : (∀ q, (Effect.reply (.installSnapshot r) : Effect n α) ≠ .save q) ∧
      Justified a i caller (.reply (.installSnapshot r)) := justified_reply (by simp)
  refine ⟨a, .save .refl (h.installed_saved args.data) (.other .refl Same.refl (by simp) trivial
    (.other .refl Same.refl hreply.1 hreply.2 (.nil a))), fun rf' hrf' => ?_⟩
  obtain rfl := Option.some.inj hrf'
  refine ⟨_, hm, ⟨h.tally.ballot, h.tally.votes⟩, hmem, fun msg hmsg => ?_⟩
  obtain rfl : msg = .snapshot args.data args.lastIncludedTerm args.lastIncludedIndex := by
    simpa using hmsg
  exact hcov

/-! ## Snapshots, commands and deliveries of the service -/

/-- A snapshot of the service takes the place of the entries up to its index. -/
theorem compacted_stores {F : List (Entry Int α)} (h : Stores F rf) {req : SnapshotRequest}
    (hlt : rf.snapshotIndex < req.index) (hle : req.index ≤ rf.snapshotIndex + rf.logs.length) :
    Stores F (rf.compacted req) := by
  have hs0 := h.nonneg
  have hlen := h.length
  refine ⟨?_, ?_, ?_, ?_⟩
  · show 0 ≤ req.index
    omega
  · show req.index ≤ F.length
    omega
  · show rf.logs.drop (req.index - rf.snapshotIndex).toNat = (indexed F).drop req.index.toNat
    rw [h.logs, List.drop_drop]
    congr 1
    omega
  · show TermAt F req.index.toNat
      (((index? rf.logs (req.index - 1 - rf.snapshotIndex)).map Log.term).getD (-1))
    have hin : req.index - 1 - rf.snapshotIndex < rf.logs.length := by omega
    rcases index?_of_lt (by omega) hin with ⟨l, hl⟩
    rcases h.of_index? hl with ⟨d, x, hd, hx, rfl⟩
    have hne : req.index.toNat ≠ 0 := by omega
    have hdeq : req.index.toNat - 1 = d := by omega
    simp [TermAt, hl, hne, hdeq, hx]

theorem compacted_follows (h : Ready a₀ a i rf) {req : SnapshotRequest}
    (hlt : rf.snapshotIndex < req.index) (hle : req.index ≤ rf.snapshotIndex + rf.logs.length)
    (hcov : Covered a i req.index) :
    Follows a₀ a i caller rf.snapshotIndex [] (some (rf.compacted req)) := by
  have hmem : MemSim a i (rf.compacted req) :=
    ⟨h.memory.term, compacted_stores h.memory.stores hlt hle, h.memory.commit, h.memory.applied,
      hcov, h.memory.leader, h.memory.candidate⟩
  exact h.quiet .refl Same.refl (by simp) rfl hmem (by simp)

/-- The leader appends a command. -/
theorem started_follows (h : Ready a₀ a i rf) (hs : rf.status = .leader) (command : α)
    (index term : Int) :
    Follows a₀ a i caller rf.snapshotIndex
      [.save (rf.withLogs (rf.logs ++ [rf.newEntry command])).persisted,
        .started index term true]
      (some (rf.withLogs (rf.logs ++ [rf.newEntry command]))) := by
  obtain ⟨hlead, hmatch⟩ := h.memory.leader hs
  have hst := h.memory.stores
  have hs0 := hst.nonneg
  have hlen := hst.length
  have hterm := h.memory.term
  have hm : Moves i a (a.extend i command) :=
    .single (.extend command (by rw [hterm]; exact hlead))
  have hlogs : rf.logs ++ [rf.newEntry command] =
      (indexed (a.log i ++ [⟨a.term i, command⟩])).drop rf.snapshotIndex.toNat := by
    have hidx : (rf.logs.length : Int) + rf.snapshotIndex + 1 = (a.log i).length + 1 := by omega
    rw [indexed_concat, List.drop_append_of_le_length (by rw [indexed_length]; omega), ← hst.logs,
      newEntry, hterm, hidx]
  have hmem : MemSim (a.extend i command) i (rf.withLogs (rf.logs ++ [rf.newEntry command])) := by
    refine ⟨hterm, ?_, h.memory.commit.moves h.inv hm, h.memory.applied.moves h.inv hm,
      h.memory.snapshot.moves h.inv hm, fun _ => ⟨?_, hmatch⟩, fun hs' => ?_⟩
    · rw [State.extend_log, Function.update_self]
      exact hst.replace rfl rfl hlogs ((List.take_prefix _ _).trans (List.prefix_append _ _))
    · simp [hterm]
    · rw [withLogs_status, hs] at hs'
      cases hs'
  have hready : Ready a₀ (a.extend i command) i (rf.withLogs (rf.logs ++ [rf.newEntry command])) :=
    ⟨hm.inv h.inv, Moves.positive h.positive hm, hmem, h.votes, h.voted⟩
  refine save_follows hm hready.saved (fun e he => ?_) hready.tally hmem (by simp)
  obtain rfl := List.mem_singleton.mp he
  exact ⟨by simp, trivial⟩

/-- What is delivered lies between `lastApplied` and `commitIndex`. -/
theorem deliverable_covered (h : Ready a₀ a i rf) {l : Log α}
    (hl : l ∈ deliverable rf.logs rf.backlog (rf.lastApplied - rf.snapshotIndex)) :
    Covered a i l.index ∧ Sent a (.command l.command l.index) := by
  rcases index?_of_mem_deliverable hl with ⟨j, hj, hidx⟩
  rcases h.memory.stores.of_index? hidx with ⟨d, x, hd, hx, rfl⟩
  have hle : rf.lastApplied + j + 1 ≤ rf.commitIndex := by
    unfold backlog at hj
    split_ifs at hj <;> omega
  have hcov : Covered a i (d + 1) := h.memory.commit.of_le (by omega) (by omega)
  exact ⟨hcov, hcov.sent hx⟩

/-- The peer delivers what is committed. -/
theorem applied_follows (h : Ready a₀ a i rf) {ls : List (Log α)} {res : Option (Raft n α)}
    (hls : ls = deliverable rf.logs rf.backlog (rf.lastApplied - rf.snapshotIndex))
    (hres : res = none ∨ res = some (rf.withApplied (rf.lastApplied + rf.backlog))) :
    Follows a₀ a i caller rf.snapshotIndex (ls.map Log.deliver) res := by
  subst hls
  have hes : ∀ e ∈ (deliverable rf.logs rf.backlog (rf.lastApplied - rf.snapshotIndex)).map
      (Log.deliver : Log α → Effect n α), (∀ q, e ≠ .save q) ∧ Justified a i caller e := by
    intro e he
    rcases List.mem_map.mp he with ⟨l, hl, rfl⟩
    exact ⟨by simp [Log.deliver], (h.deliverable_covered hl).2⟩
  have happlied : Covered a i (rf.lastApplied + rf.backlog) := by
    by_cases h0 : rf.backlog = 0
    · rw [h0]
      simpa using h.memory.applied
    · have heq : rf.lastApplied + rf.backlog = rf.commitIndex := by
        unfold backlog at h0 ⊢
        split_ifs at h0 ⊢ <;> omega
      rw [heq]
      exact h.memory.commit
  have hmem : MemSim a i (rf.withApplied (rf.lastApplied + rf.backlog)) :=
    ⟨h.memory.term, h.memory.stores.congr rfl rfl rfl, h.memory.commit, happlied,
      h.memory.snapshot, h.memory.leader, h.memory.candidate⟩
  have hall := h.quiet .refl Same.refl hes (by rfl) hmem fun msg hmsg => by
    rcases List.mem_map.mp hmsg with ⟨l, hl, heq⟩
    cases heq
    exact (h.deliverable_covered hl).1
  rcases hres with rfl | rfl
  · rcases hall with ⟨a₁, hp, -⟩
    exact ⟨a₁, hp, by simp⟩
  · exact hall

/-! ## Elections -/

/-- The peer asks for votes in the next term. -/
theorem elected_follows (h : Ready a₀ a i rf) (ch : ℕ) (servers : List (Fin n)) :
    Follows a₀ a i caller rf.snapshotIndex
      (.save (elected i rf).persisted ::
        servers.map fun server => .call server (.requestVote ch (ballotRequest i rf)))
      (some (elected i rf)) := by
  have hterm := h.memory.term
  have hst := h.memory.stores
  have hstep : Step a i (a.campaign i (rf.currentTerm + 1)) := .campaign _ (by omega)
  have hm : Moves i a (a.campaign i (rf.currentTerm + 1)) := .single hstep
  have hinv := hm.inv h.inv
  have hbid : (a.campaign i (rf.currentTerm + 1)).bid (rf.currentTerm + 1) i = some (a.log i) := by
    simp
  have hmem : MemSim (a.campaign i (rf.currentTerm + 1)) i (elected i rf) := by
    refine ⟨by simp [elected], hst.congr rfl rfl rfl, h.memory.commit.moves h.inv hm,
      h.memory.applied.moves h.inv hm, h.memory.snapshot.moves h.inv hm, fun hs => ?_,
      fun _ => ⟨fun L hL => ?_, a.log i, hbid, Or.inl rfl⟩⟩
    · cases hs
    · -- the peer would have voted in a term that it had not reached
      have hL' : a.lead (rf.currentTerm + 1) = some (i, L) := hL
      rcases h.inv.lead_bid hL' with ⟨l, -, hb, -⟩
      have hle := h.inv.vote_le (h.inv.bid_vote hb)
      omega
  have htally : Tally a₀ (a.campaign i (rf.currentTerm + 1)) i (elected i rf).ballot := by
    refine ⟨by simp [ballot, elected, code], fun v t hvt => ?_⟩
    rw [← h.votes]
    by_cases hv : v = i
    · subst hv
      have ht : t ≠ rf.currentTerm + 1 := by simpa using hvt
      simp [ht]
    · simp [hv]
  refine save_follows hm ?_ (fun e he => ?_) htally hmem (by simp)
  · exact Saved.of_restores hinv hmem.stores (restores_persisted _) (by simpa using htally)
  · rcases List.mem_map.mp he with ⟨server, -, rfl⟩
    exact ⟨by simp, a.log i, hbid, hst.lastLogIndex_eq, hst.lastLogTerm_eq⟩

/-! ## The leader -/

/-- The requests of a leader carry the end of its log. -/
theorem carries_of_sends {F : List (Entry Int α)} (h : Stores F rf) {server : Fin n}
    {args : AppendEntriesArgs α} (hs : Sends i rf (.call server (.appendEntries args))) :
    Carries args F := by
  rcases hs with ⟨server', entries, prev, -, hp, heq, he⟩
  obtain ⟨rfl, rfl⟩ : server = server' ∧ args = appendRequest i rf entries prev := by
    simpa using heq
  have hs0 := h.nonneg
  unfold previous at hp
  split_ifs at hp with hnil hfirst
  · -- a heartbeat
    obtain rfl := Option.some.inj hp
    have hlast := h.lastLogIndex_eq
    have hnat : rf.lastLogIndex.toNat = F.length := by omega
    refine ⟨?_, le_of_eq hlast, ?_, ?_⟩
    · show 0 ≤ rf.lastLogIndex
      omega
    · show entries = (indexed F).drop rf.lastLogIndex.toNat
      rw [List.length_eq_zero_iff.mp hnil, hnat, List.drop_of_length_le (by simp)]
    · show TermAt F rf.lastLogIndex.toNat rf.lastLogTerm
      rw [hnat]
      exact h.lastLogTerm_eq
  all_goals
    obtain ⟨hnext, hslice⟩ := he.resolve_left fun h0 => hnil (by simp [h0])
    unfold sliceFrom? at hslice
    split_ifs at hslice with hrange
    obtain rfl := Option.some.inj hslice
  · -- all entries, after the snapshot
    obtain rfl := Option.some.inj hp
    have h0 : (rf.nextIndex[server] - 1 - rf.snapshotIndex).toNat = 0 := by omega
    refine ⟨hs0, h.le, ?_, h.term⟩
    show rf.logs.drop _ = (indexed F).drop rf.snapshotIndex.toNat
    rw [h0, List.drop_zero]
    exact h.logs
  · -- the entries after one that the leader still has
    rw [Option.map_eq_some_iff] at hp
    rcases hp with ⟨l, hl, rfl⟩
    rcases h.of_index? hl with ⟨d, x, hd, hx, rfl⟩
    have hlt := (List.getElem?_eq_some_iff.mp hx).1
    have hnat : ((d : Int) + 1).toNat = d + 1 := by omega
    refine ⟨?_, ?_, ?_, ?_⟩
    · show (0 : Int) ≤ d + 1
      omega
    · show (d : Int) + 1 ≤ F.length
      omega
    · show rf.logs.drop _ = (indexed F).drop ((d : Int) + 1).toNat
      rw [h.logs, List.drop_drop, hnat]
      congr 1
      omega
    · show TermAt F ((d : Int) + 1).toNat x.term
      simp [TermAt, hnat, hx]

/-- What a leader sends is justified. -/
theorem sends_justified (hmem : MemSim a i rf) (hs : rf.status = .leader)
    {e : Effect n α} (he : Sends i rf e) : (∀ q, e ≠ .save q) ∧ Justified a i caller e := by
  have hsent := he
  rcases he with ⟨server, entries, prev, -, -, rfl, -⟩
  obtain ⟨hlead, -⟩ := hmem.leader hs
  have hcov := hmem.commit
  have hset := hcov.committed.2
  rw [hmem.term] at hset
  have hnonneg := hcov.nonneg
  have hle := hcov.le_length
  refine ⟨by simp, a.log i, ⟨_, hlead, List.prefix_refl _⟩, carries_of_sends hmem.stores hsent,
    (a.log i).take rf.commitIndex.toNat, ?_, List.take_prefix _ _, hset⟩
  show (((a.log i).take rf.commitIndex.toNat).length : Int) = rf.commitIndex
  rw [List.length_take]
  omega

theorem sent_follows (h : Ready a₀ a i rf) (hs : rf.status = .leader)
    (hes : ∀ e ∈ es, Sends i rf e) {res : Option (Raft n α)} (hres : res = none ∨ res = some rf) :
    Follows a₀ a i caller rf.snapshotIndex es res := by
  have hall : Follows a₀ a i caller rf.snapshotIndex es (some rf) := by
    refine h.quiet .refl Same.refl (fun e he => sends_justified h.memory hs (hes e he)) rfl
      h.memory fun msg hmsg => ?_
    rcases hes _ hmsg with ⟨server, entries, prev, -, -, heq, -⟩
    cases heq
  rcases hres with rfl | rfl
  · rcases hall with ⟨a₁, hp, -⟩
    exact ⟨a₁, hp, by simp⟩
  · exact hall

/-- A candidate has a majority. -/
theorem inaugurated_follows (h : Ready a₀ a i rf) (hs : rf.status = .candidate)
    (hwon : Majority fun v => a.vote v rf.currentTerm = some i) {vote : RequestVoteReply}
    (hes : ∀ e ∈ es, Sends i (rf.counted vote).inaugurated e) :
    Follows a₀ a i caller rf.snapshotIndex es (some (rf.counted vote).inaugurated) := by
  have hterm := h.memory.term
  obtain ⟨hnot, l, hbid, hlog⟩ := h.memory.candidate hs
  -- nobody else can have won the term
  have hnone : a.lead rf.currentTerm = none := by
    rw [Option.eq_none_iff_forall_ne_some]
    rintro ⟨c, L⟩ hL
    obtain rfl := h.inv.lead_unique hL hwon
    exact hnot L hL
  have hl : a.log i = l := hlog.resolve_right fun hne => hne hnone
  have hstep : Step a i (a.win i) := by
    refine .win ?_ ?_ ?_
    · rw [hterm, hl]
      exact hbid
    · rw [hterm]
      exact hwon
    · rw [hterm]
      exact hnone
  have hm : Moves i a (a.win i) := .single hstep
  have hmem : MemSim (a.win i) i (rf.counted vote).inaugurated := by
    refine ⟨hterm, h.memory.stores.congr rfl rfl rfl, h.memory.commit.moves h.inv hm,
      h.memory.applied.moves h.inv hm, h.memory.snapshot.moves h.inv hm, fun _ => ⟨?_, fun f => ?_⟩,
      fun hs' => ?_⟩
    · simp [hterm]
    · exact ⟨[], by simp, Or.inl rfl⟩
    · cases hs'
  refine h.quiet hm ⟨rfl, rfl, rfl⟩
    (fun e he => sends_justified hmem rfl (hes e he)) rfl hmem fun msg hmsg => ?_
  rcases hes _ hmsg with ⟨server, entries, prev, -, -, heq, -⟩
  cases heq

/-- An acknowledged append is credited. -/
theorem credited_memory (h : Ready a₀ a i rf) {args : AppendEntriesArgs α}
    {reply : AppendEntriesReply} {server : Fin n} (hack : Acked a server args reply)
    (hreply : reply.term = rf.currentTerm) : MemSim a i (rf.credited args server) := by
  rcases hack.ack with ⟨L₀, hc, hL₀⟩
  rw [← hack.term, hreply] at hL₀
  unfold credited
  split_ifs
  · refine ⟨h.memory.term, h.memory.stores.congr rfl rfl rfl, h.memory.commit, h.memory.applied,
      h.memory.snapshot, fun hs => ?_, h.memory.candidate⟩
    obtain ⟨hlead, hmatch⟩ := h.memory.leader hs
    refine ⟨hlead, fun f => ?_⟩
    by_cases hf : server = f
    · subst hf
      exact ⟨L₀, by simpa using hc.length.symm, Or.inr hL₀⟩
    · rcases hmatch f with ⟨P, hlen, hP⟩
      have hne : (server : ℕ) ≠ f := fun heq => hf (Fin.ext heq)
      refine ⟨P, ?_, hP⟩
      rw [hlen]
      simp [hne]
  · exact h.memory

/-- The peers that `matchCount` counts. -/
theorem majority_of_matchCount {M : Int} (hc : rf.matchCount i M > (n / 2 : ℕ)) {p : Fin n → Prop}
    (hi : p i) (hp : ∀ f, rf.matchIndex[f] ≥ M → p f) : Majority p := by
  let others := (List.finRange n).filter fun idx => idx ≠ i ∧ rf.matchIndex[idx] ≥ M
  have hnodup : others.Nodup := (List.nodup_finRange n).filter _
  have hcount : rf.matchCount i M = 1 + others.length := by
    rw [matchCount, List.countP_eq_length_filter]
  have hnot : i ∉ others.toFinset := by simp [others]
  refine majority_of_card (insert i others.toFinset) (fun v hv => ?_) ?_
  · rcases Finset.mem_insert.mp hv with rfl | hv
    · exact hi
    · have hmatch : v ≠ i ∧ rf.matchIndex[v] ≥ M := by simpa [others] using hv
      exact hp v hmatch.2
  · rw [Finset.card_insert_of_notMem hnot, List.toFinset_card_of_nodup hnodup]
    omega

/-- The leader counts a majority for an entry of its own term. -/
theorem committed_follows (h : Ready a₀ a i rf) (hs : rf.status = .leader) {M : Int}
    (hc : rf.Committable i M) :
    Follows a₀ a i caller rf.snapshotIndex [] (some (rf.withCommit M)) := by
  have hterm := h.memory.term
  obtain ⟨hlead, hmatch⟩ := h.memory.leader hs
  rcases hc with ⟨hcount, l, hl, hlt⟩
  rcases h.memory.stores.of_index? hl with ⟨d, x, hd, hx, rfl⟩
  have hdlt := (List.getElem?_eq_some_iff.mp hx).1
  have hP : (a.log i).take (d + 1) = (a.log i).take d ++ [x] := by
    rw [List.take_add_one, hx]
    rfl
  generalize hPdef : (a.log i).take (d + 1) = P at hP
  have hPlog : P <+: a.log i := hPdef ▸ List.take_prefix _ _
  have hPlen : (P.length : Int) = M := by
    rw [← hPdef, List.length_take]
    omega
  -- the leader acknowledges the prefix as the others did
  have hown : Step a i (a.acknowledge i P) :=
    .acknowledge i (a.log i) P (by rw [hterm]; exact hlead) hPlog hPlog
  have hheld : ∀ f, rf.matchIndex[f] ≥ M → (a.acknowledge i P).Holds f (a.term i) P := by
    intro f hf
    rcases hmatch f with ⟨R, hlen, hR⟩
    have hack : a.ack f (a.term i) R := by
      rw [hterm]
      refine hR.resolve_left ?_
      rintro rfl
      rw [List.length_nil] at hlen
      omega
    have hRlog : R <+: a.log i := h.inv.holds_prefix ⟨R, hack, List.prefix_refl _⟩ (hterm ▸ hlead)
    exact ⟨R, Or.inl hack, List.prefix_of_prefix_length_le hPlog hRlog (by omega)⟩
  have hmaj : Majority fun v => (a.acknowledge i P).Holds v (a.term i) P :=
    majority_of_matchCount hcount ⟨P, Or.inr ⟨rfl, rfl, rfl⟩, List.prefix_refl _⟩ hheld
  have hprop : (a.acknowledge i P).Proposal (a.term i) P :=
    ⟨⟨i, a.log i, hterm ▸ hlead, hPlog⟩, _, x, hP, hlt.trans hterm.symm⟩
  have hchoose : Step (a.acknowledge i P) i ((a.acknowledge i P).choose i P) := .choose P hprop hmaj
  have hm : Moves i a ((a.acknowledge i P).choose i P) := (Relation.ReflTransGen.single hown).tail hchoose
  have hmem : MemSim ((a.acknowledge i P).choose i P) i (rf.withCommit M) := by
    refine ⟨hterm, h.memory.stores.congr rfl rfl rfl,
      ⟨P, hPlen, hPlog, Or.inr ⟨a.term i, P, Or.inr ⟨rfl, rfl⟩, le_refl _, List.prefix_refl _⟩⟩,
      h.memory.applied.moves h.inv hm, h.memory.snapshot.moves h.inv hm,
      fun _ => ⟨hlead, fun f => ?_⟩, h.memory.candidate⟩
    rcases hmatch f with ⟨R, hlen, hR⟩
    exact ⟨R, hlen, hR.imp_right Or.inl⟩
  exact h.quiet hm ⟨rfl, rfl, rfl⟩ (by simp) rfl hmem (by simp)

/-- A successful reply: the append is credited and the commit index may grow. -/
theorem success_follows (h : Ready a₀ a i rf) (hs : rf.status = .leader)
    {args : AppendEntriesArgs α} {reply : AppendEntriesReply} {server : Fin n}
    (hack : Acked a server args reply) (hreply : reply.term = rf.currentTerm)
    {res : Option (Raft n α)}
    (hres : res = none ∨ res = some (rf.credited args server) ∨
      ∃ M, (rf.credited args server).Committable i M ∧
        res = some ((rf.credited args server).withCommit M)) :
    Follows a₀ a i caller rf.snapshotIndex [] res := by
  have hmem := h.credited_memory hack hreply
  have hsame : (rf.credited args server).ballot = rf.ballot ∧
      (rf.credited args server).status = rf.status := by
    unfold credited
    split_ifs <;> exact ⟨rfl, rfl⟩
  have hready : Ready a₀ a i (rf.credited args server) := by
    have hb := hsame.1
    simp only [ballot, Prod.mk.injEq] at hb
    refine ⟨h.inv, h.positive, hmem, h.votes, ?_⟩
    rw [hb.1, hb.2]
    exact h.voted
  rcases hres with rfl | rfl | ⟨M, hc, rfl⟩
  · exact ⟨a, .nil a, by simp⟩
  · exact h.quiet .refl Same.refl (by simp) hsame.1 hmem (by simp)
  · rw [← (credited_logs rf args server).2.1]
    exact hready.committed_follows (hsame.2.trans hs) hc

/-- The snapshot of a leader stands for a settled prefix of its log. -/
theorem snapshotRequest_justified (hmem : MemSim a i rf) (hs : rf.status = .leader) :
    CallSim a i (.installSnapshot (snapshotRequest i rf)) := by
  have hst := hmem.stores
  have hs0 := hst.nonneg
  have hle := hst.le
  have hset := hmem.snapshot.committed.2
  rw [hmem.term] at hset
  have hlen : ((a.log i).take rf.snapshotIndex.toNat).length = rf.snapshotIndex.toNat := by
    rw [List.length_take]
    omega
  refine ⟨(a.log i).take rf.snapshotIndex.toNat,
    ⟨a.log i, (hmem.leader hs).1, List.take_prefix _ _⟩, ?_, ?_, hset⟩
  · show _ = rf.snapshotIndex
    rw [hlen]
    omega
  · rw [hlen]
    exact hst.term.take

/-- A failed reply moves the next index and may send the snapshot. -/
theorem failure_follows (h : Ready a₀ a i rf) (hs : rf.status = .leader)
    {reply : AppendEntriesReply} {server : Fin n}
    (hes : es = [] ∨ es = [.call server (.installSnapshot (snapshotRequest i rf))]) :
    Follows a₀ a i caller rf.snapshotIndex es (some (rf.retargeted reply server)) := by
  have hmem : MemSim a i (rf.retargeted reply server) :=
    h.memory.congr rfl rfl rfl rfl rfl rfl (Or.inr ⟨rfl, rfl⟩)
  refine h.quiet .refl Same.refl (fun e he => ?_) rfl hmem fun msg hmsg => ?_
  · rcases hes with rfl | rfl
    · cases he
    · obtain rfl := List.mem_singleton.mp he
      exact ⟨by simp, snapshotRequest_justified h.memory hs⟩
  · rcases hes with rfl | rfl <;> simp at hmsg

/-! ## All outcomes -/

/-- An accepted append, after its term was looked at. -/
theorem append_follows (h : Ready a₀ a i rf) {args : AppendEntriesArgs α}
    (hinf : Informed a i rf (.appendEntries args) caller) (hok : Sound rf (.appendEntries args))
    (hge : ¬ args.term < rf.currentTerm) (hr : (rf.caughtUp args.term).rejects args = none) :
    Follows a₀ a i caller rf.snapshotIndex
      (rf.catchUp args.term ++ (rf.caughtUp args.term).acceptSaves args.entries ++
        [.reply (.appendEntries { term := args.term, success := true })])
      (some (rf.heard ((rf.caughtUp args.term).accepted args))) := by
  obtain ⟨⟨c, L₀, hc, hA⟩, hcaller⟩ := hinf.append rfl
  rw [List.append_assoc]
  refine h.catchUp_follows fun a₁ hm h₁ => ?_
  have hterm := caughtUp_currentTerm rf hge
  have hA₁ := hA.mono (hm.le h.inv)
  obtain ⟨hlogs, hsnap, -⟩ := caughtUp_logs rf args.term
  have hfit : (rf.caughtUp args.term).snapshotIndex ≤ args.prevLogIndex ∨
      NoConflict (rf.caughtUp args.term).logs args.entries := by
    rw [hlogs, hsnap]
    exact hok.resolve_left hge
  have hall : Follows a₀ a₁ i caller (rf.caughtUp args.term).snapshotIndex _ _ :=
    h₁.accept_follows hterm hA₁ hr hfit hcaller
  rcases heard_cases rf ((rf.caughtUp args.term).accepted args) with ⟨heq, hs⟩ | heq
  · -- neither a candidate nor the leader of the term
    have hf : (rf.caughtUp args.term).status = .follower := by
      rcases hA₁.lead with ⟨L, hl, -⟩
      rw [← hterm] at hl
      have hnl := h₁.not_leader hc hl
      rcases caughtUp_status rf args.term with hst | hst
      · exact hst
      · rw [← hst] at hs
        cases hcase : (rf.caughtUp args.term).status with
        | leader => exact absurd hcase hnl
        | candidate => exact absurd hcase hs
        | follower => rfl
    have hsame : ((rf.caughtUp args.term).accepted args).following = _ := following_eq hf
    rw [heq, ← hsame]
    exact hall
  · rw [heq]
    exact hall

theorem install_follows (h : Ready a₀ a i rf) {args : InstallSnapshotRequest}
    (hinf : Informed a i rf (.installSnapshot args) caller)
    (hok : Sound rf (.installSnapshot args)) (hge : ¬ args.term < rf.currentTerm)
    (hd : args.data ≠ none) (r : InstallSnapshotReply) :
    Follows a₀ a i caller rf.snapshotIndex
      (rf.catchUp args.term ++
        [.save ((rf.caughtUp args.term).installed args.data),
          .apply (.snapshot args.data args.lastIncludedTerm args.lastIncludedIndex),
          .reply (.installSnapshot r)])
      (some (((rf.caughtUp args.term).withSnapshot args.data).replaced args [])) := by
  obtain ⟨c, Q, hc, hI⟩ := hinf.install rfl
  refine h.catchUp_follows fun a₁ hm h₁ => ?_
  obtain ⟨hlogs, hsnap, -⟩ := caughtUp_logs rf args.term
  have hfit := (hok.resolve_left hge).resolve_left hd
  refine h₁.cleared_follows (caughtUp_currentTerm rf hge) hc (hI.mono (hm.le h.inv)) ?_ r
  have hlast : (rf.caughtUp args.term).lastLogIndex = rf.lastLogIndex := by
    simp only [lastLogIndex, hlogs, hsnap]
  rw [hlast, hlogs, hsnap]
  exact hfit

theorem vote_follows (h : Ready a₀ a i rf) {args : RequestVoteArgs}
    (hinf : Informed a i rf (.requestVote args) caller) (hge : ¬ args.term < rf.currentTerm)
    (hv : (rf.caughtUp args.term).votedFor = -1 ∨
      (rf.caughtUp args.term).votedFor = args.candidateId) (hv₀ : a.vote = a₀.vote) {v : Int}
    {r : RequestVoteReply}
    (hres : v = args.candidateId ∧ (rf.caughtUp args.term).upToDate args ∨ v = -1) :
    Follows a₀ a i caller rf.snapshotIndex
      (rf.catchUp args.term ++
        [.save ((rf.caughtUp args.term).voted v).persisted, .reply (.requestVote r)])
      (some ((rf.caughtUp args.term).voted v)) := by
  obtain ⟨c, l, hc, hne, hl⟩ := hinf.vote rfl
  have hterm := caughtUp_currentTerm rf hge
  refine h.catchUp_follows fun a₁ hm h₁ => ?_
  rw [hv₀, ← h₁.votes, ← hterm] at hne
  rw [hc] at hv
  have hnone := h₁.not_voted hv hne
  rcases hres with ⟨rfl, hu⟩ | rfl
  · have hl₁ : Asks a₁ c args l := ⟨(hm.le h.inv).bid hl.bid, hl.index, hl.term⟩
    rw [hterm] at hnone
    exact h₁.grant_follows hterm hc hnone hl₁ hu r
  · exact h₁.refused_follows hnone

/-- Every outcome of a sound input follows a path. -/
theorem outcome (h : Ready a a i rf) {input : Input n α} {res : Option (Raft n α)}
    (hinf : Informed a i rf input caller) (hok : Sound rf input)
    (ho : Outcome i rf input es res) : Follows a a i caller rf.snapshotIndex es res := by
  cases ho with
  | voteStale args hlt => exact h.reply_follows (by simp)
  | voteGranted args hge hv hu => exact h.vote_follows hinf hge hv rfl (Or.inl ⟨rfl, hu⟩)
  | voteRefused args hge hv hu => exact h.vote_follows hinf hge hv rfl (Or.inr rfl)
  | voteTaken args hge hv => exact h.catchUp_follows fun a₁ _ h₁ => h₁.reply_follows (by simp)
  | appendStale args hlt => exact h.reply_follows (by simp)
  | appendRejected args reply hge hr =>
    exact h.catchUp_follows fun a₁ _ h₁ => h₁.rejected_follows hr
  | appendAccepted args hge hr => exact h.append_follows hinf hok hge hr
  | installStale args hlt => exact h.reply_follows (by simp)
  | installEmpty args hge hd =>
    exact h.catchUp_follows fun a₁ _ h₁ => h₁.empty_follows args.data _
  | installCleared args hge hd hr => exact h.install_follows hinf hok hge hd _
  | installRetained args logs hge hd hr hl =>
    exact absurd hr ((h.memory.stores.aligned.caughtUp args.term).not_retains args)
  | installPanics args hge hd hr =>
    exact absurd hr ((h.memory.stores.aligned.caughtUp args.term).not_retains args)
  | compacted req hreq =>
    have hne : req.index ≠ rf.snapshotIndex := hok
    exact h.compacted_follows (by omega) hreq.2 (hinf.request rfl)
  | compactPanics req hreq => exact ⟨a, .nil a, by simp⟩
  | started command hs => exact h.started_follows hs command _ _
  | notLeader command hs =>
    refine h.quiet .refl Same.refl (fun e he => ?_) rfl h.memory (by simp)
    obtain rfl := List.mem_singleton.mp he
    exact ⟨by simp, trivial⟩
  | applied ls res hls hres => exact h.applied_follows hls (hres.imp_right And.right)
  | elected hs => exact h.elected_follows _ _
  | higherTerm hin hgt =>
    obtain ⟨hm, hready⟩ := h.steppedDown hgt
    exact save_follows hm hready.saved (by simp) hready.tally hready.memory (by simp)
  | voteCounted vote hs hle hn =>
    exact h.quiet .refl Same.refl (by simp) rfl
      (h.memory.congr rfl rfl rfl rfl rfl rfl (Or.inr ⟨rfl, rfl⟩)) (by simp)
  | leaderElected vote es hs hle hn hes =>
    exact h.inaugurated_follows hs (hinf.majority rfl hs hn) hes
  | sent input es res hin hs hes hres => exact h.sent_follows hs hes hres
  | replyStale reply args server hs hst =>
    exact h.quiet .refl Same.refl (by simp) rfl h.memory (by simp)
  | replySuccess reply args server res hs hterm hreq hsuccess hres =>
    refine h.success_follows hs (hinf.reply rfl hsuccess) hterm (hres.imp_right (Or.imp_right ?_))
    rintro ⟨M, -, -, hc, heq⟩
    exact ⟨M, hc, heq⟩
  | replyFailure reply args server es hs hterm hreq hfail hes =>
    exact h.failure_follows hs (hes.imp_right And.left)
  | installReply reply server hs hle =>
    exact h.quiet .refl Same.refl (by simp) rfl h.memory (by simp)

end Ready

end DistStudy.Raft
