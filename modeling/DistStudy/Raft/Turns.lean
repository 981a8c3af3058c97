import DistStudy.Raft.BackOff
import DistStudy.Raft.Deliveries

/-!
# Turns

What is needed to lead a cluster somewhere, rather than to bound what it can do: which
inputs a peer handles without a panic, and what the world looks like after it.

* `Responds`: a peer handles an input to its end.
* `Turn M`: a peer of `M` handles an input. Nothing is lost, nobody crashes, and the peers
  outside of `M` do not move.
* `After`: the world after a turn. Packets that were not delivered are still on the
  network, so that they need not be looked at.
* `Sane`: the invariants of the snapshot-free runs, which every turn keeps.
-/

namespace DistStudy.Raft

open Prog ReplicatedLog

variable {n : ℕ} {α : Type}

/-! ## Handling an input -/

/-- A peer with memory `rf` handles the input to its end. -/
def Responds (me : Fin n) (rf : Raft n α) (input : Input n α) (es : List (Effect n α))
    (rf' : Raft n α) : Prop :=
  ∃ handler, serve me rf input = some handler ∧ handler rf = (es, some ((), rf'))

section

variable {me : Fin n} {rf rf' : Raft n α} {input : Input n α} {es : List (Effect n α)}

theorem Responds.outcome (h : Responds me rf input es rf') :
    Outcome me rf input es (some rf') := by
  rcases h with ⟨handler, hserve, hrun⟩
  have ho := serve_outcome hserve
  rw [hrun] at ho
  exact ho

/-- The inputs whose handlers never panic. -/
def Steady : Input n α → Prop
  | .requestVote _ | .appendEntries _ | .vote _ _ | .electionTimer | .command _ => True
  | _ => False

theorem Outcome.not_steady (ho : Outcome me rf input es none) : ¬ Steady input := by
  intro hin
  cases ho with
  | sent input es res htimer => rcases htimer with rfl | rfl <;> exact hin
  | _ => exact hin

/-- An input that the loop of the peer has a case for, and that never panics. -/
theorem exists_responds (hin : Steady input) (hserve : serve me rf input ≠ none) :
    ∃ es rf', Responds me rf input es rf' := by
  rcases Option.ne_none_iff_exists'.mp hserve with ⟨handler, hhandler⟩
  have ho := serve_outcome hhandler
  cases hres : (handler rf).2 with
  | none =>
    rw [hres] at ho
    exact absurd hin ho.not_steady
  | some r => exact ⟨(handler rf).1, r.2, handler, hhandler, by rw [← hres]⟩

/-- Requests are served in every loop. -/
theorem exists_responds_requestVote (me : Fin n) (rf : Raft n α) (args : RequestVoteArgs) :
    ∃ es rf', Responds me rf (.requestVote args) es rf' := by
  refine exists_responds trivial ?_
  cases hs : rf.status <;>
    simp [serve, hs, runAsFollower, runAsCandidate, runAsLeader, serveCommon]

theorem exists_responds_appendEntries (me : Fin n) (rf : Raft n α) (args : AppendEntriesArgs α) :
    ∃ es rf', Responds me rf (.appendEntries args) es rf' := by
  refine exists_responds trivial ?_
  cases hs : rf.status <;>
    simp [serve, hs, runAsFollower, runAsCandidate, runAsLeader, serveCommon]

theorem exists_responds_vote (me : Fin n) (hs : rf.status = .candidate) (vote : RequestVoteReply) :
    ∃ es rf', Responds me rf (.vote rf.voteCh vote) es rf' := by
  refine exists_responds trivial ?_
  simp [serve, hs, runAsCandidate]

/-- A peer that does not lead can start an election. -/
theorem responds_election (me : Fin n) (hs : rf.status ≠ .leader) :
    ∃ es, Responds me rf .electionTimer es (elected me rf) ∧
      ∀ server, server ≠ me →
        .call server (.requestVote (rf.voteCh + 1) (ballotRequest me rf)) ∈ es := by
  have hexists : ∃ es rf', Responds me rf .electionTimer es rf' := by
    refine exists_responds trivial ?_
    cases hst : rf.status with
    | leader => exact absurd hst hs
    | follower | candidate => simp [serve, hst, runAsFollower, runAsCandidate]
  rcases hexists with ⟨es, rf', h⟩
  have ho := h.outcome
  cases ho with
  | elected =>
    refine ⟨_, h, fun server hne => List.mem_cons_of_mem _ ?_⟩
    exact List.mem_map.mpr ⟨server, mem_others.mpr hne, rfl⟩
  | higherTerm hin => cases hin
  | sent input es res hin => rcases hin with hin | hin <;> cases hin

/-- A leader takes every command. -/
theorem responds_command (me : Fin n) (hs : rf.status = .leader) (command : α) :
    ∃ es, Responds me rf (.command command) es
      (rf.withLogs (rf.logs ++ [rf.newEntry command])) := by
  have hexists : ∃ es rf', Responds me rf (.command command) es rf' := by
    refine exists_responds trivial ?_
    simp [serve, hs, runAsLeader, serveCommon]
  rcases hexists with ⟨es, rf', h⟩
  have ho := h.outcome
  cases ho with
  | started => exact ⟨_, h⟩
  | notLeader command hne => exact absurd hs hne
  | higherTerm hin => cases hin
  | sent input es res hin => rcases hin with hin | hin <;> cases hin

/-! ## The requests of a leader -/

/-- A loop over peers whose body leaves the memory alone and always returns. -/
theorem forPeers_flatMap {f : Fin n → Handler n α Unit} {g : Fin n → List (Effect n α)}
    (hf : ∀ server, f server rf = (g server, some ((), rf))) (servers : List (Fin n)) :
    forPeers f servers rf = (servers.flatMap g, some ((), rf)) := by
  induction servers with
  | nil => rfl
  | cons server rest ih => rw [forPeers, bind_run_some (hf server), ih, List.flatMap_cons]

/-- A heartbeat goes to every other peer. -/
theorem responds_heartbeat (me : Fin n) (hs : rf.status = .leader) :
    ∃ es, Responds me rf .heartbeatTimer es rf ∧ ∀ server, server ≠ me →
      .call server (.appendEntries
        (appendRequest me rf [] (rf.lastLogIndex, rf.lastLogTerm))) ∈ es := by
  have hrun := forPeers_flatMap
    (fun server => appendEntries_run me server ([] : List (Log α)) rf) (others me)
  refine ⟨_, ⟨sendHeartBeat me, by simp [serve, hs, runAsLeader], hrun⟩, fun server hne => ?_⟩
  exact List.mem_flatMap.mpr ⟨server, mem_others.mpr hne, by simp⟩

/-- The entry before the next index of a peer. -/
theorem Aligned.previous_eq (h : Aligned rf) (h0 : rf.snapshotIndex = 0) (server : Fin n)
    {next : Int} (hnext : getElem rf.nextIndex server server.isLt = next) (h1 : 1 ≤ next)
    (hlast : next ≤ rf.lastLogIndex) :
    ∃ prev, rf.previous server (rf.logs.drop (next - 1).toNat) = some prev ∧
      prev.1 = next - 1 := by
  have hlen := h.lastLogIndex_eq
  have hne : ¬ (rf.logs.drop (next - 1).toNat).length = 0 := by
    rw [List.length_drop]
    omega
  unfold previous
  rw [if_neg hne, hnext, h0]
  by_cases hone : next - 0 ≤ 1
  · exact ⟨_, if_pos hone, by omega⟩
  · have hlt : (next - 0 - 2).toNat < rf.logs.length := by omega
    have hget : index? rf.logs (next - 0 - 2) = some (rf.logs[(next - 0 - 2).toNat]) := by
      rw [index?, if_pos (by omega), List.getElem?_eq_getElem hlt]
    refine ⟨_, by rw [if_neg hone, hget]; rfl, ?_⟩
    have hidx := (h.contiguous.index?_eq hget).1
    show (rf.logs[(next - 0 - 2).toNat]).index = next - 1
    omega

/-- What a leader without a snapshot sends to a peer that is behind. -/
theorem Aligned.broadcastTo_eq (h : Aligned rf) (h0 : rf.snapshotIndex = 0) (me server : Fin n) :
    ∃ es, broadcastTo me server rf = (es, some ((), rf)) ∧
      ∀ next, getElem rf.nextIndex server server.isLt = next → 1 ≤ next →
        next ≤ rf.lastLogIndex → ∃ prev, rf.previous server (rf.logs.drop (next - 1).toNat) =
          some prev ∧ prev.1 = next - 1 ∧ .call server (.appendEntries
            (appendRequest me rf (rf.logs.drop (next - 1).toNat) prev)) ∈ es := by
  have hlen := h.lastLogIndex_eq
  simp only [broadcastTo, get_bind_run]
  by_cases hc : rf.lastLogIndex ≥ rf.nextIndex[server] ∧
      rf.nextIndex[server] - rf.snapshotIndex ≥ 1
  · have hslice : sliceFrom? rf.logs (rf.nextIndex[server] - 1 - rf.snapshotIndex) =
        some (rf.logs.drop (rf.nextIndex[server] - 1).toNat) := by
      rw [h0, sliceFrom?, if_pos (by omega), Int.sub_zero]
    rcases h.previous_eq h0 server rfl (by omega) hc.1 with ⟨prev, hprev, hidx⟩
    rw [if_pos hc, hslice, orPanic_some_bind_run, appendEntries_run]
    have hprev' : rf.previous server (rf.logs.drop (rf.nextIndex[server] - 1).toNat) =
        some prev := hprev
    rw [hprev']
    refine ⟨_, rfl, ?_⟩
    rintro next rfl - -
    exact ⟨prev, hprev, hidx, List.mem_cons_self⟩
  · rw [if_neg hc]
    refine ⟨[], rfl, ?_⟩
    rintro next rfl h1 hlast
    have hnext : getElem rf.nextIndex server server.isLt = rf.nextIndex[server] := rfl
    exact absurd ⟨by omega, by omega⟩ hc

/-- A broadcast goes to every peer that is behind. -/
theorem responds_broadcast (me : Fin n) (hs : rf.status = .leader) (h : Aligned rf)
    (h0 : rf.snapshotIndex = 0) :
    ∃ es, Responds me rf .broadcastEntriesTimer es rf ∧ ∀ server next, server ≠ me →
      getElem rf.nextIndex server server.isLt = next → 1 ≤ next → next ≤ rf.lastLogIndex →
      ∃ prev, rf.previous server (rf.logs.drop (next - 1).toNat) = some prev ∧
        prev.1 = next - 1 ∧ .call server (.appendEntries
          (appendRequest me rf (rf.logs.drop (next - 1).toNat) prev)) ∈ es := by
  choose g hg hsent using h.broadcastTo_eq h0 me
  refine ⟨_, ⟨broadcastAppendEntries me, by simp [serve, hs, runAsLeader],
    forPeers_flatMap hg (others me)⟩, ?_⟩
  intro server next hne hnext h1 hlast
  rcases hsent server next hnext h1 hlast with ⟨prev, hprev, hidx, hmem⟩
  exact ⟨prev, hprev, hidx, List.mem_flatMap.mpr ⟨server, mem_others.mpr hne, hmem⟩⟩

/-! ## The replies that a leader gets -/

/-- The commit loop returns if its range is in the log. If the last index of its range is
committable, it ends there. -/
theorem updateCommitLoop_returns (me : Fin n) (k : ℕ) (N : Int) (rf : Raft n α)
    (hrange : ∀ M, N ≤ M → M < N + k → index? rf.logs (M - 1 - rf.snapshotIndex) ≠ none) :
    ∃ C, updateCommitLoop me k N rf = ([], some ((), rf.withCommit C)) ∧
      (C = rf.commitIndex ∨ N ≤ C) ∧
      (0 < k → rf.Committable me (N + k - 1) → N + k - 1 ≤ C) := by
  induction k generalizing N rf with
  | zero => exact ⟨rf.commitIndex, rfl, Or.inl rfl, fun h => by omega⟩
  | succ k ih =>
    have hrest : ∀ M, N + 1 ≤ M → M < N + 1 + k →
        index? rf.logs (M - 1 - rf.snapshotIndex) ≠ none :=
      fun M hlo hhi => hrange M (by omega) (by push_cast; omega)
    have hlast : N + 1 + k - 1 = N + (k + 1 : ℕ) - 1 := by push_cast; omega
    -- the rest of the loop, if this round has left the commit index `c`
    have hgo : ∀ c, (c = rf.commitIndex ∨ N ≤ c) →
        (k = 0 → rf.Committable me N → N ≤ c) →
        ∃ C, updateCommitLoop me k (N + 1) (rf.withCommit c) =
            ([], some ((), rf.withCommit C)) ∧ (C = rf.commitIndex ∨ N ≤ C) ∧
          (0 < k + 1 → rf.Committable me (N + (k + 1 : ℕ) - 1) → N + (k + 1 : ℕ) - 1 ≤ C) := by
      intro c hc hzero
      rcases ih (N + 1) (rf.withCommit c) hrest with ⟨C, hrun, hC, hend⟩
      refine ⟨C, hrun, ?_, fun _ hcommit => ?_⟩
      · rcases hC with hC | hC
        · rw [hC]
          exact hc
        · exact Or.inr (by omega)
      · by_cases hk : k = 0
        · subst hk
          have hN : N + ((0 + 1 : ℕ) : Int) - 1 = N := by omega
          rw [hN] at hcommit ⊢
          have hNc := hzero rfl hcommit
          rcases hC with hC | hC
          · rw [hC]
            exact hNc
          · omega
        · rw [← hlast] at hcommit ⊢
          exact hend (by omega) hcommit
    simp only [updateCommitLoop, get_bind_run]
    by_cases hcount : rf.matchCount me N > (n / 2 : ℕ)
    · rcases Option.ne_none_iff_exists'.mp (hrange N (le_refl N) (by push_cast; omega)) with
        ⟨l, hl⟩
      rw [if_pos hcount, hl, orPanic_some_bind_run]
      by_cases ht : l.term = rf.currentTerm
      · simp only [ht, if_true, modify_bind_run]
        exact hgo N (Or.inr (le_refl N)) fun _ _ => le_refl N
      · simp only [ht, if_false]
        refine hgo rf.commitIndex (Or.inl rfl) fun _ hcommit => ?_
        rcases hcommit with ⟨-, l', hl', ht'⟩
        rw [hl] at hl'
        exact absurd (Option.some.inj hl' ▸ ht') ht
    · simp only [hcount, if_false]
      exact hgo rf.commitIndex (Or.inl rfl) fun _ hcommit => absurd hcommit.1 hcount

/-- `updateCommitIndex` returns, and commits the last index if it can. -/
theorem updateCommitIndex_returns (me : Fin n) (rf : Raft n α)
    (hcommit : rf.snapshotIndex ≤ rf.commitIndex) :
    ∃ C, updateCommitIndex me rf = ([], some ((), rf.withCommit C)) ∧ rf.commitIndex ≤ C ∧
      (rf.Committable me (rf.logs.length + rf.snapshotIndex) →
        rf.logs.length + rf.snapshotIndex ≤ C) := by
  have hrange : ∀ M, rf.commitIndex + 1 ≤ M →
      M < rf.commitIndex + 1 + (rf.logs.length + rf.snapshotIndex - rf.commitIndex).toNat →
      index? rf.logs (M - 1 - rf.snapshotIndex) ≠ none := by
    intro M hlo hhi
    have hlt : (M - 1 - rf.snapshotIndex).toNat < rf.logs.length := by omega
    rw [index?, if_pos (by omega), List.getElem?_eq_getElem hlt]
    exact Option.some_ne_none _
  rcases updateCommitLoop_returns me _ _ rf hrange with ⟨C, hrun, hC, hend⟩
  refine ⟨C, hrun, by omega, fun hc => ?_⟩
  by_cases hk : 0 < (rf.logs.length + rf.snapshotIndex - rf.commitIndex).toNat
  · have hlast : rf.commitIndex + 1 +
        (rf.logs.length + rf.snapshotIndex - rf.commitIndex).toNat - 1 =
        rf.logs.length + rf.snapshotIndex := by omega
    rw [hlast] at hend
    exact hend hk hc
  · omega

variable {reply : AppendEntriesReply} {args : AppendEntriesArgs α} {server : Fin n}

theorem serve_appendEntriesReply (me : Fin n) (hs : rf.status = .leader) :
    serve me rf (.appendEntriesReply reply args server) =
      some (handleAppendEntriesReply me reply args server) := by
  simp [serve, hs, runAsLeader]

/-- A rejected append moves the next index of the peer. -/
theorem responds_failure (me : Fin n) (hs : rf.status = .leader)
    (hreply : reply.term = rf.currentTerm) (hargs : args.term = rf.currentTerm)
    (hok : reply.success = false) :
    ∃ es, Responds me rf (.appendEntriesReply reply args server) es
      (rf.retargeted reply server) :=
  ⟨_, _, serve_appendEntriesReply me hs,
    handleAppendEntriesReply_failed hreply hargs hok me server⟩

/-- A successful append is credited, and the commit index follows. -/
theorem responds_success (me : Fin n) (hs : rf.status = .leader)
    (hcommit : rf.snapshotIndex ≤ rf.commitIndex) (hreply : reply.term = rf.currentTerm)
    (hargs : args.term = rf.currentTerm) (hok : reply.success = true) :
    ∃ C, Responds me rf (.appendEntriesReply reply args server) []
        ((rf.credited args server).withCommit C) ∧ rf.commitIndex ≤ C ∧
      ((rf.credited args server).Committable me (rf.logs.length + rf.snapshotIndex) →
        rf.logs.length + rf.snapshotIndex ≤ C) := by
  obtain ⟨hlogs, hsnap, hcomm⟩ : (rf.credited args server).logs = rf.logs ∧
      (rf.credited args server).snapshotIndex = rf.snapshotIndex ∧
      (rf.credited args server).commitIndex = rf.commitIndex := by
    unfold credited
    split_ifs <;> exact ⟨rfl, rfl, rfl⟩
  have hret := updateCommitIndex_returns me (rf.credited args server)
  rw [hlogs, hsnap, hcomm] at hret
  rcases hret hcommit with ⟨C, hrun, hC, hend⟩
  refine ⟨C, ⟨_, serve_appendEntriesReply me hs, ?_⟩, hC, hend⟩
  rw [← hrun]
  have hstale : ¬ (rf.currentTerm > reply.term ∨ rf.currentTerm > args.term) := by omega
  have hhigher : ¬ reply.term > rf.currentTerm := by omega
  simp only [handleAppendEntriesReply, get_bind_run, if_neg hstale, if_neg hhigher, hok, if_true]
  unfold credited
  split_ifs <;> rfl

/-! ## Deliveries -/

/-- The apply loop delivers its whole range if that is in the log. -/
theorem length_deliverable (logs : List (Log α)) (k : ℕ) {i : Int} (h0 : 0 ≤ i)
    (hk : i + k ≤ logs.length) : (deliverable logs k i).length = k := by
  induction k generalizing i with
  | zero => rfl
  | succ k ih =>
    have hlt : i.toNat < logs.length := by omega
    have hget : index? logs i = some (logs[i.toNat]) := by
      rw [index?, if_pos h0, List.getElem?_eq_getElem hlt]
    rw [deliverable, hget, List.length_cons, ih (by omega) (by push_cast at hk; omega)]

/-- A peer can always deliver what is committed. -/
theorem responds_apply (me : Fin n) (h0 : rf.snapshotIndex = 0) (hlo : 0 ≤ rf.lastApplied)
    (hle : rf.lastApplied ≤ rf.commitIndex) (hhi : rf.commitIndex ≤ rf.logs.length) :
    Responds me rf .applyTimer
      ((deliverable rf.logs (rf.commitIndex - rf.lastApplied).toNat rf.lastApplied).map Log.deliver)
      (rf.withApplied rf.commitIndex) := by
  have hback : rf.backlog = (rf.commitIndex - rf.lastApplied).toNat := by
    unfold backlog
    split_ifs with hlen
    · omega
    · rfl
  have hlen := length_deliverable rf.logs (rf.commitIndex - rf.lastApplied).toNat hlo
    (by omega)
  refine ⟨applyToClient, ?_, ?_⟩
  · cases hs : rf.status <;>
      simp [serve, hs, runAsFollower, runAsCandidate, runAsLeader, serveCommon]
  · have hend : rf.lastApplied + ((rf.commitIndex - rf.lastApplied).toNat : Int) =
        rf.commitIndex := by omega
    rw [applyToClient_run, applyLoop_run, hback, h0, Int.sub_zero, if_pos hlen, hend]

end

/-! ## Turns of a set of peers -/

/-- A peer of `M` handles an input. -/
def takenBy (M : Finset (Fin n)) (w : World n α) : Event n α → Prop
  | .handle cause => ∃ a ∈ w.arrival cause, a.server ∈ M
  | _ => False

instance (M : Finset (Fin n)) (w : World n α) : ∀ event, Decidable (takenBy M w event)
  | .handle cause => inferInstanceAs (Decidable (∃ a ∈ w.arrival cause, a.server ∈ M))
  | .crashDuring _ _ | .crash _ | .snapshot _ _ _ | .drop _ | .fail _ =>
    inferInstanceAs (Decidable False)

/-- One turn of a peer of `M`. -/
def Turn (M : Finset (Fin n)) (w w' : World n α) : Prop :=
  ∃ event, restrict World.step (takenBy M) w event = some w'

/-- The worlds that the peers of `M` can lead to. -/
abbrev Reaches (M : Finset (Fin n)) : World n α → World n α → Prop :=
  Relation.ReflTransGen (Turn M)

/-- The world after peer `i` has handled an input: the packet `gone` was delivered to it,
and `caller` waits for its answer. -/
structure After (w w' : World n α) (i : Fin n) (gone : Option (Packet n α))
    (caller : Option (Caller n α)) (es : List (Effect n α)) (rf : Raft n α) : Prop where
  self : w'.server i = (w.server i).perform es rf
  others : ∀ j, j ≠ i → w'.server j = w.server j
  kept : ∀ p ∈ w.net, some p ≠ gone → p ∈ w'.net
  calls : ∀ server call, .call server call ∈ es →
    .request ⟨i, (w.server i).incarnation, call⟩ server true ∈ w'.net
  answers : ∀ c reply, caller = some c → .reply reply ∈ es → .response c i reply ∈ w'.net

section

variable {M : Finset (Fin n)} {w : World n α} {i : Fin n} {es : List (Effect n α)}
  {rf : Raft n α}

/-- An arrival at a peer of `M` that responds is a turn. -/
theorem exists_turn {cause : Cause n α} {a : Arrival n α} (harr : w.arrival cause = some a)
    (hM : a.server ∈ M) (hserver : ∀ j, a.world.server j = w.server j)
    (h : Responds a.server (w.server a.server).rf a.input es rf) {gone : Option (Packet n α)}
    (hkept : ∀ p ∈ w.net, some p ≠ gone → p ∈ a.world.net) :
    ∃ w', Turn M w w' ∧ After w w' a.server gone a.caller es rf := by
  rcases h with ⟨handler, hserve, hrun⟩
  have hstep : w.step (.handle cause) = some (a.world.perform a.server a.caller es rf) := by
    simp only [World.step, harr, Option.bind_eq_bind, Option.bind_some, hserver, hserve, hrun]
  refine ⟨_, ⟨.handle cause, restrict_eq_some.mpr ⟨⟨a, harr, hM⟩, hstep⟩⟩, ?_⟩
  refine ⟨?_, fun j hj => ?_, fun p hp hne => ?_, fun server call hc => ?_,
    fun c reply hc hr => ?_⟩
  · rw [World.server_perform_self, hserver]
  · rw [World.server_perform_ne _ _ _ _ hj, hserver]
  · exact List.mem_append_left _ (hkept p hp hne)
  · refine List.mem_append_right _ (List.mem_filterMap.mpr ⟨_, hc, ?_⟩)
    rw [hserver]
    rfl
  · refine List.mem_append_right _ (List.mem_filterMap.mpr ⟨_, hr, ?_⟩)
    rw [hc]
    rfl

theorem exists_turn_timer (hM : i ∈ M) (t : Timer) (h : Responds i (w.server i).rf t.input es rf) :
    ∃ w', Turn M w w' ∧ After w w' i none none es rf := by
  have harr : w.arrival (.timer i t) = some ⟨i, t.input, none, w⟩ := rfl
  exact exists_turn harr hM (fun _ => rfl) h fun _ hp _ => hp

theorem exists_turn_start (hM : i ∈ M) (c : α) (h : Responds i (w.server i).rf (.command c) es rf) :
    ∃ w', Turn M w w' ∧ After w w' i none none es rf := by
  have harr : w.arrival (.start i c) = some ⟨i, .command c, none, w⟩ := rfl
  exact exists_turn harr hM (fun _ => rfl) h fun _ hp _ => hp

/-- Taking the packet at a position keeps the others. -/
theorem mem_eraseIdx_of_ne {p q : Packet n α} {net : List (Packet n α)} {k : ℕ}
    (hk : net[k]? = some p) (hq : q ∈ net) (hne : some q ≠ some p) : q ∈ net.eraseIdx k := by
  rcases List.mem_iff_getElem?.mp hq with ⟨m, hm⟩
  have hmk : m ≠ k := by
    rintro rfl
    exact hne (hm.symm.trans hk)
  rw [List.mem_eraseIdx_iff_getElem?]
  exact ⟨m, hmk, hm⟩

theorem exists_turn_request {c : Caller n α} (hp : .request c i true ∈ w.net) (hM : i ∈ M)
    (h : Responds i (w.server i).rf c.call.input es rf) :
    ∃ w', Turn M w w' ∧ After w w' i (some (.request c i true)) (some c) es rf := by
  rcases List.mem_iff_getElem?.mp hp with ⟨k, hk⟩
  have harr : w.arrival (.deliver k) =
      some ⟨i, c.call.input, some c, { w with net := w.net.eraseIdx k }⟩ := by
    simp [World.arrival, hk]
  exact exists_turn harr hM (fun _ => rfl) h fun q hq hne => mem_eraseIdx_of_ne hk hq hne

theorem exists_turn_response {call : Call α} {server : Fin n} {reply : Reply} {input : Input n α}
    (hp : .response ⟨i, (w.server i).incarnation, call⟩ server reply ∈ w.net) (hM : i ∈ M)
    (hback : call.handBack server reply = some input)
    (h : Responds i (w.server i).rf input es rf) :
    ∃ w', Turn M w w' ∧ After w w' i
      (some (.response ⟨i, (w.server i).incarnation, call⟩ server reply)) none es rf := by
  rcases List.mem_iff_getElem?.mp hp with ⟨k, hk⟩
  have harr : w.arrival (.deliver k) =
      some ⟨i, input, none, { w with net := w.net.eraseIdx k }⟩ := by
    simp [World.arrival, hk, hback]
  exact exists_turn harr hM (fun _ => rfl) h fun q hq hne => mem_eraseIdx_of_ne hk hq hne

end

/-! ## Sane worlds -/

/-- A world of a run without snapshots. -/
structure Sane (w : World n α) : Prop where
  sim : ∃ a : Abstract n α, Sim a w
  peers : Everywhere (fun _ s => Numbered s) (fun _ call => BareCall call) w

namespace Sane

variable {M : Finset (Fin n)} {w w' : World n α}

theorem of_run {e : Behavior (World n α)} (he : Run noSnapshots.Allows e) (k : ℕ) : Sane (e k) := by
  rcases (Run.sound_of_noSnapshots he).sim (le_refl k) with ⟨a, -, -, h, -⟩
  exact ⟨⟨a, h⟩, numbered_local.run he k⟩

theorem bare (h : Sane w) (i : Fin n) : Bare (w.server i) := (h.peers.server i).bare

theorem aligned (h : Sane w) (i : Fin n) : Aligned (w.server i).rf := (h.bare i).aligned

theorem turn (h : Sane w) (ht : Turn M w w') : Sane w' := by
  rcases ht with ⟨event, hevent⟩
  rcases restrict_eq_some.mp hevent with ⟨htaken, hstep⟩
  cases event with
  | handle cause =>
    have hsound : (sound n α).Allows w (.handle cause) := by
      intro a harr
      rcases numbered_local.arrives h.peers (arrives_of_arrival harr) with ⟨hw, hheard⟩
      exact (hw.server a.server).bare.sound (hheard.imp (fun _ hs => hs.bare) fun _ hc => hc)
    rcases h.sim with ⟨a, ha⟩
    rcases ha.step hsound (steps_of_step hstep) with ⟨a', -, ha'⟩
    have hallows : noSnapshots.Allows w (.handle cause) := fun _ _ => trivial
    exact ⟨⟨a', ha'⟩, numbered_local.step h.peers hallows (steps_of_step hstep)⟩
  | _ => exact htaken.elim

theorem reaches (h : Sane w) (hr : Reaches M w w') : Sane w' := by
  induction hr with
  | refl => exact h
  | tail _ ht ih => exact ih.turn ht

end Sane

/-- The streams grow on the way. -/
theorem Reaches.stream_isPrefix {M : Finset (Fin n)} {w w' : World n α} (hr : Reaches M w w')
    (i : Fin n) (k : ℕ) : (w.server i).stream k <+: (w'.server i).stream k := by
  induction hr with
  | refl => exact List.prefix_refl _
  | tail _ ht ih =>
    rcases ht with ⟨event, hevent⟩
    exact ih.trans ((steps_of_step (restrict_eq_some.mp hevent).2).stream_isPrefix i k)

end DistStudy.Raft
