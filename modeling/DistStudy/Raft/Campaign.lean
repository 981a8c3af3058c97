import DistStudy.Raft.Turns
import Mathlib.Data.Finset.Max
import Mathlib.Data.Prod.Lex

/-!
# A majority can elect a leader

From every sane world any majority of at least two peers can make one of them the leader,
without a crash, a loss or a change of a log (`exists_elected`). The way there:

* `exists_campaign`: a peer starts elections until its term is above a given one;
* `exists_deposed`: a leader is made to step down by another peer;
* `exists_upToDate`: some peer of the majority has a log that all of them vote for;
* `Standing.rounds`: its vote requests are answered one after the other.
-/

namespace DistStudy.Raft

open ReplicatedLog

variable {n : ℕ} {α : Type}

/-! ## Campaigns -/

/-- The vote request of a candidate with memory `rf`. -/
def voteRequest (me : Fin n) (rf : Raft n α) : RequestVoteArgs :=
  { term := rf.currentTerm, candidateId := me, lastLogIndex := rf.lastLogIndex,
    lastLogTerm := rf.lastLogTerm }

/-- The request for the vote of `f` in the current election of `i` is on its way. -/
def Asked (w : World n α) (i f : Fin n) : Prop :=
  .request ⟨i, (w.server i).incarnation,
    .requestVote (w.server i).rf.voteCh (voteRequest i (w.server i).rf)⟩ f true ∈ w.net

/-- The log and what was compacted of it are the same in both memories. -/
structure SameLog (rf rf' : Raft n α) : Prop where
  logs : rf'.logs = rf.logs
  index : rf'.snapshotIndex = rf.snapshotIndex
  term : rf'.snapshotTerm = rf.snapshotTerm

namespace SameLog

variable {rf rf₁ rf₂ : Raft n α}

theorem refl (rf : Raft n α) : SameLog rf rf := ⟨rfl, rfl, rfl⟩

theorem trans (h : SameLog rf rf₁) (h' : SameLog rf₁ rf₂) : SameLog rf rf₂ :=
  ⟨h'.logs.trans h.logs, h'.index.trans h.index, h'.term.trans h.term⟩

theorem lastLogIndex_eq (h : SameLog rf rf₁) : rf₁.lastLogIndex = rf.lastLogIndex := by
  unfold lastLogIndex
  rw [h.logs, h.index]

theorem lastLogTerm_eq (h : SameLog rf rf₁) : rf₁.lastLogTerm = rf.lastLogTerm := by
  unfold lastLogTerm
  rw [h.logs, h.term]

end SameLog

/-- All logs are the same in both worlds. -/
def SameLogs (w w' : World n α) : Prop :=
  ∀ j, SameLog (w.server j).rf (w'.server j).rf

theorem SameLogs.refl (w : World n α) : SameLogs w w := fun _ => SameLog.refl _

theorem SameLogs.trans {w₁ w₂ w₃ : World n α} (h : SameLogs w₁ w₂) (h' : SameLogs w₂ w₃) :
    SameLogs w₁ w₃ := fun j => (h j).trans (h' j)

section

variable {M : Finset (Fin n)} {w w' : World n α} {i f : Fin n} {gone : Option (Packet n α)}
  {caller : Option (Caller n α)} {es : List (Effect n α)} {rf : Raft n α}

theorem After.rf_self (h : After w w' i gone caller es rf) : (w'.server i).rf = rf := by
  rw [h.self]
  rfl

theorem After.incarnation (h : After w w' i gone caller es rf) (j : Fin n) :
    (w'.server j).incarnation = (w.server j).incarnation := by
  by_cases hj : j = i
  · subst hj
    rw [h.self]
    rfl
  · rw [h.others j hj]

theorem After.sameLogs (h : After w w' i gone caller es rf)
    (hlogs : SameLog (w.server i).rf rf) : SameLogs w w' := by
  intro j
  by_cases hj : j = i
  · subst hj
    rw [h.rf_self]
    exact hlogs
  · rw [h.others j hj]
    exact SameLog.refl _

/-- A peer that does not lead starts elections until its term is above `T`. -/
theorem exists_campaign (hM : i ∈ M) (hs : (w.server i).rf.status ≠ .leader) (T : Int) :
    ∃ w', Reaches M w w' ∧ (w'.server i).rf.status = .candidate ∧
      T < (w'.server i).rf.currentTerm ∧ (w'.server i).rf.grantedVotes = 1 ∧ SameLogs w w' ∧
      (∀ j, j ≠ i → w'.server j = w.server j) ∧ ∀ f, f ≠ i → Asked w' i f := by
  induction hk : (T - (w.server i).rf.currentTerm).toNat using Nat.strong_induction_on
    generalizing w with
  | _ k ih =>
    rcases responds_election i hs with ⟨es, hresp, hsent⟩
    rcases exists_turn_timer hM .election hresp with ⟨w₁, hturn, hafter⟩
    have hrf := hafter.rf_self
    have hlogs : SameLogs w w₁ := hafter.sameLogs ⟨rfl, rfl, rfl⟩
    by_cases hT : T < (w₁.server i).rf.currentTerm
    · refine ⟨w₁, .single hturn, by rw [hrf]; rfl, hT, by rw [hrf]; rfl, hlogs, hafter.others,
        fun f hf => ?_⟩
      have hcall := hafter.calls f _ (hsent f hf)
      unfold Asked
      rw [hafter.incarnation, hrf]
      exact hcall
    · have hterm : (w₁.server i).rf.currentTerm = (w.server i).rf.currentTerm + 1 := by
        rw [hrf]
        rfl
      have hs₁ : (w₁.server i).rf.status ≠ .leader := by
        rw [hrf]
        exact Status.noConfusion
      rcases ih _ (by omega) hs₁ rfl with ⟨w', hr, hst, hgt, hvotes, hlogs', hothers, hasked⟩
      refine ⟨w', .head hturn hr, hst, hgt, hvotes, hlogs.trans hlogs', fun j hj => ?_, hasked⟩
      rw [hothers j hj, hafter.others j hj]

/-! ## Higher terms -/

theorem caughtUp_of_lt {term : Int} (h : rf.currentTerm < term) :
    rf.caughtUp term = rf.steppedDown term :=
  if_pos h

/-- A vote request of a higher term makes a follower of the peer, which votes if the
candidate's log is up to date. -/
theorem Outcome.vote_higher {me : Fin n} {args : RequestVoteArgs} {rf' : Raft n α}
    (ho : Outcome me rf (.requestVote args) es (some rf')) (hlt : rf.currentTerm < args.term) :
    rf'.status = .follower ∧ rf'.currentTerm = args.term ∧ SameLog rf rf' ∧
      (rf.upToDate args →
        .reply (.requestVote { term := args.term, voteGranted := true }) ∈ es) := by
  have hup : (rf.caughtUp args.term).upToDate args ↔ rf.upToDate args := by
    rw [caughtUp_of_lt hlt]
    exact Iff.rfl
  cases ho with
  | voteStale args hstale => omega
  | voteGranted args hstale hv hu =>
    rw [caughtUp_of_lt hlt]
    exact ⟨rfl, rfl, ⟨rfl, rfl, rfl⟩, fun _ => by simp⟩
  | voteRefused args hstale hv hu =>
    rw [caughtUp_of_lt hlt]
    exact ⟨rfl, rfl, ⟨rfl, rfl, rfl⟩, fun h => absurd (hup.mpr h) hu⟩
  | voteTaken args hstale hv =>
    rw [caughtUp_of_lt hlt] at hv
    exact absurd (Or.inl rfl) hv
  | higherTerm hin => cases hin
  | sent input es res hin => rcases hin with hin | hin <;> cases hin

/-- A heartbeat leaves the log alone. -/
theorem accepted_logs_of_nil {args : AppendEntriesArgs α} (h : args.entries = []) :
    (rf.accepted args).logs = rf.logs := by
  simp [accepted, news, beyond, cut, firstConflict, h]

/-- A heartbeat of a higher term makes a follower of the peer. -/
theorem Outcome.heartbeat_higher {me : Fin n} {args : AppendEntriesArgs α} {rf' : Raft n α}
    (ho : Outcome me rf (.appendEntries args) es (some rf')) (hlt : rf.currentTerm < args.term)
    (hnil : args.entries = []) : rf'.status = .follower ∧ SameLog rf rf' := by
  have hheard : ∀ r : Raft n α, r.status = .follower →
      (rf.heard r).status = .follower ∧ SameLog r (rf.heard r) := by
    intro r hr
    unfold heard
    split_ifs
    · exact ⟨rfl, rfl, rfl, rfl⟩
    · exact ⟨hr, SameLog.refl r⟩
  cases ho with
  | appendStale args hstale => omega
  | appendRejected args reply hstale hr =>
    rw [caughtUp_of_lt hlt]
    rcases hheard (rf.steppedDown args.term) rfl with ⟨hst, hlogs⟩
    exact ⟨hst, hlogs.logs, hlogs.index, hlogs.term⟩
  | appendAccepted args hstale hr =>
    rw [caughtUp_of_lt hlt]
    rcases hheard ((rf.steppedDown args.term).accepted args) rfl with ⟨hst, hlogs⟩
    exact ⟨hst, hlogs.logs.trans (accepted_logs_of_nil hnil), hlogs.index, hlogs.term⟩
  | higherTerm hin => cases hin
  | sent input es res hin => rcases hin with hin | hin <;> cases hin

/-! ## Deposing a leader -/

/-- A peer that does not lead deposes another one by an election. -/
theorem exists_deposed_by_vote (hM : i ∈ M) (hfM : f ∈ M) (hne : f ≠ i)
    (hf : (w.server f).rf.status ≠ .leader) :
    ∃ w', Reaches M w w' ∧ (w'.server i).rf.status ≠ .leader ∧ SameLogs w w' := by
  rcases exists_campaign hfM hf (w.server i).rf.currentTerm with
    ⟨w₁, hr, -, hgt, -, hlogs, hothers, hasked⟩
  have hi : w₁.server i = w.server i := hothers i hne.symm
  rcases exists_responds_requestVote i (w₁.server i).rf (voteRequest f (w₁.server f).rf) with
    ⟨es, rf, hresp⟩
  have hlt : (w₁.server i).rf.currentTerm < (voteRequest f (w₁.server f).rf).term := by
    rw [hi]
    exact hgt
  rcases hresp.outcome.vote_higher hlt with ⟨hst, -, hsame, -⟩
  rcases exists_turn_request (hasked i hne.symm) hM hresp with ⟨w₂, hturn, hafter⟩
  refine ⟨w₂, hr.tail hturn, ?_, hlogs.trans (hafter.sameLogs hsame)⟩
  rw [hafter.rf_self, hst]
  exact Status.noConfusion

/-- A leader deposes one of an earlier term by a heartbeat. -/
theorem exists_deposed_by_heartbeat (hM : i ∈ M) (hfM : f ∈ M) (hne : f ≠ i)
    (hf : (w.server f).rf.status = .leader)
    (hlt : (w.server i).rf.currentTerm < (w.server f).rf.currentTerm) :
    ∃ w', Reaches M w w' ∧ (w'.server i).rf.status ≠ .leader ∧ SameLogs w w' := by
  rcases responds_heartbeat f hf with ⟨es, hresp, hsent⟩
  rcases exists_turn_timer hfM .heartbeat hresp with ⟨w₁, hturn₁, hafter₁⟩
  have hi : w₁.server i = w.server i := hafter₁.others i hne.symm
  have hcall := hafter₁.calls i _ (hsent i hne.symm)
  rcases exists_responds_appendEntries i (w₁.server i).rf (appendRequest f (w.server f).rf []
    ((w.server f).rf.lastLogIndex, (w.server f).rf.lastLogTerm)) with ⟨es', rf, hresp'⟩
  have hlt₁ : (w₁.server i).rf.currentTerm < (w.server f).rf.currentTerm := by
    rw [hi]
    exact hlt
  rcases hresp'.outcome.heartbeat_higher hlt₁ rfl with ⟨hst, hsame⟩
  rcases exists_turn_request hcall hM hresp' with ⟨w₂, hturn₂, hafter₂⟩
  refine ⟨w₂, .head hturn₁ (.single hturn₂), ?_,
    (hafter₁.sameLogs (SameLog.refl _)).trans (hafter₂.sameLogs hsame)⟩
  rw [hafter₂.rf_self, hst]
  exact Status.noConfusion

/-- Two leaders are of different terms. -/
theorem Sane.terms_ne (h : Sane w) (hi : (w.server i).rf.status = .leader)
    (hf : (w.server f).rf.status = .leader) (hne : f ≠ i) :
    (w.server i).rf.currentTerm ≠ (w.server f).rf.currentTerm := by
  intro heq
  rcases h.sim with ⟨a, ha⟩
  have hlead := ((ha.servers i).memory.leader hi).1
  have hlead' := ((ha.servers f).memory.leader hf).1
  rw [heq] at hlead
  exact hne (State.lead_inj hlead' hlead).1

/-- With another peer of `M`, any peer of `M` can be made not to lead. -/
theorem exists_deposed (h : Sane w) (hM : i ∈ M) (hfM : f ∈ M) (hne : f ≠ i) :
    ∃ w', Reaches M w w' ∧ (w'.server i).rf.status ≠ .leader ∧ SameLogs w w' := by
  by_cases hi : (w.server i).rf.status = .leader
  · by_cases hf : (w.server f).rf.status = .leader
    · rcases lt_or_gt_of_ne (h.terms_ne hi hf hne) with hlt | hgt
      · exact exists_deposed_by_heartbeat hM hfM hne hf hlt
      · -- first `i` deposes `f`, which then starts an election
        rcases exists_deposed_by_heartbeat hfM hM hne.symm hi hgt with ⟨w₁, hr₁, hst₁, hlogs₁⟩
        rcases exists_deposed_by_vote hM hfM hne hst₁ with ⟨w', hr, hst, hlogs⟩
        exact ⟨w', hr₁.trans hr, hst, hlogs₁.trans hlogs⟩
    · exact exists_deposed_by_vote hM hfM hne hf
  · exact ⟨w, .refl, hi, SameLogs.refl w⟩

/-! ## Elections -/

/-- A leader that has just been elected. -/
structure Fresh (rf : Raft n α) : Prop where
  leads : rf.status = .leader
  next : ∀ g : Fin n, getElem rf.nextIndex g g.isLt = rf.lastLogIndex + 1
  matched : ∀ g : Fin n, getElem rf.matchIndex g g.isLt = 0

/-- Peer `i` stands for election with the request `args`, has `votes` votes, and has still
to get the votes of `todo`. -/
structure Standing (w : World n α) (i : Fin n) (ch : ℕ) (args : RequestVoteArgs) (votes : ℕ)
    (todo : List (Fin n)) : Prop where
  term : (w.server i).rf.currentTerm = args.term
  state : ((w.server i).rf.status = .candidate ∧ (w.server i).rf.voteCh = ch ∧
    (w.server i).rf.grantedVotes = votes ∧ votes ≤ n / 2) ∨ Fresh (w.server i).rf
  asked : ∀ f ∈ todo,
    .request ⟨i, (w.server i).incarnation, .requestVote ch args⟩ f true ∈ w.net ∧
      (w.server f).rf.currentTerm < args.term ∧ (w.server f).rf.upToDate args

variable {ch : ℕ} {args : RequestVoteArgs} {votes : ℕ} {todo : List (Fin n)}

/-- What counting a granted vote does to a candidate. -/
theorem Outcome.vote_counted {me : Fin n} {rf' : Raft n α}
    (ho : Outcome me rf (.vote rf.voteCh { term := rf.currentTerm, voteGranted := true }) es
      (some rf'))
    (hvotes : rf.grantedVotes = votes) :
    rf'.currentTerm = rf.currentTerm ∧ SameLog rf rf' ∧
      ((rf'.status = rf.status ∧ rf'.voteCh = rf.voteCh ∧
        rf'.grantedVotes = (votes + 1 : ℕ) ∧ votes + 1 ≤ n / 2) ∨ Fresh rf') := by
  cases ho with
  | higherTerm hin hgt =>
    cases hin
    exact absurd hgt (lt_irrefl _)
  | voteCounted vote hs hgt hn =>
    have hle : ¬ rf.grantedVotes + 1 > (n / 2 : ℕ) := hn
    refine ⟨rfl, ⟨rfl, rfl, rfl⟩, Or.inl ⟨rfl, rfl, ?_, by omega⟩⟩
    show rf.grantedVotes + 1 = _
    rw [hvotes]
    rfl
  | leaderElected vote es hs hgt hn hes =>
    refine ⟨rfl, ⟨rfl, rfl, rfl⟩, Or.inr ⟨rfl, fun g => ?_, fun g => ?_⟩⟩
    · exact Vector.getElem_replicate g.isLt
    · exact Vector.getElem_replicate g.isLt
  | sent input es res hin => rcases hin with hin | hin <;> cases hin

/-- The request of the candidate reaches `f`, which votes for it. -/
theorem Standing.exists_voted (h : Standing w i ch args votes (f :: todo)) (hfM : f ∈ M)
    (hfi : f ≠ i) (hf : f ∉ todo) :
    ∃ w', Turn M w w' ∧ Standing w' i ch args votes todo ∧ SameLogs w w' ∧
      .response ⟨i, (w'.server i).incarnation, .requestVote ch args⟩ f
        (.requestVote { term := args.term, voteGranted := true }) ∈ w'.net ∧
      (w'.server f).rf.currentTerm = args.term ∧ ∀ j, j ≠ f → w'.server j = w.server j := by
  rcases h.asked f List.mem_cons_self with ⟨hreq, hlt, hup⟩
  rcases exists_responds_requestVote f (w.server f).rf args with ⟨es, rf, hresp⟩
  rcases hresp.outcome.vote_higher hlt with ⟨-, hterm, hlogs, hreply⟩
  rcases exists_turn_request hreq hfM hresp with ⟨w', hturn, hafter⟩
  have hi : w'.server i = w.server i := hafter.others i hfi.symm
  refine ⟨w', hturn, ⟨?_, ?_, fun g hg => ?_⟩, hafter.sameLogs hlogs, ?_, ?_, hafter.others⟩
  · rw [hi]
    exact h.term
  · rw [hi]
    exact h.state
  · -- the other requests are still on their way
    rcases h.asked g (List.mem_cons_of_mem _ hg) with ⟨hkept, hbelow⟩
    have hgf : g ≠ f := by
      rintro rfl
      exact hf hg
    rw [hi, hafter.others g hgf]
    refine ⟨hafter.kept _ hkept fun heq => ?_, hbelow⟩
    cases heq
    exact hgf rfl
  · rw [hi]
    exact hafter.answers _ _ rfl (hreply hup)
  · rw [hafter.rf_self]
    exact hterm

/-- The vote of `f` comes back. It is counted, unless the candidate has already won. -/
theorem Standing.exists_counted (h : Standing w i ch args votes todo) (hM : i ∈ M) (hi : i ∉ todo)
    (hback : .response ⟨i, (w.server i).incarnation, .requestVote ch args⟩ f
      (.requestVote { term := args.term, voteGranted := true }) ∈ w.net) :
    ∃ w', Reaches M w w' ∧ Standing w' i ch args (votes + 1) todo ∧ SameLogs w w' ∧
      ∀ j, j ≠ i → w'.server j = w.server j := by
  rcases h.state with ⟨hst, hch, hvotes, hle⟩ | hfresh
  · rcases exists_responds_vote i hst { term := args.term, voteGranted := true } with
      ⟨es, rf, hresp⟩
    have ho := hresp.outcome
    rw [← h.term] at ho
    rcases ho.vote_counted hvotes with ⟨hterm, hlogs, hstate⟩
    rw [hch] at hresp
    rcases exists_turn_response hback hM rfl hresp with ⟨w', hturn, hafter⟩
    refine ⟨w', .single hturn, ⟨?_, ?_, fun g hg => ?_⟩, hafter.sameLogs hlogs, hafter.others⟩
    · rw [hafter.rf_self, hterm]
      exact h.term
    · rw [hafter.rf_self]
      refine hstate.imp_left fun hcand => ?_
      rcases hcand with ⟨hs, hc, hv, hle'⟩
      exact ⟨hs.trans hst, hc.trans hch, hv, hle'⟩
    · rcases h.asked g hg with ⟨hkept, hbelow⟩
      have hgi : g ≠ i := by
        rintro rfl
        exact hi hg
      rw [hafter.incarnation, hafter.others g hgi]
      refine ⟨hafter.kept _ hkept fun heq => ?_, hbelow⟩
      cases heq
  · exact ⟨w, .refl, ⟨h.term, Or.inr hfresh, h.asked⟩, SameLogs.refl w, fun _ _ => rfl⟩

/-- One peer of `todo` is asked. -/
theorem Standing.round (h : Standing w i ch args votes (f :: todo)) (hM : i ∈ M) (hfM : f ∈ M)
    (hfi : f ≠ i) (hf : f ∉ todo) (hi : i ∉ todo) :
    ∃ w', Reaches M w w' ∧ Standing w' i ch args (votes + 1) todo ∧ SameLogs w w' ∧
      (w'.server f).rf.currentTerm = args.term ∧
      ∀ j, j ≠ i → j ≠ f → w'.server j = w.server j := by
  rcases h.exists_voted hfM hfi hf with ⟨w₁, hturn₁, hstand₁, hlogs₁, hback, hterm, hothers₁⟩
  rcases hstand₁.exists_counted hM hi hback with ⟨w₂, hr₂, hstand₂, hlogs₂, hothers₂⟩
  refine ⟨w₂, .head hturn₁ hr₂, hstand₂, hlogs₁.trans hlogs₂, ?_, fun j hji hjf => ?_⟩
  · rw [hothers₂ f hfi]
    exact hterm
  · rw [hothers₂ j hji, hothers₁ j hjf]

/-- All peers of `todo` are asked, one after the other. -/
theorem Standing.rounds (h : Standing w i ch args votes todo) (hM : i ∈ M)
    (htodo : ∀ f ∈ todo, f ∈ M) (hi : i ∉ todo) (hnodup : todo.Nodup) :
    ∃ w', Reaches M w w' ∧ Standing w' i ch args (votes + todo.length) [] ∧ SameLogs w w' ∧
      (∀ f ∈ todo, (w'.server f).rf.currentTerm = args.term) ∧
      ∀ j, j ≠ i → j ∉ todo → w'.server j = w.server j := by
  induction todo generalizing w votes with
  | nil => exact ⟨w, .refl, h, SameLogs.refl w, by simp, fun _ _ _ => rfl⟩
  | cons f todo ih =>
    rw [List.nodup_cons] at hnodup
    have hfi : f ≠ i := by
      rintro rfl
      exact hi List.mem_cons_self
    have hi' : i ∉ todo := fun hmem => hi (List.mem_cons_of_mem _ hmem)
    rcases h.round hM (htodo f List.mem_cons_self) hfi hnodup.1 hi' with
      ⟨w₁, hr₁, hstand₁, hlogs₁, hterm₁, hothers₁⟩
    rcases ih hstand₁ (fun g hg => htodo g (List.mem_cons_of_mem _ hg)) hi' hnodup.2 with
      ⟨w₂, hr₂, hstand₂, hlogs₂, hterm₂, hothers₂⟩
    have hvotes : votes + 1 + todo.length = votes + (f :: todo).length := by
      rw [List.length_cons]
      omega
    rw [hvotes] at hstand₂
    refine ⟨w₂, hr₁.trans hr₂, hstand₂, hlogs₁.trans hlogs₂, fun g hg => ?_, fun j hji hj => ?_⟩
    · rcases List.mem_cons.mp hg with rfl | hg
      · rw [hothers₂ g hfi hnodup.1]
        exact hterm₁
      · exact hterm₂ g hg
    · rw [List.mem_cons, not_or] at hj
      rw [hothers₂ j hji hj.2, hothers₁ j hji hj.1]

/-- Some peer of `M` has a log that is up to date for all of them. -/
theorem exists_upToDate (hM : M.Nonempty) :
    ∃ i ∈ M, ∀ f ∈ M, (w.server f).rf.upToDate (voteRequest i (w.server i).rf) := by
  rcases M.exists_max_image
    (fun j => toLex ((w.server j).rf.lastLogTerm, (w.server j).rf.lastLogIndex)) hM with
    ⟨i, hi, hmax⟩
  refine ⟨i, hi, fun f hf => ?_⟩
  rcases Prod.Lex.toLex_le_toLex.mp (hmax f hf) with hlt | ⟨heq, hle⟩
  · exact Or.inl hlt
  · exact Or.inr ⟨heq.symm, hle⟩

/-- A majority of at least two peers can elect one of them, without a change of a log. -/
theorem exists_elected (h : Sane w) (h2 : 2 ≤ n) (hM : n < 2 * M.card) :
    ∃ i ∈ M, ∃ w', Reaches M w w' ∧ SameLogs w w' ∧ Fresh (w'.server i).rf ∧
      ∀ f ∈ M, (w'.server f).rf.currentTerm = (w'.server i).rf.currentTerm := by
  have hne : M.Nonempty := Finset.card_pos.mp (by omega)
  rcases exists_upToDate (w := w) hne with ⟨i, hi, hup⟩
  rcases Finset.exists_mem_ne (show 1 < M.card by omega) i with ⟨f₀, hf₀, hfi₀⟩
  rcases exists_deposed h hi hf₀ hfi₀ with ⟨w₁, hr₁, hst₁, hlogs₁⟩
  rcases M.exists_max_image (fun j => (w₁.server j).rf.currentTerm) hne with ⟨g, -, hmax⟩
  rcases exists_campaign hi hst₁ (w₁.server g).rf.currentTerm with
    ⟨w₂, hr₂, hst₂, hgt, hvotes, hlogs₂, hothers₂, hasked⟩
  have hlogs := hlogs₁.trans hlogs₂
  have hstand : Standing w₂ i (w₂.server i).rf.voteCh (voteRequest i (w₂.server i).rf) 1
      (M.erase i).toList := by
    refine ⟨rfl, Or.inl ⟨hst₂, rfl, hvotes, by omega⟩, fun f hf => ?_⟩
    rcases Finset.mem_erase.mp (Finset.mem_toList.mp hf) with ⟨hfi, hfM⟩
    refine ⟨hasked f hfi, ?_, ?_⟩
    · rw [hothers₂ f hfi]
      exact lt_of_le_of_lt (hmax f hfM) hgt
    · have hf := hup f hfM
      simp only [upToDate, voteRequest] at hf ⊢
      rw [(hlogs i).lastLogTerm_eq, (hlogs i).lastLogIndex_eq, (hlogs f).lastLogTerm_eq,
        (hlogs f).lastLogIndex_eq]
      exact hf
  rcases hstand.rounds hi (fun f hf => Finset.mem_of_mem_erase (Finset.mem_toList.mp hf))
    (fun hmem => Finset.notMem_erase i M (Finset.mem_toList.mp hmem)) (Finset.nodup_toList _) with
    ⟨w₃, hr₃, hstand₃, hlogs₃, hterms, -⟩
  have hfresh : Fresh (w₃.server i).rf := by
    refine hstand₃.state.resolve_left fun hcand => ?_
    rcases hcand with ⟨-, -, -, hle⟩
    rw [Finset.length_toList, Finset.card_erase_of_mem hi] at hle
    omega
  refine ⟨i, hi, w₃, (hr₁.trans hr₂).trans hr₃, hlogs.trans hlogs₃, hfresh, fun f hf => ?_⟩
  by_cases hfi : f = i
  · rw [hfi]
  · rw [hterms f (Finset.mem_toList.mpr (Finset.mem_erase.mpr ⟨hfi, hf⟩)), hstand₃.term]

end

end DistStudy.Raft
