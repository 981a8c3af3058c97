import DistStudy.Raft.Steps

/-!
# Terms and votes of one peer

The ballot of a peer is its term and its vote. `Ballots` says how the ballot on
the persister moves while the effects of one event are performed: it stays, it
moves to a higher term without a vote, or the peer votes. Every prefix of the
effects is again of this form (`Ballots.take`), so a crash in the middle of a
handler needs no separate argument.

`Stands` says the same of the status, the term and the counted votes in memory.
-/

namespace DistStudy.Raft

variable {n : ℕ} {α : Type}

/-- The term and the vote of a peer. -/
def ballot (rf : Raft n α) : Int × Int := (rf.currentTerm, rf.votedFor)

/-- The term and the vote on a persister. -/
def Persister.ballot (p : Persister α) : Int × Int :=
  match p.raftstate with
  | none => (0, -1)
  | some data => (data.currentTerm, data.votedFor)

@[simp] theorem persisted_ballot (rf : Raft n α) : rf.persisted.ballot = rf.ballot := by
  unfold persisted
  split_ifs <;> rfl

@[simp] theorem installed_ballot (rf : Raft n α) (data : GoBytes) :
    (rf.installed data).ballot = rf.ballot := rfl

@[simp] theorem make_ballot (p : Persister α) : (make p : Raft n α).ballot = p.ballot := by
  rcases p with ⟨_ | data, snapshot⟩ <;> rfl

theorem make_status (p : Persister α) : (make p : Raft n α).status = .follower := by
  rcases p with ⟨_ | data, snapshot⟩ <;> rfl

/-- An effect that leaves the ballot `b` on the persister and neither asks for a
vote nor grants one. -/
def Quiet (b : Int × Int) : Effect n α → Prop
  | .save p => p.ballot = b
  | .call _ (.requestVote _ _) => False
  | .reply (.requestVote r) => r.voteGranted = false
  | _ => True

theorem Quiet.lastSave {b : Int × Int} {es : List (Effect n α)} (h : ∀ e ∈ es, Quiet b e)
    {p : Persister α} (hp : p.ballot = b) : (lastSave p es).ballot = b := by
  rcases lastSave_mem p es with h' | h'
  · rw [h', hp]
  · exact h _ h'

/-- The effects `es` of an input move the ballot on the persister from that of
`rf` to the given one. -/
inductive Ballots (me : Fin n) (rf : Raft n α) (input : Input n α) :
    List (Effect n α) → Int × Int → Prop
  | quiet (es : List (Effect n α)) (h : ∀ e ∈ es, Quiet rf.ballot e) :
      Ballots me rf input es rf.ballot
  | raised (p : Persister α) (es : List (Effect n α)) (t : Int) (ht : rf.currentTerm < t)
      (hp : p.ballot = (t, -1)) (h : ∀ e ∈ es, Quiet (t, -1) e) :
      Ballots me rf input (.save p :: es) (t, -1)
  | elected (p : Persister α) (servers : List (Fin n)) (hin : input = .electionTimer)
      (hp : p.ballot = (rf.currentTerm + 1, (me : Int)))
      (hs : ∀ server ∈ servers, server ≠ me) (hd : servers.Nodup) :
      Ballots me rf input
        (.save p :: servers.map fun server =>
          .call server (.requestVote (rf.voteCh + 1) (ballotRequest me rf)))
        (rf.currentTerm + 1, (me : Int))
  /-- A vote request is decided: the vote becomes the candidate's or none. -/
  | decided (args : RequestVoteArgs) (v : Int) (es₀ es : List (Effect n α)) (p : Persister α)
      (r : RequestVoteReply) (hin : input = .requestVote args)
      (hb : rf.currentTerm < args.term ∧
          (∃ p₀ : Persister α, p₀.ballot = (args.term, -1) ∧ es₀ = [.save p₀]) ∨
        rf.currentTerm = args.term ∧ es₀ = [] ∧
          (rf.votedFor = -1 ∨ rf.votedFor = args.candidateId))
      (hv : v = args.candidateId ∨ v = -1 ∧ ¬ (rf.caughtUp args.term).upToDate args)
      (hp : p.ballot = (args.term, v))
      (hr : r.voteGranted = true → v = args.candidateId)
      (hes : es = [] ∨ es = [.reply (.requestVote r)]) :
      Ballots me rf input (es₀ ++ .save p :: es) (args.term, v)

namespace Ballots

variable {me : Fin n} {rf : Raft n α} {input : Input n α} {b : Int × Int}
  {es : List (Effect n α)}

theorem nil : Ballots me rf input [] rf.ballot := .quiet [] (by simp)

/-- Every prefix of the effects moves the ballot in one of the listed ways. -/
theorem take (h : Ballots me rf input es b) (k : ℕ) :
    ∃ b', Ballots me rf input (es.take k) b' := by
  cases h with
  | quiet es h => exact ⟨_, .quiet _ fun e he => h e (List.mem_of_mem_take he)⟩
  | raised p es t ht hp h =>
    cases k with
    | zero => exact ⟨_, nil⟩
    | succ k => exact ⟨_, .raised p _ t ht hp fun e he => h e (List.mem_of_mem_take he)⟩
  | elected p servers hin hp hs hd =>
    cases k with
    | zero => exact ⟨_, nil⟩
    | succ k =>
      rw [List.take_succ_cons, ← List.map_take]
      exact ⟨_, .elected p (servers.take k) hin hp
        (fun server hmem => hs server (List.mem_of_mem_take hmem)) (hd.sublist (List.take_sublist _ _))⟩
  | decided args v es₀ es p r hin hb hv hp hr hes =>
    have hrest : ∀ k, es.take k = [] ∨ es.take k = [.reply (.requestVote r)] := by
      intro k
      rcases hes with rfl | rfl <;> cases k <;> simp
    rcases hb with ⟨hlt, p₀, hp₀, rfl⟩ | ⟨heq, rfl, hb⟩
    · rcases k with _ | _ | k
      · exact ⟨_, nil⟩
      · exact ⟨_, .raised p₀ [] args.term hlt hp₀ (by simp)⟩
      · exact ⟨_, .decided args v [.save p₀] (es.take k) p r hin (Or.inl ⟨hlt, p₀, hp₀, rfl⟩) hv hp
          hr (hrest k)⟩
    · cases k with
      | zero => exact ⟨_, nil⟩
      | succ k => exact ⟨_, .decided args v [] (es.take k) p r hin (Or.inr ⟨heq, rfl, hb⟩) hv hp
          hr (hrest k)⟩

/-- The ballot on the persister after the effects. -/
theorem lastSave (h : Ballots me rf input es b) {p₀ : Persister α}
    (hp₀ : p₀.ballot = rf.ballot) : (lastSave p₀ es).ballot = b := by
  cases h with
  | quiet es h => exact Quiet.lastSave h hp₀
  | raised p es t ht hp h =>
    rw [lastSave_save]
    exact Quiet.lastSave h hp
  | elected p servers hin hp hs hd =>
    rw [lastSave_save]
    rw [lastSave_of_notMem (by simp), hp]
  | decided args v es₀ es p r hin hb hv hp hr hes =>
    rw [lastSave_append, lastSave_save]
    rcases hes with rfl | rfl <;> exact hp

end Ballots

/-! ## The ballots of an event -/

@[simp] theorem withLogs_ballot (rf : Raft n α) (logs : List (Log α)) :
    (rf.withLogs logs).ballot = rf.ballot := rfl

@[simp] theorem accepted_ballot (rf : Raft n α) (args : AppendEntriesArgs α) :
    (rf.accepted args).ballot = rf.ballot := rfl

@[simp] theorem heard_ballot (rf rf' : Raft n α) : (rf.heard rf').ballot = rf'.ballot := by
  unfold heard
  split_ifs <;> rfl

theorem acceptSaves_quiet (rf : Raft n α) (entries : List (Log α)) :
    ∀ e ∈ rf.acceptSaves entries, Quiet rf.ballot e := by
  intro e he
  rcases acceptSaves_saves rf entries e he with ⟨logs, rfl⟩
  simp [Quiet]

theorem Sends.quiet {me : Fin n} {rf : Raft n α} {e : Effect n α} (h : Sends me rf e)
    (b : Int × Int) : Quiet b e := by
  rcases h with ⟨server, entries, prev, -, -, rfl, -⟩
  exact trivial

/-- Effects that are quiet for the ballot of the request's term. -/
theorem Ballots.of_catchUp {me : Fin n} {rf : Raft n α} {input : Input n α} {term : Int}
    {es : List (Effect n α)} (h : ∀ e ∈ es, Quiet (rf.caughtUp term).ballot e) :
    Ballots me rf input (rf.catchUp term ++ es) (rf.caughtUp term).ballot := by
  unfold caughtUp at h ⊢
  unfold catchUp
  split_ifs at h ⊢ with hgt
  · exact .raised _ es term hgt (by simp [ballot]) h
  · exact .quiet es h

theorem Ballots.of_decided {me : Fin n} {rf : Raft n α} {args : RequestVoteArgs} {v : Int}
    {r : RequestVoteReply} (h : ¬ args.term < rf.currentTerm)
    (hv : (rf.caughtUp args.term).votedFor = -1 ∨
      (rf.caughtUp args.term).votedFor = args.candidateId)
    (hd : v = args.candidateId ∨ v = -1 ∧ ¬ (rf.caughtUp args.term).upToDate args)
    (hr : r.voteGranted = true → v = args.candidateId) :
    Ballots me rf (.requestVote args)
      (rf.catchUp args.term ++ [.save ((rf.caughtUp args.term).voted v).persisted,
        .reply (.requestVote r)])
      ((rf.caughtUp args.term).voted v).ballot := by
  have hb : ((rf.caughtUp args.term).voted v).ballot = (args.term, v) := by
    simp [ballot, caughtUp_currentTerm rf h]
  rw [hb]
  refine .decided args v _ _ _ r rfl ?_ hd (by rw [persisted_ballot, hb]) hr (Or.inr rfl)
  unfold catchUp
  unfold caughtUp at hv
  split_ifs at hv ⊢ with hgt
  · exact Or.inl ⟨hgt, _, by simp [ballot], rfl⟩
  · exact Or.inr ⟨by omega, rfl, hv⟩

/-- Every event moves the ballot in one of the listed ways, in memory as on the
persister. -/
theorem Outcome.ballots {me : Fin n} {rf : Raft n α} {input : Input n α}
    {es : List (Effect n α)} {res : Option (Raft n α)} (h : Outcome me rf input es res) :
    ∃ b, Ballots me rf input es b ∧ ∀ rf', res = some rf' → rf'.ballot = b := by
  cases h with
  | voteStale args h => exact ⟨_, .quiet _ (by simp [Quiet]), by simp⟩
  | voteGranted args h hv hu => exact ⟨_, .of_decided h hv (Or.inl rfl) (by simp), by simp⟩
  | voteRefused args h hv hu =>
    exact ⟨_, .of_decided h hv (Or.inr ⟨rfl, hu⟩) (by simp), by simp⟩
  | voteTaken args h hv => exact ⟨_, .of_catchUp (by simp [Quiet]), by simp⟩
  | appendStale args h => exact ⟨_, .quiet _ (by simp [Quiet]), by simp⟩
  | appendRejected args reply h hr => exact ⟨_, .of_catchUp (by simp [Quiet]), by simp⟩
  | appendAccepted args h hr =>
    rw [List.append_assoc]
    refine ⟨_, .of_catchUp fun e he => ?_, by simp⟩
    rcases List.mem_append.mp he with he | he
    · exact acceptSaves_quiet _ _ e he
    · obtain rfl := List.mem_singleton.mp he
      exact trivial
  | installStale args h => exact ⟨_, .quiet _ (by simp [Quiet]), by simp⟩
  | installEmpty args h hd => exact ⟨_, .of_catchUp (by simp [Quiet]), by simp; rfl⟩
  | installCleared args h hd hr => exact ⟨_, .of_catchUp (by simp [Quiet]), by simp; rfl⟩
  | installRetained args logs h hd hr hl => exact ⟨_, .of_catchUp (by simp [Quiet]), by simp; rfl⟩
  | installPanics args h hd hr => exact ⟨_, .of_catchUp (by simp [Quiet]), by simp⟩
  | compacted req h => exact ⟨_, .nil, by simp; rfl⟩
  | compactPanics req h => exact ⟨_, .nil, by simp⟩
  | started command h => exact ⟨_, .quiet _ (by simp [Quiet]), by simp⟩
  | notLeader command h => exact ⟨_, .quiet _ (by simp [Quiet]), by simp⟩
  | applied es res hes hres =>
    refine ⟨_, .quiet _ fun e he => ?_, ?_⟩
    · rcases List.mem_map.mp he with ⟨l, -, rfl⟩
      exact trivial
    · rintro rf' rfl
      rcases hres with h | ⟨-, h⟩
      · cases h
      · rw [Option.some.inj h]; rfl
  | elected h =>
    exact ⟨_, .elected _ (others me) rfl (by simp [ballot])
      (fun server h => mem_others.mp h) ((List.nodup_finRange n).filter _), by simp [ballot]⟩
  | higherTerm hin h => exact ⟨_, .raised _ [] _ h (by simp [ballot]) (by simp), by simp [ballot]⟩
  | voteCounted vote hs h hn => exact ⟨_, .nil, by simp; rfl⟩
  | leaderElected vote es hs h hn hes =>
    exact ⟨_, .quiet es fun e he => (hes e he).quiet _, by simp; rfl⟩
  | sent input es res hin hs hes hres =>
    refine ⟨_, .quiet es fun e he => (hes e he).quiet _, ?_⟩
    rintro rf' rfl
    rcases hres with h | h
    · cases h
    · rw [Option.some.inj h]
  | replyStale reply args server hs h => exact ⟨_, .nil, by simp⟩
  | replySuccess reply args server res hs h hreq hok hres =>
    have hcred : (rf.credited args server).ballot = rf.ballot := by
      unfold credited; split_ifs <;> rfl
    refine ⟨_, .nil, ?_⟩
    rintro rf' rfl
    rcases hres with h | h | ⟨M, -, -, -, h⟩
    · cases h
    · rw [Option.some.inj h, hcred]
    · rw [Option.some.inj h, ← hcred]; rfl
  | replyFailure reply args server es hs h hreq hok hes =>
    refine ⟨_, .quiet es fun e he => ?_, by simp; rfl⟩
    rcases hes with rfl | ⟨rfl, -⟩
    · simp at he
    · obtain rfl := List.mem_singleton.mp he
      exact trivial
  | installReply reply server hs h => exact ⟨_, .nil, by simp⟩

/-- A peer does not call itself. -/
theorem Outcome.calls_apart {me : Fin n} {rf : Raft n α} {input : Input n α}
    {es : List (Effect n α)} {res : Option (Raft n α)} (h : Outcome me rf input es res)
    (hin : ∀ reply args server, input = .appendEntriesReply reply args server → server ≠ me)
    {server : Fin n} {call : Call α} (hc : .call server call ∈ es) : server ≠ me := by
  have hsends : ∀ {rf' : Raft n α}, Sends me rf' (.call server call) → server ≠ me := by
    intro rf' hs
    obtain ⟨_, _, hne, heq⟩ := hs.append
    cases heq
    exact hne
  rcases h.call_cases hc with ⟨-, hne, -⟩ | ⟨-, hs⟩ | ⟨vote, -, -, hs⟩ | ⟨reply, args, -, hrep, -⟩
  · exact hne
  · exact hsends hs
  · exact hsends hs
  · exact hin reply args server hrep

/-! ## The status after an event -/

/-- How the status, the term and the counted votes in memory move. -/
inductive Stands (me : Fin n) (rf : Raft n α) : Input n α → Raft n α → Prop
  | same (input : Input n α) (rf' : Raft n α) (hs : rf'.status = rf.status)
      (ht : rf'.currentTerm = rf.currentTerm) (hg : rf'.grantedVotes = rf.grantedVotes)
      (hc : rf'.voteCh = rf.voteCh) : Stands me rf input rf'
  | follows (input : Input n α) (rf' : Raft n α) (hin : input ≠ .electionTimer)
      (hs : rf'.status = .follower) (hc : rf'.voteCh = rf.voteCh) : Stands me rf input rf'
  | elected (rf' : Raft n α) (hs : rf'.status = .candidate)
      (hb : rf'.ballot = (rf.currentTerm + 1, (me : Int))) (hg : rf'.grantedVotes = 1)
      (hc : rf'.voteCh = rf.voteCh + 1) : Stands me rf .electionTimer rf'
  | counted (vote : RequestVoteReply) (rf' : Raft n α) (hs : rf.status = .candidate)
      (ht : rf'.currentTerm = rf.currentTerm) (hc : rf'.voteCh = rf.voteCh)
      (hg : rf'.grantedVotes = rf.grantedVotes + if vote.voteGranted then 1 else 0)
      (hs' : rf'.status = .candidate ∨ rf'.status = .leader ∧ rf'.grantedVotes > (n / 2 : ℕ)) :
      Stands me rf (.vote rf.voteCh vote) rf'

/-- Catching up leaves the status, the term and the votes, or makes a follower. -/
theorem Stands.of_caughtUp {me : Fin n} {rf rf' : Raft n α} {input : Input n α} {term : Int}
    (hin : input ≠ .electionTimer)
    (hs : rf'.status = (rf.caughtUp term).status ∨ rf'.status = .follower)
    (ht : rf'.currentTerm = (rf.caughtUp term).currentTerm)
    (hg : rf'.grantedVotes = (rf.caughtUp term).grantedVotes)
    (hc : rf'.voteCh = (rf.caughtUp term).voteCh) : Stands me rf input rf' := by
  have hch : (rf.caughtUp term).voteCh = rf.voteCh := by unfold caughtUp; split_ifs <;> rfl
  rcases hs with hs | hs
  · unfold caughtUp at hs ht hg hc
    split_ifs at hs ht hg hc
    · exact .follows input rf' hin hs hc
    · exact .same input rf' hs ht hg hc
  · exact .follows input rf' hin hs (hc.trans hch)

theorem heard_status (rf rf' : Raft n α) :
    (rf.heard rf').status = rf'.status ∨ (rf.heard rf').status = .follower := by
  unfold heard
  split_ifs
  · exact Or.inr rfl
  · exact Or.inl rfl

theorem Outcome.stands {me : Fin n} {rf rf' : Raft n α} {input : Input n α}
    {es : List (Effect n α)} (h : Outcome me rf input es (some rf')) : Stands me rf input rf' := by
  have hheard : ∀ rf₁ : Raft n α, (rf.heard rf₁).currentTerm = rf₁.currentTerm ∧
      (rf.heard rf₁).grantedVotes = rf₁.grantedVotes ∧ (rf.heard rf₁).voteCh = rf₁.voteCh := by
    intro rf₁
    unfold heard
    split_ifs <;> exact ⟨rfl, rfl, rfl⟩
  cases h with
  | voteGranted args h hv hu => exact .of_caughtUp (by simp) (Or.inl rfl) rfl rfl rfl
  | voteRefused args h hv hu => exact .of_caughtUp (by simp) (Or.inl rfl) rfl rfl rfl
  | voteTaken args h hv => exact .of_caughtUp (by simp) (Or.inl rfl) rfl rfl rfl
  | appendRejected args reply h hr =>
    have hk := hheard (rf.caughtUp args.term)
    exact .of_caughtUp (by simp) (heard_status rf _) hk.1 hk.2.1 hk.2.2
  | appendAccepted args h hr =>
    have hk := hheard ((rf.caughtUp args.term).accepted args)
    exact .of_caughtUp (by simp) (heard_status rf _) hk.1 hk.2.1 hk.2.2
  | installEmpty args h hd => exact .of_caughtUp (by simp) (Or.inl rfl) rfl rfl rfl
  | installCleared args h hd hr => exact .of_caughtUp (by simp) (Or.inl rfl) rfl rfl rfl
  | installRetained args logs h hd hr hl => exact .of_caughtUp (by simp) (Or.inl rfl) rfl rfl rfl
  | applied es res hes hres =>
    rcases hres with h | ⟨-, h⟩ <;> cases h
    exact .same _ _ rfl rfl rfl rfl
  | elected h => exact .elected _ rfl rfl rfl rfl
  | higherTerm hin h => exact .follows _ _ (by rintro rfl; cases hin) rfl rfl
  | voteCounted vote hs h hn => exact .counted vote _ hs rfl rfl rfl (Or.inl hs)
  | leaderElected vote es hs h hn hes =>
    exact .counted vote _ hs rfl rfl rfl (Or.inr ⟨rfl, hn⟩)
  | sent input es res hin hs hes hres =>
    rcases hres with h | h <;> cases h
    exact .same _ _ rfl rfl rfl rfl
  | replySuccess reply args server res hs h hreq hok hres =>
    have hcred : (rf.credited args server).status = rf.status ∧
        (rf.credited args server).currentTerm = rf.currentTerm ∧
        (rf.credited args server).grantedVotes = rf.grantedVotes ∧
        (rf.credited args server).voteCh = rf.voteCh := by
      unfold credited
      split_ifs <;> exact ⟨rfl, rfl, rfl, rfl⟩
    rcases hres with h | h | ⟨M, -, -, -, h⟩ <;> cases h
    · exact .same _ _ hcred.1 hcred.2.1 hcred.2.2.1 hcred.2.2.2
    · exact .same _ _ hcred.1 hcred.2.1 hcred.2.2.1 hcred.2.2.2
  | _ => exact .same _ _ rfl rfl rfl rfl

end DistStudy.Raft
