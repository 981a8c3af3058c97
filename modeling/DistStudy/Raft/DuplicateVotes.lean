import DistStudy.Lib.Behavior
import DistStudy.Raft.Ballot

/-!
# One peer under repeated requests

A single peer that gets vote requests, appends and snapshots with arbitrary
arguments, in any order and any number of times, runs into election timeouts
and crashes, also in the middle of a handler. `votes` keeps the votes it gives.

The refusal branch of `handleRequestVote` writes `votedFor = -1` also when the
refused candidate is the one that has the vote. A repeated request of that
candidate, after the log of the peer has grown, takes the vote back and another
candidate gets one in the same term. As requests carry any term, the peer may
also come to the largest `int`: `startElection` goes on with the smallest one,
and the terms in which the peer has voted come again. `rival_gets_vote` has a
run of each kind. Where no such request is handled and no election follows the
largest term, the peer votes once in a term (`votes_once`).

The indexes of the requests are not limited either. They decide which entries
the log keeps, and nothing here is about the log: `KeepsVote` reads it as the
request finds it.
-/

namespace DistStudy.Raft

variable {n : ℕ} {α : Type}

/-- A peer and the votes it has given: the term and the candidate. -/
structure Voter (n : ℕ) (α : Type) where
  server : Server n α
  votes : List (Int × Int)
deriving DecidableEq, Repr

inductive VoterEvent (n : ℕ) (α : Type) where
  | handle (input : Input n α)
  /-- The peer crashes after `k` effects of the handler. -/
  | crashDuring (input : Input n α) (k : ℕ)
  | crash
deriving DecidableEq, Repr

def VoterEvent.input : VoterEvent n α → Option (Input n α)
  | .handle input => some input
  | .crashDuring input _ => some input
  | .crash => none

/-- `currentTerm + 1` on 64 bits: after `math.MaxInt` comes `math.MinInt`. -/
def nextTerm (term : Int) : Int := if term = maxInt then -2 ^ 63 else term + 1

/-- The memory in which `startElection` adds one to the term, such that the sum
is that of 64 bits. -/
def wrapped (rf : Raft n α) : Input n α → Raft n α
  | .electionTimer => { rf with currentTerm := nextTerm rf.currentTerm - 1 }
  | _ => rf

theorem elected_wrapped (me : Fin n) (rf : Raft n α) :
    (Raft.elected me (rf.wrapped .electionTimer)).currentTerm = nextTerm rf.currentTerm :=
  Int.sub_add_cancel _ _

/-- A reply that grants a vote. -/
def Effect.grants : Effect n α → Bool
  | .reply (.requestVote r) => r.voteGranted
  | _ => false

/-- The votes that effects of an input give: to the candidate that is told so, and
to the peer itself once its election is on the persister. -/
def cast (me : Fin n) (rf : Raft n α) (es : List (Effect n α)) : Input n α → List (Int × Int)
  | .requestVote args => if es.any Effect.grants then [(args.term, args.candidateId)] else []
  | .electionTimer => if es.isEmpty then [] else [(nextTerm rf.currentTerm, me)]
  | _ => []

namespace Voter

def step (me : Fin n) (v : Voter n α) : VoterEvent n α → Option (Voter n α)
  | .handle input => do
    let handler ← serve me v.server.rf input
    let (_, rf) ← (handler (v.server.rf.wrapped input)).2
    let es := (handler (v.server.rf.wrapped input)).1
    some { server := v.server.perform es rf, votes := v.votes ++ cast me v.server.rf es input }
  | .crashDuring input k => do
    let handler ← serve me v.server.rf input
    let es := (handler (v.server.rf.wrapped input)).1.take k
    some { server := (v.server.perform es v.server.rf).restart
           votes := v.votes ++ cast me v.server.rf es input }
  | .crash => some { v with server := v.server.restart }

/-- The peer has just been made on an empty persister. -/
def init : Voter n α where
  server :=
    { rf := make {}, persister := {}, incarnation := 0, snapshotRequestCh := [],
      applied := { start := 0, msgs := [] }, past := [] }
  votes := []

end Voter

/-- The id of another peer. -/
def OtherPeer (me : Fin n) (id : Int) : Prop := ∃ c : Fin n, c ≠ me ∧ id = c

instance (me : Fin n) (id : Int) : Decidable (OtherPeer me id) :=
  inferInstanceAs (Decidable (∃ c : Fin n, c ≠ me ∧ id = c))

/-- The inputs of the sequences: requests of other peers, and timeouts. -/
def Admissible (me : Fin n) : Input n α → Prop
  | .requestVote args => OtherPeer me args.candidateId
  | .appendEntries args => OtherPeer me args.leaderId
  | .installSnapshot args => OtherPeer me args.leaderId
  | .electionTimer => True
  | _ => False

instance (me : Fin n) : ∀ input : Input n α, Decidable (Admissible me input)
  | .requestVote _ | .appendEntries _ | .installSnapshot _ => by unfold Admissible; infer_instance
  | .electionTimer => inferInstanceAs (Decidable True)
  | .snapshotRequest _ | .command _ | .applyTimer | .heartbeatTimer | .broadcastEntriesTimer
  | .vote _ _ | .appendEntriesReply _ _ _ | .installSnapshotReply _ _ =>
    inferInstanceAs (Decidable False)

/-- The request does not come from the candidate that has the vote of the term,
with a log that is no longer up to date. -/
def KeepsVote (rf : Raft n α) : Input n α → Prop
  | .requestVote args => args.term = rf.currentTerm → args.candidateId = rf.votedFor →
      rf.upToDate args
  | _ => True

instance (rf : Raft n α) : ∀ input : Input n α, Decidable (KeepsVote rf input)
  | .requestVote args =>
    inferInstanceAs (Decidable (args.term = rf.currentTerm → args.candidateId = rf.votedFor →
      rf.upToDate args))
  | .appendEntries _ | .installSnapshot _ | .electionTimer | .snapshotRequest _ | .command _
  | .applyTimer | .heartbeatTimer | .broadcastEntriesTimer | .vote _ _
  | .appendEntriesReply _ _ _ | .installSnapshotReply _ _ => inferInstanceAs (Decidable True)

/-- An election does not start in the largest term. -/
def HasNextTerm (rf : Raft n α) : Input n α → Prop
  | .electionTimer => rf.currentTerm < maxInt
  | _ => True

instance (rf : Raft n α) : ∀ input : Input n α, Decidable (HasNextTerm rf input)
  | .electionTimer => inferInstanceAs (Decidable (rf.currentTerm < maxInt))
  | .requestVote _ | .appendEntries _ | .installSnapshot _ | .snapshotRequest _ | .command _
  | .applyTimer | .heartbeatTimer | .broadcastEntriesTimer | .vote _ _
  | .appendEntriesReply _ _ _ | .installSnapshotReply _ _ => inferInstanceAs (Decidable True)

/-! ## The invariant -/

/-- The ballot `b` agrees with the votes given: they are of terms up to its own,
one for each term, and the vote of the current term is the one kept. -/
structure Records (votes : List (Int × Int)) (b : Int × Int) : Prop where
  le : ∀ {t c}, (t, c) ∈ votes → t ≤ b.1
  now : ∀ {c}, (b.1, c) ∈ votes → b.2 = c
  real : ∀ {t c}, (t, c) ∈ votes → c ≠ -1
  once : ∀ {t c c'}, (t, c) ∈ votes → (t, c') ∈ votes → c = c'

variable {votes : List (Int × Int)} {b : Int × Int}

theorem Records.nil : Records [] b := by
  constructor <;> simp

/-- Moving to a term without votes. -/
theorem Records.raise (h : Records votes b) {t v : Int} (ht : b.1 < t) : Records votes (t, v) := by
  refine ⟨fun hmem => ?_, fun hmem => ?_, h.real, h.once⟩
  · have hle := h.le hmem
    simp only
    omega
  · have hle := h.le hmem
    simp only at hle
    omega

/-- Giving the vote of the current term to the candidate that is kept. -/
theorem Records.give (h : Records votes b) (hc : b.2 ≠ -1) : Records (votes ++ [b]) b := by
  have hmem : ∀ {t c}, (t, c) ∈ votes ++ [b] → (t, c) ∈ votes ∨ t = b.1 ∧ c = b.2 := by
    intro t c hmem
    rcases List.mem_append.mp hmem with hmem | hmem
    · exact Or.inl hmem
    · right
      have heq := List.mem_singleton.mp hmem
      exact ⟨congrArg Prod.fst heq, congrArg Prod.snd heq⟩
  refine ⟨fun ht => ?_, fun ht => ?_, fun ht => ?_, fun {t c c'} ht ht' => ?_⟩
  · rcases hmem ht with ht | ⟨rfl, -⟩
    · exact h.le ht
    · exact le_refl _
  · rcases hmem ht with ht | ⟨-, rfl⟩
    · exact h.now ht
    · rfl
  · rcases hmem ht with ht | ⟨-, rfl⟩
    · exact h.real ht
    · exact hc
  · rcases hmem ht with ht | ⟨heq, hc⟩
    · rcases hmem ht' with ht' | ⟨rfl, rfl⟩
      · exact h.once ht ht'
      · exact (h.now ht).symm
    · rcases hmem ht' with ht' | ⟨-, hc'⟩
      · rw [hc]
        rw [heq] at ht'
        exact h.now ht'
      · rw [hc, hc']

section

variable {me : Fin n} {rf : Raft n α} {input : Input n α} {es : List (Effect n α)}

theorem nextTerm_eq (h : HasNextTerm rf .electionTimer) :
    nextTerm rf.currentTerm = rf.currentTerm + 1 := if_neg (Int.ne_of_lt h)

theorem wrapped_eq (h : HasNextTerm rf input) : rf.wrapped input = rf := by
  cases input with
  | electionTimer =>
    simp only [wrapped]
    rw [nextTerm_eq h, Int.add_sub_cancel]
  | _ => rfl

theorem Quiet.grants_eq_false {e : Effect n α} (h : Quiet b e) : e.grants = false := by
  cases e with
  | reply r =>
    cases r with
    | requestVote r => exact h
    | _ => rfl
  | _ => rfl

theorem any_grants_quiet (h : ∀ e ∈ es, Quiet b e) : es.any Effect.grants = false := by
  rw [List.any_eq_false]
  intro e he
  simp [(h e he).grants_eq_false]

/-- An election either has not reached the persister or is on it. -/
theorem Ballots.of_election (hb : Ballots me rf .electionTimer es b)
    (hes : es = [] ∨ ∃ rest, es = .save (Raft.elected me rf).persisted :: rest) :
    es = [] ∧ b = rf.ballot ∨ es ≠ [] ∧ b = (rf.currentTerm + 1, (me : Int)) := by
  have hsaved : (Raft.elected me rf).persisted.ballot = (rf.currentTerm + 1, (me : Int)) := by
    simp [ballot]
  rcases hes with rfl | ⟨rest, hes⟩
  · refine Or.inl ⟨rfl, ?_⟩
    have hlast := hb.lastSave (persisted_ballot rf)
    rw [lastSave_nil, persisted_ballot] at hlast
    exact hlast.symm
  · refine Or.inr ⟨by simp [hes], ?_⟩
    have hmem : .save (Raft.elected me rf).persisted ∈ es := by simp [hes]
    cases hb with
    | quiet es h =>
      have hq : (Raft.elected me rf).persisted.ballot = rf.ballot := h _ hmem
      rw [hsaved] at hq
      have hterm : rf.currentTerm + 1 = rf.currentTerm := congrArg Prod.fst hq
      omega
    | raised p es t ht hp h =>
      have hp' : (Raft.elected me rf).persisted.ballot = (t, -1) := by
        rcases List.mem_cons.mp hmem with hmem | hmem
        · cases hmem
          exact hp
        · exact h _ hmem
      rw [hsaved] at hp'
      have hv : (me : Int) = -1 := congrArg Prod.snd hp'
      omega
    | elected p servers hin hp hs hd => rfl
    | decided args v es₀ es p r hin => cases hin

/-- Without a granted vote only an election gives one. -/
theorem cast_eq_nil (helect : input ≠ .electionTimer) (hno : es.any Effect.grants = false) :
    cast me rf es input = [] := by
  cases input with
  | requestVote args => simp [cast, hno]
  | electionTimer => exact absurd rfl helect
  | _ => rfl

/-- The vote of an election is the one of a term without votes. -/
theorem Records.election (h : Records votes rf.ballot) (hb : Ballots me rf .electionTimer es b)
    (hnext : HasNextTerm rf .electionTimer)
    (hes : es = [] ∨ ∃ rest, es = .save (Raft.elected me rf).persisted :: rest) :
    Records (votes ++ cast me rf es .electionTimer) b := by
  rcases hb.of_election hes with ⟨rfl, rfl⟩ | ⟨hne, rfl⟩
  · simpa [cast] using h
  · have hlt : rf.ballot.1 < rf.currentTerm + 1 := Int.lt_succ rf.currentTerm
    have hraise : Records votes (rf.currentTerm + 1, (me : Int)) := h.raise hlt
    have hcast : cast me rf es .electionTimer = [(rf.currentTerm + 1, (me : Int))] := by
      simp [cast, hne, nextTerm_eq hnext]
    rw [hcast]
    exact hraise.give (by simp only; omega)

section

variable {args : RequestVoteArgs} (hopen : rf.currentTerm < args.term ∨
  rf.currentTerm = args.term ∧ (rf.votedFor = -1 ∨ rf.votedFor = args.candidateId))

include hopen

/-- A request that is decided on finds no votes of later terms. -/
theorem Records.le_request (h : Records votes rf.ballot) {t c : Int} (hmem : (t, c) ∈ votes) :
    t ≤ args.term := by
  have hle : t ≤ rf.currentTerm := h.le hmem
  rcases hopen with hlt | ⟨heq, -⟩ <;> omega

/-- If there is a vote of its term, its candidate has it. -/
theorem Records.eq_request (h : Records votes rf.ballot) {c : Int}
    (hmem : (args.term, c) ∈ votes) : rf.currentTerm = args.term ∧ c = args.candidateId := by
  have hle : args.term ≤ rf.currentTerm := h.le hmem
  rcases hopen with hlt | ⟨heq, hvf⟩
  · omega
  · have hnow : rf.votedFor = c := h.now (by rw [← heq] at hmem; exact hmem)
    rcases hvf with hvf | hvf
    · exact absurd (hnow.symm.trans hvf) (h.real hmem)
    · exact ⟨heq, hnow.symm.trans hvf⟩

/-- The candidate gets the vote. -/
theorem Records.granted (h : Records votes rf.ballot) (hid : args.candidateId ≠ -1) :
    Records (votes ++ cast me rf es (.requestVote args)) (args.term, args.candidateId) := by
  have hrec : Records votes (args.term, args.candidateId) :=
    ⟨h.le_request hopen, fun hmem => (h.eq_request hopen hmem).2.symm, h.real, h.once⟩
  by_cases hg : es.any Effect.grants = true
  · simpa [cast, hg] using hrec.give hid
  · rw [cast_eq_nil (by simp) (by simpa using hg), List.append_nil]
    exact hrec

/-- The candidate does not get the vote, and it did not have it. -/
theorem Records.refused (h : Records votes rf.ballot) (hkeep : KeepsVote rf (.requestVote args))
    (hold : ¬ (rf.caughtUp args.term).upToDate args) (hno : es.any Effect.grants = false) :
    Records (votes ++ cast me rf es (.requestVote args)) (args.term, -1) := by
  rw [cast_eq_nil (by simp) hno, List.append_nil]
  refine ⟨h.le_request hopen, fun {c} hmem => ?_, h.real, h.once⟩
  rcases h.eq_request hopen hmem with ⟨heq, rfl⟩
  have hvoted : rf.votedFor = args.candidateId := h.now (by rw [← heq] at hmem; exact hmem)
  have hsame : rf.caughtUp args.term = rf := if_neg (by omega)
  rw [hsame] at hold
  exact absurd (hkeep heq.symm hvoted.symm) hold

end

/-- The votes of an input agree with the ballot it leaves, unless a repeated
request takes the vote back or the term wraps. -/
theorem Records.ballots (h : Records votes rf.ballot) (hb : Ballots me rf input es b)
    (hin : Admissible me input) (hkeep : KeepsVote rf input) (hnext : HasNextTerm rf input)
    (hel : input = .electionTimer →
      es = [] ∨ ∃ rest, es = .save (Raft.elected me rf).persisted :: rest) :
    Records (votes ++ cast me rf es input) b := by
  by_cases helect : input = .electionTimer
  · subst helect
    exact h.election hb hnext (hel rfl)
  cases hb with
  | quiet es hq =>
    rw [cast_eq_nil helect (any_grants_quiet hq), List.append_nil]
    exact h
  | raised p es t ht hp hq =>
    have hall : ∀ e ∈ .save p :: es, Quiet (t, -1) e := by
      intro e he
      rcases List.mem_cons.mp he with rfl | he
      · exact hp
      · exact hq e he
    rw [cast_eq_nil helect (any_grants_quiet hall), List.append_nil]
    exact h.raise ht
  | elected p servers hin' => exact absurd hin' helect
  | decided args v es₀ es p r hin' hb' hv hp hr hes =>
    subst hin'
    have hid : args.candidateId ≠ -1 := by
      rcases hin with ⟨c, -, hc⟩
      omega
    have hopen := hb'.imp And.left (And.imp_right And.right)
    rcases hv with rfl | ⟨rfl, hold⟩
    · exact h.granted hopen hid
    · refine h.refused hopen hkeep hold ?_
      -- the reply of a refusal grants nothing
      have hr' : r.voteGranted = false := by
        cases hg : r.voteGranted with
        | true => exact absurd (hr hg).symm hid
        | false => rfl
      rcases hb' with ⟨-, p₀, -, rfl⟩ | ⟨-, rfl, -⟩ <;> rcases hes with rfl | rfl <;>
        simp [Effect.grants, hr']

end

/-! ## Runs -/

/-- The invariant of the runs. -/
structure Voter.Inv (v : Voter n α) : Prop where
  disk : v.server.persister.ballot = v.server.rf.ballot
  records : Records v.votes v.server.rf.ballot

/-- The events of the sequences. -/
def Legal (me : Fin n) (_ : Voter n α) (event : VoterEvent n α) : Prop :=
  ∀ input ∈ event.input, Admissible me input

/-- The events in which no repeated request takes a vote back and no term wraps. -/
def Sparing (me : Fin n) (v : Voter n α) (event : VoterEvent n α) : Prop :=
  ∀ input ∈ event.input,
    Admissible me input ∧ KeepsVote v.server.rf input ∧ HasNextTerm v.server.rf input

instance (me : Fin n) (v : Voter n α) (event : VoterEvent n α) : Decidable (Legal me v event) :=
  inferInstanceAs (Decidable (∀ input ∈ event.input, _))

instance (me : Fin n) (v : Voter n α) (event : VoterEvent n α) : Decidable (Sparing me v event) :=
  inferInstanceAs (Decidable (∀ input ∈ event.input, _))

theorem Outcome.election_save {me : Fin n} {rf : Raft n α} {es : List (Effect n α)}
    {res : Option (Raft n α)} (h : Outcome me rf .electionTimer es res) :
    ∃ rest, es = .save (Raft.elected me rf).persisted :: rest := by
  cases h with
  | elected h => exact ⟨_, rfl⟩
  | higherTerm hin h => cases hin
  | sent input es res hin => rcases hin with hin | hin <;> cases hin

theorem Voter.Inv.step {me : Fin n} {v v' : Voter n α} {event : VoterEvent n α} (h : v.Inv)
    (hC : Sparing me v event) (hs : v.step me event = some v') : v'.Inv := by
  cases event with
  | handle input =>
    rcases hC input rfl with ⟨hin, hkeep, hnext⟩
    simp only [Voter.step, wrapped_eq hnext, Option.bind_eq_bind, Option.bind_eq_some_iff] at hs
    rcases hs with ⟨handler, hserve, ⟨_, rf⟩, hres, hs⟩
    obtain rfl := Option.some.inj hs
    have ho := serve_outcome hserve
    rcases ho.ballots with ⟨b, hb, hend⟩
    have hmem : rf.ballot = b := hend rf (by rw [hres]; rfl)
    refine ⟨?_, ?_⟩
    · exact (hb.lastSave h.disk).trans hmem.symm
    · have hrec := h.records.ballots hb hin hkeep hnext fun hel => by
        subst hel
        exact Or.inr ho.election_save
      rw [← hmem] at hrec
      exact hrec
  | crashDuring input k =>
    rcases hC input rfl with ⟨hin, hkeep, hnext⟩
    simp only [Voter.step, wrapped_eq hnext, Option.bind_eq_bind, Option.bind_eq_some_iff] at hs
    rcases hs with ⟨handler, hserve, hs⟩
    obtain rfl := Option.some.inj hs
    have ho := serve_outcome hserve
    rcases ho.ballots with ⟨b₀, hb₀, -⟩
    rcases hb₀.take k with ⟨b, hb⟩
    have hdisk := hb.lastSave h.disk
    have hmade : (make (lastSave v.server.persister ((handler v.server.rf).1.take k)) :
        Raft n α).ballot = b := (make_ballot _).trans hdisk
    refine ⟨hdisk.trans hmade.symm, ?_⟩
    have hrec := h.records.ballots hb hin hkeep hnext fun hel => by
      subst hel
      rcases ho.election_save with ⟨rest, hes⟩
      cases k with
      | zero => exact Or.inl rfl
      | succ k => exact Or.inr ⟨_, by rw [hes]; rfl⟩
    rw [← hmade] at hrec
    exact hrec
  | crash =>
    obtain rfl := Option.some.inj hs
    have hmade : (make v.server.persister : Raft n α).ballot = v.server.rf.ballot :=
      (make_ballot _).trans h.disk
    have hrec := h.records
    rw [← hmade] at hrec
    exact ⟨h.disk.trans hmade.symm, hrec⟩

theorem Voter.inv_init : (Voter.init : Voter n α).Inv where
  disk := rfl
  records := .nil

/-- A peer that handles no repeated request of the candidate it has voted for
with an outdated log, and starts no election in the largest term, votes for at
most one candidate in a term. -/
theorem votes_once {me : Fin n} {e : Behavior (Voter n α)}
    (h : Runs Voter.init (Voter.step me) (Sparing me) e) (k : ℕ) {t c c' : Int}
    (hc : (t, c) ∈ (e k).votes) (hc' : (t, c') ∈ (e k).votes) : c = c' := by
  have hinv : (e k).Inv :=
    h.invariant Voter.Inv Voter.inv_init (fun v event v' hv hC hs => hv.step hC hs) k
  exact hinv.records.once hc hc'

/-- Candidate 1 asks twice with an empty log, then candidate 2 does. -/
def repeatedRequests : List (VoterEvent 3 ℕ) :=
  [.handle (.requestVote ⟨1, 1, 0, 0⟩), .handle (.requestVote ⟨1, 1, 0, 0⟩),
    .handle (.requestVote ⟨1, 2, 0, 0⟩)]

theorem votes_once_repeated :
    (play (Voter.step 0) Voter.init (repeatedRequests.take 3)).votes = [(1, 1), (1, 1)] ∧
      (1 : Int) = 1 :=
  ⟨by decide, votes_once (t := 1) (Runs.play (by decide : Plays (Voter.step 0) (Sparing 0)
    Voter.init repeatedRequests)) 3 (by decide) (by decide)⟩

/-- Candidate 1 gets the vote of term 1, its log entry is appended, its request
is repeated, and then candidate 2 asks. -/
def rivalRequests : List (VoterEvent 3 ℕ) :=
  [.handle (.requestVote ⟨1, 1, 0, 0⟩), .handle (.appendEntries ⟨1, 1, 0, 0, [⟨1, 1, 7⟩], 0⟩),
    .handle (.requestVote ⟨1, 1, 0, 0⟩), .handle (.requestVote ⟨1, 2, 1, 1⟩)]

/-- Candidate 1 gets the vote of the largest term, the election timer fires, and
candidate 2 asks. -/
def largestTermRequests : List (VoterEvent 3 ℕ) :=
  [.handle (.requestVote ⟨maxInt, 1, 0, 0⟩), .handle .electionTimer,
    .handle (.requestVote ⟨maxInt, 2, 0, 0⟩)]

/-- The peer votes for candidates 1 and 2 in term 1, or in the largest term. -/
theorem rival_gets_vote :
    (Runs Voter.init (Voter.step 0) (Legal 0)
        (fun k => play (Voter.step 0) Voter.init (rivalRequests.take k)) ∧
      (play (Voter.step 0) Voter.init (rivalRequests.take 4)).votes = [(1, 1), (1, 2)]) ∧
    (Runs Voter.init (Voter.step 0) (Legal 0)
        (fun k => play (Voter.step 0) Voter.init (largestTermRequests.take k)) ∧
      (play (Voter.step 0) Voter.init (largestTermRequests.take 3)).votes =
        [(maxInt, 1), (-2 ^ 63, 0), (maxInt, 2)]) := by
  constructor
  · exact ⟨Runs.play (by decide), by decide⟩
  · exact ⟨Runs.play (by decide), by decide⟩

end DistStudy.Raft
