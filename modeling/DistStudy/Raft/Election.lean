import DistStudy.Raft.Ballot
import DistStudy.Lib.Quorum
import Mathlib.Data.Fintype.Fin

/-!
# Elections

Every run of the cluster, with crashes at any point and any use of snapshots:
two peers that are ever leaders of one term are the same peer.

The invariant `Elections vote w` relates the cluster to the table `vote` of all
votes ever given. A *token* is a vote request on its way or a granted vote on
its way back; since a packet is delivered at most once, the tokens on the
network are distinct, and a candidate never counts one voter twice.
-/

namespace DistStudy.Raft

open Function

variable {n : ℕ} {α : Type}

/-! ## The table of votes -/

/-- For every peer and term the candidate it voted for. -/
abbrev Votes (n : ℕ) : Type := Fin n → Int → Option (Fin n)

/-- How a vote is kept in `votedFor`. -/
def code : Option (Fin n) → Int
  | none => -1
  | some c => c

def decode (v : Int) : Option (Fin n) :=
  if h : 0 ≤ v ∧ v < n then some ⟨v.toNat, by omega⟩ else none

@[simp] theorem decode_coe (c : Fin n) : decode (c : Int) = some c := by
  have h : (0 : Int) ≤ c ∧ (c : Int) < n := by omega
  simp [decode]

@[simp] theorem decode_code (o : Option (Fin n)) : decode (code o) = o := by
  cases o with
  | none => rfl
  | some c => exact decode_coe c

theorem code_injective : Injective (code : Option (Fin n) → Int) := by
  intro o o' h
  have hd := congrArg (decode (n := n)) h
  simpa using hd

/-- The table in which the ballot of a peer is written down. -/
def recorded (vote : Votes n) (i : Fin n) (b : Int × Int) : Votes n :=
  update vote i (update (vote i) b.1 (decode b.2))

theorem recorded_eq {vote : Votes n} {i : Fin n} {b : Int × Int} (h : b.2 = code (vote i b.1)) :
    recorded vote i b = vote := by
  rw [recorded, h, decode_code, update_eq_self, update_eq_self]

/-- A ballot that moves as `Ballots` says gives at most one new vote, in a term
in which the peer has not voted. -/
theorem Ballots.vote_cases {vote : Votes n} {i : Fin n} {rf : Raft n α} {input : Input n α}
    {es : List (Effect n α)} {b : Int × Int} (h : Ballots i rf input es b)
    (hnow : rf.votedFor = code (vote i rf.currentTerm))
    (hfut : ∀ t, rf.currentTerm < t → vote i t = none)
    (hreq : ∀ args, input = .requestVote args →
      ∃ c : Fin n, args.candidateId = c ∧ vote i args.term ≠ some c) :
    rf.currentTerm ≤ b.1 ∧ (b.2 = code (vote i b.1) ∨
      vote i b.1 = none ∧ ∃ c : Fin n, b.2 = c ∧
        (input = .electionTimer ∧ b.1 = rf.currentTerm + 1 ∧ c = i ∨
          ∃ args, input = .requestVote args ∧ args.term = b.1 ∧ args.candidateId = c)) := by
  cases h with
  | quiet es h => exact ⟨le_refl _, Or.inl hnow⟩
  | raised p es t ht hp h => exact ⟨le_of_lt ht, Or.inl (by simp [hfut t ht, code])⟩
  | elected p servers hin hp hs hd =>
    exact ⟨by simp, Or.inr ⟨hfut _ (by simp), i, rfl, Or.inl ⟨hin, rfl, rfl⟩⟩⟩
  | decided args v es₀ es p r hin hb hv hp hr hes =>
    rcases hreq args hin with ⟨c, hc, hne⟩
    -- the peer has not voted in the term of the request
    have hnone : vote i args.term = none := by
      rcases hb with ⟨hlt, -⟩ | ⟨heq, -, hb⟩
      · exact hfut _ hlt
      · rw [← heq]
        rcases hb with hb | hb
        · exact code_injective (hnow.symm.trans hb)
        · have hvoted : code (vote i rf.currentTerm) = code (some c) := by
            rw [← hnow, hb, hc]
            rfl
          exact absurd (code_injective hvoted) (heq ▸ hne)
    refine ⟨by rcases hb with ⟨hlt, -⟩ | ⟨heq, -⟩ <;> simp <;> omega, ?_⟩
    rcases hv with rfl | ⟨rfl, -⟩
    · exact Or.inr ⟨hnone, c, hc, Or.inr ⟨args, hin, rfl, hc⟩⟩
    · exact Or.inl (by simp [hnone, code])

/-! ## Votes on the network -/

/-- A vote request on its way, or a granted vote on its way back: the client, the
voter and the term. -/
def token (p : Packet n α) : Option (Fin n × Fin n × Int) :=
  match p.caller.call, p.answer with
  | .requestVote _ args, none => some (p.caller.client, p.server, args.term)
  | .requestVote _ args, some (.requestVote r) =>
    if r.voteGranted then some (p.caller.client, p.server, args.term) else none
  | _, _ => none

def tokens (net : List (Packet n α)) : List (Fin n × Fin n × Int) := net.filterMap token

theorem token_eq_some {p : Packet n α} {x : Fin n × Fin n × Int} (h : token p = some x) :
    ∃ voteCh args, p.caller.call = .requestVote voteCh args ∧
      x = (p.caller.client, p.server, args.term) ∧
      (p.answer = none ∨ ∃ r, p.answer = some (.requestVote r) ∧ r.voteGranted = true) := by
  unfold token at h
  split at h
  · rename_i voteCh args hcall hans
    exact ⟨voteCh, args, hcall, (Option.some.inj h).symm, Or.inl hans⟩
  · rename_i voteCh args r hcall hans
    split_ifs at h with hg
    exact ⟨voteCh, args, hcall, (Option.some.inj h).symm, Or.inr ⟨r, hans, hg⟩⟩
  · cases h

theorem token_mem {net : List (Packet n α)} {p : Packet n α} {x : Fin n × Fin n × Int}
    (hp : p ∈ net) (h : token p = some x) : x ∈ tokens net :=
  List.mem_filterMap.mpr ⟨p, hp, h⟩

/-- A packet that is taken off the network takes its token along. -/
theorem tokens_eraseIdx {net : List (Packet n α)} {k : ℕ} {p : Packet n α}
    (hp : net[k]? = some p) : (tokens net).Perm ((token p).toList ++ tokens (net.eraseIdx k)) := by
  obtain ⟨hk, rfl⟩ := List.getElem?_eq_some_iff.mp hp
  have hperm : (tokens net).Perm (tokens (net[k] :: net.eraseIdx k)) :=
    (List.getElem_cons_eraseIdx_perm hk).symm.filterMap token
  refine hperm.trans (List.Perm.of_eq ?_)
  unfold tokens
  rw [List.filterMap_cons]
  cases token net[k] <;> rfl

/-- A packet is exchanged for one with the same token or none. -/
theorem tokens_set {net : List (Packet n α)} {k : ℕ} {p p' : Packet n α}
    (hp : net[k]? = some p) (h : token p' = token p ∨ token p' = none) :
    (tokens (net.set k p')).Sublist (tokens net) := by
  obtain ⟨hk, rfl⟩ := List.getElem?_eq_some_iff.mp hp
  have hnet : tokens net =
      tokens (net.take k) ++ (tokens [net[k]] ++ tokens (net.drop (k + 1))) := by
    unfold tokens
    rw [← List.filterMap_append, ← List.filterMap_append, List.singleton_append,
      ← List.drop_eq_getElem_cons hk, List.take_append_drop]
  have hset : tokens (net.set k p') =
      tokens (net.take k) ++ (tokens [p'] ++ tokens (net.drop (k + 1))) := by
    unfold tokens
    rw [← List.filterMap_append, ← List.filterMap_append, List.singleton_append,
      List.set_eq_take_append_cons_drop, if_pos hk]
  have hone : (tokens [p']).Sublist (tokens [net[k]]) := by
    rcases h with h | h <;> simp [tokens, List.filterMap_cons, h]
  rw [hnet, hset]
  exact (List.Sublist.refl _).append (hone.append (List.Sublist.refl _))

/-- A failed call grants nothing. -/
theorem token_failed (c : Caller n α) (i : Fin n) :
    token (.response c i c.call.zeroReply : Packet n α) = none := by
  cases hc : c.call <;> simp [token, Packet.caller, Packet.answer, hc, Call.zeroReply]

/-- What holds of the client `s` of a vote request while it is on its way. -/
structure Current (s : Server n α) (c : Caller n α) (ch : ℕ) (args : RequestVoteArgs) :
    Prop where
  id : args.candidateId = c.client
  term : args.term ≤ s.rf.currentTerm
  incarnation : c.incarnation ≤ s.incarnation
  channel : c.incarnation = s.incarnation → ch ≤ s.rf.voteCh
  /-- The channel that a candidate reads belongs to the election of its term. -/
  election : c.incarnation = s.incarnation → ch = s.rf.voteCh → s.rf.status = .candidate →
    args.term = s.rf.currentTerm

/-- What holds of a packet. -/
structure VotePacket (vote : Votes n) (w : World n α) (p : Packet n α) : Prop where
  apart : p.server ≠ p.caller.client
  current : ∀ {voteCh args}, p.caller.call = .requestVote voteCh args →
    Current (w.server p.caller.client) p.caller voteCh args
  pending : ∀ {voteCh args}, p.caller.call = .requestVote voteCh args → p.answer = none →
    vote p.server args.term ≠ some p.caller.client
  granted : ∀ {voteCh args r}, p.caller.call = .requestVote voteCh args →
    p.answer = some (.requestVote r) → r.voteGranted = true →
    vote p.server args.term = some p.caller.client

/-- The table `vote` holds the votes of the cluster. -/
structure Elections (vote : Votes n) (w : World n α) : Prop where
  now : ∀ i, (w.server i).rf.votedFor = code (vote i (w.server i).rf.currentTerm)
  future : ∀ i t, (w.server i).rf.currentTerm < t → vote i t = none
  disk : ∀ i, (w.server i).persister.ballot = (w.server i).rf.ballot
  /-- Nobody votes for a candidate in a term that it has not reached. -/
  reached : ∀ {v t c}, vote v t = some c → t ≤ (w.server c).rf.currentTerm
  leader : ∀ i, (w.server i).rf.status = .leader →
    Majority fun v => vote v (w.server i).rf.currentTerm = some i
  /-- A candidate has counted voters whose vote is no longer on its way. -/
  candidate : ∀ i, (w.server i).rf.status = .candidate →
    ∃ G : Finset (Fin n), (G.card : Int) = (w.server i).rf.grantedVotes ∧
      ∀ v ∈ G, vote v (w.server i).rf.currentTerm = some i ∧
        (i, v, (w.server i).rf.currentTerm) ∉ tokens w.net
  packets : ∀ p ∈ w.net, VotePacket vote w p
  distinct : (tokens w.net).Nodup

/-- Worlds that agree on the memories, the persisters and the incarnations. -/
def Agree (w w' : World n α) : Prop :=
  ∀ j, (w'.server j).rf = (w.server j).rf ∧ (w'.server j).persister = (w.server j).persister ∧
    (w'.server j).incarnation = (w.server j).incarnation

theorem VotePacket.failed {vote : Votes n} {w : World n α} {c : Caller n α} {i : Fin n}
    (hne : i ≠ c.client)
    (hcur : ∀ {ch args}, c.call = .requestVote ch args → Current (w.server c.client) c ch args) :
    VotePacket vote w (.response c i c.call.zeroReply) where
  apart := hne
  current := hcur
  pending _ hans := by cases hans
  granted {ch args r} hcall hans hg := by
    have hzero : c.call.zeroReply = .requestVote {} := by
      rw [show c.call = .requestVote ch args from hcall]
      rfl
    obtain rfl : RequestVoteReply.mk 0 false = r := by
      simpa [Packet.answer, hzero] using hans
    cases hg

theorem VotePacket.congr {vote : Votes n} {w w' : World n α} {p : Packet n α} (hw : Agree w w')
    (h : VotePacket vote w p) : VotePacket vote w' p := by
  refine { h with current := fun hcall => ?_ }
  have hc := h.current hcall
  have hj := hw p.caller.client
  exact ⟨hc.id, by rw [hj.1]; exact hc.term, by rw [hj.2.2]; exact hc.incarnation,
    by rw [hj.1, hj.2.2]; exact hc.channel, by rw [hj.1, hj.2.2]; exact hc.election⟩

/-- Losing packets and moving requests to and from channels keeps the invariant. -/
theorem Elections.congr {vote : Votes n} {w w' : World n α} (h : Elections vote w)
    (hw : Agree w w') (hp : ∀ p ∈ w'.net, VotePacket vote w p)
    (ht : (tokens w'.net).Sublist (tokens w.net)) : Elections vote w' where
  now i := by rw [(hw i).1]; exact h.now i
  future i := by rw [(hw i).1]; exact h.future i
  disk i := by rw [(hw i).1, (hw i).2.1]; exact h.disk i
  reached {v t c} hv := by rw [(hw c).1]; exact h.reached hv
  leader i := by rw [(hw i).1]; exact h.leader i
  candidate i hi := by
    rw [(hw i).1] at hi ⊢
    rcases h.candidate i hi with ⟨G, hcard, hG⟩
    exact ⟨G, hcard, fun v hv => ⟨(hG v hv).1, fun hmem => (hG v hv).2 (ht.subset hmem)⟩⟩
  packets p hmem := (hp p hmem).congr hw
  distinct := h.distinct.sublist ht

/-! ## A peer performs the effects of an input -/

/-- Peer `i` performs `es`, and nothing else happens. -/
structure Performs (w w' : World n α) (i : Fin n) (caller : Option (Caller n α))
    (es : List (Effect n α)) : Prop where
  others : ∀ j, j ≠ i → w'.server j = w.server j
  net : w'.net = w.net ++ es.filterMap (packetOf i (w.server i).incarnation caller)

/-- Peer `i` goes on after an input, or is a new incarnation. -/
def GoesOn (w w' : World n α) (i : Fin n) (input : Input n α) : Prop :=
  (w'.server i).incarnation = (w.server i).incarnation ∧
      Stands i (w.server i).rf input (w'.server i).rf ∨
    (w'.server i).incarnation = (w.server i).incarnation + 1 ∧
      (w'.server i).rf.status = .follower

/-- What is known of an input of peer `i` after it was taken off the network. -/
structure Credible (vote : Votes n) (w : World n α) (i : Fin n) (input : Input n α)
    (caller : Option (Caller n α)) : Prop where
  request : ∀ {args}, input = .requestVote args → ∃ c : Fin n, args.candidateId = c ∧ c ≠ i ∧
    args.term ≤ (w.server c).rf.currentTerm ∧
    vote i args.term ≠ some c ∧ (c, i, args.term) ∉ tokens w.net
  /-- A granted vote is by a voter that was not yet counted. -/
  counts : ∀ {r}, input = .vote (w.server i).rf.voteCh r → r.voteGranted = true →
    (w.server i).rf.status = .candidate → ∃ G : Finset (Fin n),
      (G.card : Int) = (w.server i).rf.grantedVotes + 1 ∧
      ∀ v ∈ G, vote v (w.server i).rf.currentTerm = some i ∧
        (i, v, (w.server i).rf.currentTerm) ∉ tokens w.net
  peer : ∀ reply args server, input = .appendEntriesReply reply args server → server ≠ i
  apart : ∀ {c}, caller = some c → c.client ≠ i
  caller : ∀ {c ch args}, caller = some c → c.call = .requestVote ch args →
    input = .requestVote args ∧ Current (w.server c.client) c ch args

section

variable {vote : Votes n} {w w' : World n α} {i : Fin n} {input : Input n α}
  {caller : Option (Caller n α)} {es : List (Effect n α)} {b : Int × Int}

/-- What was known of a client stays true while `i` performs effects. -/
theorem Current.performs {c : Caller n α} {ch : ℕ} {args : RequestVoteArgs}
    (h : Current (w.server c.client) c ch args) (hp : Performs w w' i caller es)
    (hgo : GoesOn w w' i input)
    (hle : (w.server i).rf.currentTerm ≤ (w'.server i).rf.currentTerm) :
    Current (w'.server c.client) c ch args := by
  by_cases hc : c.client = i
  · subst hc
    have hinc := h.incarnation
    rcases hgo with ⟨heq, hst⟩ | ⟨heq, hst⟩
    · have hch : (w.server c.client).rf.voteCh ≤ (w'.server c.client).rf.voteCh := by
        cases hst <;> omega
      refine ⟨h.id, h.term.trans hle, by omega, fun hi => ?_, fun hi hv hs => ?_⟩
      · exact (h.channel (by omega)).trans hch
      · have hold := h.channel (by omega)
        cases hst with
        | same input rf' hs' ht hg hc =>
          rw [ht]
          exact h.election (by omega) (by omega) (by rw [← hs', hs])
        | follows input rf' hin hs' hc => rw [hs'] at hs; cases hs
        | elected rf' hs' hb hg hc => omega
        | counted vote rf' hs' ht hc hg hs'' =>
          rw [ht]
          exact h.election (by omega) (by omega) hs'
    · -- no call of the new incarnation is on its way yet
      exact ⟨h.id, h.term.trans hle, by omega, fun hi => by omega, fun hi => by omega⟩
  · rw [hp.others c.client hc]
    exact h

/-- The packets that `i` sends. -/
theorem Performs.mem_net (hp : Performs w w' i caller es) {p : Packet n α} (h : p ∈ w'.net) :
    p ∈ w.net ∨ (∃ server call, .call server call ∈ es ∧
        p = .request ⟨i, (w.server i).incarnation, call⟩ server true) ∨
      ∃ c reply, caller = some c ∧ .reply reply ∈ es ∧ p = .response c i reply := by
  rw [hp.net] at h
  exact (List.mem_append.mp h).imp_right packet_cases

/-- The tokens that effects of `i` put on the network. -/
def sentTokens (i : Fin n) (incarnation : ℕ) (caller : Option (Caller n α))
    (es : List (Effect n α)) : List (Fin n × Fin n × Int) :=
  tokens (es.filterMap (packetOf i incarnation caller))

theorem sentTokens_append (inc : ℕ) (es es' : List (Effect n α)) :
    sentTokens i inc caller (es ++ es') =
      sentTokens i inc caller es ++ sentTokens i inc caller es' := by
  simp [sentTokens, tokens]

theorem Performs.tokens_net (hp : Performs w w' i caller es) :
    tokens w'.net = tokens w.net ++ sentTokens i (w.server i).incarnation caller es := by
  rw [hp.net, sentTokens, tokens, tokens, tokens, List.filterMap_append]

/-- Quiet effects send no token. -/
theorem sentTokens_quiet {inc : ℕ} (h : ∀ e ∈ es, Quiet b e) :
    sentTokens i inc caller es = [] := by
  rw [sentTokens, tokens, List.filterMap_eq_nil_iff]
  intro p hp
  rcases List.mem_filterMap.mp hp with ⟨e, he, hpe⟩
  have hq := h e he
  rw [Option.eq_none_iff_forall_ne_some]
  intro x hx
  rcases token_eq_some hx with ⟨ch, args, hcall, -, hans⟩
  cases e with
  | call server call =>
    obtain rfl := Option.some.inj hpe
    rw [show call = .requestVote ch args from hcall] at hq
    exact hq
  | reply reply =>
    simp only [packetOf, Option.map_eq_some_iff] at hpe
    rcases hpe with ⟨c, -, rfl⟩
    rcases hans with hans | ⟨r, hans, hg⟩
    · cases hans
    · obtain rfl := Option.some.inj hans
      rw [show r.voteGranted = false from hq] at hg
      cases hg
  | _ => cases hpe

/-- The tokens of an input: the requests of a new election, or the granted vote. -/
theorem Ballots.sentTokens {rf : Raft n α} (hb : Ballots i rf input es b) (inc : ℕ) :
    (sentTokens i inc caller es).Nodup ∧ ∀ x ∈ sentTokens i inc caller es,
      (∃ server, server ≠ i ∧ x = (i, server, rf.currentTerm + 1)) ∨
      ∃ c ch args, caller = some c ∧ c.call = .requestVote ch args ∧
        x = (c.client, i, args.term) := by
  cases hb with
  | quiet es h => simp [sentTokens_quiet h]
  | raised p es t ht hp h =>
    have hall : ∀ e ∈ Effect.save p :: es, Quiet (t, -1) e := by
      intro e he
      rcases List.mem_cons.mp he with rfl | he
      · exact hp
      · exact h e he
    simp [sentTokens_quiet hall]
  | elected p servers hin hp hs hd =>
    have heq : Raft.sentTokens i inc caller (.save p :: servers.map fun server =>
        .call server (.requestVote (rf.voteCh + 1) (ballotRequest i rf))) =
        servers.map fun server => (i, server, rf.currentTerm + 1) := by
      simp only [Raft.sentTokens, tokens, List.filterMap_cons, packetOf, List.filterMap_map,
        List.filterMap_filterMap]
      rw [← List.filterMap_eq_map]
      rfl
    rw [heq]
    refine ⟨hd.map fun a a' h => by simpa using h, fun x hx => Or.inl ?_⟩
    rcases List.mem_map.mp hx with ⟨server, hmem, rfl⟩
    exact ⟨server, hs server hmem, rfl⟩
  | decided args v es₀ es p r hin hb' hv hp hr hes =>
    have hsaves : Raft.sentTokens i inc caller (es₀ ++ .save p :: es) =
        Raft.sentTokens i inc caller es := by
      rw [sentTokens_append]
      rcases hb' with ⟨-, p₀, -, rfl⟩ | ⟨-, rfl, -⟩ <;> rfl
    rw [hsaves]
    rcases hes with rfl | rfl
    · exact ⟨List.nodup_nil, fun x hx => absurd hx (by simp [Raft.sentTokens, tokens])⟩
    cases caller with
    | none => exact ⟨List.nodup_nil, fun x hx => absurd hx (by simp [Raft.sentTokens, tokens, packetOf])⟩
    | some c =>
      -- the one packet is the response to `c`
      have heq : Raft.sentTokens i inc (some c) [.reply (.requestVote r)] =
          (token (.response c i (.requestVote r) : Packet n α)).toList := by
        simp only [Raft.sentTokens, tokens, packetOf, Option.map_some, List.filterMap_cons,
          List.filterMap_nil]
        cases token (.response c i (.requestVote r) : Packet n α) <;> rfl
      rw [heq]
      cases ht : token (.response c i (.requestVote r) : Packet n α) with
      | none => simp
      | some x =>
        rcases token_eq_some ht with ⟨ch, args', hcall, hx, -⟩
        refine ⟨by simp, fun y hy => Or.inr ⟨c, ch, args', rfl, hcall, ?_⟩⟩
        obtain rfl : y = x := by simpa using hy
        exact hx

/-- The votes of an input, in terms of the table. -/
theorem Ballots.recorded (h : Elections vote w) (hcr : Credible vote w i input caller)
    (hb : Ballots i (w.server i).rf input es b) :
    (w.server i).rf.currentTerm ≤ b.1 ∧ b.2 = code (recorded vote i b i b.1) ∧
      (∀ t, b.1 < t → recorded vote i b i t = none) ∧
      (∀ v t c, vote v t = some c → recorded vote i b v t = some c) ∧
      ∀ v t c, recorded vote i b v t = some c → vote v t = some c ∨
        v = i ∧ (c, i, t) ∉ tokens w.net ∧ (c = i ∧ t = b.1 ∨
          c ≠ i ∧ t ≤ (w.server c).rf.currentTerm) := by
  obtain ⟨hle, hcase⟩ := hb.vote_cases (h.now i) (h.future i) fun args hin => by
    rcases hcr.request hin with ⟨c, hc, -, -, hne, -⟩
    exact ⟨c, hc, hne⟩
  have hfut : ∀ t, b.1 < t → vote i t = none := fun t ht => h.future i t (lt_of_le_of_lt hle ht)
  rcases hcase with hsame | ⟨hnone, c, hc, hnew⟩
  · rw [recorded_eq hsame]
    exact ⟨hle, hsame, hfut, fun v t c hv => hv, fun v t c hv => Or.inl hv⟩
  · -- the one new vote is for `c`
    have hrec : ∀ v t, Raft.recorded vote i b v t =
        if v = i ∧ t = b.1 then some c else vote v t := by
      intro v t
      unfold Raft.recorded
      by_cases hv : v = i
      · subst hv
        by_cases ht : t = b.1 <;> simp [ht, hc]
      · simp [hv]
    have hfree : (c, i, b.1) ∉ tokens w.net ∧ (c = i ∧ b.1 = b.1 ∨
        c ≠ i ∧ b.1 ≤ (w.server c).rf.currentTerm) := by
      rcases hnew with ⟨-, -, rfl⟩ | ⟨args, hin, ht, hid⟩
      · -- no peer asks itself
        refine ⟨fun hmem => ?_, Or.inl ⟨rfl, rfl⟩⟩
        rcases List.mem_filterMap.mp hmem with ⟨p, hp, htok⟩
        rcases token_eq_some htok with ⟨ch, args, -, heq, -⟩
        simp only [Prod.mk.injEq] at heq
        exact (h.packets p hp).apart (heq.2.1.symm.trans heq.1)
      · rcases hcr.request hin with ⟨c', hc', hne, hterm, -, hfree⟩
        obtain rfl : c' = c := Fin.ext (by
          have : (c' : Int) = c := hc'.symm.trans hid
          omega)
        rw [← ht]
        exact ⟨hfree, Or.inr ⟨hne, hterm⟩⟩
    refine ⟨hle, by rw [hrec]; simp [hc, code], fun t ht => ?_, fun v t c' hv => ?_,
      fun v t c' hv => ?_⟩
    · rw [hrec, if_neg (by omega)]
      exact hfut t ht
    · rw [hrec]
      split_ifs with hvt
      · rw [hvt.1, hvt.2, hnone] at hv
        cases hv
      · exact hv
    · rw [hrec] at hv
      split_ifs at hv with hvt
      · obtain rfl := Option.some.inj hv
        rw [hvt.2]
        exact Or.inr ⟨hvt.1, hfree⟩
      · exact Or.inl hv

/-- A new token is the request of a new election, or the answer to a candidate
that the peer had not voted for. -/
theorem Elections.new_token (hcr : Credible vote w i input caller)
    (hb : Ballots i (w.server i).rf input es b) {x : Fin n × Fin n × Int}
    (hx : x ∈ sentTokens i (w.server i).incarnation caller es) :
    x.1 = i ∧ x.2.1 ≠ i ∧ x.2.2 = (w.server i).rf.currentTerm + 1 ∨
      x.1 ≠ i ∧ x.2.1 = i ∧ vote i x.2.2 ≠ some x.1 ∧ x ∉ tokens w.net := by
  rcases (hb.sentTokens _).2 x hx with ⟨server, hne, rfl⟩ | ⟨c, ch, args, hc, hcall, rfl⟩
  · exact Or.inl ⟨rfl, hne, rfl⟩
  · obtain ⟨hin, hcur⟩ := hcr.caller hc hcall
    rcases hcr.request hin with ⟨c', hc', -, -, hvote, hfree⟩
    obtain rfl : c' = c.client := Fin.ext (by
      have : (c' : Int) = c.client := hc'.symm.trans hcur.id
      omega)
    exact Or.inr ⟨hcr.apart hc, rfl, hvote, hfree⟩

theorem Elections.distinct_performs (h : Elections vote w) (hcr : Credible vote w i input caller)
    (hb : Ballots i (w.server i).rf input es b) (hp : Performs w w' i caller es) :
    (tokens w'.net).Nodup := by
  rw [hp.tokens_net]
  refine List.nodup_append.mpr ⟨h.distinct, (hb.sentTokens _).1, fun x hx y hy hxy => ?_⟩
  subst hxy
  rcases new_token hcr hb hy with ⟨hi, -, ht⟩ | ⟨-, -, -, hfree⟩
  · -- the terms of older requests have been reached by their clients
    rcases List.mem_filterMap.mp hx with ⟨p, hmem, htok⟩
    rcases token_eq_some htok with ⟨ch, args, hcall, rfl, -⟩
    have hterm := ((h.packets p hmem).current hcall).term
    rw [show p.caller.client = i from hi] at hterm
    simp only at ht
    omega
  · exact hfree hx

theorem VotePacket.performs (h : Elections vote w) (hcr : Credible vote w i input caller)
    (hb : Ballots i (w.server i).rf input es b) (hp : Performs w w' i caller es)
    (hgo : GoesOn w w' i input) (hmem : (w'.server i).rf.currentTerm = b.1) {p : Packet n α}
    (hpk : p ∈ w.net) : VotePacket (recorded vote i b) w' p := by
  obtain ⟨hle, -, -, hold, hnew⟩ := hb.recorded h hcr
  have hv := h.packets p hpk
  refine ⟨hv.apart, fun hcall => (hv.current hcall).performs hp hgo (by omega),
    fun hcall hans hvote => ?_, fun hcall hans hg => hold _ _ _ (hv.granted hcall hans hg)⟩
  rcases hnew _ _ _ hvote with hvote | ⟨hi, hfree, -⟩
  · exact hv.pending hcall hans hvote
  · refine hfree (token_mem hpk ?_)
    simp [token, hcall, hans, hi]

/-- Only an election asks for votes. -/
theorem Ballots.asks {rf : Raft n α} (hb : Ballots i rf input es b) {server : Fin n} {ch : ℕ}
    {args : RequestVoteArgs} (he : .call server (.requestVote ch args) ∈ es) :
    input = .electionTimer ∧ ch = rf.voteCh + 1 ∧ args = ballotRequest i rf ∧
      b = (rf.currentTerm + 1, (i : Int)) := by
  cases hb with
  | quiet es h => exact absurd (h _ he) id
  | raised p es t ht hp h =>
    simp only [List.mem_cons, reduceCtorEq, false_or] at he
    exact absurd (h _ he) id
  | elected p servers hin hp' hs hd =>
    simp only [List.mem_cons, reduceCtorEq, false_or, List.mem_map, Effect.call.injEq,
      Call.requestVote.injEq] at he
    rcases he with ⟨server', -, -, hch, hargs⟩
    exact ⟨hin, hch.symm, hargs.symm, rfl⟩
  | decided args' v es₀ es p r hin hb' hv hp' hr hes =>
    rcases hb' with ⟨-, p₀, -, rfl⟩ | ⟨-, rfl, -⟩ <;> rcases hes with rfl | rfl <;> simp at he

/-- A granted vote is the one on the ballot. -/
theorem Ballots.grants {rf : Raft n α} (hb : Ballots i rf input es b) {r : RequestVoteReply}
    (he : .reply (.requestVote r) ∈ es) (hg : r.voteGranted = true) :
    ∃ args, input = .requestVote args ∧ b = (args.term, args.candidateId) := by
  cases hb with
  | quiet es h => exact absurd ((h _ he).symm.trans hg) (by simp)
  | raised p es t ht hp h =>
    simp only [List.mem_cons, reduceCtorEq, false_or] at he
    exact absurd ((h _ he).symm.trans hg) (by simp)
  | elected p servers hin hp' hs hd => simp at he
  | decided args v es₀ es p r' hin hb' hv hp' hr hes =>
    refine ⟨args, hin, ?_⟩
    have heq : r = r' := by
      rcases hb' with ⟨-, p₀, -, rfl⟩ | ⟨-, rfl, -⟩ <;> rcases hes with rfl | rfl <;> simp at he
      · exact he
      · exact he
    rw [hr (heq ▸ hg)]

/-- The client of a request that was just sent. -/
theorem Current.asked {c : Caller n α} (hc : c.client = i)
    (hinc : c.incarnation = (w.server i).incarnation) (hgo : GoesOn w w' i .electionTimer)
    (hterm : (w'.server i).rf.currentTerm = (w.server i).rf.currentTerm + 1) :
    Current (w'.server c.client) c ((w.server i).rf.voteCh + 1)
      (ballotRequest i (w.server i).rf) := by
  subst hc
  rcases hgo with ⟨heq, hst⟩ | ⟨heq, -⟩
  · have hch : (w.server c.client).rf.voteCh + 1 = (w'.server c.client).rf.voteCh := by
      cases hst with
      | same input rf' hs ht hg hc => omega
      | follows input rf' hin hs hc => exact absurd rfl hin
      | elected rf' hs hb hg hc => exact hc.symm
    exact ⟨rfl, le_of_eq hterm.symm, by omega, fun _ => le_of_eq hch, fun _ _ _ => hterm.symm⟩
  · exact ⟨rfl, le_of_eq hterm.symm, by omega, fun hi => by omega, fun hi => by omega⟩

/-- All packets are in order after `i` has performed the effects of an input. -/
theorem VotePacket.sent (h : Elections vote w) (hcr : Credible vote w i input caller)
    (hb : Ballots i (w.server i).rf input es b) (hp : Performs w w' i caller es)
    (hgo : GoesOn w w' i input) (hterm : (w'.server i).rf.currentTerm = b.1)
    (hcalls : ∀ {server call}, .call server call ∈ es → server ≠ i) {p : Packet n α}
    (hpk : p ∈ w'.net) : VotePacket (recorded vote i b) w' p := by
  obtain ⟨hle, hcode, -, hold, hnew⟩ := hb.recorded h hcr
  rcases hp.mem_net hpk with hpk | ⟨server, call, he, rfl⟩ | ⟨c, reply, hc, he, rfl⟩
  · exact VotePacket.performs h hcr hb hp hgo hterm hpk
  · refine ⟨hcalls he, fun {ch args} hcall => ?_, fun {ch args} hcall _ hvote => ?_,
      fun _ hans => absurd hans (by simp [Packet.answer])⟩
    · obtain rfl : call = .requestVote ch args := hcall
      obtain ⟨rfl, rfl, rfl, rfl⟩ := hb.asks he
      exact Current.asked rfl rfl hgo hterm
    · obtain rfl : call = .requestVote ch args := hcall
      obtain ⟨rfl, rfl, rfl, rfl⟩ := hb.asks he
      rcases hnew _ _ _ hvote with hvote | ⟨hi, -⟩
      · -- nobody has voted for `i` in its new term
        have hreached : (w.server i).rf.currentTerm + 1 ≤ (w.server i).rf.currentTerm :=
          h.reached hvote
        omega
      · exact hcalls he hi
  · refine ⟨(hcr.apart hc).symm, fun hcall => (hcr.caller hc hcall).2.performs hp hgo (by omega),
      fun _ hans => absurd hans (by simp [Packet.answer]), fun {ch args r} hcall hans hg => ?_⟩
    obtain rfl : reply = .requestVote r := Option.some.inj hans
    obtain ⟨rfl, hcur⟩ := hcr.caller hc hcall
    rcases hb.grants he hg with ⟨args', hin, rfl⟩
    obtain rfl : args = args' := Input.requestVote.inj hin
    refine code_injective (hcode.symm.trans ?_)
    exact hcur.id

/-- The voters that a candidate has counted are still counted, and none of their
votes is on its way again. -/
theorem Elections.counted_performs (hcr : Credible vote w i input caller)
    (hb : Ballots i (w.server i).rf input es b) (hp : Performs w w' i caller es) {j v : Fin n}
    {t : Int} (hv : vote v t = some j) (hne : j = i → t ≠ (w.server i).rf.currentTerm + 1)
    (hfree : (j, v, t) ∉ tokens w.net) : (j, v, t) ∉ tokens w'.net := by
  rw [hp.tokens_net]
  intro hmem
  rcases List.mem_append.mp hmem with hmem | hmem
  · exact hfree hmem
  · rcases new_token hcr hb hmem with ⟨hi, -, ht⟩ | ⟨-, hi, hvote, -⟩
    · exact hne hi ht
    · rw [show v = i from hi] at hv
      exact hvote hv

/-- The voters after one more reply was counted. -/
theorem Elections.counted (h : Elections vote w) {r : RequestVoteReply}
    (hcr : Credible vote w i (.vote (w.server i).rf.voteCh r) caller)
    (hs : (w.server i).rf.status = .candidate) :
    ∃ G : Finset (Fin n),
      (G.card : Int) = (w.server i).rf.grantedVotes + (if r.voteGranted then 1 else 0) ∧
      ∀ v ∈ G, vote v (w.server i).rf.currentTerm = some i ∧
        (i, v, (w.server i).rf.currentTerm) ∉ tokens w.net := by
  cases hg : r.voteGranted with
  | true =>
    rcases hcr.counts rfl hg hs with ⟨G, hcard, hG⟩
    exact ⟨G, by simpa using hcard, hG⟩
  | false =>
    rcases h.candidate i hs with ⟨G, hcard, hG⟩
    exact ⟨G, by simpa using hcard, hG⟩

theorem majority_of_card {p : Fin n → Prop} (G : Finset (Fin n)) (hG : ∀ v ∈ G, p v)
    (hcard : (G.card : Int) > (n / 2 : ℕ)) : Majority p := by
  refine ⟨G, ?_, hG⟩
  rw [Fintype.card_fin]
  omega

/-- A peer that leads after an input has the votes of a majority. -/
theorem Elections.leader_performs (h : Elections vote w) (hcr : Credible vote w i input caller)
    (hb : Ballots i (w.server i).rf input es b) (hgo : GoesOn w w' i input)
    (hi : (w'.server i).rf.status = .leader) :
    Majority fun v => recorded vote i b v (w'.server i).rf.currentTerm = some i := by
  obtain ⟨-, -, -, hold, -⟩ := hb.recorded h hcr
  rcases hgo with ⟨-, hst⟩ | ⟨-, hst⟩
  · cases hst with
    | same input rf' hs ht hg hc =>
      rw [ht]
      exact (h.leader i (by rw [← hs, hi])).mono fun v hv => hold _ _ _ hv
    | follows input rf' hin hs hc => rw [hs] at hi; cases hi
    | elected rf' hs hb' hg hc => rw [hs] at hi; cases hi
    | counted r rf' hs ht hc hg hs' =>
      rcases h.counted hcr hs with ⟨G, hcard, hG⟩
      rcases hs' with hs' | ⟨-, hmaj⟩
      · rw [hs'] at hi; cases hi
      · rw [ht]
        exact majority_of_card G (fun v hv => hold _ _ _ (hG v hv).1) (by omega)
  · rw [hst] at hi; cases hi

/-- The voters that a candidate has counted after an input. -/
theorem Elections.candidate_performs (h : Elections vote w)
    (hcr : Credible vote w i input caller) (hb : Ballots i (w.server i).rf input es b)
    (hp : Performs w w' i caller es) (hgo : GoesOn w w' i input)
    (hmem : (w'.server i).rf.ballot = b)
    (hpackets : ∀ p ∈ w'.net, VotePacket (recorded vote i b) w' p)
    (hi : (w'.server i).rf.status = .candidate) :
    ∃ G : Finset (Fin n), (G.card : Int) = (w'.server i).rf.grantedVotes ∧
      ∀ v ∈ G, recorded vote i b v (w'.server i).rf.currentTerm = some i ∧
        (i, v, (w'.server i).rf.currentTerm) ∉ tokens w'.net := by
  obtain ⟨-, hcode, -, hold, -⟩ := hb.recorded h hcr
  have hterm : (w'.server i).rf.currentTerm = b.1 := congrArg Prod.fst hmem
  have hvoted : (w'.server i).rf.votedFor = b.2 := congrArg Prod.snd hmem
  -- a voter counted before, in the term that goes on
  have hkept : ∀ {v}, vote v (w.server i).rf.currentTerm = some i ∧
      (i, v, (w.server i).rf.currentTerm) ∉ tokens w.net →
      recorded vote i b v (w.server i).rf.currentTerm = some i ∧
        (i, v, (w.server i).rf.currentTerm) ∉ tokens w'.net := fun hv =>
    ⟨hold _ _ _ hv.1, counted_performs hcr hb hp hv.1 (fun _ => by omega) hv.2⟩
  rcases hgo with ⟨-, hst⟩ | ⟨-, hst⟩
  · cases hst with
    | same input rf' hs ht hg hc =>
      rcases h.candidate i (by rw [← hs, hi]) with ⟨G, hcard, hG⟩
      rw [ht, hg]
      exact ⟨G, hcard, fun v hv => hkept (hG v hv)⟩
    | follows input rf' hin hs hc => rw [hs] at hi; cases hi
    | elected rf' hs hb' hg hc =>
      -- its own vote is the first; no packet carries it
      have hself : b.2 = i := by rw [← hvoted]; exact congrArg Prod.snd hb'
      refine ⟨{i}, by rw [hg]; simp, fun v hv => ?_⟩
      rw [Finset.mem_singleton.mp hv, hterm]
      refine ⟨code_injective (hcode.symm.trans hself), fun hmem' => ?_⟩
      rcases List.mem_filterMap.mp hmem' with ⟨p, hpk, htok⟩
      rcases token_eq_some htok with ⟨ch, args, -, heq, -⟩
      simp only [Prod.mk.injEq] at heq
      exact (hpackets p hpk).apart (heq.2.1.symm.trans heq.1)
    | counted r rf' hs ht hc hg hs' =>
      rcases h.counted hcr hs with ⟨G, hcard, hG⟩
      rw [ht, hg]
      exact ⟨G, hcard, fun v hv => hkept (hG v hv)⟩
  · rw [hst] at hi; cases hi

/-- The table of votes follows the effects of an input. -/
theorem Elections.performs (h : Elections vote w) (hcr : Credible vote w i input caller)
    (hb : Ballots i (w.server i).rf input es b) (hp : Performs w w' i caller es)
    (hgo : GoesOn w w' i input) (hmem : (w'.server i).rf.ballot = b)
    (hdisk : (w'.server i).persister.ballot = b)
    (hcalls : ∀ {server call}, .call server call ∈ es → server ≠ i) :
    Elections (recorded vote i b) w' := by
  obtain ⟨hle, hcode, hfut, hold, hnew⟩ := hb.recorded h hcr
  have hterm : (w'.server i).rf.currentTerm = b.1 := congrArg Prod.fst hmem
  have hvoted : (w'.server i).rf.votedFor = b.2 := congrArg Prod.snd hmem
  -- the table of another peer is not touched
  have hother : ∀ j, j ≠ i → recorded vote i b j = vote j := fun j hj => update_of_ne hj _ _
  have hpackets : ∀ p ∈ w'.net, VotePacket (recorded vote i b) w' p := fun p hpk =>
    VotePacket.sent h hcr hb hp hgo hterm hcalls hpk
  refine ⟨fun j => ?_, fun j t ht => ?_, fun j => ?_, fun {v t c} hv => ?_, fun j hj => ?_,
    fun j hj => ?_, hpackets, h.distinct_performs hcr hb hp⟩
  · by_cases hji : j = i
    · subst hji
      rw [hvoted, hterm, hcode]
    · rw [hother j hji, hp.others j hji]
      exact h.now j
  · by_cases hji : j = i
    · subst hji
      exact hfut t (by omega)
    · rw [hother j hji]
      rw [hp.others j hji] at ht
      exact h.future j t ht
  · by_cases hji : j = i
    · subst hji
      rw [hdisk, hmem]
    · rw [hp.others j hji]
      exact h.disk j
  · have hmono : (w.server c).rf.currentTerm ≤ (w'.server c).rf.currentTerm := by
      by_cases hci : c = i
      · subst hci
        omega
      · rw [hp.others c hci]
    rcases hnew v t c hv with hv | ⟨-, -, ⟨rfl, ht⟩ | ⟨-, ht⟩⟩
    · exact (h.reached hv).trans hmono
    · omega
    · exact ht.trans hmono
  · by_cases hji : j = i
    · subst hji
      exact h.leader_performs hcr hb hgo hj
    · rw [hp.others j hji] at hj ⊢
      exact (h.leader j hj).mono fun v hv => hold _ _ _ hv
  · by_cases hji : j = i
    · subst hji
      exact h.candidate_performs hcr hb hp hgo hmem hpackets hj
    · rw [hp.others j hji] at hj ⊢
      rcases h.candidate j hj with ⟨G, hcard, hG⟩
      refine ⟨G, hcard, fun v hv => ⟨hold _ _ _ (hG v hv).1, ?_⟩⟩
      exact counted_performs hcr hb hp (hG v hv).1 (fun hj => absurd hj hji) (hG v hv).2

end

/-! ## Arrivals -/

section

variable {vote : Votes n} {w w' : World n α} {cause : Cause n α} {a : Arrival n α}
  {event : Event n α}

theorem Arrives.agree (ha : Arrives w cause a) : Agree w a.world := by
  intro j
  rcases ha.server j with ⟨ch, -, hj⟩
  rw [hj]
  exact ⟨rfl, rfl, rfl⟩

/-- Taking an input off the network keeps the invariant. -/
theorem Elections.arrives (h : Elections vote w) (ha : Arrives w cause a) :
    Elections vote a.world :=
  h.congr ha.agree (fun p hp => h.packets p (ha.net.subset hp)) (ha.net.filterMap token)

/-- The token of a packet that is taken off the network is gone. -/
theorem Elections.token_gone (h : Elections vote w) {k : ℕ} {p : Packet n α}
    {x : Fin n × Fin n × Int} (hp : w.net[k]? = some p) (hx : token p = some x) :
    x ∉ tokens (w.net.eraseIdx k) := by
  have hperm := tokens_eraseIdx hp
  rw [hx] at hperm
  have hnodup := hperm.nodup_iff.mp h.distinct
  exact (List.nodup_cons.mp hnodup).1

theorem Elections.credible_request (h : Elections vote w) {k : ℕ} {c : Caller n α} {i : Fin n}
    {waiting : Bool} (hp : w.net[k]? = some (.request c i waiting)) :
    Credible vote { w with net := w.net.eraseIdx k } i c.call.input
      (if waiting then some c else none) := by
  have hv := h.packets _ (List.mem_of_getElem? hp)
  have hin : ∀ {args}, (c.call.input : Input n α) = .requestVote args →
      ∃ ch, c.call = .requestVote ch args := by
    intro args hin
    cases hc : c.call <;> rw [hc] at hin <;> cases hin
    exact ⟨_, rfl⟩
  have hcaller : ∀ {c'}, (if waiting then some c else none) = some c' → c = c' := by
    intro c' hc'
    split_ifs at hc'
    exact Option.some.inj hc'
  refine ⟨fun {args} hreq => ?_, fun hvote => ?_, fun reply args server hrep => ?_,
    fun hc' => ?_, fun {c' ch args} hc' hcall => ?_⟩
  · rcases hin hreq with ⟨ch, hcall⟩
    have hcur := hv.current hcall
    have htok : token (.request c i waiting : Packet n α) = some (c.client, i, args.term) := by
      simp [token, Packet.caller, Packet.answer, Packet.server, hcall]
    exact ⟨c.client, hcur.id, hv.apart.symm, hcur.term, hv.pending hcall rfl,
      h.token_gone hp htok⟩
  · cases hc : c.call <;> rw [hc] at hvote <;> cases hvote
  · cases hc : c.call <;> rw [hc] at hrep <;> cases hrep
  · rw [← hcaller hc']
    exact hv.apart.symm
  · obtain rfl := hcaller hc'
    exact ⟨by rw [hcall]; rfl, hv.current hcall⟩

theorem Elections.credible_response (h : Elections vote w) {k : ℕ} {c : Caller n α} {i : Fin n}
    {reply : Reply} {input : Input n α} (hp : w.net[k]? = some (.response c i reply))
    (hinc : c.incarnation = (w.server c.client).incarnation)
    (hback : c.call.handBack i reply = some input) :
    Credible vote { w with net := w.net.eraseIdx k } c.client input none := by
  have hv := h.packets _ (List.mem_of_getElem? hp)
  refine ⟨fun {args} hreq => ?_, fun {r} hvote hg hs => ?_, fun reply' args server hrep => ?_,
    by simp, by simp⟩
  · cases hc : c.call <;> cases reply <;> rw [hc] at hback <;> cases hback <;> cases hreq
  · -- a granted vote: the voter was not counted before, since its token was there
    rw [hvote] at hback
    have hcall : ∃ args, c.call = .requestVote (w.server c.client).rf.voteCh args ∧
        reply = .requestVote r := by
      cases hc : c.call <;> cases reply <;> rw [hc] at hback <;> cases hback
      exact ⟨_, rfl, rfl⟩
    rcases hcall with ⟨args, hcall, rfl⟩
    have hterm := (hv.current hcall).election hinc rfl hs
    have htok : token (.response c i (.requestVote r) : Packet n α) =
        some (c.client, i, (w.server c.client).rf.currentTerm) := by
      simp [token, Packet.caller, Packet.answer, Packet.server, hcall, hg, hterm]
    rcases h.candidate c.client hs with ⟨G, hcard, hG⟩
    have hnot : i ∉ G := fun hi =>
      (hG i hi).2 (token_mem (List.mem_of_getElem? hp) htok)
    refine ⟨insert i G, ?_, fun v hvG => ?_⟩
    · rw [Finset.card_insert_of_notMem hnot]
      push_cast
      rw [hcard]
      rfl
    · rcases Finset.mem_insert.mp hvG with rfl | hvG
      · have hgranted := hv.granted hcall rfl hg
        rw [hterm] at hgranted
        exact ⟨hgranted, h.token_gone hp htok⟩
      · refine ⟨(hG v hvG).1, fun hmem => (hG v hvG).2 ?_⟩
        exact ((List.eraseIdx_sublist w.net k).filterMap token).subset hmem
  · cases hc : c.call <;> cases reply <;> rw [hc] at hback <;> cases hback <;> cases hrep
    exact hv.apart

/-- Timers and the service tell nothing of votes. -/
theorem Credible.of_local {i : Fin n} {input : Input n α}
    (hreq : ∀ args, input ≠ .requestVote args) (hvote : ∀ ch r, input ≠ .vote ch r)
    (hrep : ∀ reply args server, input ≠ .appendEntriesReply reply args server) :
    Credible vote w i input none where
  request h := absurd h (hreq _)
  counts h := absurd h (hvote _ _)
  peer _ _ _ h := absurd h (hrep _ _ _)
  apart h := by cases h
  caller h := by cases h

theorem Elections.credible (h : Elections vote w) (ha : Arrives w cause a) :
    Credible vote a.world a.server a.input a.caller := by
  cases ha with
  | timer i t => refine .of_local ?_ ?_ ?_ <;> cases t <;> simp [Timer.input]
  | start i command => exact .of_local (by simp) (by simp) (by simp)
  | snapshotRequest i k req hreq => exact .of_local (by simp) (by simp) (by simp)
  | request k c i waiting hp => exact h.credible_request hp
  | response k c i reply input hp hinc hback => exact h.credible_response hp hinc hback

/-! ## Steps and runs -/

/-- The table of votes after a step: every peer's current vote is written down. -/
def noted (vote : Votes n) (w : World n α) : Votes n := fun v t =>
  if t = (w.server v).rf.currentTerm then decode (w.server v).rf.votedFor else vote v t

theorem noted_self (h : Elections vote w) : noted vote w = vote := by
  funext v t
  unfold noted
  split_ifs with ht
  · rw [h.now v, decode_code, ht]
  · rfl

theorem noted_performs (h : Elections vote w) {i : Fin n} {caller : Option (Caller n α)}
    {es : List (Effect n α)} (hp : Performs w w' i caller es) :
    noted vote w' = recorded vote i (w'.server i).rf.ballot := by
  funext v t
  by_cases hv : v = i
  · subst hv
    by_cases ht : t = (w'.server v).rf.currentTerm <;> simp [noted, recorded, ballot, ht]
  · have hother : noted vote w' v t = noted vote w v t := by
      simp only [noted, hp.others v hv]
    rw [hother, noted_self h, recorded, update_of_ne hv]

/-- Every step keeps the table of votes right. -/
theorem Elections.step (h : Elections vote w) (hs : Steps w event w') :
    Elections (noted vote w') w' ∧ ∀ v t c, vote v t = some c → noted vote w' v t = some c := by
  -- an input of a peer, with the effects performed and the state of the peer after them
  have hperform : ∀ {cause a es b}, Arrives w cause a →
      Ballots a.server (a.world.server a.server).rf a.input es b →
      Performs a.world w' a.server a.caller es → GoesOn a.world w' a.server a.input →
      (w'.server a.server).rf.ballot = b → (w'.server a.server).persister.ballot = b →
      (∀ {server call}, .call server call ∈ es → server ≠ a.server) →
      Elections (noted vote w') w' ∧
        ∀ v t c, vote v t = some c → noted vote w' v t = some c := by
    intro cause a es b ha hb hp hgo hmem hdisk hcalls
    have ha' := h.arrives ha
    have hcr := h.credible ha
    rw [noted_performs ha' hp, hmem]
    exact ⟨ha'.performs hcr hb hp hgo hmem hdisk hcalls, (hb.recorded ha' hcr).2.2.2.1⟩
  -- a step that leaves the peers alone
  have hquiet : Elections vote w' → Elections (noted vote w') w' ∧
      ∀ v t c, vote v t = some c → noted vote w' v t = some c := by
    intro h'
    rw [noted_self h']
    exact ⟨h', fun v t c hv => hv⟩
  cases hs with
  | handle cause a es rf harr ha ho =>
    rcases ho.ballots with ⟨b, hb, hres⟩
    refine hperform ha hb ⟨fun j hj => World.server_perform_ne _ _ _ _ hj, rfl⟩ ?_ ?_ ?_ ?_
    · left
      rw [World.server_perform_self]
      exact ⟨rfl, ho.stands⟩
    · rw [World.server_perform_self]
      exact hres rf rfl
    · rw [World.server_perform_self]
      exact hb.lastSave ((h.arrives ha).disk a.server)
    · exact fun hc => ho.calls_apart (h.credible ha).peer hc
  | crashDuring cause k a es res harr ha handler hserve hes ho =>
    rcases ho.ballots with ⟨b₀, hb₀, -⟩
    rcases hb₀.take k with ⟨b, hb⟩
    have hdisk := hb.lastSave ((h.arrives ha).disk a.server)
    refine hperform ha hb ⟨fun j hj => ?_, rfl⟩ ?_ ?_ ?_ ?_
    · rw [World.server_restart_ne _ hj, World.server_perform_ne _ _ _ _ hj]
    · right
      rw [World.server_restart_self, World.server_perform_self]
      exact ⟨rfl, make_status _⟩
    · rw [World.server_restart_self, World.server_perform_self]
      exact (make_ballot _).trans hdisk
    · rw [World.server_restart_self, World.server_perform_self]
      exact hdisk
    · exact fun hc => ho.calls_apart (h.credible ha).peer (List.mem_of_mem_take hc)
  | crash i =>
    -- a crash between two events is one before the first effect of a timer
    refine hperform (.timer i .apply) .nil ⟨fun j hj => World.server_restart_ne _ hj, ?_⟩ ?_ ?_ ?_
      (by simp)
    · simp
    · right
      rw [World.server_restart_self]
      exact ⟨rfl, make_status _⟩
    · rw [World.server_restart_self]
      exact (make_ballot _).trans (h.disk i)
    · rw [World.server_restart_self]
      exact h.disk i
  | snapshot i index data =>
    refine hquiet (h.congr (fun j => ?_) h.packets (List.Sublist.refl _))
    by_cases hj : j = i
    · subst hj
      rw [World.server_snapshot_self]
      exact ⟨rfl, rfl, rfl⟩
    · rw [World.server_snapshot_ne _ _ _ hj]
      exact ⟨rfl, rfl, rfl⟩
  | drop k =>
    have hsub := List.eraseIdx_sublist w.net k
    exact hquiet (h.congr (fun j => ⟨rfl, rfl, rfl⟩) (fun p hp => h.packets p (hsub.subset hp))
      (hsub.filterMap token))
  | failRequest k caller i hp =>
    have hv := h.packets _ (List.mem_of_getElem? hp)
    refine hquiet (h.congr (fun j => ⟨rfl, rfl, rfl⟩) (fun p hmem => ?_) ?_)
    · rcases List.mem_append.mp hmem with hmem | hmem
      · rcases List.mem_or_eq_of_mem_set hmem with hmem | rfl
        · exact h.packets p hmem
        · exact ⟨hv.apart, hv.current, hv.pending, hv.granted⟩
      · obtain rfl := List.mem_singleton.mp hmem
        exact .failed hv.apart hv.current
    · have hset : (tokens (w.net.set k (.request caller i false))).Sublist (tokens w.net) :=
        tokens_set hp (Or.inl rfl)
      simpa [tokens, token_failed] using hset
  | failResponse k caller i reply hp =>
    have hv := h.packets _ (List.mem_of_getElem? hp)
    refine hquiet (h.congr (fun j => ⟨rfl, rfl, rfl⟩) (fun p hmem => ?_)
      (tokens_set hp (Or.inr (token_failed caller i))))
    rcases List.mem_or_eq_of_mem_set hmem with hmem | rfl
    · exact h.packets p hmem
    · exact .failed hv.apart hv.current

theorem elections_init : Elections (fun _ _ => none) (World.init : World n α) where
  now i := by simp [make, readPersist, code]
  future i t _ := rfl
  disk i := by simp [make, readPersist, ballot, Persister.ballot]
  reached h := by cases h
  leader i h := by simp [make, readPersist] at h
  candidate i h := by simp [make, readPersist] at h
  packets p h := by simp [World.init] at h
  distinct := by simp [World.init, tokens]

/-- The votes of a table as a relation, which only grows. -/
def Votes.given (vote : Votes n) : Fin n → Int → Fin n → Prop := fun v t c => vote v t = some c

/-- Two positions of a run have tables of votes of which the later one extends
the earlier one. -/
theorem Run.elections {C : World n α → Event n α → Prop} {e : Behavior (World n α)}
    (h : Run C e) {k k' : ℕ} (hk : k ≤ k') :
    ∃ vote vote' : Votes n, vote.given ≤ vote'.given ∧ Elections vote (e k) ∧
      Elections vote' (e k') := by
  let R : (Fin n → Int → Fin n → Prop) → World n α → Prop :=
    fun g w => ∃ vote : Votes n, vote.given = g ∧ Elections vote w
  have hsim : ∃ g g', g ≤ g' ∧ R g (e k) ∧ R g' (e k') := by
    refine h.simulation R ⟨_, _, rfl, elections_init⟩ ?_ hk
    rintro g w l w' ⟨vote, rfl, hvote⟩ - hstep
    obtain ⟨hvote', hle⟩ := hvote.step (steps_of_step hstep)
    exact ⟨_, hle, _, rfl, hvote'⟩
  rcases hsim with ⟨g, g', hle, ⟨vote, rfl, hvote⟩, vote', rfl, hvote'⟩
  exact ⟨vote, vote', hle, hvote, hvote'⟩

/-- Two leaders of one term, the first of which leads at an earlier position. -/
theorem Run.leader_eq {C : World n α → Event n α → Prop} {e : Behavior (World n α)}
    (h : Run C e) {k k' : ℕ} (hk : k ≤ k') {i j : Fin n}
    (hi : ((e k).server i).rf.status = .leader) (hj : ((e k').server j).rf.status = .leader)
    (ht : ((e k).server i).rf.currentTerm = ((e k').server j).rf.currentTerm) : i = j := by
  rcases h.elections hk with ⟨vote, vote', hle, hvote, hvote'⟩
  have hwon : Majority fun v => vote' v ((e k).server i).rf.currentTerm = some i :=
    (hvote.leader i hi).mono fun v hv => hle v _ i hv
  have hwon' := hvote'.leader j hj
  rw [← ht] at hwon'
  rcases hwon.inter hwon' with ⟨v, hv, hv'⟩
  exact Option.some.inj (hv.symm.trans hv')

end

/-- **Election safety.** In every run of every cluster, whatever is lost, delayed
or crashes, at most one peer is ever the leader of a term. -/
theorem election_safety {e : Behavior (World n α)} (h : Run (fun _ _ => True) e) (i j : Fin n)
    (k k' : ℕ) (hi : ((e k).server i).rf.status = .leader)
    (hj : ((e k').server j).rf.status = .leader)
    (ht : ((e k).server i).rf.currentTerm = ((e k').server j).rf.currentTerm) : i = j := by
  rcases Nat.le_total k k' with hk | hk
  · exact h.leader_eq hk hi hj ht
  · exact (h.leader_eq hk hj hi ht.symm).symm

/-- Peer 0 of three asks for votes and gets that of peer 1. -/
def firstElection : List (Event 3 ℕ) :=
  [.handle (.timer 0 .election), .handle (.deliver 0), .handle (.deliver 1)]

theorem election_safety_first :
    ((play World.step World.init (firstElection.take 3)).server 0).rf.status = .leader ∧
      (0 : Fin 3) = 0 :=
  ⟨by decide, election_safety (Runs.play (Plays.of_forall (fun _ _ => trivial) _ firstElection))
    0 0 3 4 (by decide) (by decide) (by decide)⟩

end DistStudy.Raft
