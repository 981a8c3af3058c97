import DistStudy.Raft.Election
import DistStudy.Raft.FullLog

/-!
# The cluster and the replicated log

The relation `Sim a w` between a state of the abstract protocol and a world. It
says what each part of the world stands for:

* a peer's memory (`MemSim`): its term, the complete log of which it stores the
  end, and committed prefixes of that log for `commitIndex`, `lastApplied` and
  `snapshotIndex`; a leader's log is the log of its term, and a `matchIndex` is an
  acknowledged prefix;
* a call on the network (`CallSim`): a bid, or a prefix of the log of a leader;
* a successful append reply (`ReplySim`): an acknowledgement;
* a persister (`DiskSim`): if its log starts after its snapshot, some complete log.

The relation is kept while the history of the abstract state grows.
-/

namespace DistStudy.Raft

open ReplicatedLog

variable {n : ℕ} {α : Type}

/-- The abstract states of a cluster. -/
abbrev Abstract (n : ℕ) (α : Type) : Type := State (Fin n) Int α

/-! ## Committed indexes and delivered commands -/

/-- Peer `i` has committed the entries up to the index `d`. -/
def Covered (a : Abstract n α) (i : Fin n) (d : Int) : Prop :=
  ∃ Q, (Q.length : Int) = d ∧ a.Committed i Q

/-- A command that was sent to a service is an entry of a chosen prefix. -/
def Sent (a : Abstract n α) : ApplyMsg α → Prop
  | .command command commandIndex => ∃ t P d x, a.chosen t P ∧ commandIndex = (d : ℕ) + 1 ∧
      P[d]? = some x ∧ x.value = command
  | .snapshot _ _ _ => True

theorem Sent.mono {a a' : Abstract n α} (hle : a ≤ a') {msg : ApplyMsg α} (h : Sent a msg) :
    Sent a' msg := by
  cases msg with
  | command c i =>
    rcases h with ⟨t, P, d, x, hc, hi, hx, hv⟩
    exact ⟨t, P, d, x, hle.chosen hc, hi, hx, hv⟩
  | snapshot => trivial

theorem Covered.nonneg {a : Abstract n α} {i : Fin n} {d : Int} (h : Covered a i d) : 0 ≤ d := by
  rcases h with ⟨Q, rfl, -⟩
  omega

theorem Covered.le_length {a : Abstract n α} {i : Fin n} {d : Int} (h : Covered a i d) :
    d ≤ (a.log i).length := by
  rcases h with ⟨Q, rfl, hQ, -⟩
  exact_mod_cast hQ.length_le

theorem Covered.committed {a : Abstract n α} {i : Fin n} {d : Int} (h : Covered a i d) :
    a.Committed i ((a.log i).take d.toNat) := by
  rcases h with ⟨Q, rfl, hQ⟩
  rw [Int.toNat_natCast, ← List.prefix_iff_eq_take.mp hQ.1]
  exact hQ

theorem Covered.of_le {a : Abstract n α} {i : Fin n} {d d' : Int} (h : Covered a i d)
    (h0 : 0 ≤ d') (hle : d' ≤ d) : Covered a i d' := by
  rcases h with ⟨Q, rfl, hQ⟩
  refine ⟨Q.take d'.toNat, ?_, hQ.of_isPrefix (List.take_prefix _ _)⟩
  rw [List.length_take]
  omega

theorem Covered.moves {a a' : Abstract n α} (h : Inv a) {i : Fin n} (hm : Moves i a a')
    {j : Fin n} {d : Int} (hc : Covered a j d) : Covered a' j d := by
  rcases hc with ⟨Q, hd, hQ⟩
  exact ⟨Q, hd, hm.committed h hQ⟩

/-! ## Calls and replies -/

/-- The request of peer `c`, the leader of its term, carries the log `L₀` and a settled
commit index. -/
structure Appends (a : Abstract n α) (c : Fin n) (args : AppendEntriesArgs α)
    (L₀ : List (Entry Int α)) : Prop where
  lead : ∃ L, a.lead args.term = some (c, L) ∧ L₀ <+: L
  carries : Carries args L₀
  commit : ∃ Q, (Q.length : Int) = args.leaderCommit ∧ Q <+: L₀ ∧ a.Settled args.term Q

/-- The snapshot of peer `c`, the leader of the term, stands for the settled prefix `Q`
of its log. -/
structure Installs (a : Abstract n α) (c : Fin n) (args : InstallSnapshotRequest)
    (Q : List (Entry Int α)) : Prop where
  lead : ∃ L, a.lead args.term = some (c, L) ∧ Q <+: L
  index : (Q.length : Int) = args.lastIncludedIndex
  term : TermAt Q Q.length args.lastIncludedTerm
  settled : a.Settled args.term Q

/-- The log that peer `c` asks votes for. -/
structure Asks (a : Abstract n α) (c : Fin n) (args : RequestVoteArgs)
    (l : List (Entry Int α)) : Prop where
  bid : a.bid args.term c = some l
  index : args.lastLogIndex = l.length
  term : TermAt l l.length args.lastLogTerm

/-- What a call of peer `c` stands for. -/
def CallSim (a : Abstract n α) (c : Fin n) : Call α → Prop
  | .requestVote _ args => ∃ l, Asks a c args l
  | .appendEntries args => ∃ L₀, Appends a c args L₀
  | .installSnapshot args => ∃ Q, Installs a c args Q

/-- A successful append has been acknowledged. -/
structure Acked (a : Abstract n α) (server : Fin n) (args : AppendEntriesArgs α)
    (reply : AppendEntriesReply) : Prop where
  term : reply.term = args.term
  ack : ∃ L₀, Carries args L₀ ∧ a.ack server args.term L₀

def ReplySim (a : Abstract n α) (server : Fin n) (call : Call α) (reply : Reply) : Prop :=
  ∀ args r, call = .appendEntries args → reply = .appendEntries r → r.success = true →
    Acked a server args r

section

variable {a a' : Abstract n α} {c server : Fin n}

theorem Appends.mono (hle : a ≤ a') {args : AppendEntriesArgs α} {L₀ : List (Entry Int α)}
    (h : Appends a c args L₀) : Appends a' c args L₀ := by
  rcases h.lead with ⟨L, hl, hp⟩
  rcases hle.lead hl with ⟨L', hl', hLL⟩
  rcases h.commit with ⟨Q, hlen, hQ, hset⟩
  exact ⟨⟨L', hl', hp.trans hLL⟩, h.carries, Q, hlen, hQ, hset.mono hle (le_refl _)⟩

theorem Installs.mono (hle : a ≤ a') {args : InstallSnapshotRequest} {Q : List (Entry Int α)}
    (h : Installs a c args Q) : Installs a' c args Q := by
  rcases h.lead with ⟨L, hl, hp⟩
  rcases hle.lead hl with ⟨L', hl', hLL⟩
  exact ⟨⟨L', hl', hp.trans hLL⟩, h.index, h.term, h.settled.mono hle (le_refl _)⟩

theorem CallSim.mono (hle : a ≤ a') {call : Call α} (h : CallSim a c call) :
    CallSim a' c call := by
  cases call with
  | requestVote ch args =>
    rcases h with ⟨l, hl⟩
    exact ⟨l, hle.bid hl.bid, hl.index, hl.term⟩
  | appendEntries args =>
    rcases h with ⟨L₀, hL⟩
    exact ⟨L₀, hL.mono hle⟩
  | installSnapshot args =>
    rcases h with ⟨Q, hQ⟩
    exact ⟨Q, hQ.mono hle⟩

theorem Acked.mono (hle : a ≤ a') {args : AppendEntriesArgs α} {r : AppendEntriesReply}
    (h : Acked a server args r) : Acked a' server args r := by
  rcases h.ack with ⟨L₀, hc, hack⟩
  exact ⟨h.term, L₀, hc, hle.ack hack⟩

theorem ReplySim.mono (hle : a ≤ a') {call : Call α} {reply : Reply}
    (h : ReplySim a server call reply) : ReplySim a' server call reply :=
  fun args r hc hr hs => (h args r hc hr hs).mono hle

/-- The untouched reply of a failed call acknowledges nothing. -/
theorem ReplySim.zero (call : Call α) : ReplySim a server call call.zeroReply := by
  intro args r hc hr hs
  subst hc
  simp only [Call.zeroReply, Reply.appendEntries.injEq] at hr
  subst hr
  cases hs

end

/-! ## Memories and persisters -/

/-- The memory of peer `i`. -/
structure MemSim (a : Abstract n α) (i : Fin n) (rf : Raft n α) : Prop where
  term : a.term i = rf.currentTerm
  stores : Stores (a.log i) rf
  commit : Covered a i rf.commitIndex
  applied : Covered a i rf.lastApplied
  snapshot : Covered a i rf.snapshotIndex
  leader : rf.status = .leader → a.lead rf.currentTerm = some (i, a.log i) ∧
    ∀ f : Fin n, ∃ P, (P.length : Int) = rf.matchIndex[f] ∧
      (P = [] ∨ a.ack f rf.currentTerm P)
  /-- A candidate still has the log it asked votes for, or another peer leads. -/
  candidate : rf.status = .candidate → (∀ L, a.lead rf.currentTerm ≠ some (i, L)) ∧
    ∃ l, a.bid rf.currentTerm i = some l ∧ (a.log i = l ∨ a.lead rf.currentTerm ≠ none)

/-- If the log of a persister starts after its snapshot, it is a part of a rooted log. -/
def DiskSim (n : ℕ) (a : Abstract n α) (p : Persister α) : Prop :=
  Aligned (make p : Raft n α) → ∃ F, a.Rooted F ∧ Stores F (make p : Raft n α)

theorem DiskSim.mono {a a' : Abstract n α} (hle : a ≤ a') {p : Persister α}
    (h : DiskSim n a p) : DiskSim n a' p := by
  intro hal
  rcases h hal with ⟨F, hF, hs⟩
  exact ⟨F, hF.mono hle, hs⟩

/-- What peer `i` is, has sent to its service and has been asked by it. -/
structure ServerSim (a : Abstract n α) (i : Fin n) (s : Server n α) : Prop where
  memory : MemSim a i s.rf
  disk : DiskSim n a s.persister
  delivered : ∀ msg ∈ s.applied.msgs, Covered a i msg.index
  sent : ∀ stream ∈ s.applied :: s.past, ∀ msg ∈ stream.msgs, Sent a msg
  requests : ∀ req ∈ s.snapshotRequestCh, Covered a i req.index

structure PacketSim (a : Abstract n α) (p : Packet n α) : Prop where
  call : CallSim a p.caller.client p.caller.call
  reply : ∀ reply, p.answer = some reply → ReplySim a p.server p.caller.call reply

/-- Terms start at 0, so that votes are asked for positive terms. -/
structure Positive (a : Abstract n α) : Prop where
  term : ∀ i, 0 ≤ a.term i
  bid : ∀ {t c l}, a.bid t c = some l → 1 ≤ t

/-- The world stands for the abstract state. -/
structure Sim (a : Abstract n α) (w : World n α) : Prop where
  inv : Inv a
  positive : Positive a
  elections : Elections a.vote w
  servers : ∀ i, ServerSim a i (w.server i)
  packets : ∀ p ∈ w.net, PacketSim a p

/-! ## The moves of another peer -/

section

variable {a a' : Abstract n α} {i j : Fin n}

theorem Step.positive (h : Positive a) (hs : Step a i a') : Positive a' := by
  have hterm : ∀ {t}, a.term i < t → ∀ j, 0 ≤ Function.update a.term i t j := by
    intro t ht j
    have hi := h.term i
    by_cases hj : j = i
    · subst hj
      rw [Function.update_self]
      omega
    · rw [Function.update_of_ne hj]
      exact h.term j
  cases hs with
  | bump t ht => exact ⟨hterm ht, h.bid⟩
  | campaign t ht =>
    refine ⟨hterm ht, fun {t' c l} hb => ?_⟩
    by_cases ht' : t' = t
    · have hi := h.term i
      omega
    · rw [State.campaign_bid, Function.update_of_ne ht'] at hb
      exact h.bid hb
  | _ => exact ⟨h.term, h.bid⟩

theorem Moves.positive (h : Positive a) (hm : Moves i a a') : Positive a' := by
  induction hm with
  | refl => exact h
  | tail _ hs ih => exact Step.positive ih hs

/-- A peer does not notice the moves of another one. -/
theorem MemSim.frame (ha : Inv a) (hm : Moves i a a') (hj : j ≠ i) {rf : Raft n α}
    (h : MemSim a j rf) : MemSim a' j rf := by
  have hle := hm.le ha
  obtain ⟨hterm, hlog, -⟩ := hm.frame hj
  refine ⟨by rw [hterm]; exact h.term, by rw [hlog]; exact h.stores, h.commit.moves ha hm,
    h.applied.moves ha hm, h.snapshot.moves ha hm, fun hs => ?_, fun hs => ?_⟩
  · obtain ⟨hlead, hmatch⟩ := h.leader hs
    rw [hlog]
    refine ⟨(hm.lead_iff hj).mpr hlead, fun f => ?_⟩
    rcases hmatch f with ⟨P, hlen, hP⟩
    exact ⟨P, hlen, hP.imp_right hle.ack⟩
  · obtain ⟨hnot, l, hbid, hl⟩ := h.candidate hs
    refine ⟨fun L hL => hnot L ((hm.lead_iff hj).mp hL), l, hle.bid hbid, ?_⟩
    rw [hlog]
    refine hl.imp_right fun hne => ?_
    rcases Option.ne_none_iff_exists'.mp hne with ⟨⟨c, L⟩, hL⟩
    rcases hle.lead hL with ⟨L', hL', -⟩
    rw [hL']
    simp

theorem ServerSim.frame (ha : Inv a) (hm : Moves i a a') (hj : j ≠ i) {s : Server n α}
    (h : ServerSim a j s) : ServerSim a' j s where
  memory := h.memory.frame ha hm hj
  disk := h.disk.mono (hm.le ha)
  delivered msg hmsg := (h.delivered msg hmsg).moves ha hm
  sent stream hs msg hmsg := (h.sent stream hs msg hmsg).mono (hm.le ha)
  requests req hreq := (h.requests req hreq).moves ha hm

theorem PacketSim.mono (hle : a ≤ a') {p : Packet n α} (h : PacketSim a p) : PacketSim a' p :=
  ⟨h.call.mono hle, fun reply hr => (h.reply reply hr).mono hle⟩

end

end DistStudy.Raft
