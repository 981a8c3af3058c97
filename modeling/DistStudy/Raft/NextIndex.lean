import DistStudy.Raft.LeaderAppendOnly
import DistStudy.Raft.LogTerms

/-!
# The next indexes of a leader

A leader slices its log at `nextIndex`, which is moved by its elections, by replies that
may be late, and, seen from the log, by every compaction. That the slices stay in range
rests on three facts that hold together (`Aimed`):

* an append of the leader's own term ends inside its log, as a leader's log only grows at
  its end (`Tenure`);
* the answer to an append points at or before its `PrevLogIndex`;
* so every next index lies between one and the index after the last entry.
-/

namespace DistStudy.Raft

variable {n : ℕ} {α : Type}

/-! ## The tenure of a leader -/

/-- Terms do not go back, and within a term a leader goes on leading and its log does not
get shorter at its end. -/
structure Tenure (rf rf' : Raft n α) : Prop where
  term : rf.currentTerm ≤ rf'.currentTerm
  leads : rf'.currentTerm = rf.currentTerm → rf.status = .leader →
    rf'.status = .leader ∧ rf.lastLogIndex ≤ rf'.lastLogIndex

theorem Tenure.refl (rf : Raft n α) : Tenure rf rf :=
  ⟨le_refl _, fun _ hl => ⟨hl, le_refl _⟩⟩

/-- A peer is in a higher term after an event, or goes on in its role if it leads. -/
theorem Outcome.term_cases {i : Fin n} {rf rf' : Raft n α} {input : Input n α}
    {es : List (Effect n α)} (ho : Outcome i rf input es (some rf')) :
    rf.currentTerm < rf'.currentTerm ∨
      rf'.currentTerm = rf.currentTerm ∧ (rf.status = .leader → rf'.status = .leader) := by
  -- a request moves the peer to its term, and only a candidate steps down for less
  have hcaught : ∀ (term : Int) (rf₁ : Raft n α),
      rf₁.currentTerm = (rf.caughtUp term).currentTerm →
      (rf.status = .leader → rf₁.status = (rf.caughtUp term).status) →
      rf.currentTerm < rf₁.currentTerm ∨
        rf₁.currentTerm = rf.currentTerm ∧ (rf.status = .leader → rf₁.status = .leader) := by
    intro term rf₁ hterm hstatus
    unfold caughtUp at hterm hstatus
    split_ifs at hterm hstatus with hgt
    · left
      rw [hterm]
      exact hgt
    · exact Or.inr ⟨hterm, fun hl => (hstatus hl).trans hl⟩
  cases ho with
  | voteGranted args ht hv hu => exact hcaught args.term _ rfl fun _ => rfl
  | voteRefused args ht hv hu => exact hcaught args.term _ rfl fun _ => rfl
  | voteTaken args ht hv => exact hcaught args.term _ rfl fun _ => rfl
  | appendRejected args reply ht hr =>
    refine hcaught args.term _ ?_ fun hl => by simp [heard, hl]
    unfold heard
    split_ifs <;> rfl
  | appendAccepted args ht hr =>
    refine hcaught args.term _ ?_ fun hl => by simp [heard, hl]
    unfold heard
    split_ifs <;> rfl
  | installEmpty args ht hd => exact hcaught args.term _ rfl fun _ => rfl
  | installCleared args ht hd hr => exact hcaught args.term _ rfl fun _ => rfl
  | installRetained args logs ht hd hr hl => exact hcaught args.term _ rfl fun _ => rfl
  | applied es res hes hres =>
    rcases hres with hres | ⟨-, hres⟩ <;> cases hres
    exact Or.inr ⟨rfl, id⟩
  | elected hs => exact Or.inl (by simp)
  | higherTerm hterm ht => exact Or.inl ht
  | leaderElected vote es hs ht hn hes => exact Or.inr ⟨rfl, fun _ => rfl⟩
  | sent input es res htimer hs hes hres =>
    rcases hres with hres | hres <;> cases hres
    exact Or.inr ⟨rfl, id⟩
  | replySuccess reply args server res hs ht hreq hok hres =>
    have hcred : (rf.credited args server).currentTerm = rf.currentTerm ∧
        (rf.credited args server).status = rf.status := by
      unfold credited
      split_ifs <;> exact ⟨rfl, rfl⟩
    rcases hres with hres | hres | ⟨M, -, -, -, hres⟩ <;> cases hres
    · exact Or.inr ⟨hcred.1, fun hl => hcred.2.trans hl⟩
    · exact Or.inr ⟨hcred.1, fun hl => hcred.2.trans hl⟩
  | _ => exact Or.inr ⟨rfl, id⟩

/-- An event of a peer that has no rival in its term. -/
theorem Outcome.tenure {i : Fin n} {rf rf' : Raft n α} {input : Input n α}
    {es : List (Effect n α)} (ho : Outcome i rf input es (some rf'))
    (halone : rf.status = .leader → Alone rf input) (h : Aligned rf) (h' : Aligned rf') :
    Tenure rf rf' := by
  rcases ho.term_cases with hlt | ⟨hterm, hstatus⟩
  · exact ⟨hlt.le, fun heq => by omega⟩
  refine ⟨hterm.ge, fun _ hl => ⟨hstatus hl, ?_⟩⟩
  rw [h.lastLogIndex_eq, h'.lastLogIndex_eq]
  rcases ho.leader_logs (halone hl) hl (hstatus hl) with ⟨req, -, hlo, hhi, rfl⟩ |
    ⟨-, hsnap, added, hlogs, -⟩
  · -- what is compacted away is counted by the new snapshot index
    simp only [Raft.compacted, List.length_drop]
    omega
  · rw [hsnap, hlogs, List.length_append]
    omega

/-! ## The answers to an append -/

/-- The three answers to an append: that of a newer term, that of a failed log check and
that of success. -/
theorem Outcome.append_reply {i : Fin n} {rf : Raft n α} {input : Input n α}
    {es : List (Effect n α)} {res : Option (Raft n α)} (ho : Outcome i rf input es res)
    {args : AppendEntriesArgs α} (hin : input = .appendEntries args) {reply : Reply}
    (hr : .reply reply ∈ es) :
    (args.term < rf.currentTerm ∧
        reply = .appendEntries { term := rf.currentTerm, success := false }) ∨
      (¬ args.term < rf.currentTerm ∧
        ∃ r, (rf.caughtUp args.term).rejects args = some r ∧ reply = .appendEntries r) ∨
      (¬ args.term < rf.currentTerm ∧
        reply = .appendEntries { term := args.term, success := true }) := by
  have hcatch : ∀ term, .reply reply ∉ rf.catchUp term := by
    intro term hmem
    cases (mem_catchUp.mp hmem).2
  subst hin
  cases ho with
  | appendStale _ ht => exact Or.inl ⟨ht, by simpa using hr⟩
  | appendRejected _ r ht hrej =>
    exact Or.inr (Or.inl ⟨ht, r, hrej, by simpa [hcatch] using hr⟩)
  | appendAccepted _ ht hrej =>
    simp only [List.mem_append, hcatch, false_or] at hr
    rcases hr with hr | hr
    · rcases acceptSaves_saves _ _ _ hr with ⟨j, heq⟩
      cases heq
    · exact Or.inr (Or.inr ⟨ht, by simpa using hr⟩)
  | higherTerm hterm ht => cases hterm
  | sent _ _ _ htimer hs hes hres => rcases htimer with htimer | htimer <;> cases htimer

/-- The two failures of the log check: the log is too short, or its entry at the index is
of another term and the answer points at the first entry of that term. -/
theorem Aligned.rejects_cases {rf : Raft n α} (h : Aligned rf) {args : AppendEntriesArgs α}
    {r : AppendEntriesReply} (hr : rf.rejects args = some r) :
    (rf.lastLogIndex < args.prevLogIndex ∧ r = { term := rf.currentTerm, success := false }) ∨
      ∃ l ∈ rf.logs, l.index = args.prevLogIndex ∧ l.term ≠ args.prevLogTerm ∧
        r.term = rf.currentTerm ∧ r.success = false ∧ r.conflictingTerm = l.term ∧
        ∃ first ∈ rf.logs, first.term = l.term ∧ first.index = r.firstConflictingIndex ∧
          first.index ≤ args.prevLogIndex := by
  unfold rejects at hr
  split_ifs at hr with hshort hsnap
  · left
    rw [h.lastLogIndex_eq]
    exact ⟨by omega, (Option.some.inj hr).symm⟩
  right
  rcases Option.bind_eq_some_iff.mp hr with ⟨l, hl, hterm⟩
  split_ifs at hterm with hne
  obtain rfl := Option.some.inj hterm
  have hidx := (h.contiguous.index?_eq hl).1
  unfold index? at hl
  split_ifs at hl
  refine ⟨l, List.mem_of_getElem? hl, by omega, hne, rfl, rfl, rfl, ?_⟩
  -- the first entry of the term is not after the one that was found
  cases hf : rf.logs.find? fun val => val.term = l.term with
  | none =>
    have hnone := List.find?_eq_none.mp hf l (List.mem_of_getElem? hl)
    simp at hnone
  | some first =>
    obtain ⟨hfirst, j, hj, hget, hbefore⟩ := List.find?_eq_some_iff_getElem.mp hf
    refine ⟨first, List.mem_of_find?_eq_some hf, by simpa using hfirst, ?_, ?_⟩
    · simp only [conflictReply, hf]
    · have hle : j ≤ (args.prevLogIndex - rf.snapshotIndex - 1).toNat := by
        by_contra hlt
        have hnot := hbefore _ (Nat.lt_of_not_le hlt)
        rw [(List.getElem?_eq_some_iff.mp hl).2] at hnot
        simp at hnot
      have hpos := h.contiguous j first (by rw [List.getElem?_eq_getElem hj, hget])
      omega

theorem Aligned.firstConflictingIndex_le {rf : Raft n α} (h : Aligned rf)
    {args : AppendEntriesArgs α} (hprev : 0 ≤ args.prevLogIndex) {r : AppendEntriesReply}
    (hr : rf.rejects args = some r) : r.firstConflictingIndex ≤ args.prevLogIndex := by
  rcases h.rejects_cases hr with ⟨-, rfl⟩ | ⟨l, -, -, -, -, -, -, first, -, -, hfirst, hle⟩
  · exact hprev
  · rw [← hfirst]
    exact hle

/-! ## The next indexes -/

/-- How the next indexes of a leader came about: it has just been elected, an append reply
has set one of them, or they are as before. -/
theorem Outcome.nextIndex_cases {i : Fin n} {rf rf' : Raft n α} {input : Input n α}
    {es : List (Effect n α)} (ho : Outcome i rf input es (some rf'))
    (hl' : rf'.status = .leader) :
    (∃ vote, rf' = (rf.counted vote).inaugurated) ∨
      rf.status = .leader ∧ (rf'.nextIndex = rf.nextIndex ∨
        ∃ reply args server next, input = .appendEntriesReply reply args server ∧
          reply.term = rf.currentTerm ∧ ¬ rf.currentTerm > args.term ∧
          rf'.nextIndex = rf.nextIndex.set server next server.isLt ∧
          (next = args.prevLogIndex + args.entries.length + 1 ∨ next = rf.backedOff reply)) := by
  -- a request that leaves a leader behind has not touched it
  have hkeep : ∀ (term : Int) (rf₁ : Raft n α), rf₁.status = .leader →
      (rf₁.status = (rf.caughtUp term).status ∨ rf₁.status = .follower) →
      rf₁.nextIndex = (rf.caughtUp term).nextIndex →
      rf.status = .leader ∧ rf₁.nextIndex = rf.nextIndex := by
    intro term rf₁ hst hsame hnext
    rcases hsame with hsame | hsame
    · have hrf := caughtUp_of_leader (hsame.symm.trans hst)
      rw [hrf] at hsame hnext
      exact ⟨hsame.symm.trans hst, hnext⟩
    · rw [hst] at hsame
      cases hsame
  have hheard : ∀ rf₁ : Raft n α, (rf.heard rf₁).nextIndex = rf₁.nextIndex := by
    intro rf₁
    unfold heard
    split_ifs <;> rfl
  cases ho with
  | voteGranted args ht hv hu =>
    exact Or.inr ((hkeep args.term _ hl' (Or.inl rfl) rfl).imp_right Or.inl)
  | voteRefused args ht hv hu =>
    exact Or.inr ((hkeep args.term _ hl' (Or.inl rfl) rfl).imp_right Or.inl)
  | voteTaken args ht hv =>
    exact Or.inr ((hkeep args.term _ hl' (Or.inl rfl) rfl).imp_right Or.inl)
  | appendRejected args reply ht hr =>
    exact Or.inr ((hkeep args.term _ hl' (heard_status rf _) (hheard _)).imp_right Or.inl)
  | appendAccepted args ht hr =>
    exact Or.inr ((hkeep args.term _ hl' (heard_status rf _) (hheard _)).imp_right Or.inl)
  | installEmpty args ht hd =>
    exact Or.inr ((hkeep args.term _ hl' (Or.inl rfl) rfl).imp_right Or.inl)
  | installCleared args ht hd hr =>
    exact Or.inr ((hkeep args.term _ hl' (Or.inl rfl) rfl).imp_right Or.inl)
  | installRetained args logs ht hd hr hl =>
    exact Or.inr ((hkeep args.term _ hl' (Or.inl rfl) rfl).imp_right Or.inl)
  | applied es res hes hres =>
    rcases hres with hres | ⟨-, hres⟩ <;> cases hres
    exact Or.inr ⟨hl', Or.inl rfl⟩
  | elected hs => cases hl'
  | higherTerm hterm ht => cases hl'
  | leaderElected vote es hs ht hn hes => exact Or.inl ⟨vote, rfl⟩
  | sent input es res htimer hs hes hres =>
    rcases hres with hres | hres <;> cases hres
    exact Or.inr ⟨hl', Or.inl rfl⟩
  | replySuccess reply args server res hs ht hreq hok hres =>
    refine Or.inr ⟨hs, ?_⟩
    have hcred : rf'.nextIndex = (rf.credited args server).nextIndex := by
      rcases hres with hres | hres | ⟨M, -, -, -, hres⟩ <;> cases hres <;> rfl
    unfold credited at hcred
    split_ifs at hcred with hnew
    · exact Or.inr ⟨reply, args, server, _, rfl, ht, hreq, hcred, Or.inl rfl⟩
    · exact Or.inl hcred
  | replyFailure reply args server es hs ht hreq hok hes =>
    exact Or.inr ⟨hs, Or.inr ⟨reply, args, server, _, rfl, ht, hreq, rfl, Or.inr rfl⟩⟩
  | _ => exact Or.inr ⟨hl', Or.inl rfl⟩

/-- Every next index is an index of the log or the one after it. -/
def Targets (rf : Raft n α) : Prop :=
  ∀ server : Fin n, 1 ≤ getElem rf.nextIndex server server.isLt ∧
    getElem rf.nextIndex server server.isLt ≤ rf.lastLogIndex + 1

/-- What the peer `rf` still knows of an append that it has sent. -/
structure Offered (rf : Raft n α) (args : AppendEntriesArgs α) : Prop where
  prev : 0 ≤ args.prevLogIndex
  term : args.term ≤ rf.currentTerm
  leads : args.term = rf.currentTerm →
    rf.status = .leader ∧ args.prevLogIndex + args.entries.length ≤ rf.lastLogIndex

theorem Offered.tenure {rf rf' : Raft n α} {args : AppendEntriesArgs α} (h : Offered rf args)
    (ht : Tenure rf rf') : Offered rf' args := by
  have hle := ht.term
  have hterm := h.term
  refine ⟨h.prev, by omega, fun heq => ?_⟩
  obtain ⟨hl, hend⟩ := h.leads (by omega)
  obtain ⟨hl', hlast⟩ := ht.leads (by omega) hl
  exact ⟨hl', hend.trans hlast⟩

/-- An append ends where the log of the leader ends. -/
theorem Aligned.offered {rf : Raft n α} (h : Aligned rf) (hl : rf.status = .leader)
    {me server : Fin n} {args : AppendEntriesArgs α}
    (hs : Sends me rf (.call server (.appendEntries args))) : Offered rf args := by
  have hterm : args.term = rf.currentTerm := Option.some.inj hs.ledTerm
  have hlast := h.lastLogIndex_eq
  have hnonneg := h.nonneg
  rcases h.sends_cases hs with ⟨hnil, hprev, -⟩ | ⟨-, hlo, hhi, hentries, -⟩
  · refine ⟨by omega, hterm.le, fun _ => ⟨hl, ?_⟩⟩
    simp [hnil, hprev]
  · refine ⟨by omega, hterm.le, fun _ => ⟨hl, ?_⟩⟩
    rw [hentries, List.length_drop]
    omega

/-- The entries of an aligned log lie between the snapshot and the last index. -/
theorem Aligned.index_bounds {rf : Raft n α} (h : Aligned rf) {l : Log α} (hl : l ∈ rf.logs) :
    rf.snapshotIndex + 1 ≤ l.index ∧ l.index ≤ rf.lastLogIndex := by
  obtain ⟨j, hj, rfl⟩ := List.getElem_of_mem hl
  have hidx := h.contiguous j _ (List.getElem?_eq_getElem hj)
  rw [h.lastLogIndex_eq]
  omega

theorem Aligned.backedOff_bounds {rf : Raft n α} (h : Aligned rf) {reply : AppendEntriesReply}
    (hfirst : reply.firstConflictingIndex ≤ rf.lastLogIndex) :
    1 ≤ rf.backedOff reply ∧ rf.backedOff reply ≤ rf.lastLogIndex + 1 := by
  have hnonneg := h.nonneg
  have hlast := h.lastLogIndex_eq
  have hmax : ∀ x, 1 ≤ x → x ≤ rf.lastLogIndex + 1 →
      1 ≤ max x reply.firstConflictingIndex ∧
        max x reply.firstConflictingIndex ≤ rf.lastLogIndex + 1 := by
    intro x hlo hhi
    omega
  unfold backedOff
  split
  · rename_i val hval
    have hbounds := h.index_bounds (List.mem_of_mem_filter (List.mem_of_getLast? hval))
    exact hmax val.index (by omega) (by omega)
  · exact hmax (rf.snapshotIndex + 1) (by omega) (by omega)

/-- Every event of a leader keeps its next indexes in range, given that what it has sent
ends inside its log and that answers do not point beyond it. -/
theorem Outcome.targets {i : Fin n} {rf rf' : Raft n α} {input : Input n α}
    {es : List (Effect n α)} (ho : Outcome i rf input es (some rf'))
    (hl' : rf'.status = .leader) (h : Aligned rf) (ht : Tenure rf rf')
    (hnext : rf.status = .leader → Targets rf)
    (hreply : ∀ reply args server, input = .appendEntriesReply reply args server →
      Offered rf args ∧ reply.firstConflictingIndex ≤ args.prevLogIndex) : Targets rf' := by
  rcases ho.nextIndex_cases hl' with ⟨vote, rfl⟩ | ⟨hl, hcase⟩
  · -- the log of a new leader is its log as a candidate
    intro server
    have hlast : (rf.counted vote).inaugurated.lastLogIndex = rf.lastLogIndex := rfl
    have hvalue : (rf.counted vote).inaugurated.nextIndex[server] = rf.lastLogIndex + 1 := by
      simp [inaugurated, counted, lastLogIndex]
    have hlog := h.lastLogIndex_eq
    have hnonneg := h.nonneg
    omega
  have hlast := (ht.leads (ho.leader_term hl') hl).2
  rcases hcase with hsame | ⟨reply, args, server', next, hin, -, hreq, hset, hvalue⟩
  · intro server
    rw [hsame]
    have hold := hnext hl server
    omega
  · obtain ⟨hoffered, hfirst⟩ := hreply reply args server' hin
    have hprev := hoffered.prev
    have hend := (hoffered.leads (by have hle := hoffered.term; omega)).2
    -- the new value is in range, whichever answer it is taken from
    have hrange : 1 ≤ next ∧ next ≤ rf.lastLogIndex + 1 := by
      rcases hvalue with rfl | rfl
      · omega
      · exact h.backedOff_bounds (by omega)
    intro server
    rw [hset]
    by_cases hs : server = server'
    · subst hs
      simp only [Fin.getElem_fin, Vector.getElem_set_self]
      omega
    · have hne : (server' : ℕ) ≠ server := fun heq => hs (Fin.ext heq.symm)
      have hold := hnext hl server
      simp only [Fin.getElem_fin] at hold ⊢
      rw [Vector.getElem_set_ne _ _ hne]
      omega

/-! ## Whole worlds -/

/-- The leaders' next indexes, the appends in flight and the answers to them. -/
structure Aimed (w : World n α) : Prop where
  next : ∀ i, (w.server i).rf.status = .leader → Targets (w.server i).rf
  offered : ∀ p ∈ w.net, ∀ {args}, p.caller.call = .appendEntries args →
    Offered (w.server p.caller.client).rf args
  answer : ∀ p ∈ w.net, ∀ {args r}, p.caller.call = .appendEntries args →
    p.answer = some (.appendEntries r) → r.firstConflictingIndex ≤ args.prevLogIndex

section

variable {w w' : World n α} {cause : Cause n α} {a : Arrival n α} {event : Event n α}

/-- The network loses packets or fails calls; a failed call is answered by zero values. -/
theorem Aimed.congr (h : Aimed w) (hw : ∀ j, (w'.server j).rf = (w.server j).rf)
    (hnet : ∀ p ∈ w'.net, ∃ q ∈ w.net, q.caller = p.caller ∧
      (p.answer = q.answer ∨ p.answer = none ∨ p.answer = some p.caller.call.zeroReply)) :
    Aimed w' where
  next i hl := by
    rw [hw i] at hl ⊢
    exact h.next i hl
  offered p hp args hcall := by
    rcases hnet p hp with ⟨q, hq, hcaller, -⟩
    rw [hw, ← hcaller]
    exact h.offered q hq (hcaller ▸ hcall)
  answer p hp args r hcall hans := by
    rcases hnet p hp with ⟨q, hq, hcaller, hsame | hnone | hzero⟩
    · exact h.answer q hq (hcaller ▸ hcall) (hsame ▸ hans)
    · rw [hnone] at hans
      cases hans
    · rw [hzero, hcall] at hans
      have hr : r = {} := by simpa [Call.zeroReply] using hans.symm
      rw [hr]
      exact (h.offered q hq (hcaller ▸ hcall)).prev

theorem Aimed.arrives (h : Aimed w) (ha : Arrives w cause a) : Aimed a.world :=
  h.congr (fun j => (ha.agree j).1) fun p hp => ⟨p, ha.net.subset hp, rfl, Or.inl rfl⟩

/-- What is known of an append reply that a leader handles. -/
theorem Aimed.heard (h : Aimed w) (ha : Arrives w cause a) {reply : AppendEntriesReply}
    {args : AppendEntriesArgs α} {server : Fin n}
    (hin : a.input = .appendEntriesReply reply args server) :
    Offered (a.world.server a.server).rf args ∧ reply.firstConflictingIndex ≤ args.prevLogIndex := by
  rw [(ha.agree a.server).1]
  cases ha with
  | timer i t => cases t <;> cases hin
  | start i command => cases hin
  | snapshotRequest i k req hreq => cases hin
  | request k c i waiting hp =>
    cases hc : c.call <;> simp [hc, Call.input] at hin
  | response k c i r input hp hinc hback =>
    have hmem := List.mem_of_getElem? hp
    cases hc : c.call <;> cases r <;> rw [hc] at hback <;> cases hback <;> cases hin
    exact ⟨h.offered _ hmem hc, h.answer _ hmem hc rfl⟩

/-- The requests that a peer sends are about the log that it ends the event with. -/
theorem Outcome.offered_of_call {i : Fin n} {rf rf' : Raft n α} {input : Input n α}
    {es : List (Effect n α)} (ho : Outcome i rf input es (some rf')) (h : Aligned rf)
    (ht : Tenure rf rf') {server : Fin n} {args : AppendEntriesArgs α}
    (hc : .call server (.appendEntries args) ∈ es) : Offered rf' args := by
  rcases ho.call_cases hc with ⟨-, -, heq⟩ | ⟨hl, hs⟩ | ⟨vote, -, hres, hs⟩ |
    ⟨reply, args', -, -, heq⟩
  · cases heq
  · exact (h.offered hl hs).tenure ht
  · obtain rfl := Option.some.inj hres
    have h' : Aligned (rf.counted vote).inaugurated := ⟨h.nonneg, h.contiguous⟩
    exact h'.offered rfl hs
  · cases heq

theorem Aimed.handle (h : Aimed w) (ha : Arrives w cause a) {es : List (Effect n α)}
    {rf : Raft n α} (ho : Outcome a.server (a.world.server a.server).rf a.input es (some rf))
    (hal : Aligned (a.world.server a.server).rf) (ht : Tenure (a.world.server a.server).rf rf) :
    Aimed (a.world.perform a.server a.caller es rf) := by
  have hw := h.arrives ha
  have hperf : Performs a.world (a.world.perform a.server a.caller es rf) a.server a.caller es :=
    ⟨fun j hj => World.server_perform_ne _ _ _ _ hj, rfl⟩
  -- what the clients know of their appends survives the event
  have hkept : ∀ (j : Fin n) (args : AppendEntriesArgs α), Offered (a.world.server j).rf args →
      Offered ((a.world.perform a.server a.caller es rf).server j).rf args := by
    intro j args hoffered
    by_cases hj : j = a.server
    · subst hj
      rw [World.server_perform_self]
      exact hoffered.tenure ht
    · rwa [hperf.others j hj]
  refine ⟨fun j hl => ?_, fun p hp args hcall => ?_, fun p hp args r hcall hr => ?_⟩
  · by_cases hj : j = a.server
    · subst hj
      rw [World.server_perform_self] at hl ⊢
      exact ho.targets hl hal ht (hw.next a.server) fun _ _ _ hin => h.heard ha hin
    · rw [hperf.others j hj] at hl ⊢
      exact hw.next j hl
  · rcases hperf.mem_net hp with hold | ⟨server, call, hc, rfl⟩ | ⟨c, reply, hc, -, rfl⟩
    · exact hkept _ _ (hw.offered p hold hcall)
    · obtain rfl : call = .appendEntries args := hcall
      simp only [Packet.caller, World.server_perform_self]
      exact ho.offered_of_call hal ht hc
    · -- the client of the request that is answered
      have hoffered := h.offered _ (ha.caller_mem hc).1 hcall
      rw [← (ha.agree _).1] at hoffered
      exact hkept _ _ hoffered
  · rcases hperf.mem_net hp with hold | ⟨server, call, hc, rfl⟩ | ⟨c, reply, hc, hmem, rfl⟩
    · exact hw.answer p hold hcall hr
    · cases hr
    · obtain ⟨hreq, hinput⟩ := ha.caller_mem hc
      obtain rfl : reply = .appendEntries r := Option.some.inj hr
      have hprev := (h.offered _ hreq hcall).prev
      rw [show c.call = .appendEntries args from hcall] at hinput
      rcases ho.append_reply hinput hmem with ⟨-, heq⟩ | ⟨-, r', hrej, heq⟩ | ⟨-, heq⟩
      · cases heq
        exact hprev
      · cases heq
        exact (hal.caughtUp args.term).firstConflictingIndex_le hprev hrej
      · cases heq
        exact hprev

/-- What the steps of a run without crashes rest on. -/
structure Orderly (w : World n α) : Prop where
  led : ∃ vote : Votes n, Elections vote w ∧ Led vote w
  everywhere : Everywhere (fun _ s => Aligned s.rf ∧ Termed s.rf)
    (fun _ call => Shaped call ∧ TermedCall call) w

theorem Run.orderly {e : Behavior (World n α)} (he : Run noCrashes.Allows e) (k : ℕ) :
    Orderly (e k) :=
  ⟨he.led k, noCrashes_local.run he k⟩

/-- An event keeps the log of its peer aligned and its tenure. -/
theorem Orderly.handle (h : Orderly w) (ha : Arrives w cause a) {es : List (Effect n α)}
    {rf : Raft n α} (ho : Outcome a.server (a.world.server a.server).rf a.input es (some rf)) :
    Aligned (a.world.server a.server).rf ∧ Tenure (a.world.server a.server).rf rf := by
  obtain ⟨hw, hheard⟩ := noCrashes_local.arrives h.everywhere ha
  have hal := (hw.server a.server).1
  rcases h.led with ⟨vote, hvote, hled⟩
  exact ⟨hal, ho.tenure (hled.alone hvote ha) hal
    (hal.outcome (hheard.shaped fun _ hc => hc.1) ho)⟩

theorem Aimed.step (h : Aimed w) (hw : Orderly w) (hC : noCrashes.Allows w event)
    (hs : Steps w event w') : Aimed w' := by
  cases hs with
  | handle cause a es rf harr ha ho =>
    obtain ⟨hal, ht⟩ := hw.handle ha ho
    exact h.handle ha ho hal ht
  | crashDuring cause k a es res harr ha handler hserve hes ho =>
    exact (((hC a harr).2 handler hserve).lastSave (Q := fun _ => False) id id).elim
  | crash i => exact hC.elim
  | snapshot i index data =>
    refine h.congr (fun j => ?_) fun p hp => ⟨p, hp, rfl, Or.inl rfl⟩
    by_cases hj : j = i
    · subst hj
      rw [World.server_snapshot_self]
    · rw [World.server_snapshot_ne w index data hj]
  | drop k =>
    exact h.congr (fun _ => rfl) fun p hp => ⟨p, List.mem_of_mem_eraseIdx hp, rfl, Or.inl rfl⟩
  | failRequest k c i hreq =>
    refine h.congr (fun _ => rfl) fun p hp => ?_
    have hmem := List.mem_of_getElem? hreq
    rcases List.mem_append.mp hp with hp | hp
    · rcases List.mem_or_eq_of_mem_set hp with hp | rfl
      · exact ⟨p, hp, rfl, Or.inl rfl⟩
      · exact ⟨_, hmem, rfl, Or.inl rfl⟩
    · obtain rfl := List.mem_singleton.mp hp
      exact ⟨_, hmem, rfl, Or.inr (Or.inr rfl)⟩
  | failResponse k c i reply hresp =>
    refine h.congr (fun _ => rfl) fun p hp => ?_
    rcases List.mem_or_eq_of_mem_set hp with hp | rfl
    · exact ⟨p, hp, rfl, Or.inl rfl⟩
    · exact ⟨_, List.mem_of_getElem? hresp, rfl, Or.inr (Or.inr rfl)⟩

end

theorem Run.aimed {e : Behavior (World n α)} (he : Run noCrashes.Allows e) (k : ℕ) :
    Aimed (e k) := by
  have hinit : Aimed (World.init : World n α) := by
    refine ⟨fun i hl => ?_, fun p hp => ?_, fun p hp => ?_⟩
    · rw [World.server_init] at hl
      cases hl
    · cases hp
    · cases hp
  exact he.invariant_of he.orderly Aimed hinit
    (fun w event w' hw h hC hs => h.step hw hC (steps_of_step hs)) k

/-! ## The requests of a leader -/

/-- A request carries the rest of the leader's log: all entries after `PrevLogIndex`, which
is that of the entry before them or, at the start of the log, of the snapshot. -/
structure ExactSlice (rf : Raft n α) (args : AppendEntriesArgs α) : Prop where
  entries : args.entries = rf.logs.filter fun l => args.prevLogIndex < l.index
  prev : (∃ l ∈ rf.logs, l.index = args.prevLogIndex ∧ l.term = args.prevLogTerm) ∨
    args.entries = rf.logs ∧ args.prevLogIndex = rf.snapshotIndex ∧
      args.prevLogTerm = rf.snapshotTerm

theorem Aligned.exactSlice {rf : Raft n α} (h : Aligned rf) {me server : Fin n}
    {args : AppendEntriesArgs α} (hs : Sends me rf (.call server (.appendEntries args)))
    (hne : args.entries ≠ []) : ExactSlice rf args := by
  rcases h.sends_cases hs with ⟨hnil, -⟩ | ⟨-, hlo, hhi, hentries, hprev⟩
  · exact absurd hnil hne
  refine ⟨?_, ?_⟩
  · rw [h.contiguous.filter_above]
    exact hentries
  · rcases hprev with ⟨hindex, hterm⟩ | hentry
    · right
      rw [hindex, sub_self] at hentries
      exact ⟨hentries, hindex, hterm⟩
    · exact Or.inl hentry

/-- With its next indexes in range a leader can slice its log for every peer. -/
theorem Targets.broadcastTo_returns {rf : Raft n α} (ht : Targets rf) (h : Aligned rf)
    (me server : Fin n) : (broadcastTo me server rf).2 = some ((), rf) := by
  have hrange := ht server
  have hlast := h.lastLogIndex_eq
  simp only [broadcastTo, Prog.get_bind_run]
  split_ifs with hc
  · obtain ⟨hle, hsnap⟩ := hc
    have hslice : sliceFrom? rf.logs (rf.nextIndex[server] - 1 - rf.snapshotIndex) =
        some (rf.logs.drop (rf.nextIndex[server] - 1 - rf.snapshotIndex).toNat) := by
      rw [sliceFrom?, if_pos (by omega)]
    rw [hslice, Prog.orPanic_some_bind_run, appendEntries_run]
    -- the entry before the slice is in the log, or is the snapshot
    have hprev : ∀ entries, ∃ prev, rf.previous server entries = some prev := by
      intro entries
      unfold previous
      split_ifs with hempty hfirst
      · exact ⟨_, rfl⟩
      · exact ⟨_, rfl⟩
      · have hin : rf.nextIndex[server] - rf.snapshotIndex - 2 < rf.logs.length := by omega
        obtain ⟨l, hl⟩ := index?_of_lt (by omega) hin
        exact ⟨_, by rw [hl]; rfl⟩
    obtain ⟨prev, hprev⟩ := hprev (rf.logs.drop (rf.nextIndex[server] - 1 - rf.snapshotIndex).toNat)
    rw [hprev]
  · rfl

/-- **Leader requests are exact log slices.** In every state of every run without crashes
the next indexes of a leader lie between one and the index after its last entry. So neither
of its loops over the peers panics, and every request with entries that it broadcasts
carries all entries of its log after `PrevLogIndex`. -/
theorem leader_requests_exact {e : Behavior (World n α)} (he : Run noCrashes.Allows e) (k : ℕ)
    (i : Fin n) (hl : ((e k).server i).rf.status = .leader) :
    Targets ((e k).server i).rf ∧
    (broadcastAppendEntries i ((e k).server i).rf).2 ≠ none ∧
    (sendHeartBeat i ((e k).server i).rf).2 ≠ none ∧
    ∀ server args, .call server (.appendEntries args) ∈
        (broadcastAppendEntries i ((e k).server i).rf).1 ++
          (sendHeartBeat i ((e k).server i).rf).1 →
      args.entries ≠ [] → ExactSlice ((e k).server i).rf args := by
  have hal := ((he.orderly k).everywhere.server i).1
  have htargets := (he.aimed k).next i hl
  have hbroadcast := broadcastAppendEntries_run i ((e k).server i).rf
  have hbeat := sendHeartBeat_run i ((e k).server i).rf
  refine ⟨htargets, ?_, ?_, fun server args hc hne => ?_⟩
  · have hreturns := forPeers_returns (htargets.broadcastTo_returns hal i) (others i)
    rw [broadcastAppendEntries, hreturns]
    simp
  · rw [hbeat.2]
    simp
  · rcases List.mem_append.mp hc with hc | hc
    · exact hal.exactSlice (hbroadcast.1 _ hc) hne
    · exact hal.exactSlice (hbeat.1 _ hc) hne

/-- A leader that has compacted its first entry sends the second one after its snapshot. -/
theorem leader_requests_exact_installed :
    .call 1 (.appendEntries ⟨1, 0, 1, 1, [⟨1, 2, 6⟩], 1⟩) ∈ (broadcastAppendEntries 0
        ((play World.step World.init (snapshotInstalled.take 20)).server 0).rf).1 ∧
      ExactSlice ((play World.step World.init (snapshotInstalled.take 20)).server 0).rf
        ⟨1, 0, 1, 1, [⟨1, 2, 6⟩], 1⟩ :=
  ⟨by decide +kernel,
    (leader_requests_exact (Runs.play (by decide +kernel) : Run noCrashes.Allows
      (fun k => play World.step World.init (snapshotInstalled.take k))) 20 0
      (by decide +kernel)).2.2.2 1 _ (List.mem_append_left _ (by decide +kernel)) (by decide)⟩

end DistStudy.Raft
