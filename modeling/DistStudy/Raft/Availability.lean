import DistStudy.Raft.Campaign

/-!
# A majority can always go on

From every state that a run without snapshots reaches, whatever was lost and whoever has
crashed, any majority of the peers can elect a leader, replicate a new command and deliver
it (`majority_commits`), without a further crash or loss and without any other peer. After
the election of `Campaign`:

* `exists_synced`: a leader backs off until a peer accepts its log;
* `exists_committed`: with a majority of such peers it commits its last entry;
* `exists_raised`: a heartbeat carries the commit index to a peer;
* `exists_delivered`: the peer delivers what is committed.

A cluster of one is an exception, since votes are only counted when a reply arrives: its
peer never leads (`lone_peer_idle`).
-/

namespace DistStudy.Raft

open ReplicatedLog

variable {n : ℕ} {α : Type}

section

variable {M : Finset (Fin n)} {w w' : World n α} {i f : Fin n} {gone : Option (Packet n α)}
  {caller : Option (Caller n α)} {es : List (Effect n α)} {rf : Raft n α}

/-! ## Appends of the current term -/

/-- What an append does to a peer that is in its term. -/
theorem Outcome.append_same {me : Fin n} {args : AppendEntriesArgs α} {rf' : Raft n α}
    (ho : Outcome me rf (.appendEntries args) es (some rf')) (hterm : rf.currentTerm = args.term) :
    (∃ r, rf.rejects args = some r ∧ rf' = rf.heard rf ∧ .reply (.appendEntries r) ∈ es) ∨
      rf.rejects args = none ∧ rf' = rf.heard (rf.accepted args) ∧
        .reply (.appendEntries { term := args.term, success := true }) ∈ es := by
  have hcaught : rf.caughtUp args.term = rf := if_neg (by omega)
  cases ho with
  | appendStale args hstale => omega
  | appendRejected args r hstale hr =>
    rw [hcaught] at hr ⊢
    exact Or.inl ⟨r, hr, rfl, by simp⟩
  | appendAccepted args hstale hr =>
    rw [hcaught] at hr ⊢
    exact Or.inr ⟨hr, rfl, by simp⟩
  | higherTerm hin => cases hin
  | sent input es res hin => rcases hin with hin | hin <;> cases hin

theorem heard_currentTerm (rf rf₁ : Raft n α) : (rf.heard rf₁).currentTerm = rf₁.currentTerm := by
  unfold heard
  split_ifs <;> rfl

/-- The entries of a sane world are of positive terms. -/
theorem Sim.entry_pos {a : Abstract n α} (h : Sim a w) {l : Log α}
    (hl : l ∈ (w.server i).rf.logs) : 1 ≤ l.term := by
  rcases (h.servers i).memory.stores.termAt_of_mem hl with ⟨hpos, hat⟩
  rcases hat.take_eq (by omega) with ⟨P, x, hP, -, hx⟩
  have hpre : P ++ [x] <+: a.log i := by
    rw [← hP]
    exact List.take_prefix _ _
  rcases h.inv.log_rooted i P x hpre with ⟨c, L, hL, -⟩
  rw [hx] at hL
  rcases h.inv.lead_bid hL with ⟨l, es, hb, -, -⟩
  exact h.positive.bid hb

/-- A leader without a snapshot never backs off below the first index. -/
theorem Aligned.one_le_backedOff (h : Aligned rf) (h0 : rf.snapshotIndex = 0)
    (r : AppendEntriesReply) : 1 ≤ rf.backedOff r := by
  unfold backedOff
  refine le_max_of_le_left ?_
  split
  · rename_i val hval
    have hmem := List.mem_of_mem_filter (List.mem_of_getLast? hval)
    have hlt := h.contiguous.lt_index hmem
    omega
  · rw [h0]
    exact le_refl 1

/-- In a sane world a leader that hears of a rejection backs off to `PrevLogIndex` or below. -/
theorem Sane.backedOff_le (h : Sane w) {inc : ℕ} {args : AppendEntriesArgs α} {waiting : Bool}
    (hp : .request ⟨i, inc, .appendEntries args⟩ f waiting ∈ w.net)
    (hs : (w.server i).rf.status = .leader) (hi : args.term = (w.server i).rf.currentTerm)
    (hf : (w.server f).rf.currentTerm = args.term) {r : AppendEntriesReply}
    (hr : (w.server f).rf.rejects args = some r) :
    r.term = args.term ∧ r.success = false ∧
      (w.server i).rf.backedOff r ≤ args.prevLogIndex := by
  have hal := h.aligned f
  have h0 := (h.bare f).index
  have h0i := (h.bare i).index
  have hprev : 0 < args.prevLogIndex := by
    unfold rejects at hr
    split_ifs at hr <;> omega
  have hanswer : r.term = args.term ∧ r.success = false := by
    rw [← hf]
    rcases hal.rejects_cases hr with ⟨-, rfl⟩ | ⟨l, -, -, -, hterm, hok, -⟩
    · exact ⟨rfl, rfl⟩
    · exact ⟨hterm, hok⟩
  rcases h.sim with ⟨a, ha⟩
  have hmem := (ha.servers i).memory
  -- the append carries a prefix of the log that the leader still has
  rcases (ha.packets _ hp).call with ⟨L₀, hL₀⟩
  rcases hL₀.lead with ⟨L, hlead, hpre⟩
  rw [hi] at hlead
  obtain ⟨-, rfl⟩ := State.lead_inj (hmem.leader hs).1 hlead
  have hlast : args.prevLogIndex ≤ (w.server i).rf.lastLogIndex := by
    have hle := hL₀.carries.le
    have hlen := hpre.length_le
    rw [hmem.stores.lastLogIndex_eq]
    omega
  have hne : (w.server i).rf.logs ≠ [] := by
    intro hnil
    rw [(h.aligned i).lastLogIndex_eq, hnil, List.length_nil] at hlast
    omega
  have hrecurs : ¬ Recurs (w.server i).rf r args :=
    ((ha.servers f).memory.stores.disputes (ha.inv.log_rooted f) hr).not_recurs hmem.stores
      (ha.inv.log_rooted i) (hL₀.carries.term.of_isPrefix hpre) fun l hl => ha.entry_pos hl
  have hprogress := ((h.aligned i).progresses_iff (hanswer.1.trans hi) hi hanswer.2
    (hal.firstConflictingIndex_le hprev.le hr) hlast i f).mpr ⟨hne, hrecurs⟩
  refine ⟨hanswer.1, hanswer.2, ?_⟩
  rcases ((h.aligned i).progresses (hanswer.1.trans hi) hi hanswer.2 i f).mp hprogress with
    hle | ⟨-, hle⟩
  · exact hle
  · omega

/-! ## Replication -/

/-- Peer `i` leads in term `t` with the log `logs`, and the peers of `M` are in its term. If
its last entry can be committed, it is. -/
structure Office (M : Finset (Fin n)) (i : Fin n) (t : Int) (logs : List (Log α))
    (w : World n α) : Prop where
  leads : (w.server i).rf.status = .leader
  log : (w.server i).rf.logs = logs
  terms : ∀ f ∈ M, (w.server f).rf.currentTerm = t
  commit : (w.server i).rf.Committable i logs.length →
    logs.length ≤ (w.server i).rf.commitIndex

variable {t : Int} {logs : List (Log α)}

/-- After a turn of another peer. -/
theorem Office.other (h : Office M i t logs w) (ha : After w w' f gone caller es rf)
    (hfi : f ≠ i) (hterm : rf.currentTerm = (w.server f).rf.currentTerm) :
    Office M i t logs w' := by
  have hi : w'.server i = w.server i := ha.others i hfi.symm
  refine ⟨by rw [hi]; exact h.leads, by rw [hi]; exact h.log, fun g hg => ?_, ?_⟩
  · by_cases hgf : g = f
    · subst hgf
      rw [ha.rf_self, hterm]
      exact h.terms g hg
    · rw [ha.others g hgf]
      exact h.terms g hg
  · rw [hi]
    exact h.commit

/-- After a turn of the leader that it survives with its log. -/
theorem Office.own (h : Office M i t logs w) (ha : After w w' i gone caller es rf)
    (hs : rf.status = .leader) (hterm : rf.currentTerm = (w.server i).rf.currentTerm)
    (hlogs : rf.logs = (w.server i).rf.logs)
    (hcommit : rf.Committable i logs.length → logs.length ≤ rf.commitIndex) :
    Office M i t logs w' := by
  have hi := ha.rf_self
  refine ⟨by rw [hi]; exact hs, by rw [hi, hlogs]; exact h.log, fun g hg => ?_, ?_⟩
  · by_cases hgi : g = i
    · subst hgi
      rw [hi, hterm]
      exact h.terms g hg
    · rw [ha.others g hgi]
      exact h.terms g hg
  · rw [hi]
    exact hcommit

/-- On its way to `i` is the answer of `f` to an append of all entries from `next` on. -/
structure Answered (w : World n α) (i f : Fin n) (t : Int) (next : Int)
    (args : AppendEntriesArgs α) (reply : AppendEntriesReply) : Prop where
  flight : .response ⟨i, (w.server i).incarnation, .appendEntries args⟩ f
    (.appendEntries reply) ∈ w.net
  request : args.term = t
  answer : reply.term = t
  prev : args.prevLogIndex = next - 1
  all : args.prevLogIndex + args.entries.length = (w.server i).rf.logs.length
  failed : reply.success = false → (w.server i).rf.backedOff reply < next

/-- The leader sends `f` what it lacks, and `f` answers. -/
theorem Office.exists_answered (h : Office M i t logs w) (hsane : Sane w) (hi : i ∈ M)
    (hf : f ∈ M) (hfi : f ≠ i) {next : Int}
    (hnext : getElem (w.server i).rf.nextIndex f f.isLt = next) (h1 : 1 ≤ next)
    (hle : next ≤ logs.length) :
    ∃ w' args reply, Reaches M w w' ∧ Office M i t logs w' ∧
      (w'.server i).rf = (w.server i).rf ∧ Answered w' i f t next args reply := by
  have hlen := (hsane.aligned i).lastLogIndex_eq
  rw [(hsane.bare i).index, h.log] at hlen
  rcases responds_broadcast i h.leads (hsane.aligned i) (hsane.bare i).index with
    ⟨es₁, hresp₁, hsent⟩
  rcases hsent f next hfi hnext h1 (by omega) with ⟨prev, -, hprev, hcall⟩
  rcases exists_turn_timer hi .broadcastEntries hresp₁ with ⟨w₁, hturn₁, hafter₁⟩
  have hi₁ := hafter₁.rf_self
  have hoffice₁ := h.own hafter₁ h.leads rfl rfl h.commit
  have hpacket := hafter₁.calls f _ hcall
  have hsane₁ := hsane.turn hturn₁
  generalize hargs : appendRequest i (w.server i).rf
    ((w.server i).rf.logs.drop (next - 1).toNat) prev = args at hpacket
  have hrequest : args.term = t := by
    rw [← hargs]
    exact h.terms i hi
  have hat : args.prevLogIndex = next - 1 := by
    rw [← hargs]
    exact hprev
  have hall : args.prevLogIndex + args.entries.length = logs.length := by
    have hentries : args.entries.length = logs.length - (next - 1).toNat := by
      rw [← hargs]
      show ((w.server i).rf.logs.drop (next - 1).toNat).length = _
      rw [List.length_drop, h.log]
    omega
  rcases exists_responds_appendEntries f (w₁.server f).rf args with ⟨es₂, rf₂, hresp₂⟩
  have hterm : (w₁.server f).rf.currentTerm = args.term :=
    (hoffice₁.terms f hf).trans hrequest.symm
  rcases exists_turn_request hpacket hf hresp₂ with ⟨w₂, hturn₂, hafter₂⟩
  have hi₂ : w₂.server i = w₁.server i := hafter₂.others i hfi.symm
  -- it is enough to find the answer and to see that the term of `f` is the same
  suffices hreply : ∃ reply, .reply (.appendEntries reply) ∈ es₂ ∧ reply.term = t ∧
      rf₂.currentTerm = (w₁.server f).rf.currentTerm ∧
      (reply.success = false → (w₁.server i).rf.backedOff reply < next) by
    rcases hreply with ⟨reply, hmem, hanswer, hsame, hfailed⟩
    refine ⟨w₂, args, reply, .head hturn₁ (.single hturn₂), hoffice₁.other hafter₂ hfi hsame,
      by rw [hi₂, hi₁], ?_, hrequest, hanswer, hat, ?_, ?_⟩
    · rw [hafter₂.incarnation, hafter₁.incarnation]
      exact hafter₂.answers _ _ rfl hmem
    · rw [hi₂, hoffice₁.log]
      exact hall
    · rw [hi₂]
      exact hfailed
  rcases hresp₂.outcome.append_same hterm with ⟨r, hr, rfl, hmem⟩ | ⟨-, rfl, hmem⟩
  · rcases hsane₁.backedOff_le hpacket hoffice₁.leads
      (hrequest.trans (hoffice₁.terms i hi).symm) hterm hr with ⟨hanswer, -, hback⟩
    exact ⟨r, hmem, hanswer.trans hrequest, heard_currentTerm _ _, fun _ => by omega⟩
  · exact ⟨_, hmem, hrequest, heard_currentTerm _ _, fun hno => by cases hno⟩

/-- What the leader knows of the peers other than `f` is the same in both memories. -/
def SameOthers (f : Fin n) (rf rf' : Raft n α) : Prop :=
  ∀ g : Fin n, g ≠ f → getElem rf'.nextIndex g g.isLt = getElem rf.nextIndex g g.isLt ∧
    getElem rf'.matchIndex g g.isLt = getElem rf.matchIndex g g.isLt

theorem retargeted_others (rf : Raft n α) (reply : AppendEntriesReply) (f : Fin n) :
    SameOthers f rf (rf.retargeted reply f) := by
  intro g hg
  refine ⟨Vector.getElem_set_ne f.isLt g.isLt ?_, rfl⟩
  exact fun heq => hg (Fin.ext heq.symm)

/-- A credited append of some entries. -/
theorem credited_spec (rf : Raft n α) {args : AppendEntriesArgs α} (f : Fin n)
    (hne : args.entries.length ≠ 0) :
    (rf.credited args f).status = rf.status ∧
      (rf.credited args f).currentTerm = rf.currentTerm ∧
      args.prevLogIndex + args.entries.length ≤
        getElem (rf.credited args f).matchIndex f f.isLt ∧
      SameOthers f rf (rf.credited args f) := by
  unfold credited
  split_ifs with hc
  · refine ⟨rfl, rfl, ?_, fun g hg => ?_⟩
    · exact le_of_eq (Vector.getElem_set_self f.isLt).symm
    · have hgf : f.val ≠ g.val := fun heq => hg (Fin.ext heq.symm)
      exact ⟨Vector.getElem_set_ne f.isLt g.isLt hgf, Vector.getElem_set_ne f.isLt g.isLt hgf⟩
  · refine ⟨rfl, rfl, ?_, fun g _ => ⟨rfl, rfl⟩⟩
    by_contra hlt
    exact hc ⟨hne, by omega⟩

theorem Sane.commitIndex_mem (h : Sane w) (f : Fin n) :
    0 ≤ (w.server f).rf.commitIndex ∧
      (w.server f).rf.commitIndex ≤ (w.server f).rf.logs.length := by
  rcases h.sim with ⟨a, ha⟩
  have hmem := (ha.servers f).memory
  have hlen := hmem.stores.length
  rw [(h.bare f).index] at hlen
  refine ⟨hmem.commit.nonneg, ?_⟩
  have hle := hmem.commit.le_length
  omega

/-- A leader can make any peer of its term accept its whole log: the next index moves back
until the logs agree before it. -/
theorem exists_synced (h : Office M i t logs w) (hsane : Sane w) (hi : i ∈ M) (hf : f ∈ M)
    (hfi : f ≠ i) {next : Int} (hnext : getElem (w.server i).rf.nextIndex f f.isLt = next)
    (h1 : 1 ≤ next) (hle : next ≤ logs.length) :
    ∃ w', Reaches M w w' ∧ Office M i t logs w' ∧
      logs.length ≤ getElem (w'.server i).rf.matchIndex f f.isLt ∧
      SameOthers f (w.server i).rf (w'.server i).rf := by
  induction hk : next.toNat using Nat.strong_induction_on generalizing w next with
  | _ k ih =>
    rcases h.exists_answered hsane hi hf hfi hnext h1 hle with
      ⟨w₁, args, reply, hr₁, hoffice₁, hi₁, hans⟩
    have hsane₁ := hsane.reaches hr₁
    have hterm : (w₁.server i).rf.currentTerm = t := hoffice₁.terms i hi
    have hreply := hans.answer.trans hterm.symm
    have hargs := hans.request.trans hterm.symm
    cases hok : reply.success with
    | false =>
      rcases responds_failure i hoffice₁.leads hreply hargs hok with ⟨es₂, hresp₂⟩
      rcases exists_turn_response hans.flight hi rfl hresp₂ with ⟨w₂, hturn₂, hafter₂⟩
      have hoffice₂ := hoffice₁.own hafter₂ hoffice₁.leads rfl rfl hoffice₁.commit
      have hnext₂ : getElem (w₂.server i).rf.nextIndex f f.isLt =
          (w₁.server i).rf.backedOff reply := by
        rw [hafter₂.rf_self]
        exact Vector.getElem_set_self f.isLt
      have hlow := (hsane₁.aligned i).one_le_backedOff (hsane₁.bare i).index reply
      have hback := hans.failed hok
      rcases ih _ (by omega) hoffice₂ (hsane₁.turn hturn₂) hnext₂ hlow (by omega) rfl with
        ⟨w', hr', hoffice', hmatch, hothers⟩
      refine ⟨w', (hr₁.tail hturn₂).trans hr', hoffice', hmatch, fun g hg => ?_⟩
      rcases hothers g hg with ⟨hn, hm⟩
      rw [hafter₂.rf_self, hi₁] at hn hm
      rcases retargeted_others (w.server i).rf reply f g hg with ⟨hn', hm'⟩
      exact ⟨hn.trans hn', hm.trans hm'⟩
    | true =>
      have hne : args.entries.length ≠ 0 := by
        have hall := hans.all
        have hprev := hans.prev
        rw [hoffice₁.log] at hall
        omega
      rcases credited_spec (w₁.server i).rf f hne with ⟨hst, hsame, hmatch, hothers⟩
      have h0 := (hsane₁.bare i).index
      rcases responds_success i hoffice₁.leads (by rw [h0]; exact (hsane₁.commitIndex_mem i).1)
        hreply hargs hok with ⟨C, hresp₂, -, hend⟩
      rw [h0, Int.add_zero, hoffice₁.log] at hend
      rcases exists_turn_response hans.flight hi rfl hresp₂ with ⟨w₂, hturn₂, hafter₂⟩
      have hoffice₂ := hoffice₁.own hafter₂ (hst.trans hoffice₁.leads) hsame
        (credited_logs _ args f).1 hend
      refine ⟨w₂, hr₁.tail hturn₂, hoffice₂, ?_, ?_⟩
      · rw [hafter₂.rf_self, ← hoffice₁.log, ← hans.all]
        exact hmatch
      · rw [hafter₂.rf_self, ← hi₁]
        exact hothers

/-- A leader can make all peers of `todo` accept its log, one after the other. -/
theorem Office.exists_all_synced (h : Office M i t logs w) (hsane : Sane w) (hi : i ∈ M)
    {todo : List (Fin n)} (htodo : ∀ f ∈ todo, f ∈ M ∧ f ≠ i) (hnodup : todo.Nodup)
    (hnext : ∀ f ∈ todo, 1 ≤ getElem (w.server i).rf.nextIndex f f.isLt ∧
      getElem (w.server i).rf.nextIndex f f.isLt ≤ logs.length) :
    ∃ w', Reaches M w w' ∧ Office M i t logs w' ∧
      (∀ f ∈ todo, logs.length ≤ getElem (w'.server i).rf.matchIndex f f.isLt) ∧
      ∀ g ∉ todo, getElem (w'.server i).rf.matchIndex g g.isLt =
        getElem (w.server i).rf.matchIndex g g.isLt := by
  induction todo generalizing w with
  | nil => exact ⟨w, .refl, h, by simp, fun _ _ => rfl⟩
  | cons f todo ih =>
    rw [List.nodup_cons] at hnodup
    rcases htodo f List.mem_cons_self with ⟨hfM, hfi⟩
    rcases hnext f List.mem_cons_self with ⟨hlow, hhigh⟩
    rcases exists_synced h hsane hi hfM hfi rfl hlow hhigh with
      ⟨w₁, hr₁, hoffice₁, hmatch₁, hothers₁⟩
    have hrest : ∀ g ∈ todo, 1 ≤ getElem (w₁.server i).rf.nextIndex g g.isLt ∧
        getElem (w₁.server i).rf.nextIndex g g.isLt ≤ logs.length := by
      intro g hg
      have hgf : g ≠ f := fun heq => hnodup.1 (heq ▸ hg)
      rw [(hothers₁ g hgf).1]
      exact hnext g (List.mem_cons_of_mem _ hg)
    rcases ih hoffice₁ (hsane.reaches hr₁) (fun g hg => htodo g (List.mem_cons_of_mem _ hg))
      hnodup.2 hrest with ⟨w₂, hr₂, hoffice₂, hmatch₂, hothers₂⟩
    refine ⟨w₂, hr₁.trans hr₂, hoffice₂, fun g hg => ?_, fun g hg => ?_⟩
    · rcases List.mem_cons.mp hg with rfl | hg
      · rw [hothers₂ g hnodup.1]
        exact hmatch₁
      · exact hmatch₂ g hg
    · rw [List.mem_cons, not_or] at hg
      rw [hothers₂ g hg.2, (hothers₁ g hg.1).2]

/-- A leader counts the peers of `M`. -/
theorem card_le_matchCount (hi : i ∈ M) {N : Int}
    (hmatch : ∀ f ∈ M, f ≠ i → N ≤ getElem rf.matchIndex f f.isLt) :
    (M.card : Int) ≤ rf.matchCount i N := by
  have hsub : M.erase i ⊆
      ((List.finRange n).filter fun idx => idx ≠ i ∧ rf.matchIndex[idx] ≥ N).toFinset := by
    intro f hf
    rcases Finset.mem_erase.mp hf with ⟨hfi, hfM⟩
    rw [List.mem_toFinset, List.mem_filter]
    exact ⟨List.mem_finRange f, by simpa using ⟨hfi, hmatch f hfM hfi⟩⟩
  have hcard := Finset.card_le_card hsub
  rw [Finset.card_erase_of_mem hi,
    List.toFinset_card_of_nodup ((List.nodup_finRange n).filter _)] at hcard
  rw [matchCount, List.countP_eq_length_filter]
  omega

/-- A leader that knows of no other peer counts itself. -/
theorem matchCount_eq_one (hmatch : ∀ g : Fin n, getElem rf.matchIndex g g.isLt = 0) {N : Int}
    (hN : 0 < N) : rf.matchCount i N = 1 := by
  have hzero : ((List.finRange n).countP fun idx => idx ≠ i ∧ rf.matchIndex[idx] ≥ N) = 0 := by
    rw [List.countP_eq_zero]
    intro g _
    have hg : rf.matchIndex[g] = 0 := hmatch g
    simp only [hg, decide_eq_true_eq, not_and]
    omega
  rw [matchCount, hzero]
  rfl

/-- A fresh leader takes a command. -/
theorem exists_started (h2 : 2 ≤ n) (hi : i ∈ M) (hfresh : Fresh (w.server i).rf)
    (hterms : ∀ f ∈ M, (w.server f).rf.currentTerm = t) (c : α) :
    ∃ w', Turn M w w' ∧
      Office M i t ((w.server i).rf.logs ++ [(w.server i).rf.newEntry c]) w' ∧
      (w'.server i).rf.nextIndex = (w.server i).rf.nextIndex := by
  rcases responds_command i hfresh.leads c with ⟨es, hresp⟩
  rcases exists_turn_start hi c hresp with ⟨w', hturn, hafter⟩
  have hi' := hafter.rf_self
  refine ⟨w', hturn, ⟨?_, ?_, fun f hf => ?_, ?_⟩, ?_⟩
  · rw [hi']
    exact hfresh.leads
  · rw [hi']
    rfl
  · by_cases hfi : f = i
    · subst hfi
      rw [hi']
      exact hterms f hf
    · rw [hafter.others f hfi]
      exact hterms f hf
  · -- nobody else has the new entry
    rintro ⟨hcount, -⟩
    have hmatched : ∀ g : Fin n, getElem (w'.server i).rf.matchIndex g g.isLt = 0 := by
      rw [hi']
      exact hfresh.matched
    rw [List.length_append, List.length_singleton,
      matchCount_eq_one hmatched (by omega)] at hcount
    omega
  · rw [hi']
    rfl

/-- A fresh leader can commit a new command with a majority. -/
theorem exists_committed (hsane : Sane w) (h2 : 2 ≤ n) (hM : n < 2 * M.card) (hi : i ∈ M)
    (hfresh : Fresh (w.server i).rf) (hterms : ∀ f ∈ M, (w.server f).rf.currentTerm = t) (c : α) :
    ∃ w', Reaches M w w' ∧
      Office M i t ((w.server i).rf.logs ++ [(w.server i).rf.newEntry c]) w' ∧
      (w.server i).rf.logs.length + 1 ≤ (w'.server i).rf.commitIndex ∧
      ∀ f ∈ M, f ≠ i →
        (w.server i).rf.logs.length + 1 ≤ getElem (w'.server i).rf.matchIndex f f.isLt := by
  have hlast := (hsane.aligned i).lastLogIndex_eq
  rw [(hsane.bare i).index] at hlast
  rcases exists_started h2 hi hfresh hterms c with ⟨w₁, hturn₁, hoffice₁, hnext₁⟩
  generalize hlogs : (w.server i).rf.logs ++ [(w.server i).rf.newEntry c] = logs at hoffice₁ ⊢
  have hlen : logs.length = (w.server i).rf.logs.length + 1 := by
    rw [← hlogs, List.length_append, List.length_singleton]
  have hnext : ∀ f ∈ (M.erase i).toList, 1 ≤ getElem (w₁.server i).rf.nextIndex f f.isLt ∧
      getElem (w₁.server i).rf.nextIndex f f.isLt ≤ logs.length := by
    intro f _
    simp only [hnext₁, hfresh.next f]
    omega
  have htodo : ∀ f ∈ (M.erase i).toList, f ∈ M ∧ f ≠ i := by
    intro f hf
    rcases Finset.mem_erase.mp (Finset.mem_toList.mp hf) with ⟨hfi, hfM⟩
    exact ⟨hfM, hfi⟩
  rcases hoffice₁.exists_all_synced (hsane.turn hturn₁) hi htodo (Finset.nodup_toList _) hnext with
    ⟨w₂, hr₂, hoffice₂, hmatch, -⟩
  have hmatch' : ∀ f ∈ M, f ≠ i → (logs.length : Int) ≤
      getElem (w₂.server i).rf.matchIndex f f.isLt := fun f hfM hfi =>
    hmatch f (Finset.mem_toList.mpr (Finset.mem_erase.mpr ⟨hfi, hfM⟩))
  have hcommittable : (w₂.server i).rf.Committable i logs.length := by
    refine ⟨?_, (w.server i).rf.newEntry c, ?_, ?_⟩
    · have hcount := card_le_matchCount hi hmatch'
      omega
    · have h0₂ := ((hsane.turn hturn₁).reaches hr₂).bare i
      have hat : ((logs.length : Int) - 1 - 0).toNat = (w.server i).rf.logs.length := by omega
      rw [hoffice₂.log, h0₂.index, index?, if_pos (by omega), hat, ← hlogs]
      exact List.getElem?_concat_length
    · rw [hoffice₂.terms i hi]
      exact hterms i hi
  refine ⟨w₂, .head hturn₁ hr₂, hoffice₂, ?_, fun f hf hfi => ?_⟩
  · have hcommit := hoffice₂.commit hcommittable
    omega
  · have hf := hmatch' f hf hfi
    omega

/-! ## Delivery -/

/-- A peer of the leader's term that has acknowledged the whole log has it. -/
theorem Sane.logs_isPrefix (h : Sane w) (hs : (w.server i).rf.status = .leader)
    (hterm : (w.server f).rf.currentTerm = (w.server i).rf.currentTerm)
    (hmatch : (w.server i).rf.logs.length ≤ getElem (w.server i).rf.matchIndex f f.isLt) :
    (w.server i).rf.logs <+: (w.server f).rf.logs := by
  rcases h.sim with ⟨a, ha⟩
  have hmem := (ha.servers i).memory
  have hmem' := (ha.servers f).memory
  rcases hmem.leader hs with ⟨hlead, hacked⟩
  have hlogs : ∀ j, (w.server j).rf.logs = indexed (a.log j) := by
    intro j
    rw [(ha.servers j).memory.stores.logs, (h.bare j).index]
    rfl
  rcases hacked f with ⟨P, hlen, rfl | hack⟩
  · have hnil : (w.server i).rf.logs = [] := by
      have hlen' : ((0 : ℕ) : Int) = getElem (w.server i).rf.matchIndex f f.isLt := hlen
      exact List.length_eq_zero_iff.mp (by omega)
    rw [hnil]
    exact List.nil_prefix
  · have hPi : P <+: a.log i := ha.inv.holds_prefix ⟨P, hack, List.prefix_refl P⟩ hlead
    have hPf : P <+: a.log f := by
      rw [← hterm, ← hmem'.term] at hack
      exact ha.inv.ack_now hack
    have hlen' : (P.length : Int) = getElem (w.server i).rf.matchIndex f f.isLt := hlen
    have hi := congrArg List.length (hlogs i)
    rw [indexed_length] at hi
    obtain rfl : P = a.log i := hPi.eq_of_length_le (by omega)
    rcases hPf with ⟨R, hR⟩
    rw [hlogs i, hlogs f, ← hR, indexed_append]
    exact List.prefix_append _ _

/-- A peer that has the leader's log accepts its heartbeat. -/
theorem rejects_heartbeat {rf₁ : Raft n α} (h : Aligned rf) (h0 : rf.snapshotIndex = 0)
    (h0₁ : rf₁.snapshotIndex = 0) (hpre : rf.logs <+: rf₁.logs) (me : Fin n) :
    rf₁.rejects (appendRequest me rf [] (rf.lastLogIndex, rf.lastLogTerm)) = none := by
  have hlast := h.lastLogIndex_eq
  rw [h0] at hlast
  have hlen := hpre.length_le
  unfold rejects appendRequest
  simp only [h0₁]
  rw [if_neg (by omega)]
  split_ifs with hpos
  · have hne : rf.logs.getLast? ≠ none := by
      rw [ne_eq, List.getLast?_eq_none_iff]
      intro hnil
      rw [hnil, List.length_nil] at hlast
      omega
    rcases Option.ne_none_iff_exists'.mp hne with ⟨l, hl⟩
    have hterm : rf.lastLogTerm = l.term := by
      unfold lastLogTerm
      rw [hl]
    have hat : (rf.lastLogIndex - 0 - 1).toNat = rf.logs.length - 1 := by omega
    rw [List.getLast?_eq_getElem?] at hl
    have hidx : index? rf₁.logs (rf.lastLogIndex - 0 - 1) = some l := by
      rw [index?, if_pos (by omega), hat]
      exact getElem?_of_isPrefix hpre hl
    rw [hidx, Option.bind_some, hterm]
    exact if_neg fun hne => hne rfl
  · rfl

/-- A heartbeat raises the commit index to that of the leader, as far as the log goes. -/
theorem Aligned.le_commitAfter (h : Aligned rf) (h0 : rf.snapshotIndex = 0)
    {args : AppendEntriesArgs α} (hnil : args.entries = []) {N : Int} (hpos : 0 < N)
    (hlen : N ≤ rf.logs.length) (hcommit : N ≤ args.leaderCommit) : N ≤ rf.commitAfter args := by
  have hcut : rf.cut args.entries = rf.logs := by
    rw [hnil]
    rfl
  unfold commitAfter
  split_ifs with hc
  · rw [hcut]
    refine le_min hcommit ?_
    split
    · rename_i l hl
      rw [h.contiguous.getLast?_eq hl, h0]
      omega
    · rename_i hnone
      rw [List.getLast?_eq_none_iff.mp hnone, List.length_nil] at hlen
      omega
  · omega

/-- A peer can deliver what it has committed. -/
theorem exists_applied (h : Sane w) (hf : f ∈ M) {N : Int}
    (hN : N ≤ (w.server f).rf.commitIndex) :
    ∃ w' A, Reaches M w w' ∧ N ≤ A ∧ (w'.server f).rf = (w.server f).rf.withApplied A ∧
      ∀ j, j ≠ f → w'.server j = w.server j := by
  by_cases hdone : N ≤ (w.server f).rf.lastApplied
  · exact ⟨w, _, .refl, hdone, rfl, fun _ _ => rfl⟩
  · rcases h.sim with ⟨a, ha⟩
    have hresp := responds_apply f (h.bare f).index (ha.servers f).memory.applied.nonneg
      (by omega) (h.commitIndex_mem f).2
    rcases exists_turn_timer hf .apply hresp with ⟨w', hturn, hafter⟩
    exact ⟨w', _, .single hturn, hN, hafter.rf_self, hafter.others⟩

/-- A delivery is not noticed. -/
theorem Office.applied (h : Office M i t logs w) {A : Int}
    (hf : (w'.server f).rf = (w.server f).rf.withApplied A)
    (hothers : ∀ j, j ≠ f → w'.server j = w.server j) : Office M i t logs w' := by
  have hall : ∀ j, ∃ A, (w'.server j).rf = (w.server j).rf.withApplied A := by
    intro j
    by_cases hj : j = f
    · subst hj
      exact ⟨A, hf⟩
    · rw [hothers j hj]
      exact ⟨_, rfl⟩
  rcases hall i with ⟨B, hB⟩
  refine ⟨by rw [hB]; exact h.leads, by rw [hB]; exact h.log, fun g hg => ?_, ?_⟩
  · rcases hall g with ⟨C, hC⟩
    rw [hC]
    exact h.terms g hg
  · rw [hB]
    exact h.commit

/-- A heartbeat carries the commit index of the leader to a peer that has its log. -/
theorem exists_raised (h : Office M i t logs w) (hsane : Sane w) (hi : i ∈ M) (hf : f ∈ M)
    (hfi : f ≠ i) (hpos : 0 < logs.length) (hcommit : logs.length ≤ (w.server i).rf.commitIndex)
    (hmatch : logs.length ≤ getElem (w.server i).rf.matchIndex f f.isLt) :
    ∃ w', Reaches M w w' ∧ Office M i t logs w' ∧ (w'.server i).rf = (w.server i).rf ∧
      logs.length ≤ (w'.server f).rf.commitIndex ∧
      ∀ j, j ≠ i → j ≠ f → w'.server j = w.server j := by
  have hsame : (w.server f).rf.currentTerm = (w.server i).rf.currentTerm :=
    (h.terms f hf).trans (h.terms i hi).symm
  -- the peer has the log of the leader, and so it accepts
  have hpre := hsane.logs_isPrefix h.leads hsame (by rw [h.log]; exact hmatch)
  have haccepts := rejects_heartbeat (hsane.aligned i) (hsane.bare i).index
    (hsane.bare f).index hpre i
  have hlen := hpre.length_le
  rw [h.log] at hlen
  rcases responds_heartbeat i h.leads with ⟨es₁, hresp₁, hsent⟩
  rcases exists_turn_timer hi .heartbeat hresp₁ with ⟨w₁, hturn₁, hafter₁⟩
  have hf₁ : w₁.server f = w.server f := hafter₁.others f hfi
  have hpacket := hafter₁.calls f _ (hsent f hfi)
  generalize hargs : appendRequest i (w.server i).rf []
    ((w.server i).rf.lastLogIndex, (w.server i).rf.lastLogTerm) = args at hpacket haccepts
  rcases exists_responds_appendEntries f (w₁.server f).rf args with ⟨es₂, rf₂, hresp₂⟩
  rcases exists_turn_request hpacket hf hresp₂ with ⟨w₂, hturn₂, hafter₂⟩
  have hterm : (w₁.server f).rf.currentTerm = args.term := by
    rw [hf₁, ← hargs]
    exact hsame
  rcases hresp₂.outcome.append_same hterm with ⟨r, hr, -⟩ | ⟨-, rfl, -⟩
  · rw [hf₁, haccepts] at hr
    cases hr
  refine ⟨w₂, .head hturn₁ (.single hturn₂), ?_, ?_, ?_, fun j hji hjf => ?_⟩
  · exact (h.own hafter₁ h.leads rfl rfl h.commit).other hafter₂ hfi (heard_currentTerm _ _)
  · rw [hafter₂.others i hfi.symm, hafter₁.rf_self]
  · rw [hafter₂.rf_self, (heard_logs _ _).2.2.2.2.1, hf₁]
    refine (hsane.aligned f).le_commitAfter (hsane.bare f).index ?_ (by omega) (by omega) ?_
    · rw [← hargs]
      rfl
    · rw [← hargs]
      exact hcommit
  · rw [hafter₂.others j hjf, hafter₁.others j hji]

/-- Such a peer delivers the log of the leader. -/
theorem exists_delivered (h : Office M i t logs w) (hsane : Sane w) (hi : i ∈ M) (hf : f ∈ M)
    (hfi : f ≠ i) (hpos : 0 < logs.length) (hcommit : logs.length ≤ (w.server i).rf.commitIndex)
    (hmatch : logs.length ≤ getElem (w.server i).rf.matchIndex f f.isLt) :
    ∃ w', Reaches M w w' ∧ Office M i t logs w' ∧ (w'.server i).rf = (w.server i).rf ∧
      logs.length ≤ (w'.server f).rf.lastApplied ∧
      ∀ j, j ≠ i → j ≠ f → w'.server j = w.server j := by
  rcases exists_raised h hsane hi hf hfi hpos hcommit hmatch with
    ⟨w₁, hr₁, hoffice₁, hi₁, hcommit₁, hothers₁⟩
  rcases exists_applied (hsane.reaches hr₁) hf hcommit₁ with ⟨w₂, A, hr₂, hA, hrf₂, hothers₂⟩
  refine ⟨w₂, hr₁.trans hr₂, hoffice₁.applied hrf₂ hothers₂, ?_, ?_, fun j hji hjf => ?_⟩
  · rw [hothers₂ i hfi.symm, hi₁]
  · rw [hrf₂]
    exact hA
  · rw [hothers₂ j hjf, hothers₁ j hji hjf]

/-- All peers of `todo` deliver, one after the other. -/
theorem Office.exists_all_delivered (h : Office M i t logs w) (hsane : Sane w) (hi : i ∈ M)
    (hpos : 0 < logs.length) (hcommit : logs.length ≤ (w.server i).rf.commitIndex)
    (hmatch : ∀ f ∈ M, f ≠ i →
      logs.length ≤ getElem (w.server i).rf.matchIndex f f.isLt)
    {todo : List (Fin n)} (htodo : ∀ f ∈ todo, f ∈ M ∧ f ≠ i) (hnodup : todo.Nodup) :
    ∃ w', Reaches M w w' ∧ Office M i t logs w' ∧ (w'.server i).rf = (w.server i).rf ∧
      (∀ f ∈ todo, logs.length ≤ (w'.server f).rf.lastApplied) ∧
      ∀ j, j ≠ i → j ∉ todo → w'.server j = w.server j := by
  induction todo generalizing w with
  | nil => exact ⟨w, .refl, h, rfl, by simp, fun _ _ _ => rfl⟩
  | cons f todo ih =>
    rw [List.nodup_cons] at hnodup
    rcases htodo f List.mem_cons_self with ⟨hfM, hfi⟩
    rcases exists_delivered h hsane hi hfM hfi hpos hcommit (hmatch f hfM hfi) with
      ⟨w₁, hr₁, hoffice₁, hi₁, happlied₁, hothers₁⟩
    rcases ih hoffice₁ (hsane.reaches hr₁) (by rw [hi₁]; exact hcommit)
      (by rw [hi₁]; exact hmatch) (fun g hg => htodo g (List.mem_cons_of_mem _ hg)) hnodup.2 with
      ⟨w₂, hr₂, hoffice₂, hi₂, happlied₂, hothers₂⟩
    refine ⟨w₂, hr₁.trans hr₂, hoffice₂, hi₂.trans hi₁, fun g hg => ?_, fun j hji hj => ?_⟩
    · rcases List.mem_cons.mp hg with rfl | hg
      · rw [hothers₂ g hfi hnodup.1]
        exact happlied₁
      · exact happlied₂ g hg
    · rw [List.mem_cons, not_or] at hj
      rw [hothers₂ j hji hj.2, hothers₁ j hji hj.1]

/-! ## The new command -/

/-- The messages of an incarnation without snapshots are as many as it has applied. -/
theorem InOrder.lastDelivered_eq {last : Int} {msgs : List (ApplyMsg α)} (h : InOrder last msgs)
    (hcommands : ∀ msg ∈ msgs, ∃ c d, msg = .command c d) :
    lastDelivered last msgs = last + msgs.length := by
  induction msgs generalizing last with
  | nil => simp [lastDelivered]
  | cons msg msgs ih =>
    rcases hcommands msg List.mem_cons_self with ⟨c, d, rfl⟩
    rcases h with ⟨hd, hrest⟩
    have hind : (ApplyMsg.command c d).index = d := rfl
    rw [lastDelivered_cons, hind,
      ih hrest fun m hm => hcommands m (List.mem_cons_of_mem _ hm), hd, List.length_cons]
    push_cast
    omega

/-- A peer that has applied index `k + 1` has delivered a command for it. -/
theorem Numbered.exists_delivered_at {s : Server n α} (h : Numbered s) {k : ℕ}
    (hk : (k : Int) + 1 ≤ s.rf.lastApplied) : ∃ c, .command c (k + 1) ∈ s.applied.msgs := by
  rcases h.commands s.applied List.mem_cons_self with ⟨hstart, hmsgs⟩
  have hord := h.inStep.inOrder
  have hreached := h.inStep.reached
  rw [hstart] at hord hreached
  rw [hord.lastDelivered_eq hmsgs] at hreached
  have hget : s.applied.msgs[k]? = some (getElem s.applied.msgs k (by omega)) :=
    List.getElem?_eq_getElem (by omega)
  rcases hord.getElem?_eq hmsgs hget with ⟨c, hc⟩
  have hmem := List.mem_of_getElem? hget
  rw [hc, Int.zero_add] at hmem
  exact ⟨c, hmem⟩

/-- What a peer has applied of the committed log of the leader is what the leader has there. -/
theorem Sane.delivers_entry (h : Sane w) {k : ℕ} {l : Log α}
    (hl : (w.server i).rf.logs[k]? = some l)
    (hcommit : (k : Int) + 1 ≤ (w.server i).rf.commitIndex)
    (hf : (k : Int) + 1 ≤ (w.server f).rf.lastApplied) :
    .command l.command (k + 1) ∈ (w.server f).applied.msgs := by
  rcases (h.peers.server f).exists_delivered_at hf with ⟨c, hc⟩
  rcases h.sim with ⟨a, ha⟩
  have hmem := (ha.servers i).memory
  have hlogs := hmem.stores.logs
  rw [(h.bare i).index] at hlogs
  have hentry : (indexed (a.log i))[k]? = some l := by
    rw [← hl, hlogs]
    rfl
  rw [indexed_getElem?, Option.map_eq_some_iff] at hentry
  rcases hentry with ⟨x, hx, rfl⟩
  have hsent := (hmem.commit.of_le (by omega) hcommit).sent hx
  have hsent' := (ha.servers f).sent _ List.mem_cons_self _ hc
  rw [hsent.command_eq ha.inv hsent']
  exact hc

/-- Every message of an incarnation is in its stream. -/
theorem Server.exists_mem_stream {s : Server n α} {stream : Stream α}
    (hs : stream ∈ s.applied :: s.past) {msg : ApplyMsg α} (hmsg : msg ∈ stream.msgs) :
    ∃ k, msg ∈ s.stream k := by
  have hmem : stream.msgs ∈ (s.applied :: s.past).reverse.map Stream.msgs :=
    List.mem_map_of_mem (List.mem_reverse.mpr hs)
  rcases List.mem_iff_getElem?.mp hmem with ⟨k, hk⟩
  refine ⟨k, ?_⟩
  unfold Server.stream
  rw [List.getD_eq_getElem?_getD, hk]
  exact hmsg

/-- The log of a leader, whose term a majority shares, has everything that was delivered. -/
theorem Sane.index_le_of_leader (h : Sane w) (hM : n < 2 * M.card)
    (hs : (w.server i).rf.status = .leader)
    (hterms : ∀ f ∈ M, (w.server f).rf.currentTerm = (w.server i).rf.currentTerm) {j : Fin n}
    {stream : Stream α} (hstream : stream ∈ (w.server j).applied :: (w.server j).past)
    {msg : ApplyMsg α} (hmsg : msg ∈ stream.msgs) :
    msg.index ≤ (w.server i).rf.logs.length := by
  rcases ((h.peers.server j).commands stream hstream).2 msg hmsg with ⟨c, d, rfl⟩
  rcases h.sim with ⟨a, ha⟩
  have hmem := (ha.servers i).memory
  rcases (ha.servers j).sent stream hstream _ hmsg with ⟨t, P, m, x, hchosen, rfl, hx, rfl⟩
  -- a peer of `M` has acknowledged the prefix, so that it is not of a later term
  have hmajority : Majority fun v => v ∈ M := ⟨M, by rw [Fintype.card_fin]; exact hM, fun _ => id⟩
  rcases (ha.inv.chosen_held hchosen).2.inter hmajority with ⟨v, ⟨P', hack, -⟩, hv⟩
  have hle : t ≤ (w.server i).rf.currentTerm := by
    rw [← hterms v hv, ← (ha.servers v).memory.term]
    exact ha.inv.ack_le hack
  have hpre := ha.inv.chosen_prefix hchosen hle (hmem.leader hs).1
  have hlt := (List.getElem?_eq_some_iff.mp hx).1
  have hlen := hpre.length_le
  have hlog := hmem.stores.length
  rw [(h.bare i).index] at hlog
  show ((m : Int) + 1) ≤ _
  omega

/-- From a sane world the peers of a majority can deliver a new command. -/
theorem Sane.exists_all_delivered (h : Sane w) (h2 : 2 ≤ n) (hM : n < 2 * M.card) (c : α) :
    ∃ w', Reaches M w w' ∧ ∃ N : Int,
      (∀ j, ∀ stream ∈ (w.server j).applied :: (w.server j).past, ∀ msg ∈ stream.msgs,
        msg.index < N) ∧
      ∀ f ∈ M, .command c N ∈ (w'.server f).applied.msgs := by
  rcases exists_elected h h2 hM with ⟨i, hi, w₁, hr₁, -, hfresh, hterms⟩
  have hsane₁ := h.reaches hr₁
  rcases exists_committed hsane₁ h2 hM hi hfresh hterms c with
    ⟨w₂, hr₂, hoffice₂, hcommit₂, hmatch₂⟩
  have hsane₂ := hsane₁.reaches hr₂
  generalize hk : (w₁.server i).rf.logs.length = k at hcommit₂ hmatch₂
  generalize hlogs : (w₁.server i).rf.logs ++ [(w₁.server i).rf.newEntry c] = logs at hoffice₂
  have hlen : (logs.length : Int) = k + 1 := by
    rw [← hlogs, List.length_append, List.length_singleton, hk]
    push_cast
    rfl
  rcases hoffice₂.exists_all_delivered hsane₂ hi (by omega) (by omega)
    (fun f hf hfi => by rw [hlen]; exact hmatch₂ f hf hfi)
    (fun f hf => (Finset.mem_erase.mp (Finset.mem_toList.mp hf)).symm)
    (Finset.nodup_toList (M.erase i)) with ⟨w₃, hr₃, hoffice₃, hi₃, happlied₃, -⟩
  have hsane₃ := hsane₂.reaches hr₃
  have hcommit₃ : (k : Int) + 1 ≤ (w₃.server i).rf.commitIndex := by
    rw [hi₃]
    exact hcommit₂
  rcases exists_applied hsane₃ hi hcommit₃ with ⟨w₄, A, hr₄, hA, hi₄, hothers₄⟩
  have hsane₄ := hsane₃.reaches hr₄
  have happlied₄ : ∀ f ∈ M, (k : Int) + 1 ≤ (w₄.server f).rf.lastApplied := by
    intro f hf
    by_cases hfi : f = i
    · subst hfi
      rw [hi₄]
      exact hA
    · rw [hothers₄ f hfi, ← hlen]
      exact happlied₃ f (Finset.mem_toList.mpr (Finset.mem_erase.mpr ⟨hfi, hf⟩))
  have hentry : (w₄.server i).rf.logs[k]? = some ((w₁.server i).rf.newEntry c) := by
    rw [hi₄, withApplied_logs, hoffice₃.log, ← hlogs, ← hk]
    exact List.getElem?_concat_length
  refine ⟨w₄, ((hr₁.trans hr₂).trans hr₃).trans hr₄, k + 1, ?_, fun f hf => ?_⟩
  · intro j stream hstream msg hmsg
    rcases Server.exists_mem_stream hstream hmsg with ⟨m, hm⟩
    rcases Server.exists_of_mem_stream ((hr₁.stream_isPrefix j m).subset hm) with
      ⟨stream', hstream', hmsg'⟩
    have hle := hsane₁.index_le_of_leader hM hfresh.leads hterms hstream' hmsg'
    omega
  · refine hsane₄.delivers_entry hentry ?_ (happlied₄ f hf)
    rw [hi₄]
    exact hcommit₃

end

/-- A majority of a cluster of two or more can always go on. From every state of a run
without snapshots, its peers alone can take events after which all of them have delivered
a given command, at an index above everything that was delivered before. -/
theorem majority_commits {e : Behavior (World n α)} (he : Run noSnapshots.Allows e) (k : ℕ)
    (h2 : 2 ≤ n) (M : Finset (Fin n)) (hM : n < 2 * M.card) (c : α) :
    ∃ events w', follow (restrict World.step (takenBy M)) (e k) events = some w' ∧ ∃ N : Int,
      (∀ j, ∀ stream ∈ ((e k).server j).applied :: ((e k).server j).past, ∀ msg ∈ stream.msgs,
        msg.index < N) ∧
      ∀ f ∈ M, .command c N ∈ (w'.server f).applied.msgs := by
  rcases (Sane.of_run he k).exists_all_delivered h2 hM c with ⟨w', hr, N, hfresh, hdelivered⟩
  rcases exists_follow hr with ⟨events, hevents⟩
  exact ⟨events, w', hevents, N, hfresh, hdelivered⟩

/-- Peers 0 and 2 go on after peer 1 was elected by peer 2. -/
theorem majority_commits_handedOver :
    ∃ events w', follow (restrict World.step (takenBy {0, 2}))
        (play World.step World.init (handedOver.take 21)) events = some w' ∧ ∃ N : Int,
      (∀ j, ∀ stream ∈
          ((play World.step World.init (handedOver.take 21)).server j).applied ::
            ((play World.step World.init (handedOver.take 21)).server j).past,
        ∀ msg ∈ stream.msgs, msg.index < N) ∧
      ∀ f ∈ ({0, 2} : Finset (Fin 3)), .command 9 N ∈ (w'.server f).applied.msgs :=
  majority_commits (Runs.play (by decide +kernel : Plays _ noSnapshots.Allows _ handedOver))
    21 (by decide) {0, 2} (by decide) 9

/-! ## A cluster of one -/

/-- A peer that has never led and never had an entry. -/
structure Idle (s : Server n α) : Prop where
  follows : s.rf.status ≠ .leader
  logs : s.rf.logs = []
  disk : (make s.persister : Raft n α).logs = []
  streams : ∀ stream ∈ s.applied :: s.past, stream.msgs = []

/-- An input that no other peer has a part in. -/
def OwnInput (input : Input n α) : Prop :=
  (∃ t : Timer, input = t.input) ∨ (∃ c, input = .command c) ∨ ∃ req, input = .snapshotRequest req

/-- Timers, commands and `Snapshot` requests leave an idle peer without a log; nothing is
delivered. -/
theorem Outcome.idle {me : Fin n} {rf : Raft n α} {input : Input n α} {es : List (Effect n α)}
    {res : Option (Raft n α)} (ho : Outcome me rf input es res) (hin : OwnInput input)
    (hs : rf.status ≠ .leader) (hlogs : rf.logs = []) :
    (∀ rf' ∈ res, rf'.status ≠ .leader ∧ rf'.logs = []) ∧
      (∀ q, .save q ∈ es → (make q : Raft n α).logs = []) ∧ ∀ msg, .apply msg ∉ es := by
  have hdeliver : ∀ k i, deliverable rf.logs k i = [] := by
    intro k i
    cases k with
    | zero => rfl
    | succ k => simp [deliverable, hlogs, index?]
  cases ho with
  | applied ls res hls hres =>
    rw [hdeliver] at hls
    subst hls
    refine ⟨fun rf' hrf' => ?_, by simp, by simp⟩
    rcases hres with rfl | ⟨-, rfl⟩
    · cases hrf'
    · obtain rfl := Option.some.inj hrf'
      exact ⟨hs, hlogs⟩
  | elected =>
    refine ⟨?_, fun q hq => ?_, by simp⟩
    · rintro rf' ⟨⟩
      exact ⟨Status.noConfusion, hlogs⟩
    · obtain rfl : q = (Raft.elected me rf).persisted := by simpa using hq
      exact (restores_persisted _).logs.trans hlogs
  | notLeader =>
    refine ⟨?_, by simp, by simp⟩
    rintro rf' ⟨⟩
    exact ⟨hs, hlogs⟩
  | compacted req hreq =>
    -- there is no entry to drop
    refine ⟨?_, by simp, by simp⟩
    rintro rf' ⟨⟩
    exact ⟨hs, by simp [hlogs]⟩
  | compactPanics req hreq => exact ⟨by simp, by simp, by simp⟩
  | started command hl => exact absurd hl hs
  | sent input es res htimer hl => exact absurd hl hs
  | higherTerm hshows =>
    rcases hin with ⟨t, rfl⟩ | ⟨c, rfl⟩ | ⟨req, rfl⟩
    · cases t <;> cases hshows
    · cases hshows
    · cases hshows
  | _ =>
    rcases hin with ⟨t, ht⟩ | ⟨c, hc⟩ | ⟨req, hreq⟩
    · cases t <;> cases ht
    · cases hc
    · cases hreq

namespace Idle

variable {s : Server n α} {i : Fin n} {input : Input n α} {es : List (Effect n α)}
  {res : Option (Raft n α)}

/-- What waits in the channel is no matter. -/
theorem channel (h : Idle s) (ch : List SnapshotRequest) :
    Idle { s with snapshotRequestCh := ch } := ⟨h.follows, h.logs, h.disk, h.streams⟩

theorem restart (hdisk : (make s.persister : Raft n α).logs = [])
    (hstreams : ∀ stream ∈ s.applied :: s.past, stream.msgs = []) : Idle s.restart := by
  refine ⟨?_, hdisk, hdisk, fun stream hmem => ?_⟩
  · rw [show s.restart.rf.status = .follower from make_status _]
    exact Status.noConfusion
  · rcases List.mem_cons.mp hmem with rfl | hmem
    · rfl
    · exact hstreams stream hmem

/-- The persister and the streams after some effects of a handler. -/
theorem perform (h : Idle s) (ho : Outcome i s.rf input es res) (hin : OwnInput input) (k : ℕ)
    (rf : Raft n α) :
    (make (s.perform (es.take k) rf).persister : Raft n α).logs = [] ∧
      ∀ stream ∈ (s.perform (es.take k) rf).applied :: s.past, stream.msgs = [] := by
  rcases ho.idle hin h.follows h.logs with ⟨-, hsaves, happlies⟩
  constructor
  · rcases lastSave_mem s.persister (es.take k) with heq | hmem
    · show (make (lastSave s.persister (es.take k)) : Raft n α).logs = []
      rw [heq]
      exact h.disk
    · exact hsaves _ (List.mem_of_mem_take hmem)
  · intro stream hmem
    rcases List.mem_cons.mp hmem with rfl | hmem
    · have hnone : appliesOf (es.take k) = [] := by
        refine List.eq_nil_iff_forall_not_mem.mpr fun msg hmsg => ?_
        exact happlies msg (List.mem_of_mem_take (mem_appliesOf.mp hmsg))
      show s.applied.msgs ++ appliesOf (es.take k) = []
      rw [hnone, h.streams s.applied List.mem_cons_self]
      rfl
    · exact h.streams stream (List.mem_cons_of_mem _ hmem)

theorem handle {rf : Raft n α} (h : Idle s) (ho : Outcome i s.rf input es (some rf))
    (hin : OwnInput input) : Idle (s.perform es rf) := by
  rcases (ho.idle hin h.follows h.logs).1 rf rfl with ⟨hs, hlogs⟩
  rcases h.perform ho hin es.length rf with ⟨hdisk, hstreams⟩
  rw [List.take_length] at hdisk hstreams
  exact ⟨hs, hlogs, hdisk, hstreams⟩

end Idle

/-- A cluster of one peer, which is idle. -/
structure Lone (w : World 1 α) : Prop where
  net : w.net = []
  peer : ∀ i, Idle (w.server i)

section

variable {w w' : World 1 α} {event : Event 1 α}

/-- Nothing but timers, commands and `Snapshot` requests reaches a lone peer. -/
theorem Lone.arrives (h : Lone w) {cause : Cause 1 α} {a : Arrival 1 α}
    (ha : Arrives w cause a) : Lone a.world ∧ a.caller = none ∧ OwnInput a.input := by
  have hempty : ∀ (k : ℕ) (p : Packet 1 α), w.net[k]? ≠ some p := by
    intro k p hp
    rw [h.net] at hp
    cases hp
  cases ha with
  | timer i t => exact ⟨h, rfl, Or.inl ⟨t, rfl⟩⟩
  | start i c => exact ⟨h, rfl, Or.inr (Or.inl ⟨c, rfl⟩)⟩
  | snapshotRequest i k req hreq =>
    refine ⟨⟨h.net, fun j => ?_⟩, rfl, Or.inr (Or.inr ⟨req, rfl⟩)⟩
    rw [Subsingleton.elim j i, World.server_setServer_self]
    exact (h.peer i).channel _
  | request k caller i waiting hp => exact absurd hp (hempty k _)
  | response k caller i reply input hp => exact absurd hp (hempty k _)

/-- It has nobody to send a packet to. -/
theorem Outcome.lone_packets {me : Fin 1} {rf : Raft 1 α} {input : Input 1 α}
    {es : List (Effect 1 α)} {res : Option (Raft 1 α)} (ho : Outcome me rf input es res)
    (hin : OwnInput input) (inc k : ℕ) : (es.take k).filterMap (packetOf me inc none) = [] := by
  refine List.eq_nil_iff_forall_not_mem.mpr fun p hp => ?_
  rcases packet_cases hp with ⟨server, call, hc, -⟩ | ⟨c, reply, hc, -⟩
  · refine ho.calls_apart (fun reply args server heq => ?_) (List.mem_of_mem_take hc)
      (Subsingleton.elim server me)
    rcases hin with ⟨t, ht⟩ | ⟨c, hcommand⟩ | ⟨req, hreq⟩
    · rw [heq] at ht
      cases t <;> cases ht
    · rw [heq] at hcommand
      cases hcommand
    · rw [heq] at hreq
      cases hreq
  · cases hc

theorem Lone.step (h : Lone w) (hs : Steps w event w') : Lone w' := by
  cases hs with
  | handle cause a es rf harr ha ho =>
    rcases h.arrives ha with ⟨hw, hcaller, hin⟩
    rw [hcaller]
    refine ⟨?_, fun i => ?_⟩
    · have hpackets := ho.lone_packets hin (a.world.server a.server).incarnation es.length
      rw [List.take_length] at hpackets
      rw [World.net_perform, hw.net, hpackets]
      rfl
    · rw [Subsingleton.elim i a.server, World.server_perform_self]
      exact (hw.peer a.server).handle ho hin
  | crashDuring cause k a es res harr ha handler hserve hes ho =>
    rcases h.arrives ha with ⟨hw, hcaller, hin⟩
    rw [hcaller]
    refine ⟨?_, fun i => ?_⟩
    · rw [World.net_restart, World.net_perform, hw.net, ho.lone_packets hin]
      rfl
    · rw [Subsingleton.elim i a.server, World.server_restart_self, World.server_perform_self]
      rcases (hw.peer a.server).perform ho hin k (a.world.server a.server).rf with
        ⟨hdisk, hstreams⟩
      exact Idle.restart hdisk hstreams
  | crash j =>
    refine ⟨h.net, fun i => ?_⟩
    rw [Subsingleton.elim i j, World.server_restart_self]
    exact Idle.restart (h.peer j).disk (h.peer j).streams
  | snapshot j index data =>
    refine ⟨h.net, fun i => ?_⟩
    rw [Subsingleton.elim i j, World.server_snapshot_self]
    exact (h.peer j).channel _
  | drop k =>
    refine ⟨?_, h.peer⟩
    show w.net.eraseIdx k = []
    rw [h.net]
    rfl
  | failRequest k caller i hp | failResponse k caller i reply hp =>
    rw [h.net] at hp
    cases hp

end

/-- In a cluster of one the peer never leads, whatever happens: it votes for itself, but
votes are only counted when a reply arrives. So no `Start` is accepted, and nothing is ever
delivered. -/
theorem lone_peer_idle {C : World 1 α → Event 1 α → Prop} {e : Behavior (World 1 α)}
    (he : Run C e) (k : ℕ) (i : Fin 1) :
    ((e k).server i).rf.status ≠ .leader ∧
      (∀ c index term, (e k).start i c ≠ some (index, term, true)) ∧
      ∀ stream ∈ ((e k).server i).applied :: ((e k).server i).past, stream.msgs = [] := by
  have hlone : Lone (e k) := by
    refine he.invariant Lone ?_ ?_ k
    · refine ⟨rfl, fun j => ?_⟩
      rw [World.server_init]
      exact ⟨Status.noConfusion, rfl, rfl, by simp⟩
    · intro w event w' hw _ hstep
      exact hw.step (steps_of_step hstep)
  have hidle := hlone.peer i
  refine ⟨hidle.follows, fun c index term hstart => ?_, hidle.streams⟩
  exact hidle.follows (World.start_eq_true hstart).1

/-- The peer starts an election, and then a command is started at it. -/
def loneElection : List (Event 1 ℕ) := [.handle (.timer 0 .election), .handle (.start 0 7)]

/-- The peer stays a candidate. -/
theorem lone_peer_idle_election :
    ((play World.step World.init (loneElection.take 2)).server 0).rf.status = .candidate ∧
      ((play World.step World.init (loneElection.take 2)).server 0).rf.status ≠ .leader ∧
      (∀ c index term, (play World.step World.init (loneElection.take 2)).start 0 c ≠
        some (index, term, true)) ∧
      ∀ stream ∈ ((play World.step World.init (loneElection.take 2)).server 0).applied ::
          ((play World.step World.init (loneElection.take 2)).server 0).past,
        stream.msgs = [] :=
  ⟨by decide +kernel,
    lone_peer_idle (Runs.play (Plays.of_forall (fun _ _ => trivial) _ loneElection) :
      Run (fun _ _ => True) _) 2 0⟩

end DistStudy.Raft
