import DistStudy.Raft.Election
import DistStudy.Raft.SnapshotPairing

/-!
# A leader only appends to its log

The leader's loop hands appends and snapshots to the same handlers as the other
loops do, and these cut or clear the log without a look at the status. That they
never do so to a leader is a matter of the terms: a request of an older term is
refused, one of a newer term ends the leadership, and one of the leader's own term
would be by a second leader of that term (`Led`).

What a leader loses are the entries that its own service has compacted away. They
are counted off by position, so that they are the entries up to the index of the
request only if positions and indexes agree. A peer that was restarted on a log
without its snapshot index breaks this.
-/

namespace DistStudy.Raft

variable {n : ℕ} {α : Type}

/-! ## Requests of leaders -/

/-- The term of a request that only leaders send. -/
def Call.ledTerm : Call α → Option Int
  | .requestVote _ _ => none
  | .appendEntries args => some args.term
  | .installSnapshot args => some args.term

/-- Every append and every snapshot in flight was sent by the peer that won its term. -/
def Led (vote : Votes n) (w : World n α) : Prop :=
  ∀ p ∈ w.net, ∀ t, p.caller.call.ledTerm = some t →
    Majority fun v => vote v t = some p.caller.client

section

variable {vote vote' : Votes n} {w w' : World n α} {i : Fin n} {input : Input n α}
  {caller : Option (Caller n α)} {es : List (Effect n α)} {res : Option (Raft n α)}
  {cause : Cause n α} {a : Arrival n α} {event : Event n α}

/-- The term of the append that a leader sends is its own. -/
theorem Sends.ledTerm {rf : Raft n α} {server : Fin n} {call : Call α}
    (h : Sends i rf (.call server call)) : call.ledTerm = some rf.currentTerm := by
  rcases h with ⟨server', entries, prev, -, -, heq, -⟩
  cases heq
  rfl

/-- A peer that sends an append or a snapshot has won the term. -/
theorem Elections.won (h : Elections vote w) (hcr : Credible vote w i input caller)
    (ho : Outcome i (w.server i).rf input es res) {server : Fin n} {call : Call α}
    (hc : .call server call ∈ es) {t : Int} (ht : call.ledTerm = some t) :
    Majority fun v => vote v t = some i := by
  rcases ho.call_cases hc with ⟨-, -, rfl⟩ | ⟨hl, hs⟩ | ⟨r, rfl, rfl, hs⟩ |
    ⟨reply, args, hl, -, rfl⟩
  · cases ht
  · obtain rfl := Option.some.inj (hs.ledTerm.symm.trans ht)
    exact h.leader i hl
  · -- a candidate that has just counted its last vote
    obtain rfl := Option.some.inj (hs.ledTerm.symm.trans ht)
    generalize hrf : some ((w.server i).rf.counted r).inaugurated = res at ho
    cases ho with
    | leaderElected _ _ hcand _ hn _ =>
      rcases h.counted hcr hcand with ⟨G, hcard, hG⟩
      refine majority_of_card G (fun v hv => (hG v hv).1) ?_
      simp only [counted_grantedVotes] at hn
      omega
    | higherTerm _ _ =>
      have hst := congrArg (fun o => o.map Raft.status) hrf
      simp at hst
    | voteCounted _ hcand _ _ =>
      have hst := congrArg (fun o => o.map Raft.status) hrf
      simp [hcand] at hst
    | sent _ _ _ htimer _ _ _ => rcases htimer with htimer | htimer <;> cases htimer
  · obtain rfl := Option.some.inj ht
    exact h.leader i hl

theorem Led.step (hL : Led vote w) (h : Elections vote w) (hs : Steps w event w') :
    Led (noted vote w') w' := by
  intro p hp t ht
  refine Majority.mono ?_ fun v => (h.step hs).2 v t _
  cases hs.origin hp with
  | kept q hq hcaller hanswer =>
    rw [← hcaller] at ht ⊢
    exact hL q hq t ht
  | sent cause a es res server call ha ho hc hp =>
    subst hp
    exact (h.arrives ha).won (h.credible ha) ho hc ht
  | answered cause a es res c reply ha ho hc hr hp =>
    -- the answer goes to the caller whose request was in flight
    subst hp
    exact hL _ (ha.caller_mem hc).1 t ht

/-- At every position of every run the requests in flight are by winners. -/
theorem Run.led {C : World n α → Event n α → Prop} {e : Behavior (World n α)} (h : Run C e)
    (k : ℕ) : ∃ vote : Votes n, Elections vote (e k) ∧ Led vote (e k) := by
  refine h.invariant (fun w => ∃ vote : Votes n, Elections vote w ∧ Led vote w)
    ⟨_, elections_init, fun p hp => by cases hp⟩ ?_ k
  rintro w event w' ⟨vote, hvote, hled⟩ - hstep
  have hs := steps_of_step hstep
  exact ⟨_, (hvote.step hs).1, hled.step hvote hs⟩

end

/-! ## The log of a leader -/

/-- The peer does not get a request of a leader of its own term. -/
def Alone (rf : Raft n α) (input : Input n α) : Prop :=
  (∀ args, input = .appendEntries args → args.term ≠ rf.currentTerm) ∧
    ∀ args, input = .installSnapshot args → args.term ≠ rf.currentTerm

/-- A leader has no rival in its term. -/
theorem Led.alone {vote : Votes n} {w : World n α} {cause : Cause n α} {a : Arrival n α}
    (hL : Led vote w) (h : Elections vote w) (ha : Arrives w cause a)
    (hl : (a.world.server a.server).rf.status = .leader) :
    Alone (a.world.server a.server).rf a.input := by
  have hwon := (h.arrives ha).leader a.server hl
  -- a request of the leader's term would be by another winner of that term
  have hrival : ∀ (k : ℕ) (c : Caller n α) (waiting : Bool),
      w.net[k]? = some (.request c a.server waiting) →
      c.call.ledTerm ≠ some (a.world.server a.server).rf.currentTerm := by
    intro k c waiting hreq hterm
    have hmem := List.mem_of_getElem? hreq
    rcases (hL _ hmem _ hterm).inter hwon with ⟨v, hc, hi⟩
    exact (h.packets _ hmem).apart (Option.some.inj (hi.symm.trans hc))
  cases ha with
  | timer i t => constructor <;> intro args heq <;> cases t <;> cases heq
  | start i command => constructor <;> intro args heq <;> cases heq
  | snapshotRequest i k req hreq => constructor <;> intro args heq <;> cases heq
  | request k c i waiting hreq =>
    have hne := hrival k c waiting hreq
    cases hc : c.call with
    | requestVote ch args => constructor <;> intro args heq <;> simp [Call.input] at heq
    | appendEntries args =>
      rw [hc] at hne
      refine ⟨fun args' heq hterm => ?_, fun args' heq => by simp [Call.input] at heq⟩
      obtain rfl : args = args' := by simpa [hc, Call.input] using heq
      exact hne (congrArg some hterm)
    | installSnapshot args =>
      rw [hc] at hne
      refine ⟨fun args' heq => by simp [Call.input] at heq, fun args' heq hterm => ?_⟩
      simp only [Call.input, Input.installSnapshot.injEq] at heq
      subst heq
      exact hne (congrArg some hterm)
  | response k c i reply input hresp hinc hback =>
    constructor <;> intro args heq <;> cases hc : c.call <;> cases reply <;>
      simp [hc, Call.handBack] at hback <;> subst hback <;> cases heq

/-- A peer that is still the leader after it has compared the terms has not moved. -/
theorem caughtUp_of_leader {rf : Raft n α} {term : Int}
    (h : (rf.caughtUp term).status = .leader) : rf.caughtUp term = rf := by
  unfold caughtUp at h ⊢
  split_ifs at h ⊢
  · cases h
  · rfl

/-- An event of a peer that stays the leader: its service compacts the log, or the
log is extended by entries of the term. -/
theorem Outcome.leader_logs {i : Fin n} {rf rf' : Raft n α} {input : Input n α}
    {es : List (Effect n α)} (ho : Outcome i rf input es (some rf')) (halone : Alone rf input)
    (hl : rf.status = .leader) (hl' : rf'.status = .leader) :
    (∃ req, input = .snapshotRequest req ∧ rf.snapshotIndex ≤ req.index ∧
        req.index ≤ rf.snapshotIndex + rf.logs.length ∧ rf' = rf.compacted req) ∨
      (∀ req, input ≠ .snapshotRequest req) ∧ rf'.snapshotIndex = rf.snapshotIndex ∧
        ∃ added, rf'.logs = rf.logs ++ added ∧ ∀ l ∈ added, l.term = rf.currentTerm := by
  -- an event that leaves the log alone
  have hsame : rf'.snapshotIndex = rf.snapshotIndex → rf'.logs = rf.logs →
      rf'.snapshotIndex = rf.snapshotIndex ∧
        ∃ added, rf'.logs = rf.logs ++ added ∧ ∀ l ∈ added, l.term = rf.currentTerm := by
    intro hs hlogs
    exact ⟨hs, [], by rw [hlogs, List.append_nil], by simp⟩
  -- a leader that has followed a request of a newer term is none
  have hnewer : ∀ {term : Int}, ¬ term < rf.currentTerm → term ≠ rf.currentTerm →
      (rf.caughtUp term).status ≠ .leader := by
    intro term hge hne hst
    have hterm := caughtUp_currentTerm rf hge
    rw [caughtUp_of_leader hst] at hterm
    exact hne hterm.symm
  cases ho with
  | voteGranted args ht hv hu =>
    exact Or.inr ⟨by simp, hsame (caughtUp_logs rf args.term).2.1 (caughtUp_logs rf args.term).1⟩
  | voteRefused args ht hv hu =>
    exact Or.inr ⟨by simp, hsame (caughtUp_logs rf args.term).2.1 (caughtUp_logs rf args.term).1⟩
  | voteTaken args ht hv =>
    exact Or.inr ⟨by simp, hsame (caughtUp_logs rf args.term).2.1 (caughtUp_logs rf args.term).1⟩
  | appendRejected args reply ht hr =>
    have hst : (rf.heard (rf.caughtUp args.term)).status = (rf.caughtUp args.term).status := by
      simp [heard, hl]
    exact absurd (hst ▸ hl') (hnewer ht (halone.1 args rfl))
  | appendAccepted args ht hr =>
    have hst : (rf.heard ((rf.caughtUp args.term).accepted args)).status =
        (rf.caughtUp args.term).status := by simp [heard, hl]
    exact absurd (hst ▸ hl') (hnewer ht (halone.1 args rfl))
  | installEmpty args ht hd => exact absurd hl' (hnewer ht (halone.2 args rfl))
  | installCleared args ht hd hr => exact absurd hl' (hnewer ht (halone.2 args rfl))
  | installRetained args logs ht hd hr hslice => exact absurd hl' (hnewer ht (halone.2 args rfl))
  | compacted req hreq => exact Or.inl ⟨req, rfl, hreq.1, hreq.2, rfl⟩
  | started command hs =>
    refine Or.inr ⟨by simp, rfl, [rf.newEntry command], rfl, fun l hmem => ?_⟩
    obtain rfl := List.mem_singleton.mp hmem
    rfl
  | applied es res hes hres =>
    rcases hres with hres | ⟨-, hres⟩ <;> cases hres
    exact Or.inr ⟨by simp, hsame rfl rfl⟩
  | higherTerm hterm ht => cases hl'
  | sent input es res htimer hs hes hres =>
    rcases hres with hres | hres <;> cases hres
    exact Or.inr ⟨by rcases htimer with rfl | rfl <;> simp, hsame rfl rfl⟩
  | replySuccess reply args server res hs ht hreq hok hres =>
    have hcred := credited_logs rf args server
    rcases hres with hres | hres | ⟨M, -, -, -, hres⟩ <;> cases hres
    · exact Or.inr ⟨by simp, hsame hcred.2.1 hcred.1⟩
    · exact Or.inr ⟨by simp, hsame hcred.2.1 hcred.1⟩
  | _ => exact Or.inr ⟨by simp, hsame rfl rfl⟩

/-- A peer that leads before and after an event is in the same term. -/
theorem Outcome.leader_term {i : Fin n} {rf rf' : Raft n α} {input : Input n α}
    {es : List (Effect n α)} (ho : Outcome i rf input es (some rf'))
    (hl' : rf'.status = .leader) : rf'.currentTerm = rf.currentTerm := by
  cases ho.stands with
  | same _ _ hs ht hg hc => exact ht
  | follows _ _ hin hs hc => rw [hs] at hl'; cases hl'
  | elected _ hs hb hg hc => rw [hs] at hl'; cases hl'
  | counted r _ hs ht hc hg hs' => exact ht

/-- How the log of a leader of `term` may change in one event: entries up to the index
of a `Snapshot` request go at the front, entries of the term come at the end. -/
def AppendOnly (term : Int) (request : Option Int) (logs logs' : List (Log α)) : Prop :=
  ∃ gone kept added, logs = gone ++ kept ∧ logs' = kept ++ added ∧
    (∀ l ∈ added, l.term = term) ∧ ∀ l ∈ gone, ∃ index ∈ request, l.index ≤ index

/-- An entry above the request must stay. -/
theorem AppendOnly.not_of_above {term : Int} {request : Option Int} {logs logs' : List (Log α)}
    {l : Log α} (hl : l ∈ logs) (hl' : l ∉ logs') (habove : ∀ index ∈ request, index < l.index) :
    ¬ AppendOnly term request logs logs' := by
  rintro ⟨gone, kept, added, hlogs, hlogs', -, hgone⟩
  rw [hlogs] at hl
  rcases List.mem_append.mp hl with hl | hl
  · rcases hgone l hl with ⟨index, hindex, hle⟩
    have hlt := habove index hindex
    omega
  · rw [hlogs'] at hl'
    exact hl' (List.mem_append_left added hl)

/-- The index of the `Snapshot` request of peer `i`'s service that the event hands to it. -/
def World.compactedTo (w : World n α) (i : Fin n) : Event n α → Option Int
  | .handle (.snapshotRequest j k) =>
    if j = i then (w.server i).snapshotRequestCh[k]?.map SnapshotRequest.index else none
  | _ => none

/-- An aligned log that is compacted loses the entries up to the index of the request. -/
theorem Aligned.gone {rf : Raft n α} (h : Aligned rf) (req : SnapshotRequest) :
    ∀ l ∈ rf.logs.take (req.index - rf.snapshotIndex).toNat, l.index ≤ req.index := by
  intro l hl
  obtain ⟨k, hk⟩ := List.mem_iff_getElem?.mp hl
  rw [List.getElem?_take] at hk
  split_ifs at hk with hlt
  have hidx := h.contiguous k l hk
  omega

/-! ## Whole runs -/

/-- What an event does to a peer that leads before and after it. -/
structure Leads (w w' : World n α) (i : Fin n) (event : Event n α) : Prop where
  term : (w'.server i).rf.currentTerm = (w.server i).rf.currentTerm
  logs : AppendOnly (w.server i).rf.currentTerm (w.compactedTo i event) (w.server i).rf.logs
    (w'.server i).rf.logs
  index : (w'.server i).rf.snapshotIndex =
    (w.compactedTo i event).getD (w.server i).rf.snapshotIndex
  forward : (w.server i).rf.snapshotIndex ≤ (w'.server i).rf.snapshotIndex

theorem Leads.same {w w' : World n α} {i : Fin n} {event : Event n α}
    (h : (w'.server i).rf = (w.server i).rf) (hc : w.compactedTo i event = none) :
    Leads w w' i event := by
  constructor
  · rw [h]
  · rw [h]
    exact ⟨[], _, [], rfl, (List.append_nil _).symm, by simp, by simp⟩
  · rw [h, hc]
    rfl
  · rw [h]

section

variable {vote : Votes n} {w w' : World n α} {i : Fin n} {cause : Cause n α} {a : Arrival n α}
  {event : Event n α}

theorem Arrives.compactedTo_eq (ha : Arrives w cause a) (req : SnapshotRequest)
    (hreq : a.input = .snapshotRequest req) :
    w.compactedTo a.server (.handle cause) = some req.index := by
  cases ha with
  | timer i t => cases t <;> cases hreq
  | start i command => cases hreq
  | snapshotRequest i k req' hmem =>
    cases hreq
    simp [World.compactedTo, hmem]
  | request k c i waiting hp => cases hc : c.call <;> simp [hc, Call.input] at hreq
  | response k c i reply input hp hinc hback =>
    cases hc : c.call <;> cases reply <;> simp [hc, Call.handBack] at hback <;>
      subst hback <;> cases hreq

theorem Arrives.compactedTo_none (ha : Arrives w cause a)
    (h : i = a.server → ∀ req, a.input ≠ .snapshotRequest req) :
    w.compactedTo i (.handle cause) = none := by
  cases ha with
  | snapshotRequest j k req hmem =>
    have hne : ¬ j = i := fun hj => h hj.symm req rfl
    simp [World.compactedTo, hne]
  | _ => rfl

/-- The event of a peer that leads before and after it. -/
theorem Led.handle (hL : Led vote w) (h : Elections vote w) (ha : Arrives w cause a)
    {es : List (Effect n α)} {rf : Raft n α}
    (ho : Outcome a.server (a.world.server a.server).rf a.input es (some rf))
    (hal : Aligned (w.server a.server).rf) (hl : (w.server a.server).rf.status = .leader)
    (hl' : rf.status = .leader) :
    Leads w (a.world.perform a.server a.caller es rf) a.server (.handle cause) := by
  have hrf : (a.world.server a.server).rf = (w.server a.server).rf := (ha.agree a.server).1
  have halone := hL.alone h ha (by rw [hrf, hl])
  have hrf' : ((a.world.perform a.server a.caller es rf).server a.server).rf = rf := by
    rw [World.server_perform_self]
    rfl
  rw [hrf] at ho halone
  have hterm := ho.leader_term hl'
  rcases ho.leader_logs halone hl hl' with ⟨req, hreq, hlo, -, hcomp⟩ |
    ⟨hreq, hsnap, added, hlogs, hadd⟩
  · -- the service has compacted the log
    have hto := ha.compactedTo_eq req hreq
    have hlogs : rf.logs = (w.server a.server).rf.logs.drop
        (req.index - (w.server a.server).rf.snapshotIndex).toNat := by rw [hcomp]; rfl
    have hsnap : rf.snapshotIndex = req.index := by rw [hcomp]; rfl
    constructor
    · rw [hrf', hterm]
    · rw [hrf', hto]
      refine ⟨(w.server a.server).rf.logs.take _, _, [], (List.take_append_drop _ _).symm,
        hlogs.trans (List.append_nil _).symm, by simp, fun l hgone => ?_⟩
      exact ⟨req.index, rfl, hal.gone req l hgone⟩
    · rw [hrf', hto, hsnap]
      rfl
    · rw [hrf', hsnap]
      exact hlo
  · have hto := ha.compactedTo_none (i := a.server) fun _ => hreq
    constructor
    · rw [hrf', hterm]
    · rw [hrf', hto]
      exact ⟨[], _, added, rfl, hlogs, hadd, by simp⟩
    · rw [hrf', hto, hsnap]
      rfl
    · rw [hrf', hsnap]

/-- Every step of the cluster, seen from a peer that leads before and after it. -/
theorem Led.leads (hL : Led vote w) (h : Elections vote w) (hs : Steps w event w')
    (hal : Aligned (w.server i).rf) (hl : (w.server i).rf.status = .leader)
    (hl' : (w'.server i).rf.status = .leader) : Leads w w' i event := by
  cases hs with
  | handle cause a es rf harr ha ho =>
    by_cases hi : i = a.server
    · subst hi
      rw [World.server_perform_self] at hl'
      exact hL.handle h ha ho hal hl hl'
    · refine .same ?_ (ha.compactedTo_none fun heq => absurd heq hi)
      rw [World.server_perform_ne _ _ _ _ hi]
      exact (ha.agree i).1
  | crashDuring cause k a es res harr ha handler hserve hes ho =>
    by_cases hi : i = a.server
    · -- a restarted peer follows
      subst hi
      rw [World.server_restart_self] at hl'
      exact absurd (hl'.symm.trans (make_status _)) (by decide)
    · refine .same ?_ rfl
      rw [World.server_restart_ne _ hi, World.server_perform_ne _ _ _ _ hi]
      exact (ha.agree i).1
  | crash j =>
    by_cases hi : i = j
    · subst hi
      rw [World.server_restart_self] at hl'
      exact absurd (hl'.symm.trans (make_status _)) (by decide)
    · refine .same ?_ rfl
      rw [World.server_restart_ne _ hi]
  | snapshot j index data =>
    refine .same ?_ rfl
    by_cases hi : i = j
    · subst hi
      rw [World.server_snapshot_self]
    · rw [World.server_snapshot_ne _ _ _ hi]
  | drop k => exact .same rfl rfl
  | failRequest k c j hreq => exact .same rfl rfl
  | failResponse k c j reply hresp => exact .same rfl rfl

end

/-- The step of a run at a peer that leads before and after it. -/
theorem Run.leads {e : Behavior (World n α)} (he : Run alignedRestarts.Allows e) {k : ℕ}
    {event : Event n α} (hstep : (e k).step event = some (e (k + 1))) {i : Fin n}
    (hl : ((e k).server i).rf.status = .leader)
    (hl' : ((e (k + 1)).server i).rf.status = .leader) : Leads (e k) (e (k + 1)) i event := by
  rcases he.led k with ⟨vote, hvote, hled⟩
  exact hled.leads hvote (steps_of_step hstep) ((alignedRestarts_local.run he k).server i) hl hl'

/-- Over a whole stretch of leadership: what is left of the old log is followed by entries
of the term, and what is gone lies at or below the snapshot index. -/
theorem Run.leader_tenure {e : Behavior (World n α)} (he : Run alignedRestarts.Allows e)
    {i : Fin n} {k k' : ℕ} (hk : k ≤ k')
    (hl : ∀ j, k ≤ j → j ≤ k' → ((e j).server i).rf.status = .leader) :
    ((e k').server i).rf.currentTerm = ((e k).server i).rf.currentTerm ∧
      ∃ gone kept added, ((e k).server i).rf.logs = gone ++ kept ∧
        ((e k').server i).rf.logs = kept ++ added ∧
        (∀ l ∈ added, l.term = ((e k).server i).rf.currentTerm) ∧
        ∀ l ∈ gone, l.index ≤ ((e k').server i).rf.snapshotIndex := by
  induction k', hk using Nat.le_induction with
  | base => exact ⟨rfl, [], _, [], rfl, (List.append_nil _).symm, by simp, by simp⟩
  | succ m hm ih =>
    obtain ⟨hterm, gone, kept, added, hlogs, hlogs', hadd, hgone⟩ :=
      ih fun j hj hj' => hl j hj (by omega)
    rcases he.next m with hstut | ⟨event, -, hstep⟩
    · rw [hstut]
      exact ⟨hterm, gone, kept, added, hlogs, hlogs', hadd, hgone⟩
    have h := he.leads hstep (hl m hm (by omega)) (hl (m + 1) (by omega) le_rfl)
    obtain ⟨gone', kept', added', heq, heq', hadd', hgone'⟩ := h.logs
    rw [hterm] at hadd'
    have hbelow : ∀ l ∈ gone', l.index ≤ ((e (m + 1)).server i).rf.snapshotIndex := by
      intro l hmem
      obtain ⟨index, hindex, hle⟩ := hgone' l hmem
      rw [h.index, Option.mem_def.mp hindex]
      exact hle
    have hold : ∀ l ∈ gone, l.index ≤ ((e (m + 1)).server i).rf.snapshotIndex :=
      fun l hmem => (hgone l hmem).trans h.forward
    refine ⟨h.term.trans hterm, ?_⟩
    -- the entries that go are some of the old ones, or all of them and some of the new
    rcases List.append_eq_append_iff.mp (hlogs'.symm.trans heq) with ⟨x, rfl, rfl⟩ | ⟨x, rfl, rfl⟩
    · refine ⟨gone ++ kept, [], kept' ++ added', by rw [hlogs, List.append_nil], heq', ?_, ?_⟩
      · intro l hmem
        rcases List.mem_append.mp hmem with hmem | hmem
        · exact hadd l (List.mem_append_right x hmem)
        · exact hadd' l hmem
      · intro l hmem
        rcases List.mem_append.mp hmem with hmem | hmem
        · exact hold l hmem
        · exact hbelow l (List.mem_append_left x hmem)
    · refine ⟨gone ++ gone', x, added ++ added', by rw [hlogs, List.append_assoc], ?_, ?_, ?_⟩
      · rw [heq', List.append_assoc]
      · intro l hmem
        rcases List.mem_append.mp hmem with hmem | hmem
        · exact hadd l hmem
        · exact hadd' l hmem
      · intro l hmem
        rcases List.mem_append.mp hmem with hmem | hmem
        · exact hold l hmem
        · exact hbelow l hmem

/-- **Leader append-only.** Between the step at which a peer becomes the leader of a
term and the one at which it stops to be, every event keeps the entries of its log above
its snapshot index and only adds entries of the term at the end; the entries that
disappear are those up to the index of its own service's `Snapshot` request. -/
theorem leader_append_only {e : Behavior (World n α)} (he : Run alignedRestarts.Allows e)
    (k : ℕ) (event : Event n α) (hstep : (e k).step event = some (e (k + 1))) (i : Fin n)
    (hl : ((e k).server i).rf.status = .leader)
    (hl' : ((e (k + 1)).server i).rf.status = .leader) :
    ((e (k + 1)).server i).rf.currentTerm = ((e k).server i).rf.currentTerm ∧
      AppendOnly ((e k).server i).rf.currentTerm ((e k).compactedTo i event)
        ((e k).server i).rf.logs ((e (k + 1)).server i).rf.logs ∧
      ∀ l ∈ ((e k).server i).rf.logs, ((e (k + 1)).server i).rf.snapshotIndex < l.index →
        l ∈ ((e (k + 1)).server i).rf.logs := by
  have h := he.leads hstep hl hl'
  refine ⟨h.term, h.logs, fun l hmem habove => ?_⟩
  rcases h.logs with ⟨gone, kept, added, hlogs, hlogs', -, hgone⟩
  rw [hlogs']
  rw [hlogs] at hmem
  rcases List.mem_append.mp hmem with hmem | hmem
  · -- what is gone lies at or below the new snapshot index
    rcases hgone l hmem with ⟨index, hto, hle⟩
    have hindex := h.index
    rw [Option.mem_def.mp hto] at hindex
    simp only [Option.getD_some] at hindex
    omega
  · exact List.mem_append_left added hmem

/-- Peer 0 has compacted its log and adds an entry. -/
theorem leader_append_only_offered :
    ((play World.step World.init (snapshotOffered.take 14)).server 0).rf.snapshotIndex = 1 ∧
      AppendOnly 1 none
        ((play World.step World.init (snapshotOffered.take 14)).server 0).rf.logs
        ((play World.step World.init (snapshotOffered.take 15)).server 0).rf.logs :=
  ⟨by decide +kernel,
    (leader_append_only (Runs.play (by decide +kernel)) 14 (.handle (.start 0 6))
      (by decide +kernel) 0 (by decide +kernel) (by decide +kernel)).2.1⟩

/-- The leader loses its snapshot's index: peer 1 has compacted its log and got an empty
install, so that the entries 2 and 3 are saved without the index 1 before them. After a
crash it is elected, commits two more entries and delivers 2, 3, 3 and 4. Its service
takes a snapshot of the index 2. -/
def indexLost : List (Event 3 ℕ) :=
  snapshotLost ++
    [.handle (.start 0 8), .handle (.timer 0 .broadcastEntries), .drop 2, .drop 0,
      .handle (.deliver 0), .drop 0, .crash 1,
      .handle (.timer 1 .election), .drop 0, .handle (.deliver 0), .handle (.deliver 0),
      .drop 0, .drop 0, .handle (.start 1 9), .handle (.start 1 10),
      .handle (.timer 1 .broadcastEntries), .drop 0, .handle (.deliver 0), .handle (.deliver 0),
      .drop 0, .handle (.timer 1 .broadcastEntries), .drop 0, .handle (.deliver 0),
      .handle (.deliver 0), .handle (.timer 1 .apply), .snapshot 1 2 (some [8]),
      .handle (.snapshotRequest 1 0)]

/-- The leader drops an entry of index 3 when its service asks for the index 2. -/
theorem leader_drops_entry :
    ∃ (e : Behavior (World 3 ℕ)) (k : ℕ) (event : Event 3 ℕ), Run nonEmpty.Allows e ∧
      (e k).step event = some (e (k + 1)) ∧ ((e k).server 1).rf.status = .leader ∧
      ((e (k + 1)).server 1).rf.status = .leader ∧ (e k).compactedTo 1 event = some 2 ∧
      ¬ AppendOnly ((e k).server 1).rf.currentTerm ((e k).compactedTo 1 event)
        ((e k).server 1).rf.logs ((e (k + 1)).server 1).rf.logs := by
  refine ⟨_, 50, .handle (.snapshotRequest 1 0),
    Runs.play (by decide +kernel : Plays _ _ _ indexLost), by decide +kernel, by decide +kernel,
    by decide +kernel, by decide +kernel, ?_⟩
  exact AppendOnly.not_of_above (l := ⟨1, 3, 8⟩) (by decide +kernel) (by decide +kernel)
    (by decide +kernel)

end DistStudy.Raft
