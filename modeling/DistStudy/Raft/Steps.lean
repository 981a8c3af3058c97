import DistStudy.Raft.Cluster
import DistStudy.Raft.Outcome

/-!
# The steps of a cluster

`Steps w event w'` lists what `World.step` can do: an input arrives at a peer
(`Arrives`) and has one of its outcomes, entirely or up to a crash, or the
network or the service moves. `steps_of_step` is the only place where
`World.step` is unfolded.
-/

namespace DistStudy.Raft

variable {n : ℕ} {α : Type}

/-! ## The persister after some effects -/

/-- What the persister holds after some effects. -/
def lastSave (persister : Persister α) (es : List (Effect n α)) : Persister α :=
  (savesOf es).getLast?.getD persister

@[simp] theorem lastSave_nil (p : Persister α) : lastSave p ([] : List (Effect n α)) = p := rfl

@[simp] theorem lastSave_save (p q : Persister α) (es : List (Effect n α)) :
    lastSave p (.save q :: es) = lastSave q es := by
  simp [lastSave, savesOf, List.getLast?_cons]

theorem lastSave_cons (p : Persister α) (e : Effect n α) (es : List (Effect n α))
    (h : ∀ q, e ≠ .save q) : lastSave p (e :: es) = lastSave p es := by
  cases e with
  | save q => exact absurd rfl (h q)
  | _ => rfl

theorem lastSave_append (p : Persister α) (es es' : List (Effect n α)) :
    lastSave p (es ++ es') = lastSave (lastSave p es) es' := by
  induction es generalizing p with
  | nil => rfl
  | cons e es ih =>
    by_cases h : ∃ q, e = .save q
    · rcases h with ⟨q, rfl⟩
      simpa using ih q
    · have hne : ∀ q, e ≠ .save q := fun q hq => h ⟨q, hq⟩
      rw [List.cons_append, lastSave_cons p e _ hne, lastSave_cons p e _ hne, ih]

/-- The persister after some effects is the old one or one that they save. -/
theorem lastSave_mem (p : Persister α) (es : List (Effect n α)) :
    lastSave p es = p ∨ .save (lastSave p es) ∈ es := by
  induction es generalizing p with
  | nil => exact Or.inl rfl
  | cons e es ih =>
    by_cases h : ∃ q, e = .save q
    · rcases h with ⟨q, rfl⟩
      rw [lastSave_save]
      rcases ih q with h | h
      · rw [h]; exact Or.inr (by simp)
      · exact Or.inr (List.mem_cons_of_mem _ h)
    · rw [lastSave_cons p e es fun q hq => h ⟨q, hq⟩]
      exact (ih p).imp_right (List.mem_cons_of_mem _)

theorem lastSave_of_notMem {p : Persister α} {es : List (Effect n α)} (h : ∀ q, .save q ∉ es) :
    lastSave p es = p :=
  (lastSave_mem p es).resolve_right (h _)

theorem Server.perform_persister (s : Server n α) (es : List (Effect n α)) (rf : Raft n α) :
    (s.perform es rf).persister = lastSave s.persister es := rfl

/-! ## What is sent on `applyCh` -/

theorem mem_appliesOf {es : List (Effect n α)} {msg : ApplyMsg α} :
    msg ∈ appliesOf es ↔ .apply msg ∈ es := by
  constructor
  · intro h
    rcases List.mem_filterMap.mp h with ⟨e, he, heq⟩
    cases e <;> simp at heq
    rwa [← heq]
  · intro h
    exact List.mem_filterMap.mpr ⟨_, h, rfl⟩

theorem appliesOf_deliver (es : List (Log α)) :
    appliesOf (es.map Log.deliver : List (Effect n α)) =
      es.map fun l => .command l.command l.index := by
  induction es with
  | nil => rfl
  | cons l es ih => exact congrArg _ ih

/-- What is sent on `applyCh`: the snapshot of an install, or entries of the log. -/
theorem Outcome.apply_cases {me : Fin n} {rf : Raft n α} {input : Input n α}
    {es : List (Effect n α)} {res : Option (Raft n α)} (h : Outcome me rf input es res)
    {msg : ApplyMsg α} (hmsg : .apply msg ∈ es) :
    (∃ args, input = .installSnapshot args ∧ ¬ args.term < rf.currentTerm ∧ args.data ≠ none ∧
        msg = .snapshot args.data args.lastIncludedTerm args.lastIncludedIndex) ∨
      (input = .applyTimer ∧
        ∃ l ∈ deliverable rf.logs rf.backlog (rf.lastApplied - rf.snapshotIndex),
          msg = .command l.command l.index) := by
  have hcatch : ∀ term, .apply msg ∉ rf.catchUp term := by
    intro term hmem
    cases (mem_catchUp.mp hmem).2
  have hsends : ∀ {rf' : Raft n α}, ¬ Sends me rf' (.apply msg) := by
    intro rf' hs
    obtain ⟨_, _, -, heq⟩ := hs.append
    cases heq
  cases h with
  | voteGranted | voteRefused | voteTaken | appendRejected | installEmpty | installRetained
  | installPanics => simp [hcatch] at hmsg
  | appendAccepted args ht hr =>
    simp only [List.mem_append, hcatch, false_or] at hmsg
    rcases hmsg with hmsg | hmsg
    · rcases acceptSaves_saves _ _ _ hmsg with ⟨j, heq⟩
      simp at heq
    · simp at hmsg
  | installCleared args ht hd hr =>
    have heq : msg = .snapshot args.data args.lastIncludedTerm args.lastIncludedIndex := by
      simpa [hcatch] using hmsg
    exact Or.inl ⟨args, rfl, ht, hd, heq⟩
  | applied logs res hes hres =>
    rcases List.mem_map.mp hmsg with ⟨l, hl, heq⟩
    rw [hes] at hl
    exact Or.inr ⟨rfl, l, hl, by simpa [Log.deliver] using heq.symm⟩
  | leaderElected vote es hs ht hn hes => exact absurd (hes _ hmsg) hsends
  | sent input es res hin hs hes hres => exact absurd (hes _ hmsg) hsends
  | replyFailure reply args server es hs ht hreq hok hes =>
    rcases hes with rfl | ⟨rfl, -⟩ <;> simp at hmsg
  | _ => simp at hmsg

/-- Only an install and the apply timer send on `applyCh`. -/
theorem Outcome.appliesOf_eq_nil {me : Fin n} {rf : Raft n α} {input : Input n α}
    {es : List (Effect n α)} {res : Option (Raft n α)} (h : Outcome me rf input es res)
    (hinstall : ∀ args, input ≠ .installSnapshot args) (htimer : input ≠ .applyTimer) :
    appliesOf es = [] := by
  refine List.eq_nil_iff_forall_not_mem.mpr fun msg hmsg => ?_
  rcases h.apply_cases (mem_appliesOf.mp hmsg) with ⟨args, hin, -⟩ | ⟨hin, -⟩
  · exact hinstall args hin
  · exact htimer hin

/-! ## The packets of some effects -/

/-- A packet of some effects is a request of the peer or its answer to the caller. -/
theorem packet_cases {me : Fin n} {inc : ℕ} {caller : Option (Caller n α)}
    {es : List (Effect n α)} {p : Packet n α} (hp : p ∈ es.filterMap (packetOf me inc caller)) :
    (∃ server call, .call server call ∈ es ∧ p = .request ⟨me, inc, call⟩ server true) ∨
      ∃ c reply, caller = some c ∧ .reply reply ∈ es ∧ p = .response c me reply := by
  rcases List.mem_filterMap.mp hp with ⟨e, he, hpe⟩
  cases e with
  | call server call => exact Or.inl ⟨server, call, he, (Option.some.inj hpe).symm⟩
  | reply reply =>
    rcases Option.map_eq_some_iff.mp hpe with ⟨c, hc, rfl⟩
    exact Or.inr ⟨c, reply, hc, he, rfl⟩
  | _ => cases hpe

/-! ## The parts of a world after a step -/

namespace World

@[simp] theorem server_perform_self (w : World n α) (i : Fin n) (caller : Option (Caller n α))
    (es : List (Effect n α)) (rf : Raft n α) :
    (w.perform i caller es rf).server i = (w.server i).perform es rf :=
  server_setServer_self w i _

theorem server_perform_ne (w : World n α) {i j : Fin n} (caller : Option (Caller n α))
    (es : List (Effect n α)) (rf : Raft n α) (h : j ≠ i) :
    (w.perform i caller es rf).server j = w.server j :=
  server_setServer_ne w _ h

@[simp] theorem net_perform (w : World n α) (i : Fin n) (caller : Option (Caller n α))
    (es : List (Effect n α)) (rf : Raft n α) :
    (w.perform i caller es rf).net =
      w.net ++ es.filterMap (packetOf i (w.server i).incarnation caller) := rfl

@[simp] theorem taken_perform (w : World n α) (i : Fin n) (caller : Option (Caller n α))
    (es : List (Effect n α)) (rf : Raft n α) : (w.perform i caller es rf).taken = w.taken := rfl

@[simp] theorem server_restart_self (w : World n α) (i : Fin n) :
    (w.restart i).server i = (w.server i).restart :=
  server_setServer_self w i _

theorem server_restart_ne (w : World n α) {i j : Fin n} (h : j ≠ i) :
    (w.restart i).server j = w.server j :=
  server_setServer_ne w _ h

@[simp] theorem net_restart (w : World n α) (i : Fin n) : (w.restart i).net = w.net := rfl

@[simp] theorem taken_restart (w : World n α) (i : Fin n) : (w.restart i).taken = w.taken := rfl

@[simp] theorem server_snapshot_self (w : World n α) (i : Fin n) (index : Int) (data : GoBytes) :
    (w.snapshot i index data).server i = { w.server i with
      snapshotRequestCh := (w.server i).snapshotRequestCh ++ [⟨index, data⟩] } :=
  server_setServer_self w i _

theorem server_snapshot_ne (w : World n α) {i j : Fin n} (index : Int) (data : GoBytes)
    (h : j ≠ i) : (w.snapshot i index data).server j = w.server j :=
  server_setServer_ne w _ h

@[simp] theorem net_snapshot (w : World n α) (i : Fin n) (index : Int) (data : GoBytes) :
    (w.snapshot i index data).net = w.net := rfl

@[simp] theorem taken_snapshot (w : World n α) (i : Fin n) (index : Int) (data : GoBytes) :
    (w.snapshot i index data).taken = w.taken ++ [(index, data)] := rfl

@[simp] theorem server_init (i : Fin n) : (init : World n α).server i =
    { rf := make {}, persister := {}, incarnation := 0, snapshotRequestCh := [],
      applied := { start := 0, msgs := [] }, past := [] } := by
  simp [init, server]

end World

/-! ## Arrivals -/

/-- The ways in which an input reaches a main loop. -/
inductive Arrives (w : World n α) : Cause n α → Arrival n α → Prop
  | timer (i : Fin n) (t : Timer) : Arrives w (.timer i t) ⟨i, t.input, none, w⟩
  | start (i : Fin n) (command : α) :
      Arrives w (.start i command) ⟨i, .command command, none, w⟩
  | snapshotRequest (i : Fin n) (k : ℕ) (req : SnapshotRequest)
      (h : (w.server i).snapshotRequestCh[k]? = some req) :
      Arrives w (.snapshotRequest i k) ⟨i, .snapshotRequest req, none,
        w.setServer i { w.server i with
          snapshotRequestCh := (w.server i).snapshotRequestCh.eraseIdx k }⟩
  | request (k : ℕ) (caller : Caller n α) (i : Fin n) (waiting : Bool)
      (h : w.net[k]? = some (.request caller i waiting)) :
      Arrives w (.deliver k) ⟨i, caller.call.input, if waiting then some caller else none,
        { w with net := w.net.eraseIdx k }⟩
  | response (k : ℕ) (caller : Caller n α) (i : Fin n) (reply : Reply) (input : Input n α)
      (h : w.net[k]? = some (.response caller i reply))
      (hinc : caller.incarnation = (w.server caller.client).incarnation)
      (hback : caller.call.handBack i reply = some input) :
      Arrives w (.deliver k) ⟨caller.client, input, none, { w with net := w.net.eraseIdx k }⟩

theorem arrives_of_arrival {w : World n α} {cause : Cause n α} {a : Arrival n α}
    (h : w.arrival cause = some a) : Arrives w cause a := by
  cases cause with
  | timer i t =>
    obtain rfl := Option.some.inj h
    exact .timer i t
  | start i command =>
    obtain rfl := Option.some.inj h
    exact .start i command
  | snapshotRequest i k =>
    simp only [World.arrival, Option.map_eq_some_iff] at h
    rcases h with ⟨req, hreq, rfl⟩
    exact .snapshotRequest i k req hreq
  | deliver k =>
    simp only [World.arrival] at h
    cases hp : w.net[k]? with
    | none => simp [hp] at h
    | some packet =>
      cases packet with
      | request caller i waiting =>
        simp only [hp] at h
        obtain rfl := Option.some.inj h
        exact .request k caller i waiting hp
      | response caller i reply =>
        simp only [hp] at h
        split_ifs at h with hinc
        simp only [Option.map_eq_some_iff] at h
        rcases h with ⟨input, hback, rfl⟩
        exact .response k caller i reply input hp hinc hback

namespace Arrives

variable {w : World n α} {cause : Cause n α} {a : Arrival n α}

/-- An arrival takes at most one request off a channel of a peer. -/
theorem server (h : Arrives w cause a) (j : Fin n) :
    ∃ ch, ch.Sublist (w.server j).snapshotRequestCh ∧
      a.world.server j = { w.server j with snapshotRequestCh := ch } := by
  cases h with
  | snapshotRequest i k req h =>
    by_cases hj : j = i
    · subst hj
      exact ⟨_, List.eraseIdx_sublist _ _, World.server_setServer_self w j _⟩
    · exact ⟨_, List.Sublist.refl _, World.server_setServer_ne w _ hj⟩
  | _ => exact ⟨_, List.Sublist.refl _, rfl⟩

/-- An arrival takes at most one packet off the network. -/
theorem net (h : Arrives w cause a) : a.world.net.Sublist w.net := by
  cases h with
  | request | response => exact List.eraseIdx_sublist _ _
  | _ => exact List.Sublist.refl _

theorem taken (h : Arrives w cause a) : a.world.taken = w.taken := by
  cases h <;> rfl

/-- The call that is being handled was on the network, and is the input. -/
theorem caller_mem (h : Arrives w cause a) {c : Caller n α} (hc : a.caller = some c) :
    .request c a.server true ∈ w.net ∧ a.input = c.call.input := by
  cases h with
  | request k c' i waiting hp =>
    cases waiting <;> simp at hc
    subst hc
    exact ⟨List.mem_of_getElem? hp, rfl⟩
  | _ => cases hc

end Arrives

/-! ## Steps -/

inductive Steps (w : World n α) : Event n α → World n α → Prop
  | handle (cause : Cause n α) (a : Arrival n α) (es : List (Effect n α)) (rf : Raft n α)
      (harr : w.arrival cause = some a) (ha : Arrives w cause a)
      (ho : Outcome a.server (a.world.server a.server).rf a.input es (some rf)) :
      Steps w (.handle cause) (a.world.perform a.server a.caller es rf)
  | crashDuring (cause : Cause n α) (k : ℕ) (a : Arrival n α) (es : List (Effect n α))
      (res : Option (Raft n α)) (harr : w.arrival cause = some a) (ha : Arrives w cause a)
      (handler : Handler n α Unit)
      (hserve : serve a.server (a.world.server a.server).rf a.input = some handler)
      (hes : es = (handler (a.world.server a.server).rf).1)
      (ho : Outcome a.server (a.world.server a.server).rf a.input es res) :
      Steps w (.crashDuring cause k)
        ((a.world.perform a.server a.caller (es.take k) (a.world.server a.server).rf).restart
          a.server)
  | crash (i : Fin n) : Steps w (.crash i) (w.restart i)
  | snapshot (i : Fin n) (index : Int) (data : GoBytes) :
      Steps w (.snapshot i index data) (w.snapshot i index data)
  | drop (k : ℕ) : Steps w (.drop k) { w with net := w.net.eraseIdx k }
  | failRequest (k : ℕ) (caller : Caller n α) (i : Fin n)
      (h : w.net[k]? = some (.request caller i true)) :
      Steps w (.fail k)
        { w with net := w.net.set k (.request caller i false) ++
                          [.response caller i caller.call.zeroReply] }
  | failResponse (k : ℕ) (caller : Caller n α) (i : Fin n) (reply : Reply)
      (h : w.net[k]? = some (.response caller i reply)) :
      Steps w (.fail k) { w with net := w.net.set k (.response caller i caller.call.zeroReply) }

theorem steps_of_step {w w' : World n α} {event : Event n α} (h : w.step event = some w') :
    Steps w event w' := by
  cases event with
  | handle cause =>
    simp only [World.step, Option.bind_eq_bind, Option.bind_eq_some_iff] at h
    rcases h with ⟨a, ha, handler, hs, ⟨_, rf⟩, hres, h⟩
    obtain rfl := Option.some.inj h
    have ho := serve_outcome hs
    rw [hres] at ho
    exact .handle cause a _ rf ha (arrives_of_arrival ha) ho
  | crashDuring cause k =>
    simp only [World.step, Option.bind_eq_bind, Option.bind_eq_some_iff] at h
    rcases h with ⟨a, ha, handler, hs, h⟩
    obtain rfl := Option.some.inj h
    exact .crashDuring cause k a _ _ ha (arrives_of_arrival ha) handler hs rfl (serve_outcome hs)
  | crash i =>
    obtain rfl := Option.some.inj h
    exact .crash i
  | snapshot i index data =>
    obtain rfl := Option.some.inj h
    exact .snapshot i index data
  | drop k =>
    simp only [World.step] at h
    split_ifs at h
    obtain rfl := Option.some.inj h
    exact .drop k
  | fail k =>
    simp only [World.step, World.failed] at h
    split at h
    · rename_i caller i hp
      obtain rfl := Option.some.inj h
      exact .failRequest k caller i hp
    · rename_i caller i reply hp
      obtain rfl := Option.some.inj h
      exact .failResponse k caller i reply hp
    · cases h

/-! ## Where a packet comes from -/

/-- A packet after a step: one from before, whose call may have failed since, or a request
or an answer of the peer that has handled an input. -/
inductive Origin (w : World n α) (p : Packet n α) : Prop
  | kept (q : Packet n α) (hq : q ∈ w.net) (hcaller : q.caller = p.caller)
      (hanswer : p.answer = q.answer ∨ p.answer = none ∨
        p.answer = some p.caller.call.zeroReply)
  | sent (cause : Cause n α) (a : Arrival n α) (es : List (Effect n α))
      (res : Option (Raft n α)) (server : Fin n) (call : Call α) (ha : Arrives w cause a)
      (ho : Outcome a.server (a.world.server a.server).rf a.input es res)
      (hc : .call server call ∈ es)
      (hp : p = .request ⟨a.server, (a.world.server a.server).incarnation, call⟩ server true)
  | answered (cause : Cause n α) (a : Arrival n α) (es : List (Effect n α))
      (res : Option (Raft n α)) (c : Caller n α) (reply : Reply) (ha : Arrives w cause a)
      (ho : Outcome a.server (a.world.server a.server).rf a.input es res)
      (hc : a.caller = some c) (hr : .reply reply ∈ es) (hp : p = .response c a.server reply)

theorem Origin.of_mem {w : World n α} {p : Packet n α} (h : p ∈ w.net) : Origin w p :=
  .kept p h rfl (Or.inl rfl)

theorem Steps.origin {w w' : World n α} {event : Event n α} (hs : Steps w event w')
    {p : Packet n α} (hp : p ∈ w'.net) : Origin w p := by
  cases hs with
  | handle cause a es rf harr ha ho =>
    rcases List.mem_append.mp hp with hp | hp
    · exact .of_mem (ha.net.subset hp)
    rcases packet_cases hp with ⟨server, call, hc, rfl⟩ | ⟨c, reply, hc, hr, rfl⟩
    · exact .sent cause a es _ server call ha ho hc rfl
    · exact .answered cause a es _ c reply ha ho hc hr rfl
  | crashDuring cause k a es res harr ha handler hserve hes ho =>
    rcases List.mem_append.mp hp with hp | hp
    · exact .of_mem (ha.net.subset hp)
    rcases packet_cases hp with ⟨server, call, hc, rfl⟩ | ⟨c, reply, hc, hr, rfl⟩
    · exact .sent cause a es res server call ha ho (List.mem_of_mem_take hc) rfl
    · exact .answered cause a es res c reply ha ho hc (List.mem_of_mem_take hr) rfl
  | crash i => exact .of_mem hp
  | snapshot i index data => exact .of_mem hp
  | drop k => exact .of_mem (List.mem_of_mem_eraseIdx hp)
  | failRequest k c i hreq =>
    rcases List.mem_append.mp hp with hp | hp
    · rcases List.mem_or_eq_of_mem_set hp with hp | rfl
      · exact .of_mem hp
      · exact .kept _ (List.mem_of_getElem? hreq) rfl (Or.inr (Or.inl rfl))
    · obtain rfl := List.mem_singleton.mp hp
      exact .kept _ (List.mem_of_getElem? hreq) rfl (Or.inr (Or.inr rfl))
  | failResponse k c i reply hresp =>
    rcases List.mem_or_eq_of_mem_set hp with hp | rfl
    · exact .of_mem hp
    · exact .kept _ (List.mem_of_getElem? hresp) rfl (Or.inr (Or.inr rfl))

end DistStudy.Raft
