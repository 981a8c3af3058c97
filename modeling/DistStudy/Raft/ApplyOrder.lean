import DistStudy.Raft.LogShape
import DistStudy.Raft.Rules

/-!
# The order of the apply stream

What one incarnation sends on `applyCh` starts after the snapshot index that
`Make` restored, goes up by one with every command and jumps forward with every
snapshot (`Stream.Ordered`).

`handleInstallSnapshot` overwrites `lastApplied` with the index of the request
and sends the snapshot without comparing the two, so a delayed or repeated
snapshot moves the stream backwards. `applies_in_order` holds in the runs in
which every snapshot that is installed is ahead of `lastApplied`, and in which
`Make` finds a log that starts right after its snapshot index; an install can
save one that does not.
-/

namespace DistStudy.Raft

variable {n : ℕ} {α : Type}

/-! ## Ordered streams -/

/-- The last index delivered, `start` if there is none. -/
def lastDelivered (start : Int) (msgs : List (ApplyMsg α)) : Int :=
  (msgs.map ApplyMsg.index).getLast?.getD start

/-- A command is the next index, a snapshot is ahead of everything delivered. -/
def Stream.Ordered (s : Stream α) : Prop :=
  ∀ pre msg post, s.msgs = pre ++ msg :: post →
    match msg with
    | .command _ commandIndex => commandIndex = lastDelivered s.start pre + 1
    | .snapshot _ _ snapshotIndex => ∀ j ∈ s.start :: pre.map ApplyMsg.index, j < snapshotIndex

/-- The messages may follow the delivery of `last`. -/
def InOrder : Int → List (ApplyMsg α) → Prop
  | _, [] => True
  | last, .command _ commandIndex :: msgs => commandIndex = last + 1 ∧ InOrder commandIndex msgs
  | last, .snapshot _ _ snapshotIndex :: msgs =>
    last < snapshotIndex ∧ InOrder snapshotIndex msgs

theorem lastDelivered_cons (start : Int) (msg : ApplyMsg α) (msgs : List (ApplyMsg α)) :
    lastDelivered start (msg :: msgs) = lastDelivered msg.index msgs := by
  simp [lastDelivered, List.getLast?_cons]

theorem lastDelivered_append (start : Int) (msgs msgs' : List (ApplyMsg α)) :
    lastDelivered start (msgs ++ msgs') = lastDelivered (lastDelivered start msgs) msgs' := by
  induction msgs generalizing start with
  | nil => rfl
  | cons msg msgs ih => rw [List.cons_append, lastDelivered_cons, lastDelivered_cons, ih]

namespace InOrder

variable {last : Int} {msgs msgs' : List (ApplyMsg α)}

theorem cons_iff {msg : ApplyMsg α} : InOrder last (msg :: msgs) ↔
    (match msg with
      | .command _ commandIndex => commandIndex = last + 1
      | .snapshot _ _ snapshotIndex => last < snapshotIndex) ∧ InOrder msg.index msgs := by
  cases msg <;> rfl

theorem append_iff : InOrder last (msgs ++ msgs') ↔
    InOrder last msgs ∧ InOrder (lastDelivered last msgs) msgs' := by
  induction msgs generalizing last with
  | nil => simp [InOrder, lastDelivered]
  | cons msg msgs ih =>
    rw [List.cons_append, cons_iff, cons_iff, ih, lastDelivered_cons, and_assoc]

theorem of_isPrefix (h : InOrder last msgs') (hp : msgs <+: msgs') : InOrder last msgs := by
  rcases hp with ⟨rest, rfl⟩
  exact (append_iff.mp h).1

/-- Nothing that was delivered is ahead of the last index. -/
theorem le_lastDelivered (h : InOrder last msgs) :
    ∀ j ∈ last :: msgs.map ApplyMsg.index, j ≤ lastDelivered last msgs := by
  induction msgs generalizing last with
  | nil => simp [lastDelivered]
  | cons msg msgs ih =>
    obtain ⟨hmsg, hrest⟩ := cons_iff.mp h
    have hlt : last < msg.index := by
      cases msg with
      | command c i => exact hmsg ▸ Int.lt_succ last
      | snapshot d t i => exact hmsg
    intro j hj
    rw [lastDelivered_cons]
    rcases List.mem_cons.mp hj with rfl | hj
    · exact hlt.le.trans (ih hrest _ (by simp))
    · exact ih hrest j hj

theorem ordered {s : Stream α} (h : InOrder s.start s.msgs) : s.Ordered := by
  intro pre msg post hmsgs
  rw [hmsgs, append_iff, cons_iff] at h
  obtain ⟨hpre, hmsg, -⟩ := h
  cases msg with
  | command c i => exact hmsg
  | snapshot d t i => exact fun j hj => lt_of_le_of_lt (hpre.le_lastDelivered j hj) hmsg

end InOrder

/-! ## What one event delivers -/

/-- The commands of consecutive entries. -/
theorem Contiguous.deliverable_inOrder {snap : Int} {logs : List (Log α)}
    (h : Contiguous snap logs) (k : ℕ) (i : Int) :
    let msgs : List (ApplyMsg α) := (deliverable logs k i).map fun l => .command l.command l.index
    InOrder (snap + i) msgs ∧
      lastDelivered (snap + i) msgs = snap + i + (deliverable logs k i).length := by
  induction k generalizing i with
  | zero => simp [deliverable, InOrder, lastDelivered]
  | succ k ih =>
    intro msgs
    cases hl : index? logs i with
    | none => simp [msgs, deliverable, hl, InOrder, lastDelivered]
    | some l =>
      have hidx : l.index = snap + (i + 1) := by
        have hidx := (h.index?_eq hl).1
        omega
      obtain ⟨hord, hlast⟩ := ih (i + 1)
      have hmsgs : msgs = .command l.command l.index ::
          (deliverable logs k (i + 1)).map fun l => .command l.command l.index := by
        simp [msgs, deliverable, hl]
      have hlen : (deliverable logs (k + 1) i).length = (deliverable logs k (i + 1)).length + 1 := by
        simp [deliverable, hl]
      rw [hmsgs, InOrder.cons_iff, lastDelivered_cons, hlen]
      simp only [ApplyMsg.index, hidx]
      refine ⟨⟨by omega, hord⟩, ?_⟩
      rw [hlast]
      push_cast
      omega

/-- A snapshot that is installed is ahead of what was applied. -/
def InstallsAhead (rf : Raft n α) : Input n α → Prop
  | .installSnapshot args =>
    args.term < rf.currentTerm ∨ args.data = none ∨ rf.lastApplied < args.lastIncludedIndex
  | _ => True

instance (rf : Raft n α) : ∀ input, Decidable (InstallsAhead rf input)
  | .installSnapshot _ => inferInstanceAs (Decidable (_ ∨ _ ∨ _))
  | .requestVote _ | .appendEntries _ | .snapshotRequest _ | .command _ | .electionTimer
  | .applyTimer | .heartbeatTimer | .broadcastEntriesTimer | .vote _ _
  | .appendEntriesReply _ _ _ | .installSnapshotReply _ _ => inferInstanceAs (Decidable True)

/-- The messages of one event follow `lastApplied`, which they move along. -/
theorem Outcome.inOrder {me : Fin n} {rf : Raft n α} {input : Input n α} {es : List (Effect n α)}
    {res : Option (Raft n α)} (h : Outcome me rf input es res) (hal : Aligned rf)
    (hin : InstallsAhead rf input) :
    InOrder rf.lastApplied (appliesOf es) ∧
      ∀ rf', res = some rf' → rf'.lastApplied = lastDelivered rf.lastApplied (appliesOf es) := by
  have hcaught : ∀ term, (rf.caughtUp term).lastApplied = rf.lastApplied :=
    fun term => (caughtUp_logs rf term).2.2.2.2.2
  have hcatch : ∀ term es, appliesOf (rf.catchUp term ++ es) = appliesOf es := by
    intro term es
    unfold catchUp
    split_ifs <;> rfl
  -- nothing is sent and `lastApplied` stays
  have hkept : ∀ {es : List (Effect n α)} {res : Option (Raft n α)}, appliesOf es = [] →
      (∀ rf', res = some rf' → rf'.lastApplied = rf.lastApplied) →
      InOrder rf.lastApplied (appliesOf es) ∧
        ∀ rf', res = some rf' → rf'.lastApplied = lastDelivered rf.lastApplied (appliesOf es) := by
    intro es res hes hres
    rw [hes]
    exact ⟨trivial, hres⟩
  have hother : (∀ args, input ≠ .installSnapshot args) → input ≠ .applyTimer →
      InOrder rf.lastApplied (appliesOf es) ∧
        ∀ rf', res = some rf' → rf'.lastApplied = lastDelivered rf.lastApplied (appliesOf es) := by
    intro hinstall htimer
    refine hkept (h.appliesOf_eq_nil hinstall htimer) fun rf' hrf' => ?_
    subst hrf'
    exact h.lastApplied_eq hinstall htimer
  cases h with
  | installStale args ht => exact hkept rfl (by simp)
  | installEmpty args ht hd => exact hkept (hcatch _ _) (by simp [hcaught])
  | installPanics args ht hd hr => exact hkept (hcatch _ _) (by simp)
  | installRetained args logs ht hd hr hl =>
    exact absurd hr ((hal.caughtUp args.term).not_retains args)
  | installCleared args ht hd hr =>
    have hlt : rf.lastApplied < args.lastIncludedIndex := by
      rcases hin with hin | hin | hin
      · exact absurd hin ht
      · exact absurd hin hd
      · exact hin
    have hes : appliesOf (rf.catchUp args.term ++
        [.save ((rf.caughtUp args.term).installed args.data),
          .apply (.snapshot args.data args.lastIncludedTerm args.lastIncludedIndex),
          .reply (.installSnapshot { term := rf.currentTerm })]) =
        [.snapshot args.data args.lastIncludedTerm args.lastIncludedIndex] := hcatch _ _
    rw [hes]
    refine ⟨⟨hlt, trivial⟩, fun rf' hrf' => ?_⟩
    rw [← Option.some.inj hrf']
    rfl
  | applied logs res hes hres =>
    have hord := hal.contiguous.deliverable_inOrder rf.backlog (rf.lastApplied - rf.snapshotIndex)
    simp only [← hes] at hord
    have heq : rf.snapshotIndex + (rf.lastApplied - rf.snapshotIndex) = rf.lastApplied := by omega
    rw [heq] at hord
    rw [appliesOf_deliver]
    refine ⟨hord.1, fun rf' hrf' => ?_⟩
    rcases hres with hnone | ⟨hlen, hsome⟩
    · rw [hnone] at hrf'
      cases hrf'
    · rw [hsome] at hrf'
      rw [hord.2, hlen, ← Option.some.inj hrf']
      rfl
  | higherTerm hterm ht =>
    exact hother (by rintro args rfl; cases hterm) (by rintro rfl; cases hterm)
  | sent input es res htimer hs hes hres =>
    rcases htimer with rfl | rfl <;> exact hother (by simp) (by simp)
  | _ => exact hother (by simp) (by simp)

/-- The apply timer delivers nothing beyond the entries it is to send. -/
theorem Outcome.index_le_backlog {me : Fin n} {rf : Raft n α} {es : List (Effect n α)}
    {res : Option (Raft n α)} (h : Outcome me rf .applyTimer es res) (hal : Aligned rf)
    {msg : ApplyMsg α} (hmsg : .apply msg ∈ es) : msg.index ≤ rf.lastApplied + rf.backlog := by
  rcases h.apply_cases hmsg with ⟨args, heq, -⟩ | ⟨-, l, hl, rfl⟩
  · cases heq
  · rcases index?_of_mem_deliverable hl with ⟨j, hj, hidx⟩
    have hl := (hal.contiguous.index?_eq hidx).1
    show l.index ≤ _
    omega

/-! ## Whole runs -/

/-- What was heard from a network of shaped calls. -/
theorem Heard.shaped {S : Taken → Server n α → Prop} {P : Taken → Call α → Prop} {T : Taken}
    {s : Server n α} {input : Input n α} (h : Heard S P T s input)
    (hP : ∀ call, P T call → Shaped call) : ShapedInput input := by
  cases input with
  | appendEntries args => exact hP _ (h.append rfl)
  | installSnapshot args =>
    rcases h.install rfl with ⟨data, hcall, -⟩
    exact hP _ hcall
  | _ => trivial

/-- A peer restarts from a log that starts right after its snapshot index. -/
abbrev alignedRestarts : Rules n α where
  restart _ persister := Aligned (make persister : Raft n α)
  resave _ persister := Aligned (make persister : Raft n α)

theorem alignedRestarts_local :
    Local (alignedRestarts : Rules n α) (fun _ s => Aligned s.rf) (fun _ call => Shaped call) where
  init := ⟨le_refl _, .nil⟩
  grow _ h := h
  growCall _ h := h
  channel _ h := h
  request h _ _ _ := h
  handle h hheard _ ho := h.outcome (hheard.shaped fun _ hc => hc) ho
  calls h _ _ ho hc := h.calls ho hc
  crash _ hp := hp
  cut _ _ _ _ hp := hp.lastSave (Q := fun p => Aligned (make p : Raft n α)) id id

/-- Snapshots move forward, and a peer restarts from a log that starts right after
its snapshot index. -/
abbrev forwardOnly : Rules n α where
  input := InstallsAhead
  restart _ persister := Aligned (make persister : Raft n α)
  resave _ persister := Aligned (make persister : Raft n α)

/-- The log is aligned, every stream is in order and the current one has reached
`lastApplied`. -/
structure InStep (s : Server n α) : Prop where
  aligned : Aligned s.rf
  inOrder : InOrder s.applied.start s.applied.msgs
  reached : s.rf.lastApplied = lastDelivered s.applied.start s.applied.msgs
  past : ∀ stream ∈ s.past, InOrder stream.start stream.msgs

namespace InStep

variable {s : Server n α} {i : Fin n} {input : Input n α} {es : List (Effect n α)}

theorem restart (h : InStep s) (hp : Aligned (make s.persister : Raft n α)) :
    InStep s.restart := by
  refine ⟨hp, trivial, rfl, fun stream hmem => ?_⟩
  rcases List.mem_cons.mp hmem with rfl | hmem
  · exact h.inOrder
  · exact h.past stream hmem

theorem handle {rf : Raft n α} (h : InStep s) (hshape : ShapedInput input)
    (hin : InstallsAhead s.rf input) (ho : Outcome i s.rf input es (some rf)) :
    InStep (s.perform es rf) := by
  obtain ⟨hord, hlast⟩ := ho.inOrder h.aligned hin
  rw [h.reached] at hord hlast
  refine ⟨h.aligned.outcome hshape ho, InOrder.append_iff.mpr ⟨h.inOrder, hord⟩, ?_, h.past⟩
  rw [show (s.perform es rf).rf.lastApplied = _ from hlast rf rfl, ← lastDelivered_append]
  rfl

/-- A crash in the middle of a handler leaves a stream that is in order. -/
theorem cut {res : Option (Raft n α)} (h : InStep s) (hin : InstallsAhead s.rf input)
    (ho : Outcome i s.rf input es res) (k : ℕ)
    (hp : Aligned (make (lastSave s.persister (es.take k)) : Raft n α)) :
    InStep (s.perform (es.take k) s.rf).restart := by
  have hord := (ho.inOrder h.aligned hin).1
  rw [h.reached] at hord
  have hprefix : appliesOf (es.take k) <+: appliesOf es := (List.take_prefix k es).filterMap _
  refine ⟨hp, trivial, rfl, fun stream hmem => ?_⟩
  rcases List.mem_cons.mp hmem with rfl | hmem
  · exact InOrder.append_iff.mpr ⟨h.inOrder, hord.of_isPrefix hprefix⟩
  · exact h.past stream hmem

end InStep

theorem forwardOnly_local :
    Local (forwardOnly : Rules n α) (fun _ s => InStep s) (fun _ call => Shaped call) where
  init := ⟨⟨le_refl _, .nil⟩, trivial, rfl, by simp⟩
  grow _ h := h
  growCall _ h := h
  channel _ h := ⟨h.aligned, h.inOrder, h.reached, h.past⟩
  request h _ _ _ := ⟨h.aligned, h.inOrder, h.reached, h.past⟩
  handle h hheard hin ho := h.handle (hheard.shaped fun _ hc => hc) hin ho
  calls h _ _ ho hc := h.aligned.calls ho hc
  crash h hp := h.restart hp
  cut h _ hin ho hp :=
    h.cut hin ho _ (hp.lastSave (Q := fun p => Aligned (make p : Raft n α)) id id)

/-- The apply stream of every incarnation is gap-free and never moves backwards. -/
theorem applies_in_order {e : Behavior (World n α)} (he : Run forwardOnly.Allows e) (k : ℕ)
    (i : Fin n) : ∀ s ∈ ((e k).server i).applied :: ((e k).server i).past, s.Ordered := by
  have h := (forwardOnly_local.run he k).server i
  intro s hs
  rcases List.mem_cons.mp hs with rfl | hs
  · exact h.inOrder.ordered
  · exact (h.past s hs).ordered

/-- Peer 0 of three leads, commits an entry with peer 1, compacts it away, appends
another one and offers peer 2, whose log is empty, its snapshot. -/
def snapshotOffered : List (Event 3 ℕ) :=
  [.handle (.timer 0 .election), .handle (.deliver 0), .handle (.deliver 1),
    .drop 0, .drop 0, .drop 0,
    .handle (.start 0 5), .handle (.timer 0 .broadcastEntries), .drop 1,
    .handle (.deliver 0), .handle (.deliver 0), .handle (.timer 0 .apply),
    .snapshot 0 1 (some [7]), .handle (.snapshotRequest 0 0), .handle (.start 0 6),
    .handle (.timer 0 .heartbeat), .drop 0, .handle (.deliver 0), .handle (.deliver 0)]

/-- Peer 2 installs the snapshot. -/
def snapshotInstalled : List (Event 3 ℕ) :=
  snapshotOffered ++ [.handle (.deliver 0)]

theorem applies_in_order_installed :
    ((play World.step World.init snapshotInstalled).server 2).applied =
        ⟨0, [.snapshot (some [7]) 1 1]⟩ ∧
      ∀ s ∈ ((play World.step World.init (snapshotInstalled.take 20)).server 2).applied ::
        ((play World.step World.init (snapshotInstalled.take 20)).server 2).past, s.Ordered :=
  ⟨by decide +kernel, applies_in_order (Runs.play (by decide +kernel)) 20 2⟩

/-- A second heartbeat is rejected before the snapshot arrives, so that the leader
sends it twice. -/
def snapshotRepeated : List (Event 3 ℕ) :=
  snapshotOffered ++ [.handle (.timer 0 .heartbeat), .drop 1, .handle (.deliver 1),
    .handle (.deliver 1), .handle (.deliver 0), .handle (.deliver 0)]

/-- The second install sends the snapshot again. -/
theorem install_goes_back :
    ∃ (e : Behavior (World 3 ℕ)) (k : ℕ), Run ofDelivered.Allows e ∧
      ¬ ((e k).server 2).applied.Ordered := by
  refine ⟨_, 25, Runs.play (by decide +kernel : Plays _ ofDelivered.Allows _ snapshotRepeated), ?_⟩
  have happlied : ((play World.step World.init (snapshotRepeated.take 25)).server 2).applied =
      ⟨0, [.snapshot (some [7]) 1 1, .snapshot (some [7]) 1 1]⟩ := by decide +kernel
  intro h
  rw [happlied] at h
  have hlt := h [.snapshot (some [7]) 1 1] _ [] rfl 1 (by simp [ApplyMsg.index])
  exact absurd hlt (lt_irrefl _)

end DistStudy.Raft
