import DistStudy.Raft.ApplyOrder

/-!
# Snapshots and their indexes

`Coherent T rf`: the log starts right after the snapshot index, and the snapshot
bytes are those that a service has produced for that index; there are none
exactly when the index is 0.

* `snapshot_paired` is about the memory in crash-free runs. It fails when a peer
  with a snapshot handles an `InstallSnapshot` without data: the handler stores
  the data before it tests for `nil`.
* `make_coherent` is about what `Make` restores. It also fails after an install
  with data, which saves the log of before the install and leaves the snapshot
  index out.
-/

namespace DistStudy.Raft

variable {n : ℕ} {α : Type}

@[simp] theorem bytesOf_clone (b : GoBytes) : bytesOf (clone b) = bytesOf b := rfl

@[simp] theorem bytesOf_labgobBytes (b : GoBytes) : bytesOf (labgobBytes b) = bytesOf b := by
  rcases b with _ | _ | _ <;> rfl

theorem bytesOf_ne_nil_of_labgobBytes {b : GoBytes} (h : labgobBytes b ≠ none) :
    bytesOf b ≠ [] := by
  rcases b with _ | _ | ⟨x, xs⟩
  · exact absurd rfl h
  · exact absurd rfl h
  · exact List.cons_ne_nil x xs

/-! ## Pairs of an index and its bytes -/

/-- Some service has passed these bytes to `Snapshot` for this index. -/
def Produced (T : Taken) (index : Int) (bytes : GoBytes) : Prop :=
  ∃ data, (index, data) ∈ T ∧ bytesOf data = bytesOf bytes

/-- A snapshot index and the bytes that belong to it. -/
structure Paired (T : Taken) (index : Int) (bytes : GoBytes) : Prop where
  nonneg : 0 ≤ index
  empty : index = 0 ↔ bytesOf bytes = []
  produced : 0 < index → Produced T index bytes

namespace Paired

variable {T T' : Taken} {index : Int} {bytes bytes' : GoBytes}

theorem zero (h : bytesOf bytes = []) : Paired T 0 bytes :=
  ⟨le_refl _, by simp [h], fun hlt => absurd hlt (lt_irrefl _)⟩

theorem congr (h : Paired T index bytes) (hb : bytesOf bytes' = bytesOf bytes) :
    Paired T index bytes' := by
  refine ⟨h.nonneg, by rw [hb]; exact h.empty, fun hlt => ?_⟩
  rcases h.produced hlt with ⟨data, hmem, heq⟩
  exact ⟨data, hmem, heq.trans hb.symm⟩

theorem mono (h : Paired T index bytes) (hT : T ⊆ T') : Paired T' index bytes := by
  refine ⟨h.nonneg, h.empty, fun hlt => ?_⟩
  rcases h.produced hlt with ⟨data, hmem, heq⟩
  exact ⟨data, hT hmem, heq⟩

theorem pos (h : Paired T index bytes) (hb : bytesOf bytes ≠ []) : 0 < index := by
  have hne : index ≠ 0 := fun h0 => hb (h.empty.mp h0)
  have hnonneg := h.nonneg
  omega

end Paired

/-- The log starts right after the snapshot, whose bytes belong to its index. -/
structure Coherent (T : Taken) (rf : Raft n α) : Prop where
  aligned : Aligned rf
  paired : Paired T rf.snapshotIndex rf.snapshot

/-- What `persist` writes restores a coherent memory. -/
theorem Coherent.persisted {T : Taken} {rf : Raft n α} (h : Coherent T rf) :
    Coherent T (make rf.persisted : Raft n α) := by
  unfold Raft.persisted
  split_ifs with hlen
  · exact ⟨⟨h.aligned.nonneg, h.aligned.contiguous⟩, h.paired.congr rfl⟩
  · have hnil : bytesOf rf.snapshot = [] := List.length_eq_zero_iff.mp (by omega)
    have hzero : rf.snapshotIndex = 0 := h.paired.empty.mpr hnil
    have hlogs := h.aligned.contiguous
    rw [hzero] at hlogs
    exact ⟨⟨le_refl _, hlogs⟩, .zero rfl⟩

/-! ## What one event does to the pair -/

/-- An `InstallSnapshot` without data finds no snapshot that it would overwrite. -/
def KeepsSnapshot (rf : Raft n α) : Input n α → Prop
  | .installSnapshot args =>
    args.term < rf.currentTerm ∨ args.data ≠ none ∨ ¬ 0 < rf.snapshotIndex
  | _ => True

instance (rf : Raft n α) : ∀ input, Decidable (KeepsSnapshot rf input)
  | .installSnapshot _ => inferInstanceAs (Decidable (_ ∨ _ ∨ _))
  | .requestVote _ | .appendEntries _ | .snapshotRequest _ | .command _ | .electionTimer
  | .applyTimer | .heartbeatTimer | .broadcastEntriesTimer | .vote _ _
  | .appendEntriesReply _ _ _ | .installSnapshotReply _ _ => inferInstanceAs (Decidable True)

/-- An input whose entries are consecutive and whose snapshot is one of `T`. -/
structure PairedInput (T : Taken) (input : Input n α) : Prop where
  shaped : ShapedInput input
  install : ∀ args, input = .installSnapshot args →
    Paired T args.lastIncludedIndex args.data ∧ (args.data ≠ none → bytesOf args.data ≠ [])
  request : ∀ req, input = .snapshotRequest req →
    0 < req.index ∧ bytesOf req.snapshot ≠ [] ∧ (req.index, req.snapshot) ∈ T

section

variable {T : Taken} {me : Fin n} {rf rf' : Raft n α} {input : Input n α}
  {es : List (Effect n α)} {res : Option (Raft n α)}

theorem Coherent.outcome (h : Coherent T rf) (hin : PairedInput T input)
    (hk : KeepsSnapshot rf input) (ho : Outcome me rf input es (some rf')) : Coherent T rf' := by
  refine ⟨h.aligned.outcome hin.shaped ho, ?_⟩
  have hcaught : ∀ term, (rf.caughtUp term).snapshotIndex = rf.snapshotIndex :=
    fun term => (caughtUp_logs rf term).2.1
  -- the pair changes with an install and with a `Snapshot` request
  have hother : (∀ args, input ≠ .installSnapshot args) → (∀ req, input ≠ .snapshotRequest req) →
      Paired T rf'.snapshotIndex rf'.snapshot := by
    intro hinstall hcompact
    obtain ⟨hbytes, hindex, -⟩ := ho.snapshot_eq hinstall hcompact
    rw [hbytes, hindex]
    exact h.paired
  cases ho with
  | installStale args ht => exact h.paired
  | installEmpty args ht hd =>
    have hnot : ¬ 0 < rf.snapshotIndex := by
      rcases hk with hk | hk | hk
      · exact absurd hk ht
      · exact absurd hd hk
      · exact hk
    have hzero : rf.snapshotIndex = 0 := by
      have hnonneg := h.aligned.nonneg
      omega
    rw [withSnapshot_snapshotIndex, withSnapshot_snapshot, hcaught, hzero, hd]
    exact .zero rfl
  | installCleared args ht hd hr => exact (hin.install args rfl).1
  | installRetained args logs ht hd hr hl => exact (hin.install args rfl).1
  | compacted req hreq =>
    obtain ⟨hpos, hbytes, hmem⟩ := hin.request req rfl
    have hne : req.index ≠ 0 := by omega
    exact ⟨hpos.le, by simp [hne, hbytes], fun _ => ⟨req.snapshot, hmem, rfl⟩⟩
  | higherTerm hterm ht =>
    exact hother (by rintro args rfl; cases hterm) (by rintro req rfl; cases hterm)
  | sent input es res htimer hs hes hres =>
    rcases htimer with rfl | rfl <;> exact hother (by simp) (by simp)
  | _ => exact hother (by simp) (by simp)

/-- Delivered indexes are positive. -/
theorem Coherent.delivers (h : Coherent T rf) (hin : PairedInput T input)
    (ho : Outcome me rf input es res) {msg : ApplyMsg α} (hmsg : .apply msg ∈ es) :
    0 < msg.index := by
  rcases ho.apply_cases hmsg with ⟨args, hargs, -, hd, rfl⟩ | ⟨-, l, hl, rfl⟩
  · obtain ⟨hpair, hbytes⟩ := hin.install args hargs
    exact hpair.pos (hbytes hd)
  · have hlt := h.aligned.contiguous.lt_index (mem_of_mem_deliverable hl)
    exact lt_of_le_of_lt h.aligned.nonneg hlt

end

/-! ## Peers and calls -/

/-- A peer with a coherent memory, whose `Snapshot` requests are paired. -/
structure Served (T : Taken) (s : Server n α) : Prop where
  coherent : Coherent T s.rf
  delivered : ∀ msg ∈ s.applied.msgs, 0 < msg.index
  requests : ∀ req ∈ s.snapshotRequestCh,
    0 < req.index ∧ bytesOf req.snapshot ≠ [] ∧ (req.index, req.snapshot) ∈ T

/-- A call with consecutive entries, or with a snapshot of `T`. -/
def PairedCall (T : Taken) (call : Call α) : Prop :=
  Shaped call ∧ ∀ args, call = .installSnapshot args → Paired T args.lastIncludedIndex args.data

theorem PairedCall.mono {T T' : Taken} {call : Call α} (h : PairedCall T call) (hT : T ⊆ T') :
    PairedCall T' call :=
  ⟨h.1, fun args hargs => (h.2 args hargs).mono hT⟩

namespace Served

variable {T T' : Taken} {s : Server n α} {i : Fin n} {input : Input n α}
  {es : List (Effect n α)} {res : Option (Raft n α)}

theorem mono (h : Served T s) (hT : T ⊆ T') : Served T' s := by
  refine ⟨⟨h.coherent.aligned, h.coherent.paired.mono hT⟩, h.delivered, fun req hreq => ?_⟩
  obtain ⟨hpos, hbytes, hmem⟩ := h.requests req hreq
  exact ⟨hpos, hbytes, hT hmem⟩

theorem channel (h : Served T s) {ch : List SnapshotRequest}
    (hch : ch.Sublist s.snapshotRequestCh) : Served T { s with snapshotRequestCh := ch } :=
  ⟨h.coherent, h.delivered, fun req hreq => h.requests req (hch.subset hreq)⟩

/-- The service calls `Snapshot` for an index that was delivered. -/
theorem request (h : Served T s) {index : Int} {data : GoBytes} (hdata : bytesOf data ≠ [])
    (hindex : index ∈ s.applied.msgs.map ApplyMsg.index) (hT : (index, data) ∈ T) :
    Served T { s with snapshotRequestCh := s.snapshotRequestCh ++ [⟨index, data⟩] } := by
  refine ⟨h.coherent, h.delivered, fun req hreq => ?_⟩
  rcases List.mem_append.mp hreq with hreq | hreq
  · exact h.requests req hreq
  · rcases List.mem_map.mp hindex with ⟨msg, hmsg, rfl⟩
    rw [List.mem_singleton.mp hreq]
    exact ⟨h.delivered msg hmsg, hdata, hT⟩

theorem handle {rf : Raft n α} (h : Served T s) (hin : PairedInput T input)
    (hk : KeepsSnapshot s.rf input) (ho : Outcome i s.rf input es (some rf)) :
    Served T (s.perform es rf) := by
  refine ⟨h.coherent.outcome hin hk ho, fun msg hmsg => ?_, h.requests⟩
  rcases List.mem_append.mp hmsg with hmsg | hmsg
  · exact h.delivered msg hmsg
  · exact h.coherent.delivers hin ho (mem_appliesOf.mp hmsg)

theorem restart (h : Coherent T (make s.persister : Raft n α)) : Served T s.restart :=
  ⟨h, by simp [Server.restart], by simp [Server.restart]⟩

/-- The requests of a peer carry its snapshot. -/
theorem calls (h : Served T s) (ho : Outcome i s.rf input es res) {server : Fin n}
    {call : Call α} (hc : .call server call ∈ es) : PairedCall T call := by
  refine ⟨h.coherent.aligned.calls ho hc, ?_⟩
  rintro args rfl
  have hsends : ∀ {rf : Raft n α}, ¬ Sends i rf (.call server (.installSnapshot args)) := by
    intro rf hs
    obtain ⟨_, _, -, heq⟩ := hs.append
    cases heq
  rcases ho.call_cases hc with ⟨-, -, heq⟩ | ⟨-, hs⟩ | ⟨vote, -, -, hs⟩ | ⟨reply, req, -, -, heq⟩
  · cases heq
  · exact absurd hs hsends
  · exact absurd hs hsends
  · cases heq
    exact h.coherent.paired

/-- What a peer hears from a network of paired calls. -/
theorem heard {S : Taken → Server n α → Prop} (hh : Heard S PairedCall T s input)
    (hS : ∀ s, S T s → Served T s) : PairedInput T input := by
  refine ⟨hh.shaped fun _ hc => hc.1, fun args hargs => ?_, fun req hreq => ?_⟩
  · rcases hh.install hargs with ⟨data, hcall, hdata⟩
    have hpair := hcall.2 _ rfl
    rw [hdata]
    refine ⟨hpair.congr (bytesOf_labgobBytes data), fun hne => ?_⟩
    rw [bytesOf_labgobBytes]
    exact bytesOf_ne_nil_of_labgobBytes hne
  · rcases hh.request hreq with ⟨ch, hmem, hs⟩
    exact (hS _ hs).requests req hmem

end Served

/-! ## Crash-free runs -/

/-- No peer crashes and no service passes an empty snapshot. -/
abbrev crashFree : Rules n α where
  restart _ _ := False
  resave _ _ := False
  snapshot data := bytesOf data ≠ []

/-- Also, no peer that has a snapshot handles an `InstallSnapshot` without data. -/
abbrev crashFreeKeeping : Rules n α where
  input := KeepsSnapshot
  restart _ _ := False
  resave _ _ := False
  snapshot data := bytesOf data ≠ []

theorem crashFreeKeeping_local : Local (crashFreeKeeping : Rules n α) Served PairedCall where
  init := ⟨⟨⟨le_refl _, .nil⟩, .zero rfl⟩, by simp, by simp⟩
  grow hT h := h.mono hT
  growCall hT h := h.mono hT
  channel hch h := h.channel hch
  request h hdata hindex hT := h.request hdata hindex hT
  handle h hheard hin ho := h.handle (Served.heard hheard fun _ hs => hs) hin ho
  calls h _ _ ho hc := h.calls ho hc
  crash _ hp := hp.elim
  cut _ _ _ _ hp := (hp.lastSave (Q := fun _ => False) id id).elim

/-- An install without data that overwrites no snapshot changes nothing of it. -/
theorem Coherent.install_none {T : Taken} {me : Fin n} {rf rf' : Raft n α}
    {args : InstallSnapshotRequest} {es : List (Effect n α)} (h : Coherent T rf)
    (hk : KeepsSnapshot rf (.installSnapshot args)) (hd : args.data = none)
    (ho : Outcome me rf (.installSnapshot args) es (some rf')) :
    bytesOf rf'.snapshot = bytesOf rf.snapshot ∧ rf'.snapshotIndex = rf.snapshotIndex ∧
      rf'.logs = rf.logs := by
  have hnone : ¬ args.data ≠ none := not_not.mpr hd
  have hcaught := caughtUp_logs rf args.term
  cases ho with
  | installStale _ ht => exact ⟨rfl, rfl, rfl⟩
  | installEmpty _ ht _ =>
    have hzero : rf.snapshotIndex = 0 := by
      have hnonneg := h.aligned.nonneg
      rcases hk with hk | hk | hk
      · exact absurd hk ht
      · exact absurd hk hnone
      · omega
    refine ⟨?_, hcaught.2.1, hcaught.1⟩
    rw [withSnapshot_snapshot, hd, h.paired.empty.mp hzero]
    rfl
  | installCleared _ ht hne _ => exact absurd hne hnone
  | installRetained _ _ ht hne _ _ => exact absurd hne hnone
  | higherTerm hterm _ => cases hterm
  | sent _ _ _ htimer _ _ _ => rcases htimer with htimer | htimer <;> cases htimer

/-- In a crash-free run the snapshot in memory and those in flight belong to their
indexes, and an install without data leaves the receiver's snapshot and log. -/
theorem snapshot_paired {e : Behavior (World n α)} (he : Run crashFreeKeeping.Allows e) (k : ℕ) :
    (∀ i, 0 < ((e k).server i).rf.snapshotIndex →
      bytesOf ((e k).server i).rf.snapshot ≠ [] ∧
        Produced (e k).taken ((e k).server i).rf.snapshotIndex ((e k).server i).rf.snapshot) ∧
    (∀ p ∈ (e k).net, ∀ args, p.caller.call = .installSnapshot args → 0 < args.lastIncludedIndex →
      bytesOf args.data ≠ [] ∧ Produced (e k).taken args.lastIncludedIndex args.data) ∧
    (∀ cause a args w', crashFreeKeeping.Allows (e k) (.handle cause) →
      (e k).arrival cause = some a → a.input = .installSnapshot args → args.data = none →
      (e k).step (.handle cause) = some w' →
      bytesOf (w'.server a.server).rf.snapshot = bytesOf ((e k).server a.server).rf.snapshot ∧
        (w'.server a.server).rf.snapshotIndex = ((e k).server a.server).rf.snapshotIndex ∧
        (w'.server a.server).rf.logs = ((e k).server a.server).rf.logs) := by
  have h := crashFreeKeeping_local.run he k
  have hpair : ∀ {index bytes}, Paired (e k).taken index bytes → 0 < index →
      bytesOf bytes ≠ [] ∧ Produced (e k).taken index bytes := by
    intro index bytes hp hlt
    refine ⟨fun hnil => ?_, hp.produced hlt⟩
    have hzero := hp.empty.mpr hnil
    omega
  refine ⟨fun i => hpair (h.server i).coherent.paired, fun p hp args hargs => ?_, ?_⟩
  · exact hpair ((h.call p hp).2 args hargs)
  · intro cause a args w' hR harr hargs hd hstep
    cases steps_of_step hstep with
    | handle _ a' es rf harr' ha ho =>
      obtain rfl := Option.some.inj (harr'.symm.trans harr)
      rcases ha.server a'.server with ⟨ch, -, hserver⟩
      have hrf : (a'.world.server a'.server).rf = ((e k).server a'.server).rf := by rw [hserver]
      have hin := hR a' harr
      rw [hrf, hargs] at ho hin
      rw [World.server_perform_self]
      exact (h.server a'.server).coherent.install_none hin hd ho

theorem snapshot_paired_installed :
    0 < ((play World.step World.init (snapshotInstalled.take 20)).server 2).rf.snapshotIndex ∧
      Produced (play World.step World.init (snapshotInstalled.take 20)).taken
        ((play World.step World.init (snapshotInstalled.take 20)).server 2).rf.snapshotIndex
        ((play World.step World.init (snapshotInstalled.take 20)).server 2).rf.snapshot :=
  ⟨by decide +kernel,
    ((snapshot_paired (Runs.play (by decide +kernel)) 20).1 2 (by decide +kernel)).2⟩

/-- Peer 1 of three compacts an entry that the leader, peer 0, still has in its log.
It rejects a heartbeat, and the leader sends the snapshot that it does not have. -/
def snapshotLost : List (Event 3 ℕ) :=
  [.handle (.timer 0 .election), .handle (.deliver 0), .handle (.deliver 1),
    .drop 0, .drop 0, .drop 0,
    .handle (.start 0 5), .handle (.timer 0 .broadcastEntries), .drop 1,
    .handle (.deliver 0), .handle (.deliver 0),
    .handle (.timer 0 .heartbeat), .drop 1, .handle (.deliver 0), .drop 0,
    .handle (.timer 1 .apply), .snapshot 1 1 (some [7]), .handle (.snapshotRequest 1 0),
    .handle (.start 0 6), .handle (.timer 0 .heartbeat), .drop 1,
    .handle (.deliver 0), .handle (.deliver 0), .handle (.deliver 0)]

/-- The snapshot of peer 1 is gone, its index is still there. -/
theorem install_drops_snapshot :
    ∃ (e : Behavior (World 3 ℕ)) (k : ℕ), Run crashFree.Allows e ∧
      ((e k).server 1).rf.snapshotIndex = 1 ∧ ((e k).server 1).rf.snapshot = none :=
  ⟨_, 24, Runs.play (by decide +kernel : Plays _ _ _ snapshotLost), by decide +kernel⟩

/-! ## Restarts -/

/-- Every `InstallSnapshot` that is handled is without data and finds no snapshot. -/
def InstallsNothing (rf : Raft n α) : Input n α → Prop
  | .installSnapshot args =>
    args.term < rf.currentTerm ∨ args.data = none ∧ rf.snapshotIndex = 0
  | _ => True

instance (rf : Raft n α) : ∀ input, Decidable (InstallsNothing rf input)
  | .installSnapshot _ => inferInstanceAs (Decidable (_ ∨ _ ∧ _))
  | .requestVote _ | .appendEntries _ | .snapshotRequest _ | .command _ | .electionTimer
  | .applyTimer | .heartbeatTimer | .broadcastEntriesTimer | .vote _ _
  | .appendEntriesReply _ _ _ | .installSnapshotReply _ _ => inferInstanceAs (Decidable True)

theorem InstallsNothing.keepsSnapshot {rf : Raft n α} {input : Input n α}
    (h : InstallsNothing rf input) : KeepsSnapshot rf input := by
  cases input with
  | installSnapshot args =>
    rcases h with h | ⟨-, h⟩
    · exact Or.inl h
    · exact Or.inr (Or.inr (by omega))
  | _ => trivial

/-- Every record that is saved restores a coherent memory. -/
theorem Coherent.saves {T : Taken} {me : Fin n} {rf : Raft n α} {input : Input n α}
    {es : List (Effect n α)} {res : Option (Raft n α)} (h : Coherent T rf)
    (hin : PairedInput T input) (hk : InstallsNothing rf input)
    (ho : Outcome me rf input es res) {p : Persister α} (hp : .save p ∈ es) :
    Coherent T (make p : Raft n α) := by
  rcases ho.save_cases hp with ⟨rf₁, rfl, hbytes, hindex, -, hlogs⟩ | ⟨args, hargs, ht, rfl⟩
  · refine Coherent.persisted ⟨⟨?_, ?_⟩, ?_⟩
    · rw [hindex]
      exact h.aligned.nonneg
    · rw [hindex]
      exact h.aligned.written hin.shaped hlogs
    · rw [hbytes, hindex]
      exact h.paired
  · subst hargs
    obtain ⟨hd, hzero⟩ : args.data = none ∧ rf.snapshotIndex = 0 := by
      rcases hk with hk | hk
      · exact absurd hk ht
      · exact hk
    have hlogs : Contiguous 0 (rf.caughtUp args.term).logs := by
      rw [(caughtUp_logs rf args.term).1, ← hzero]
      exact h.aligned.contiguous
    exact ⟨⟨le_refl _, hlogs⟩, .zero (by rw [hd]; rfl)⟩

/-- Services pass no empty snapshot. -/
abbrev nonEmpty : Rules n α where
  snapshot data := bytesOf data ≠ []

/-- Also, no snapshot is installed. -/
abbrev nonEmptyUninstalled : Rules n α where
  input := InstallsNothing
  snapshot data := bytesOf data ≠ []

/-- The memory and what `Make` would restore are coherent. -/
structure Durable (T : Taken) (s : Server n α) : Prop where
  served : Served T s
  disk : Coherent T (make s.persister : Raft n α)

theorem nonEmptyUninstalled_local :
    Local (nonEmptyUninstalled : Rules n α) Durable PairedCall where
  init := ⟨⟨⟨⟨le_refl _, .nil⟩, .zero rfl⟩, by simp, by simp⟩, ⟨le_refl _, .nil⟩, .zero rfl⟩
  grow hT h := ⟨h.served.mono hT, h.disk.aligned, h.disk.paired.mono hT⟩
  growCall hT h := h.mono hT
  channel hch h := ⟨h.served.channel hch, h.disk⟩
  request h hdata hindex hT := ⟨h.served.request hdata hindex hT, h.disk⟩
  handle := by
    intro T s i input es rf h hheard hk ho
    have hin := Served.heard hheard fun _ hs => hs.served
    refine ⟨h.served.handle hin hk.keepsSnapshot ho, ?_⟩
    rw [Server.perform_persister]
    rcases lastSave_mem s.persister es with heq | hmem
    · rw [heq]
      exact h.disk
    · exact h.served.coherent.saves hin hk ho hmem
  calls h _ _ ho hc := h.served.calls ho hc
  crash h _ := ⟨Served.restart h.disk, h.disk⟩
  cut := by
    intro T s i input es res k h hheard hk ho _
    have hin := Served.heard hheard fun _ hs => hs.served
    have hdisk : Coherent T (make (lastSave s.persister (es.take k)) : Raft n α) := by
      rcases lastSave_mem s.persister (es.take k) with heq | hmem
      · rw [heq]
        exact h.disk
      · exact h.served.coherent.saves hin hk ho (List.mem_of_mem_take hmem)
    exact ⟨Served.restart hdisk, hdisk⟩

/-- Whenever a peer crashes, `Make` restores a log that starts right after the
snapshot index and the bytes that were taken for that index, which are empty exactly
when the index is 0. -/
theorem make_coherent {e : Behavior (World n α)} (he : Run nonEmptyUninstalled.Allows e) (k : ℕ)
    (i : Fin n) :
    let rf : Raft n α := make ((e k).server i).persister
    (∀ (j : ℕ) (l : Log α), rf.logs[j]? = some l → l.index = rf.snapshotIndex + 1 + j) ∧
      (bytesOf rf.snapshot = [] ↔ rf.snapshotIndex = 0) ∧
      (rf.snapshotIndex ≠ 0 → Produced (e k).taken rf.snapshotIndex rf.snapshot) := by
  intro rf
  have h : Coherent (e k).taken rf := ((nonEmptyUninstalled_local.run he k).server i).disk
  refine ⟨h.aligned.contiguous, h.paired.empty.symm, fun hne => h.paired.produced ?_⟩
  have hnonneg := h.aligned.nonneg
  omega

/-- The leader that has compacted its log and saved another entry. -/
theorem make_coherent_offered :
    (make ((play World.step World.init (snapshotOffered.take 19)).server 0).persister :
        Raft 3 ℕ).snapshotIndex = 1 ∧
      Produced (play World.step World.init (snapshotOffered.take 19)).taken
        (make ((play World.step World.init (snapshotOffered.take 19)).server 0).persister :
          Raft 3 ℕ).snapshotIndex
        (make ((play World.step World.init (snapshotOffered.take 19)).server 0).persister :
          Raft 3 ℕ).snapshot :=
  ⟨by decide +kernel,
    (make_coherent (Runs.play (by decide +kernel)) 19 0).2.2 (by decide +kernel)⟩

/-- After the install, `Make` would restore the snapshot of index 1 with index 0. -/
theorem install_saves_no_index :
    ∃ (e : Behavior (World 3 ℕ)) (k : ℕ), Run nonEmpty.Allows e ∧
      (make ((e k).server 2).persister : Raft 3 ℕ).snapshotIndex = 0 ∧
      bytesOf (make ((e k).server 2).persister : Raft 3 ℕ).snapshot = [7] :=
  ⟨_, 20, Runs.play (by decide +kernel : Plays _ _ _ snapshotInstalled), by decide +kernel⟩

end DistStudy.Raft
