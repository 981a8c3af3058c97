import DistStudy.Raft.RefinementRuns
import DistStudy.Raft.SnapshotPairing

/-!
# Runs without snapshots

If no service calls `Snapshot`, then no peer ever has a snapshot, the persister
always holds the log of the memory, and an `InstallSnapshot` carries no data
(`Bare`). All inputs and restarts of such a run are `sound`, so it refines the
replicated log. From there come

* `log_matching`: logs with a common entry agree up to it;
* `leader_completeness`: what a leader has committed is in the log of every
  leader of a later term;
* `state_machine_safety`: no two commands are sent for one index.
-/

namespace DistStudy.Raft

open ReplicatedLog

variable {n : ℕ} {α : Type}

/-! ## The persister holds the log -/

section

variable {p : Persister α} {rf rf' : Raft n α} {entries : List (Log α)}

theorem lastSave_appendSaves {logs : List (Log α)} (news : List (Log α))
    (hp : (make p : Raft n α).logs = logs) :
    (make (lastSave p (appendSaves rf logs news)) : Raft n α).logs = logs ++ news := by
  induction news generalizing p logs with
  | nil => simpa [appendSaves] using hp
  | cons val rest ih =>
    have hsaved : (make (rf.withLogs (logs ++ [val])).persisted : Raft n α).logs = logs ++ [val] :=
      (restores_persisted _).logs
    rw [appendSaves, lastSave_save, ih hsaved, List.append_assoc]
    rfl

theorem lastSave_cutSaves (hp : (make p : Raft n α).logs = rf.logs) :
    (make (lastSave p (rf.cutSaves entries)) : Raft n α).logs = rf.cut entries := by
  unfold cutSaves cut
  cases firstConflict rf.snapshotIndex rf.logs entries with
  | none => exact hp
  | some k =>
    show (make (lastSave p [.save (rf.withLogs (rf.logs.take k)).persisted]) : Raft n α).logs = _
    rw [lastSave_save, lastSave_nil]
    exact (restores_persisted _).logs

theorem lastSave_acceptSaves (hp : (make p : Raft n α).logs = rf.logs) :
    (make (lastSave p (rf.acceptSaves entries)) : Raft n α).logs =
      rf.cut entries ++ rf.news entries := by
  rw [acceptSaves, lastSave_append]
  exact lastSave_appendSaves _ (lastSave_cutSaves hp)

theorem lastSave_catchUp (hp : (make p : Raft n α).logs = rf.logs) (t : Int) :
    (make (lastSave p (rf.catchUp t)) : Raft n α).logs = (rf.caughtUp t).logs := by
  unfold catchUp caughtUp
  split_ifs
  · exact (restores_persisted _).logs
  · exact hp

/-- A handler that goes through has saved the log that it leaves. -/
theorem Outcome.saved_logs {me : Fin n} {input : Input n α} {es : List (Effect n α)}
    (ho : Outcome me rf input es (some rf')) (hp : (make p : Raft n α).logs = rf.logs)
    (hinstall : ∀ args, input = .installSnapshot args →
      args.term < rf.currentTerm ∨ args.data = none)
    (hcompact : ∀ req, input ≠ .snapshotRequest req) :
    (make (lastSave p es) : Raft n α).logs = rf'.logs := by
  have hsends : ∀ {r : Raft n α} {es : List (Effect n α)}, (∀ e ∈ es, Sends me r e) →
      lastSave p es = p := by
    intro r es hes
    refine lastSave_of_notMem fun q hmem => ?_
    obtain ⟨_, _, -, heq⟩ := (hes _ hmem).append
    cases heq
  cases ho with
  | voteGranted args | voteRefused args =>
    rw [lastSave_append, lastSave_save]
    exact (restores_persisted _).logs
  | voteTaken args =>
    rw [lastSave_append]
    exact lastSave_catchUp hp args.term
  | appendRejected args reply ht hr =>
    rw [lastSave_append, (heard_logs rf _).1]
    exact lastSave_catchUp hp args.term
  | appendAccepted args ht hr =>
    rw [lastSave_append, lastSave_append, (heard_logs rf _).1]
    exact lastSave_acceptSaves (lastSave_catchUp hp args.term)
  | installEmpty args ht hd =>
    rw [lastSave_append, lastSave_save]
    exact (restores_installed _ _).logs
  | installCleared args ht hd | installRetained args logs ht hd =>
    rcases hinstall args rfl with hlt | hnone
    · exact absurd hlt ht
    · exact absurd hnone hd
  | compacted req => exact absurd rfl (hcompact req)
  | started command hs =>
    rw [lastSave_save]
    exact (restores_persisted _).logs
  | applied ls res hls hres =>
    rcases hres with hres | ⟨-, hres⟩ <;> cases hres
    rw [lastSave_of_notMem (by simp [Log.deliver])]
    exact hp
  | elected hs =>
    rw [lastSave_save, lastSave_of_notMem (by simp)]
    exact (restores_persisted _).logs
  | higherTerm hin hgt =>
    rw [lastSave_save]
    exact (restores_persisted _).logs
  | leaderElected vote es hs hle hn hes =>
    rw [hsends hes]
    exact hp
  | sent input es res hin hs hes hres =>
    rcases hres with hres | hres <;> cases hres
    rw [hsends hes]
    exact hp
  | replySuccess reply args server res hs ht hreq hok hres =>
    have hcred := (credited_logs rf args server).1
    rcases hres with hres | hres | ⟨M, -, -, -, hres⟩ <;> cases hres
    · exact hp.trans hcred.symm
    · exact hp.trans hcred.symm
  | replyFailure reply args server es hs ht hreq hok hes =>
    rcases hes with rfl | ⟨rfl, -⟩ <;> exact hp
  | _ => exact hp

end

/-! ## Peers without snapshots -/

/-- No service calls `Snapshot`. -/
abbrev noSnapshots : Rules n α where
  snapshot _ := False

/-- A record without a snapshot. -/
structure Plain (p : Persister α) : Prop where
  index : ∀ n, (make p : Raft n α).snapshotIndex = 0
  bytes : bytesOf p.snapshot = []

theorem Plain.persisted {rf : Raft n α} (hb : bytesOf rf.snapshot = []) : Plain rf.persisted := by
  unfold Raft.persisted
  rw [if_neg (by simp [hb])]
  exact ⟨fun _ => rfl, rfl⟩

/-- A peer that has never had a snapshot, with its log on the persister. -/
structure Bare (s : Server n α) : Prop where
  index : s.rf.snapshotIndex = 0
  bytes : bytesOf s.rf.snapshot = []
  channel : s.snapshotRequestCh = []
  aligned : Aligned s.rf
  disk : Plain s.persister
  logs : (make s.persister : Raft n α).logs = s.rf.logs

/-- A request of such a peer. -/
def BareCall : Call α → Prop
  | .requestVote _ _ => True
  | .appendEntries args => 0 ≤ args.prevLogIndex ∧ Contiguous args.prevLogIndex args.entries
  | .installSnapshot args => 0 ≤ args.lastIncludedIndex ∧ bytesOf args.data = []

theorem BareCall.shaped {call : Call α} (h : BareCall call) : Shaped call := by
  cases call with
  | requestVote => trivial
  | appendEntries args => exact h.2
  | installSnapshot args => exact h.1

/-- The requests of a leader start at a real index. -/
theorem Aligned.previous_nonneg {rf : Raft n α} (h : Aligned rf) {server : Fin n}
    {entries : List (Log α)} {prev : Int × Int} (hp : rf.previous server entries = some prev) :
    0 ≤ prev.1 := by
  have h0 := h.nonneg
  unfold previous at hp
  split_ifs at hp
  · obtain rfl := Option.some.inj hp
    show 0 ≤ rf.lastLogIndex
    rw [h.lastLogIndex_eq]
    omega
  · obtain rfl := Option.some.inj hp
    exact h0
  · rw [Option.map_eq_some_iff] at hp
    rcases hp with ⟨l, hl, rfl⟩
    unfold index? at hl
    split_ifs at hl
    have hlt := h.contiguous.lt_index (List.mem_of_getElem? hl)
    show 0 ≤ l.index
    omega

namespace Bare

variable {T : Taken} {s : Server n α} {i : Fin n} {input : Input n α} {es : List (Effect n α)}
  {res : Option (Raft n α)} {rf : Raft n α}

/-- An input of such a peer installs no snapshot and is not a `Snapshot` request. -/
theorem heard (h : Heard (fun _ s => Bare s) (fun _ call => BareCall call) T s input) :
    (∀ args, input = .installSnapshot args → args.data = none) ∧
      ∀ req, input ≠ .snapshotRequest req := by
  refine ⟨fun args hargs => ?_, fun req hreq => ?_⟩
  · rcases h.install hargs with ⟨data, hcall, hdata⟩
    rw [hdata]
    by_contra hne
    exact bytesOf_ne_nil_of_labgobBytes hne hcall.2
  · rcases h.request hreq with ⟨ch, hmem, hs⟩
    rw [show ch = [] from hs.channel] at hmem
    cases hmem

/-- Every record that such a peer saves is plain and has a log from index 1 on. -/
theorem saves (h : Bare s) (hin : ShapedInput input)
    (hnone : ∀ args, input = .installSnapshot args → args.data = none)
    (ho : Outcome i s.rf input es res) {q : Persister α} (hq : .save q ∈ es) :
    Plain q ∧ Aligned (make q : Raft n α) := by
  have haligned : Plain q → Contiguous 0 (make q : Raft n α).logs →
      Plain q ∧ Aligned (make q : Raft n α) := by
    intro hp hc
    refine ⟨hp, ?_, ?_⟩
    · rw [hp.index n]
    · rw [hp.index n]
      exact hc
  rcases ho.save_cases hq with ⟨rf₁, rfl, hb, -, -, hw⟩ | ⟨args, hargs, -, rfl⟩
  · refine haligned (.persisted (by rw [hb]; exact h.bytes)) ?_
    rw [(restores_persisted rf₁).logs, ← h.index]
    exact h.aligned.written hin hw
  · refine haligned ?_ ?_
    · rw [hnone args hargs]
      exact ⟨fun _ => rfl, rfl⟩
    · rw [(restores_installed _ _).logs, (caughtUp_logs s.rf args.term).1, ← h.index]
      exact h.aligned.contiguous

theorem aligned_disk (h : Bare s) : Aligned (make s.persister : Raft n α) :=
  h.aligned.congr ((h.disk.index n).trans h.index.symm) h.logs

theorem lastSave (h : Bare s) (hin : ShapedInput input)
    (hnone : ∀ args, input = .installSnapshot args → args.data = none)
    (ho : Outcome i s.rf input es res) (k : ℕ) :
    Plain (Raft.lastSave s.persister (es.take k)) ∧
      Aligned (make (Raft.lastSave s.persister (es.take k)) : Raft n α) := by
  rcases lastSave_mem s.persister (es.take k) with heq | hmem
  · rw [heq]
    exact ⟨h.disk, h.aligned_disk⟩
  · exact h.saves hin hnone ho (List.mem_of_mem_take hmem)

theorem snapshot_eq (h : Bare s) (hnone : ∀ args, input = .installSnapshot args → args.data = none)
    (hreq : ∀ req, input ≠ .snapshotRequest req) (ho : Outcome i s.rf input es (some rf)) :
    rf.snapshotIndex = 0 ∧ bytesOf rf.snapshot = [] := by
  by_cases hin : ∃ args, input = .installSnapshot args
  · rcases hin with ⟨args, rfl⟩
    have hd := hnone args rfl
    cases ho with
    | installStale args ht => exact ⟨h.index, h.bytes⟩
    | installEmpty args ht _ =>
      refine ⟨(caughtUp_logs s.rf args.term).2.1.trans h.index, ?_⟩
      rw [withSnapshot_snapshot, hd]
      rfl
    | installCleared args ht hd' => exact absurd hd hd'
    | installRetained args logs ht hd' => exact absurd hd hd'
    | higherTerm hin => cases hin
    | sent input es res hin => rcases hin with hin | hin <;> cases hin
  · obtain ⟨hb, hi, -⟩ := ho.snapshot_eq (fun args heq => hin ⟨args, heq⟩) hreq
    rw [hb, hi]
    exact ⟨h.index, h.bytes⟩

theorem restart (hd : Plain s.persister) (hal : Aligned (make s.persister : Raft n α)) :
    Bare s.restart :=
  ⟨hd.index n, by rw [← hd.bytes]; rfl, rfl, hal, hd, rfl⟩

theorem handle (h : Bare s) (hin : ShapedInput input)
    (hnone : ∀ args, input = .installSnapshot args → args.data = none)
    (hreq : ∀ req, input ≠ .snapshotRequest req) (ho : Outcome i s.rf input es (some rf)) :
    Bare (s.perform es rf) := by
  obtain ⟨hindex, hbytes⟩ := h.snapshot_eq hnone hreq ho
  have hplain := (h.lastSave hin hnone ho es.length).1
  rw [List.take_length] at hplain
  exact ⟨hindex, hbytes, h.channel, h.aligned.outcome hin ho, hplain,
    ho.saved_logs h.logs (fun args hargs => Or.inr (hnone args hargs)) hreq⟩

theorem calls (h : Bare s) (ho : Outcome i s.rf input es res) {server : Fin n} {call : Call α}
    (hc : .call server call ∈ es) : BareCall call := by
  have hsends : ∀ {rf : Raft n α}, Aligned rf → Sends i rf (.call server call) → BareCall call := by
    intro rf hal hs
    have hshaped := hal.sends hs
    rcases hs with ⟨server', entries, prev, -, hprev, heq, -⟩
    obtain ⟨-, rfl⟩ := Effect.call.inj heq
    exact ⟨hal.previous_nonneg hprev, hshaped⟩
  rcases ho.call_cases hc with ⟨-, -, rfl⟩ | ⟨-, hs⟩ | ⟨vote, -, -, hs⟩ | ⟨reply, args, -, -, rfl⟩
  · trivial
  · exact hsends h.aligned hs
  · have hal : Aligned (s.rf.counted vote).inaugurated := h.aligned.congr rfl rfl
    exact hsends hal hs
  · exact ⟨h.aligned.nonneg, h.bytes⟩

/-- The inputs of such a peer are sound. -/
theorem sound (h : Bare s)
    (hh : Heard (fun _ s => Bare s) (fun _ call => BareCall call) T s input) :
    Sound s.rf input := by
  obtain ⟨hnone, hreq⟩ := heard hh
  cases input with
  | appendEntries args =>
    have hcall := hh.append rfl
    refine Or.inr (Or.inl ?_)
    rw [h.index]
    exact hcall.1
  | installSnapshot args => exact Or.inr (Or.inl (hnone args rfl))
  | snapshotRequest req => exact absurd rfl (hreq req)
  | _ => trivial

/-- Its persister can be restarted from. -/
theorem restorable (h : Bare s) : Restorable s.rf s.persister := by
  have hindex := h.index
  have hdisk := h.disk.index n
  refine ⟨h.aligned_disk, by rw [hdisk, hindex], ?_, ?_, fun hpos => ?_⟩
  · rw [hdisk, hindex]
    omega
  · rw [hdisk, hindex, h.logs]
    rfl
  · omega

end Bare

theorem noSnapshots_local :
    Local (noSnapshots : Rules n α) (fun _ s => Bare s) (fun _ call => BareCall call) where
  init := ⟨rfl, rfl, rfl, ⟨le_refl _, .nil⟩, ⟨fun _ => rfl, rfl⟩, rfl⟩
  grow _ h := h
  growCall _ h := h
  channel hch h := by
    rw [h.channel] at hch
    exact ⟨h.index, h.bytes, List.sublist_nil.mp hch, h.aligned, h.disk, h.logs⟩
  request _ hdata := hdata.elim
  handle h hh _ ho :=
    h.handle (hh.shaped fun _ hc => hc.shaped) (Bare.heard hh).1 (Bare.heard hh).2 ho
  calls h _ _ ho hc := h.calls ho hc
  crash h _ := Bare.restart h.disk h.aligned_disk
  cut := by
    intro T s i input es res k h hh _ ho _
    obtain ⟨hplain, hal⟩ := h.lastSave (hh.shaped fun _ hc => hc.shaped) (Bare.heard hh).1 ho k
    exact Bare.restart hplain hal

/-- Runs without snapshots keep the rules of the replicated log. -/
theorem Run.sound_of_noSnapshots {e : Behavior (World n α)} (he : Run noSnapshots.Allows e) :
    Run (sound n α).Allows e := by
  refine he.mono fun k event hev => ?_
  have hw := noSnapshots_local.run he k
  have hin : ∀ {cause a}, (e k).arrival cause = some a →
      Bare (a.world.server a.server) ∧
        Heard (fun _ s => Bare s) (fun _ call => BareCall call) a.world.taken
          (a.world.server a.server) a.input := by
    intro cause a harr
    obtain ⟨hw', hheard⟩ := noSnapshots_local.arrives hw (arrives_of_arrival harr)
    exact ⟨hw'.server a.server, hheard⟩
  cases event with
  | handle cause =>
    intro a harr
    obtain ⟨hs, hheard⟩ := hin harr
    exact hs.sound hheard
  | crashDuring cause j =>
    intro a harr
    obtain ⟨hs, hheard⟩ := hin harr
    refine ⟨hs.sound hheard, fun handler hserve => ?_⟩
    unfold Rules.Restarts
    split_ifs
    · exact hs.restorable
    · have hplain := (hs.lastSave (hheard.shaped fun _ hc => hc.shaped) (Bare.heard hheard).1
        (serve_outcome hserve) j).1
      exact (hplain.index n).trans hs.index.symm
  | crash i => exact (hw.server i).restorable
  | snapshot i index data => exact hev.2.elim
  | drop j => trivial
  | fail j => trivial

/-! ## Safety -/

section

variable {e : Behavior (World n α)}

theorem Run.snapshotIndex_eq_zero (he : Run noSnapshots.Allows e) (k : ℕ) (i : Fin n) :
    ((e k).server i).rf.snapshotIndex = 0 :=
  ((noSnapshots_local.run he k).server i).index

/-- Stored entries with one index and one term end a common prefix. -/
theorem common_prefix {a : Abstract n α} {F G : List (Entry Int α)} {rf rf' : Raft n α}
    (hF : a.Rooted F) (hG : a.Rooted G) (h : Stores F rf) (h' : Stores G rf') {l l' : Log α}
    (hl : l ∈ rf.logs) (hl' : l' ∈ rf'.logs) (hindex : l.index = l'.index)
    (hterm : l.term = l'.term) :
    ∃ P, P <+: F ∧ P <+: G ∧ (P.length : Int) = l.index := by
  rw [h.logs] at hl
  rw [h'.logs] at hl'
  rcases mem_indexed_drop.mp hl with ⟨d, x, -, hx, rfl⟩
  rcases mem_indexed_drop.mp hl' with ⟨d', y, -, hy, rfl⟩
  obtain rfl : d = d' := by
    have hd : (d : Int) + 1 = d' + 1 := hindex
    omega
  have hxF : TermAt F (d + 1) x.term := by simp [TermAt, hx]
  have hyG : TermAt G (d + 1) x.term := by
    rw [show x.term = y.term from hterm]
    simp [TermAt, hy]
  have heq := take_eq_of_termAt hF hG (by omega) hxF hyG
  have hlt := (List.getElem?_eq_some_iff.mp hx).1
  refine ⟨F.take (d + 1), List.take_prefix _ _, heq ▸ List.take_prefix _ _, ?_⟩
  show ((F.take (d + 1)).length : Int) = d + 1
  rw [List.length_take]
  omega

/-- Log matching: if two logs hold entries with the same index and term, they hold the
same entries at that index and at every smaller one. -/
theorem log_matching (he : Run noSnapshots.Allows e) (k : ℕ) (i j : Fin n) (l l' : Log α)
    (hl : l ∈ ((e k).server i).rf.logs) (hl' : l' ∈ ((e k).server j).rf.logs)
    (hindex : l.index = l'.index) (hterm : l.term = l'.term) (d : Int) (h0 : 0 < d)
    (hd : d ≤ l.index) :
    ∃ m, ((e k).server i).rf.entry? d = some m ∧ m.index = d ∧
      ((e k).server j).rf.entry? d = some m := by
  rcases (Run.sound_of_noSnapshots he).sim (le_refl k) with ⟨a, -, -, h, -⟩
  have hi := (h.servers i).memory.stores
  have hj := (h.servers j).memory.stores
  rcases common_prefix (h.inv.log_rooted i) (h.inv.log_rooted j) hi hj hl hl' hindex hterm with
    ⟨P, hPi, hPj, hlen⟩
  refine hi.entry?_eq hj hPi hPj ?_ ?_ (by omega)
  · rw [Run.snapshotIndex_eq_zero he]
    exact h0
  · rw [Run.snapshotIndex_eq_zero he]
    exact h0

/-- Peer 0 of three is elected by peer 1 and commits a command with it, which both
deliver. Then peer 1 is elected by peer 2. -/
def handedOver : List (Event 3 ℕ) :=
  [.handle (.timer 0 .election), .handle (.deliver 0), .handle (.deliver 1),
    .drop 0, .drop 0, .drop 0,
    .handle (.start 0 5), .handle (.timer 0 .broadcastEntries), .drop 1,
    .handle (.deliver 0), .handle (.deliver 0),
    .handle (.timer 0 .heartbeat), .drop 1, .handle (.deliver 0), .drop 0,
    .handle (.timer 1 .apply), .handle (.timer 0 .apply),
    .handle (.timer 1 .election), .drop 0, .handle (.deliver 0), .handle (.deliver 0)]

theorem log_matching_handedOver :
    ∃ m, ((play World.step World.init (handedOver.take 17)).server 0).rf.entry? 1 = some m ∧
      m.index = 1 ∧
      ((play World.step World.init (handedOver.take 17)).server 1).rf.entry? 1 = some m :=
  log_matching (Runs.play (by decide +kernel : Plays _ noSnapshots.Allows _ handedOver)) 17 0 1
    ⟨1, 1, 5⟩ ⟨1, 1, 5⟩ (by decide +kernel) (by decide +kernel) rfl rfl 1 (by decide) (by decide)

/-- A committed prefix of a leader is in the log of every leader of a later term, before
and after. -/
theorem Sim.later_leader {a a' : Abstract n α} {w w' : World n α} (h : Sim a w) (h' : Sim a' w')
    (hle : a ≤ a' ∨ a' ≤ a) {i j : Fin n} (hj : (w'.server j).rf.status = .leader)
    (ht : (w.server i).rf.currentTerm < (w'.server j).rf.currentTerm)
    {Q : List (Entry Int α)} (hQ : a.Committed i Q) : Q <+: a'.log j := by
  have hlead := ((h'.servers j).memory.leader hj).1
  have hset := hQ.2
  rw [(h.servers i).memory.term] at hset
  rcases hle with hle | hle
  · exact h'.inv.settled_prefix (hset.mono hle (le_refl _)) (le_of_lt ht) hlead
  · -- the later leader already was elected: it had the prefix when it asked for votes
    rcases hset with rfl | ⟨t, P, hc, htP, hQP⟩
    · exact List.nil_prefix
    rcases h'.inv.lead_bid hlead with ⟨l, es, hbid, hlog, -⟩
    rcases hle.lead hlead with ⟨L, hL, -⟩
    have hPl := h.inv.chosen_prefix_bid hc (lt_of_le_of_lt htP ht) hL (hle.bid hbid)
    rw [hlog]
    exact (hQP.trans hPl).trans (List.prefix_append _ _)

/-- Leader completeness: what a peer has committed in some state of the run, as a leader
has after `updateCommitIndex`, every leader of a later term has in its log, with the same
term and command. -/
theorem leader_completeness (he : Run noSnapshots.Allows e) (k k' : ℕ) (i j : Fin n)
    (hj : ((e k').server j).rf.status = .leader)
    (ht : ((e k).server i).rf.currentTerm < ((e k').server j).rf.currentTerm) (d : Int)
    (h0 : 0 < d) (hd : d ≤ ((e k).server i).rf.commitIndex) :
    ∃ l, ((e k).server i).rf.entry? d = some l ∧ l.index = d ∧
      ((e k').server j).rf.entry? d = some l := by
  obtain ⟨a, a', hle, h, h'⟩ : ∃ a a' : Abstract n α, (a ≤ a' ∨ a' ≤ a) ∧ Sim a (e k) ∧
      Sim a' (e k') := by
    have hrun := Run.sound_of_noSnapshots he
    rcases Nat.le_total k k' with hk | hk
    · rcases hrun.sim hk with ⟨a, a', hle, h, h'⟩
      exact ⟨a, a', Or.inl hle, h, h'⟩
    · rcases hrun.sim hk with ⟨a', a, hle, h', h⟩
      exact ⟨a, a', Or.inr hle, h, h'⟩
  have hmem := (h.servers i).memory
  rcases hmem.commit with ⟨Q, hlen, hQ⟩
  have hQj := h.later_leader h' hle hj ht hQ
  refine hmem.stores.entry?_eq (h'.servers j).memory.stores hQ.1 hQj ?_ ?_ (by omega)
  · rw [Run.snapshotIndex_eq_zero he]
    exact h0
  · rw [Run.snapshotIndex_eq_zero he]
    exact h0

theorem leader_completeness_handedOver :
    ∃ l, ((play World.step World.init (handedOver.take 17)).server 0).rf.entry? 1 = some l ∧
      l.index = 1 ∧
      ((play World.step World.init (handedOver.take 21)).server 1).rf.entry? 1 = some l :=
  leader_completeness (Runs.play (by decide +kernel : Plays _ noSnapshots.Allows _ handedOver))
    17 21 0 1 (by decide +kernel) (by decide +kernel) 1 (by decide) (by decide +kernel)

/-- Chosen prefixes hold one command for an index. -/
theorem Sent.command_eq {a : Abstract n α} (h : Inv a) {c c' : α} {d : Int}
    (hs : Sent a (.command c d)) (hs' : Sent a (.command c' d)) : c = c' := by
  rcases hs with ⟨t, P, k, x, hc, rfl, hx, rfl⟩
  rcases hs' with ⟨t', P', k', x', hc', hk, hx', rfl⟩
  obtain rfl : k = k' := by omega
  have hcomp : P <+: P' ∨ P' <+: P := by
    rcases le_total t t' with ht | ht
    · exact h.chosen_comparable hc hc' ht
    · exact (h.chosen_comparable hc' hc ht).symm
  rcases hcomp with hp | hp
  · rw [getElem?_of_isPrefix hp hx] at hx'
    rw [Option.some.inj hx']
  · rw [getElem?_of_isPrefix hp hx'] at hx
    rw [Option.some.inj hx]

/-- State machine safety: no two commands are sent on `applyCh` for one index, by any
peers or incarnations at any time. -/
theorem state_machine_safety (he : Run noSnapshots.Allows e) (k k' : ℕ) (i j : Fin n)
    (s s' : Stream α) (hs : s ∈ ((e k).server i).applied :: ((e k).server i).past)
    (hs' : s' ∈ ((e k').server j).applied :: ((e k').server j).past) (c c' : α) (d : Int)
    (hc : .command c d ∈ s.msgs) (hc' : .command c' d ∈ s'.msgs) : c = c' := by
  have hrun := Run.sound_of_noSnapshots he
  rcases Nat.le_total k k' with hk | hk
  · rcases hrun.sim hk with ⟨a, a', hle, h, h'⟩
    exact Sent.command_eq h'.inv (((h.servers i).sent s hs _ hc).mono hle)
      ((h'.servers j).sent s' hs' _ hc')
  · rcases hrun.sim hk with ⟨a', a, hle, h', h⟩
    exact Sent.command_eq h.inv ((h.servers i).sent s hs _ hc)
      (((h'.servers j).sent s' hs' _ hc').mono hle)

theorem state_machine_safety_handedOver :
    .command 5 1 ∈ ((play World.step World.init (handedOver.take 17)).server 0).applied.msgs ∧
      .command 5 1 ∈ ((play World.step World.init (handedOver.take 21)).server 1).applied.msgs ∧
      5 = 5 :=
  ⟨by decide +kernel, by decide +kernel,
    state_machine_safety (Runs.play (by decide +kernel : Plays _ noSnapshots.Allows _ handedOver))
      17 21 0 1 _ _ List.mem_cons_self List.mem_cons_self 5 5 1 (by decide +kernel)
      (by decide +kernel)⟩

end

end DistStudy.Raft
