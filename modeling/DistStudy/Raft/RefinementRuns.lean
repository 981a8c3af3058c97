import DistStudy.Raft.RefinementOutcome
import DistStudy.Raft.Rules

/-!
# Runs and the replicated log

`sound` are the rules under which the cluster refines the replicated log: every
input is `Sound`, and a crash finds a persister that belongs to the memory
(`Restorable`). `Sim.step` relates every step that they allow to moves of the
abstract protocol, and `Run.sim` any two positions of a run to states of which
the later one extends the history of the earlier one.
-/

namespace DistStudy.Raft

open ReplicatedLog

variable {n : ℕ} {α : Type}

/-! ## Restarts -/

/-- The term of the entry at the index `d` of the log of `r`; the snapshot's at its own
index. -/
def termAt? (r : Raft n α) (d : Int) : Option Int :=
  if d = r.snapshotIndex then some r.snapshotTerm
  else (index? r.logs (d - r.snapshotIndex - 1)).map Log.term

/-- The persister `p` has the log of the memory `rf`, and perhaps entries before it that
the peer has compacted since it wrote `p`. -/
structure Restorable (rf : Raft n α) (p : Persister α) : Prop where
  aligned : Aligned (make p : Raft n α)
  below : (make p : Raft n α).snapshotIndex ≤ rf.snapshotIndex
  above : rf.snapshotIndex ≤
    (make p : Raft n α).snapshotIndex + (make p : Raft n α).logs.length
  logs : rf.logs =
    (make p : Raft n α).logs.drop (rf.snapshotIndex - (make p : Raft n α).snapshotIndex).toNat
  term : 0 < rf.snapshotIndex → termAt? (make p : Raft n α) rf.snapshotIndex = some rf.snapshotTerm

instance [DecidableEq α] (rf : Raft n α) (p : Persister α) : Decidable (Restorable rf p) :=
  decidable_of_iff
    (Aligned (make p : Raft n α) ∧ (make p : Raft n α).snapshotIndex ≤ rf.snapshotIndex ∧
      rf.snapshotIndex ≤ (make p : Raft n α).snapshotIndex + (make p : Raft n α).logs.length ∧
      rf.logs = (make p : Raft n α).logs.drop
        (rf.snapshotIndex - (make p : Raft n α).snapshotIndex).toNat ∧
      (0 < rf.snapshotIndex →
        termAt? (make p : Raft n α) rf.snapshotIndex = some rf.snapshotTerm))
    ⟨fun ⟨h₁, h₂, h₃, h₄, h₅⟩ => ⟨h₁, h₂, h₃, h₄, h₅⟩,
      fun h => ⟨h.aligned, h.below, h.above, h.logs, h.term⟩⟩

/-- A crash after a write: the write has kept the snapshot index. -/
def KeepsIndex (rf : Raft n α) (q : Persister α) : Prop :=
  (make q : Raft n α).snapshotIndex = rf.snapshotIndex

instance (rf : Raft n α) (q : Persister α) : Decidable (KeepsIndex rf q) :=
  inferInstanceAs (Decidable (_ = _))

/-- The rules under which the cluster is a replicated log. -/
abbrev sound (n : ℕ) (α : Type) : Rules n α where
  input := Sound
  restart := Restorable
  resave := KeepsIndex

/-- The term at an index is that of the complete log. -/
theorem Stores.termAt {F : List (Entry Int α)} {r : Raft n α} (h : Stores F r) {d t : Int}
    (hd : 0 < d) (ht : termAt? r d = some t) : TermAt F d.toNat t := by
  unfold termAt? at ht
  split_ifs at ht with heq
  · rw [heq, ← Option.some.inj ht]
    exact h.term
  · rw [Option.map_eq_some_iff] at ht
    rcases ht with ⟨l, hl, rfl⟩
    rcases h.of_index? hl with ⟨k, x, hk, hx, rfl⟩
    have hne : d.toNat ≠ 0 := by omega
    have hkd : d.toNat - 1 = k := by omega
    simp [TermAt, hne, hkd, hx]

/-- A restorable persister stores the same complete log as the memory. -/
theorem Restorable.stores {a : Abstract n α} {rf : Raft n α} {p : Persister α}
    {G : List (Entry Int α)} (h : Restorable rf p) (hG : a.Rooted G) (hrf : Stores G rf)
    (hp : DiskSim n a p) : Stores G (make p : Raft n α) := by
  rcases hp h.aligned with ⟨F, hF, hst⟩
  have hbelow := h.below
  have h0 := hst.nonneg
  -- the entries after the memory's snapshot
  have hdrop : F.drop rf.snapshotIndex.toNat = G.drop rf.snapshotIndex.toNat := by
    refine indexed_drop_inj ?_
    rw [← hrf.logs, h.logs, hst.logs, List.drop_drop]
    congr 1
    omega
  -- the entries before it, which its term determines
  have htake : F.take rf.snapshotIndex.toNat = G.take rf.snapshotIndex.toNat := by
    by_cases hpos : 0 < rf.snapshotIndex
    · exact take_eq_of_termAt hF hG (by omega) (hst.termAt hpos (h.term hpos)) hrf.term
    · have hzero : rf.snapshotIndex.toNat = 0 := by omega
      simp [hzero]
  have hFG : F = G := by
    rw [← List.take_append_drop rf.snapshotIndex.toNat F, htake, hdrop, List.take_append_drop]
  exact hFG ▸ hst

/-- The votes after the moves of one peer are those of its ballot. -/
theorem Tally.recorded {a₀ a : Abstract n α} {i : Fin n} {b : Int × Int} (h : Tally a₀ a i b) :
    Raft.recorded a₀.vote i b = a.vote := by
  funext v t
  rw [h.ballot]
  by_cases hv : v = i
  · subst hv
    by_cases ht : t = a.term v
    · simp [Raft.recorded, ht]
    · simp [Raft.recorded, ht, h.votes v t (Or.inr ht)]
  · simp [Raft.recorded, hv, h.votes v t (Or.inl hv)]

/-- What a peer finds on its persister after a crash. -/
structure Restored (a₀ a : Abstract n α) (i : Fin n) (q : Persister α) : Prop where
  tally : Tally a₀ a i q.ballot
  stores : Stores (a.log i) (make q : Raft n α)
  snapshot : Covered a i (make q : Raft n α).snapshotIndex
  disk : DiskSim n a q

theorem Restored.memory {a₀ a : Abstract n α} {i : Fin n} {q : Persister α}
    (h : Restored a₀ a i q) : MemSim a i (make q) := by
  have hterm : q.ballot.1 = a.term i := congrArg Prod.fst h.tally.ballot
  have hmake : (make q : Raft n α).currentTerm = q.ballot.1 := congrArg Prod.fst (make_ballot q)
  refine ⟨hterm.symm.trans hmake.symm, h.stores, h.snapshot, h.snapshot, h.snapshot, fun hs => ?_,
    fun hs => ?_⟩ <;> rw [make_status] at hs <;> cases hs

/-- A crash after some effects of a path, of a peer with memory `rf` and persister `p`. -/
theorem Path.restored {a a' : Abstract n α} {i : Fin n} {caller : Option (Caller n α)}
    {rf : Raft n α} {es : List (Effect n α)} {p : Persister α} (hready : Ready a a i rf)
    (hdisk : DiskSim n a p) (hb : p.ballot = rf.ballot)
    (hp : Path a i caller rf.snapshotIndex a es a') (hR : (sound n α).Restarts rf p es) :
    Restored a a' i (lastSave p es) := by
  obtain ⟨hm, -, hsave⟩ := hp.spec hready.inv p
  have hle := hm.le hready.inv
  unfold Rules.Restarts at hR
  rcases hsave with ⟨hnil, hsame⟩ | ⟨hne, hsaved⟩
  · -- nothing was written
    rw [if_pos hnil] at hR
    have hlast : lastSave p es = p := by simp [lastSave, hnil]
    rw [hlast]
    have hst := hR.stores (hready.inv.log_rooted i) hready.memory.stores hdisk
    refine ⟨?_, ?_, ?_, hdisk.mono hle⟩
    · rw [hb]
      exact hready.tally.same hsame
    · rw [hsame.log]
      exact hst
    · exact (hready.memory.snapshot.moves hready.inv hm).of_le hst.nonneg hR.below
  · rw [if_neg hne] at hR
    have hidx : (make (lastSave p es) : Raft n α).snapshotIndex = rf.snapshotIndex := hR
    refine ⟨hsaved.tally, hsaved.stores hidx, ?_, hsaved.disk⟩
    rw [hidx]
    exact hready.memory.snapshot.moves hready.inv hm

/-! ## Arrivals -/

namespace Sim

variable {a a' : Abstract n α} {w w' : World n α} {cause : Cause n α} {arr : Arrival n α}
  {event : Event n α}

theorem ready (h : Sim a w) (i : Fin n) : Ready a a i (w.server i).rf :=
  ⟨h.inv, h.positive, (h.servers i).memory, rfl, h.elections.now i⟩

/-- Taking an input off the network or off a channel. -/
theorem arrives (h : Sim a w) (ha : Arrives w cause arr) : Sim a arr.world := by
  refine ⟨h.inv, h.positive, h.elections.arrives ha, fun i => ?_,
    fun p hp => h.packets p (ha.net.subset hp)⟩
  rcases ha.server i with ⟨ch, hch, hi⟩
  rw [hi]
  have hs := h.servers i
  exact ⟨hs.memory, hs.disk, hs.delivered, hs.sent, fun req hreq => hs.requests req (hch.subset hreq)⟩

/-- The call that is being handled. -/
theorem caller (h : Sim a w) (ha : Arrives w cause arr) {c : Caller n α} (hc : arr.caller = some c) :
    CallSim a c.client c.call :=
  (h.packets _ (ha.caller_mem hc).1).call

/-- A call that reaches a peer. -/
theorem informed_request (h : Sim a w) {k : ℕ} {c : Caller n α} {i : Fin n} {waiting : Bool}
    (hp : w.net[k]? = some (.request c i waiting)) (rf : Raft n α) :
    Informed a i rf c.call.input (if waiting then some c else none) := by
  have hcall : CallSim a c.client c.call := (h.packets _ (List.mem_of_getElem? hp)).call
  have hvote := h.elections.packets _ (List.mem_of_getElem? hp)
  have hne : c.client ≠ i := hvote.apart.symm
  cases hc : c.call with
  | requestVote ch args =>
    rw [hc] at hcall
    rcases hcall with ⟨l, hl⟩
    refine ⟨fun {args'} heq => ?_, by simp [Call.input], by simp [Call.input], by simp [Call.input],
      by simp [Call.input], by simp [Call.input]⟩
    obtain rfl : args = args' := by simpa [Call.input] using heq
    exact ⟨c.client, l, (hvote.current hc).id, hvote.pending hc rfl, hl⟩
  | appendEntries args =>
    rw [hc] at hcall
    rcases hcall with ⟨L₀, hL⟩
    refine ⟨by simp [Call.input], fun {args'} heq => ?_, by simp [Call.input], by simp [Call.input],
      by simp [Call.input], by simp [Call.input]⟩
    obtain rfl : args = args' := by simpa [Call.input] using heq
    refine ⟨⟨c.client, L₀, hne, hL⟩, fun c' hc' => ?_⟩
    cases waiting <;> simp at hc'
    exact hc' ▸ hc
  | installSnapshot args =>
    rw [hc] at hcall
    rcases hcall with ⟨Q, hQ⟩
    refine ⟨by simp [Call.input], by simp [Call.input], fun {args'} heq => ?_, by simp [Call.input],
      by simp [Call.input], by simp [Call.input]⟩
    have hargs : ({ args with data := labgobBytes args.data } : InstallSnapshotRequest) = args' := by
      simpa [Call.input] using heq
    subst hargs
    exact ⟨c.client, Q, hne, hQ.lead, hQ.index, hQ.term, hQ.settled⟩

/-- Every input is known to the relation. -/
theorem informed (h : Sim a w) (ha : Arrives w cause arr) :
    Informed a arr.server (arr.world.server arr.server).rf arr.input arr.caller := by
  have hmajority : ∀ {r}, arr.input = .vote (arr.world.server arr.server).rf.voteCh r →
      (arr.world.server arr.server).rf.status = .candidate →
      ((arr.world.server arr.server).rf.counted r).grantedVotes > (n / 2 : ℕ) →
      Majority fun v => a.vote v (arr.world.server arr.server).rf.currentTerm = some arr.server := by
    intro r hin hs hgt
    have hcr := h.elections.credible ha
    rw [hin] at hcr
    rcases (h.elections.arrives ha).counted hcr hs with ⟨G, hcard, hG⟩
    refine majority_of_card G (fun v hv => (hG v hv).1) ?_
    rw [hcard]
    exact hgt
  cases ha with
  | timer i t => cases t <;> constructor <;> simp [Timer.input]
  | start i command => constructor <;> simp
  | snapshotRequest i k req hreq =>
    refine ⟨by simp, by simp, by simp, by simp, fun {req'} heq => ?_, by simp⟩
    obtain rfl : req = req' := by simpa using heq
    exact (h.servers i).requests req (List.mem_of_getElem? hreq)
  | request k c i waiting hp => exact h.informed_request hp _
  | response k c i reply input hp hinc hback =>
    have hreply := (h.packets _ (List.mem_of_getElem? hp)).reply reply rfl
    cases hc : c.call <;> cases reply <;> rw [hc] at hback <;> cases hback
    · exact ⟨by simp, by simp, by simp, by simp, by simp, hmajority⟩
    · refine ⟨by simp, by simp, by simp, fun {r args server} heq hs => ?_, by simp, by simp⟩
      simp only [Input.appendEntriesReply.injEq] at heq
      obtain ⟨rfl, rfl, rfl⟩ := heq
      exact hreply _ _ hc rfl hs
    · constructor <;> simp

/-! ## Steps -/

/-- A peer makes the moves of some effects and becomes the server of `w'`. -/
theorem performs (h : Sim a w) (ha : Arrives w cause arr) (hstep : Steps w event w')
    {es : List (Effect n α)} (hm : Moves arr.server a a')
    (hes : ∀ e ∈ es, Justified a' arr.server arr.caller e)
    (hp : Performs arr.world w' arr.server arr.caller es)
    (hb : Tally a a' arr.server (w'.server arr.server).rf.ballot)
    (hs : ServerSim a' arr.server (w'.server arr.server)) : Sim a' w' := by
  have h' := h.arrives ha
  have hle := hm.le h.inv
  refine ⟨hm.inv h.inv, Moves.positive h.positive hm, ?_, fun j => ?_, fun p hmem => ?_⟩
  · have hvotes := (h.elections.step hstep).1
    rw [noted_performs h'.elections hp, hb.recorded] at hvotes
    exact hvotes
  · by_cases hj : j = arr.server
    · subst hj
      exact hs
    · rw [hp.others j hj]
      exact (h'.servers j).frame h.inv hm hj
  · rcases hp.mem_net hmem with hold | ⟨server, call, he, rfl⟩ | ⟨c, reply, hc, he, rfl⟩
    · exact (h'.packets p hold).mono hle
    · exact ⟨hes _ he, by simp [Packet.answer]⟩
    · refine ⟨(h.caller ha hc).mono hle, fun r hr => ?_⟩
      obtain rfl := Option.some.inj hr
      exact hes _ he c hc

/-- A handler runs to its end. -/
theorem handle (h : Sim a w) (ha : Arrives w cause arr) {es : List (Effect n α)} {rf : Raft n α}
    (hok : Sound (arr.world.server arr.server).rf arr.input)
    (ho : Outcome arr.server (arr.world.server arr.server).rf arr.input es (some rf))
    (hstep : Steps w event (arr.world.perform arr.server arr.caller es rf)) :
    ∃ a', a ≤ a' ∧ Sim a' (arr.world.perform arr.server arr.caller es rf) := by
  have h' := h.arrives ha
  have hs := h'.servers arr.server
  rcases (h'.ready arr.server).outcome (h.informed ha) hok ho with ⟨a₁, hpath, hres⟩
  rcases hres rf rfl with ⟨a₂, hm₂, htally, hmem, hcov⟩
  obtain ⟨hm₁, hes, hsave⟩ := hpath.spec h.inv (arr.world.server arr.server).persister
  have hinv₁ := hm₁.inv h.inv
  have hm : Moves arr.server a a₂ := hm₁.trans hm₂
  have hle₂ := hm₂.le hinv₁
  refine ⟨a₂, hm.le h.inv, h.performs ha hstep hm (fun e he => (hes e he).mono hle₂)
    ⟨fun j hj => World.server_perform_ne _ _ _ _ hj, rfl⟩ ?_ ?_⟩
  · rw [World.server_perform_self]
    exact htally
  rw [World.server_perform_self]
  refine ⟨hmem, ?_, fun msg hmsg => ?_, fun stream hstream msg hmsg => ?_,
    fun req hreq => (hs.requests req hreq).moves h.inv hm⟩
  · -- the persister
    rw [Server.perform_persister]
    rcases hsave with ⟨hnil, -⟩ | ⟨-, hsaved⟩
    · have hlast : lastSave (arr.world.server arr.server).persister es =
          (arr.world.server arr.server).persister := by simp [lastSave, hnil]
      rw [hlast]
      exact hs.disk.mono (hm.le h.inv)
    · exact hsaved.disk.mono hle₂
  · rcases List.mem_append.mp hmsg with hold | hnew
    · exact (hs.delivered msg hold).moves h.inv hm
    · exact hcov msg (mem_appliesOf.mp hnew)
  · rcases List.mem_cons.mp hstream with rfl | hpast
    · rcases List.mem_append.mp hmsg with hold | hnew
      · exact (hs.sent _ List.mem_cons_self msg hold).mono (hm.le h.inv)
      · exact Sent.mono hle₂ (hes _ (mem_appliesOf.mp hnew))
    · exact (hs.sent stream (List.mem_cons_of_mem _ hpast) msg hmsg).mono (hm.le h.inv)

/-- A peer crashes after some effects of a path and is started again. -/
theorem restart (h : Sim a w) (ha : Arrives w cause arr) {es : List (Effect n α)}
    (hpath : Path a arr.server arr.caller (arr.world.server arr.server).rf.snapshotIndex a es a')
    (hR : (sound n α).Restarts (arr.world.server arr.server).rf
      (arr.world.server arr.server).persister es)
    (hstep : Steps w event w') (hp : Performs arr.world w' arr.server arr.caller es)
    (hself : w'.server arr.server = ((arr.world.server arr.server).perform es
      (arr.world.server arr.server).rf).restart) : a ≤ a' ∧ Sim a' w' := by
  have h' := h.arrives ha
  have hs := h'.servers arr.server
  obtain ⟨hm, hes, -⟩ := hpath.spec h.inv (arr.world.server arr.server).persister
  have hrest := Path.restored (h'.ready arr.server) hs.disk (h'.elections.disk arr.server) hpath hR
  refine ⟨hm.le h.inv, h.performs ha hstep hm hes hp ?_ ?_⟩
  · rw [hself]
    have hb := hrest.tally
    rw [← make_ballot (n := n)] at hb
    exact hb
  rw [hself]
  refine ⟨hrest.memory, hrest.disk, by simp [Server.restart], fun stream hstream msg hmsg => ?_,
    by simp [Server.restart]⟩
  simp only [Server.restart, List.mem_cons] at hstream
  rcases hstream with rfl | rfl | hpast
  · cases hmsg
  · rcases List.mem_append.mp hmsg with hold | hnew
    · exact (hs.sent _ List.mem_cons_self msg hold).mono (hm.le h.inv)
    · exact hes _ (mem_appliesOf.mp hnew)
  · exact (hs.sent stream (List.mem_cons_of_mem _ hpast) msg hmsg).mono (hm.le h.inv)

/-- Losing and failing calls. -/
theorem net (h : Sim a w) (hstep : Steps w event w') (hsame : ∀ i, w'.server i = w.server i)
    (hnet : ∀ p ∈ w'.net, PacketSim a p) : Sim a w' := by
  refine ⟨h.inv, h.positive, ?_, fun i => by rw [hsame i]; exact h.servers i, hnet⟩
  have hvotes := (h.elections.step hstep).1
  have hnoted : noted a.vote w' = noted a.vote w := by
    funext v t
    simp only [noted, hsame]
  rwa [hnoted, noted_self h.elections] at hvotes

/-- The service of a peer calls `Snapshot`. -/
theorem snapshot (h : Sim a w) {i : Fin n} {index : Int} {data : GoBytes}
    (hidx : index ∈ (w.server i).applied.msgs.map ApplyMsg.index)
    (hstep : Steps w event (w.snapshot i index data)) : Sim a (w.snapshot i index data) := by
  have hrf : ∀ j, ((w.snapshot i index data).server j).rf = (w.server j).rf := by
    intro j
    by_cases hj : j = i
    · subst hj
      rw [World.server_snapshot_self]
    · rw [World.server_snapshot_ne w index data hj]
  refine ⟨h.inv, h.positive, ?_, fun j => ?_, h.packets⟩
  · have hvotes := (h.elections.step hstep).1
    have hnoted : noted a.vote (w.snapshot i index data) = noted a.vote w := by
      funext v t
      simp only [noted, hrf]
    rwa [hnoted, noted_self h.elections] at hvotes
  · by_cases hj : j = i
    · subst hj
      rw [World.server_snapshot_self]
      have hs := h.servers j
      refine ⟨hs.memory, hs.disk, hs.delivered, hs.sent, fun req hreq => ?_⟩
      rcases List.mem_append.mp hreq with hold | hnew
      · exact hs.requests req hold
      · -- the service has got the index
        obtain rfl := List.mem_singleton.mp hnew
        rcases List.mem_map.mp hidx with ⟨msg, hmsg, rfl⟩
        exact hs.delivered msg hmsg
    · rw [World.server_snapshot_ne w index data hj]
      exact h.servers j

/-- Every step that the rules allow is a sequence of moves of the replicated log. -/
theorem step (h : Sim a w) (hR : (sound n α).Allows w event) (hs : Steps w event w') :
    ∃ a', a ≤ a' ∧ Sim a' w' := by
  cases hs with
  | handle cause arr es rf harr ha ho =>
    exact h.handle ha (hR arr harr) ho (.handle cause arr es rf harr ha ho)
  | crashDuring cause k arr es res harr ha handler hserve hes ho =>
    obtain ⟨hok, hrestarts⟩ := hR arr harr
    have hrestart := hrestarts handler hserve
    rw [← hes] at hrestart
    have h' := h.arrives ha
    rcases (h'.ready arr.server).outcome (h.informed ha) hok ho with ⟨a₁, hpath, -⟩
    rcases hpath.take k with ⟨a₂, hpath₂⟩
    refine ⟨a₂, h.restart ha hpath₂ hrestart
      (.crashDuring cause k arr es res harr ha handler hserve hes ho) ⟨fun j hj => ?_, rfl⟩ ?_⟩
    · rw [World.server_restart_ne _ hj, World.server_perform_ne _ _ _ _ hj]
    · rw [World.server_restart_self, World.server_perform_self]
  | crash i =>
    -- a crash between two events is one before the first effect of a timer
    have ha : Arrives w (.timer i .apply) ⟨i, .applyTimer, none, w⟩ := .timer i .apply
    have hrestorable : Restorable (w.server i).rf (w.server i).persister := hR
    refine ⟨a, h.restart ha (.nil a) hrestorable (.crash i)
      ⟨fun j hj => World.server_restart_ne w hj, by simp⟩ ?_⟩
    have hnil : (w.server i).perform [] (w.server i).rf = w.server i := by
      simp [Server.perform, savesOf, appliesOf]
    rw [World.server_restart_self, hnil]
  | snapshot i index data => exact ⟨a, le_refl a, h.snapshot hR.1 (.snapshot i index data)⟩
  | drop k =>
    exact ⟨a, le_refl a, h.net (.drop k) (fun _ => rfl)
      fun p hp => h.packets p (List.mem_of_mem_eraseIdx hp)⟩
  | failRequest k c i hp =>
    have hcall : CallSim a c.client c.call := (h.packets _ (List.mem_of_getElem? hp)).call
    refine ⟨a, le_refl a, h.net (.failRequest k c i hp) (fun _ => rfl) fun p hmem => ?_⟩
    rcases List.mem_append.mp hmem with hmem | hmem
    · rcases List.mem_or_eq_of_mem_set hmem with hmem | rfl
      · exact h.packets p hmem
      · exact ⟨hcall, by simp [Packet.answer]⟩
    · obtain rfl := List.mem_singleton.mp hmem
      refine ⟨hcall, fun r hr => ?_⟩
      obtain rfl := Option.some.inj hr
      exact ReplySim.zero c.call
  | failResponse k c i reply hp =>
    have hcall : CallSim a c.client c.call := (h.packets _ (List.mem_of_getElem? hp)).call
    refine ⟨a, le_refl a, h.net (.failResponse k c i reply hp) (fun _ => rfl) fun p hmem => ?_⟩
    rcases List.mem_or_eq_of_mem_set hmem with hmem | rfl
    · exact h.packets p hmem
    · refine ⟨hcall, fun r hr => ?_⟩
      obtain rfl := Option.some.inj hr
      exact ReplySim.zero c.call

/-- The first world stands for the first state. -/
theorem init : Sim (State.init 0 : Abstract n α) World.init := by
  have hcov : ∀ i, Covered (State.init 0 : Abstract n α) i 0 :=
    fun i => ⟨[], rfl, List.nil_prefix, State.settled_nil⟩
  have hst : Stores ([] : List (Entry Int α)) (make {} : Raft n α) := by
    refine ⟨?_, ?_, ?_, ?_⟩ <;> simp [make, readPersist, indexed, TermAt]
  refine ⟨inv_init 0, ⟨fun _ => le_refl _, fun h => by cases h⟩, elections_init, fun i => ?_,
    fun p hp => by cases hp⟩
  rw [World.server_init]
  have hmem : MemSim (State.init 0 : Abstract n α) i (make {}) := by
    refine ⟨rfl, hst, hcov i, hcov i, hcov i, fun hs => ?_, fun hs => ?_⟩ <;>
      rw [make_status] at hs <;> cases hs
  refine ⟨hmem, fun _ => ⟨[], State.rooted_nil, hst⟩, by simp, fun stream hstream msg hmsg => ?_,
    by simp⟩
  obtain rfl := List.mem_singleton.mp hstream
  cases hmsg

end Sim

/-- Any two positions of a run under the rules stand for states of the replicated log,
of which the later one extends the history of the earlier one. -/
theorem Run.sim {e : Behavior (World n α)} (h : Run (sound n α).Allows e) {k k' : ℕ}
    (hk : k ≤ k') : ∃ a a' : Abstract n α, a ≤ a' ∧ Sim a (e k) ∧ Sim a' (e k') :=
  h.simulation Sim ⟨_, Sim.init⟩ (fun _ _ _ _ hsim hR hs => hsim.step hR (steps_of_step hs)) hk

end DistStudy.Raft
