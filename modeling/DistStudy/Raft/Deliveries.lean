import DistStudy.Raft.ApplyOrder
import DistStudy.Raft.WithoutSnapshots

/-!
# What was delivered stays

The commands that the peers have sent on `applyCh`, over whole runs.

* The stream of an incarnation only grows (`Steps.stream_isPrefix`). Without
  snapshots its messages are the commands of the indexes 1, 2, 3 and so on
  (`Run.stream_getElem?`).
* A delivered command is never lost: in every later state a majority of the
  persisters holds it at its index (`delivered_durable`).
* The index and the term that `Start` returns name the command: no other entry
  ever gets them (`start_names_command`).
-/

namespace DistStudy.Raft

open ReplicatedLog

variable {n : ℕ} {α : Type}

/-! ## The stream of an incarnation -/

/-- What the `k`-th incarnation of a peer has sent on `applyCh`. -/
def Server.stream (s : Server n α) (k : ℕ) : List (ApplyMsg α) :=
  ((s.applied :: s.past).reverse.map Stream.msgs).getD k []

theorem Server.exists_of_mem_stream {s : Server n α} {k : ℕ} {msg : ApplyMsg α}
    (h : msg ∈ s.stream k) : ∃ stream ∈ s.applied :: s.past, msg ∈ stream.msgs := by
  unfold stream at h
  rw [List.getD_eq_getElem?_getD] at h
  cases hk : ((s.applied :: s.past).reverse.map Stream.msgs)[k]? with
  | none =>
    rw [hk] at h
    cases h
  | some msgs =>
    rw [hk] at h
    rcases List.mem_map.mp (List.mem_of_getElem? hk) with ⟨stream, hmem, rfl⟩
    exact ⟨stream, List.mem_reverse.mp hmem, h⟩

/-- The streams of a peer that has sent `msgs` more and was then restarted some times. -/
theorem Server.stream_isPrefix {s s' : Server n α} (start : Int) (msgs : List (ApplyMsg α))
    (news : List (Stream α))
    (hs : s'.applied :: s'.past = news ++ ⟨start, s.applied.msgs ++ msgs⟩ :: s.past) (k : ℕ) :
    s.stream k <+: s'.stream k := by
  have hold : (s.applied :: s.past).reverse.map Stream.msgs =
      s.past.reverse.map Stream.msgs ++ [s.applied.msgs] := by simp
  have hnew : (s'.applied :: s'.past).reverse.map Stream.msgs =
      s.past.reverse.map Stream.msgs ++
        ((s.applied.msgs ++ msgs) :: news.reverse.map Stream.msgs) := by
    simp [hs]
  unfold stream
  rw [hold, hnew, List.getD_eq_getElem?_getD, List.getD_eq_getElem?_getD]
  rcases Nat.lt_or_ge k (s.past.reverse.map Stream.msgs).length with hk | hk
  · rw [List.getElem?_append_left hk, List.getElem?_append_left hk]
  · rw [List.getElem?_append_right hk, List.getElem?_append_right hk]
    cases k - (s.past.reverse.map Stream.msgs).length with
    | zero => exact List.prefix_append _ _
    | succ m => exact List.nil_prefix

theorem Server.stream_perform (s : Server n α) (es : List (Effect n α)) (rf : Raft n α) (k : ℕ) :
    s.stream k <+: (s.perform es rf).stream k :=
  stream_isPrefix _ (appliesOf es) [] rfl k

theorem Server.stream_restart (s : Server n α) (k : ℕ) : s.stream k <+: s.restart.stream k :=
  stream_isPrefix s.applied.start [] [s.restart.applied] (by simp [Server.restart]) k

/-- The stream of an incarnation only grows. -/
theorem Steps.stream_isPrefix {w w' : World n α} {event : Event n α} (hs : Steps w event w')
    (i : Fin n) (k : ℕ) : (w.server i).stream k <+: (w'.server i).stream k := by
  have harrives : ∀ {cause a}, Arrives w cause a →
      (a.world.server i).stream k = (w.server i).stream k := by
    intro cause a ha
    rcases ha.server i with ⟨ch, -, hi⟩
    rw [hi]
    rfl
  cases hs with
  | handle cause a es rf harr ha ho =>
    rw [← harrives ha]
    by_cases hi : i = a.server
    · subst hi
      rw [World.server_perform_self]
      exact Server.stream_perform _ _ _ k
    · rw [World.server_perform_ne _ _ _ _ hi]
  | crashDuring cause m a es res harr ha handler hserve hes ho =>
    rw [← harrives ha]
    by_cases hi : i = a.server
    · subst hi
      rw [World.server_restart_self, World.server_perform_self]
      exact (Server.stream_perform _ _ _ k).trans (Server.stream_restart _ k)
    · rw [World.server_restart_ne _ hi, World.server_perform_ne _ _ _ _ hi]
  | crash j =>
    by_cases hi : i = j
    · subst hi
      rw [World.server_restart_self]
      exact Server.stream_restart _ k
    · rw [World.server_restart_ne w hi]
  | snapshot j index data =>
    by_cases hi : i = j
    · subst hi
      rw [World.server_snapshot_self]
      exact List.prefix_refl _
    · rw [World.server_snapshot_ne w index data hi]
  | drop | failRequest | failResponse => exact List.prefix_refl _

/-! ## Streams of commands -/

/-- Messages that are the commands of the indexes after `last`, one by one. -/
theorem InOrder.getElem?_eq {last : Int} {msgs : List (ApplyMsg α)} (h : InOrder last msgs)
    (hcommands : ∀ msg ∈ msgs, ∃ c d, msg = .command c d) {k : ℕ} {msg : ApplyMsg α}
    (hk : msgs[k]? = some msg) : ∃ c, msg = .command c (last + k + 1) := by
  induction msgs generalizing last k with
  | nil => simp at hk
  | cons m msgs ih =>
    rcases hcommands m List.mem_cons_self with ⟨c, d, rfl⟩
    rcases h with ⟨hd, hrest⟩
    cases k with
    | zero =>
      obtain rfl : ApplyMsg.command c d = msg := by simpa using hk
      exact ⟨c, by rw [hd]; simp⟩
    | succ k =>
      rcases ih hrest (fun m hm => hcommands m (List.mem_cons_of_mem _ hm)) hk with ⟨c', hc'⟩
      refine ⟨c', ?_⟩
      rw [hc', hd]
      congr 1
      push_cast
      omega

/-- A peer without snapshots, whose streams are commands in order. -/
structure Numbered (s : Server n α) : Prop where
  bare : Bare s
  inStep : InStep s
  commands : ∀ stream ∈ s.applied :: s.past,
    stream.start = 0 ∧ ∀ msg ∈ stream.msgs, ∃ c d, msg = .command c d

namespace Numbered

variable {T : Taken} {s : Server n α} {i : Fin n} {input : Input n α} {es : List (Effect n α)}
  {res : Option (Raft n α)} {rf : Raft n α}

/-- What such a peer hears. -/
theorem heard (h : Heard (fun _ s => Numbered s) (fun _ call => BareCall call) T s input) :
    ShapedInput input ∧ (∀ args, input = .installSnapshot args → args.data = none) ∧
      ∀ req, input ≠ .snapshotRequest req := by
  have hbare : Heard (fun _ s => Bare s) (fun _ call => BareCall call) T s input :=
    h.imp (fun _ hs => hs.bare) fun _ hc => hc
  exact ⟨hbare.shaped fun _ hc => hc.shaped, Bare.heard hbare⟩

theorem installsAhead (hnone : ∀ args, input = .installSnapshot args → args.data = none) :
    InstallsAhead s.rf input := by
  cases input with
  | installSnapshot args => exact Or.inr (Or.inl (hnone args rfl))
  | _ => trivial

/-- Some messages of a handler are commands. -/
theorem delivers (hnone : ∀ args, input = .installSnapshot args → args.data = none)
    (ho : Outcome i s.rf input es res) (k : ℕ) :
    ∀ msg ∈ appliesOf (es.take k), ∃ c d, msg = .command c d := by
  intro msg hmsg
  have hmem := List.mem_of_mem_take (mem_appliesOf.mp hmsg)
  rcases ho.apply_cases hmem with ⟨args, hin, -, hdata, -⟩ | ⟨-, l, -, hl⟩
  · exact absurd (hnone args hin) hdata
  · exact ⟨_, _, hl⟩

/-- The streams after some messages of a handler. -/
theorem commands_perform (h : Numbered s)
    (hnone : ∀ args, input = .installSnapshot args → args.data = none)
    (ho : Outcome i s.rf input es res) (k : ℕ) (rf : Raft n α) :
    ∀ stream ∈ (s.perform (es.take k) rf).applied :: s.past,
      stream.start = 0 ∧ ∀ msg ∈ stream.msgs, ∃ c d, msg = .command c d := by
  intro stream hmem
  rcases List.mem_cons.mp hmem with rfl | hmem
  · rcases h.commands s.applied List.mem_cons_self with ⟨hstart, hmsgs⟩
    refine ⟨hstart, fun msg hmsg => ?_⟩
    rcases List.mem_append.mp hmsg with hmsg | hmsg
    · exact hmsgs msg hmsg
    · exact delivers hnone ho k msg hmsg
  · exact h.commands stream (List.mem_cons_of_mem _ hmem)

/-- A new incarnation of a peer `s` whose streams are fine. -/
theorem restart (hcommands : ∀ stream ∈ s.applied :: s.past,
      stream.start = 0 ∧ ∀ msg ∈ stream.msgs, ∃ c d, msg = .command c d)
    (hbare : Bare s.restart) (hstep : InStep s.restart) : Numbered s.restart := by
  refine ⟨hbare, hstep, fun stream hmem => ?_⟩
  rcases List.mem_cons.mp hmem with rfl | hmem
  · exact ⟨hbare.index, by simp [Server.restart]⟩
  · exact hcommands stream hmem

end Numbered

theorem numbered_local :
    Local (noSnapshots : Rules n α) (fun _ s => Numbered s) (fun _ call => BareCall call) where
  init := by
    refine ⟨noSnapshots_local.init, forwardOnly_local.init, fun stream hmem => ?_⟩
    obtain rfl := List.mem_singleton.mp hmem
    exact ⟨rfl, by simp⟩
  grow _ h := h
  growCall _ h := h
  channel hch h :=
    ⟨noSnapshots_local.channel (T := []) hch h.bare,
      forwardOnly_local.channel (T := []) hch h.inStep, h.commands⟩
  request _ hdata := hdata.elim
  handle := by
    intro T s i input es rf h hh _ ho
    rcases Numbered.heard hh with ⟨hshape, hnone, hreq⟩
    have hcommands := h.commands_perform hnone ho es.length rf
    rw [List.take_length] at hcommands
    exact ⟨h.bare.handle hshape hnone hreq ho,
      h.inStep.handle hshape (Numbered.installsAhead hnone) ho, hcommands⟩
  calls h _ _ ho hc := h.bare.calls ho hc
  crash h _ := Numbered.restart h.commands (Bare.restart h.bare.disk h.bare.aligned_disk)
    (h.inStep.restart h.bare.aligned_disk)
  cut := by
    intro T s i input es res k h hh _ ho _
    rcases Numbered.heard hh with ⟨hshape, hnone, -⟩
    rcases h.bare.lastSave hshape hnone ho k with ⟨hplain, hal⟩
    exact Numbered.restart (h.commands_perform hnone ho k s.rf) (Bare.restart hplain hal)
      (h.inStep.cut (Numbered.installsAhead hnone) ho k hal)

section

variable {e : Behavior (World n α)}

/-- Without snapshots the messages of an incarnation are the commands of 1, 2, 3, … -/
theorem Run.stream_getElem? (he : Run noSnapshots.Allows e) (t : ℕ) (i : Fin n) (k : ℕ) {p : ℕ}
    {msg : ApplyMsg α} (hp : (((e t).server i).stream k)[p]? = some msg) :
    ∃ c, msg = .command c (p + 1) := by
  have h := (numbered_local.run he t).server i
  unfold Server.stream at hp
  rw [List.getD_eq_getElem?_getD] at hp
  cases hk : ((((e t).server i).applied :: ((e t).server i).past).reverse.map Stream.msgs)[k]? with
  | none =>
    rw [hk] at hp
    cases hp
  | some msgs =>
    rw [hk] at hp
    rcases List.mem_map.mp (List.mem_of_getElem? hk) with ⟨stream, hmem, rfl⟩
    have hmem := List.mem_reverse.mp hmem
    rcases h.commands stream hmem with ⟨hstart, hmsgs⟩
    have hord : InOrder stream.start stream.msgs := by
      rcases List.mem_cons.mp hmem with rfl | hpast
      · exact h.inStep.inOrder
      · exact h.inStep.past stream hpast
    rw [hstart] at hord
    simpa using hord.getElem?_eq hmsgs hp

/-! ## Durability -/

/-- The peer has the entry of index `d` with the command `c` on its persister. -/
def Server.Saved (s : Server n α) (d : Int) (c : α) : Prop :=
  ∃ l ∈ (make s.persister : Raft n α).logs, l.index = d ∧ l.command = c

/-- A peer whose log starts with `P` has saved its entries. -/
theorem Bare.saved {a : Abstract n α} {i : Fin n} {s : Server n α} (h : Bare s)
    (hsim : ServerSim a i s) {P : List (Entry Int α)} (hP : P <+: a.log i) {d : ℕ}
    {x : Entry Int α} (hx : P[d]? = some x) : s.Saved (d + 1) x.value := by
  refine ⟨⟨x.term, d + 1, x.value⟩, ?_, rfl, rfl⟩
  rw [h.logs, hsim.memory.stores.logs, mem_indexed_drop]
  refine ⟨d, x, ?_, getElem?_of_isPrefix hP hx, rfl⟩
  rw [h.index]
  exact Nat.zero_le d

/-- A command that was ever delivered is, in every later state, at its index on the
persisters of a majority. No crash loses it. -/
theorem delivered_durable (he : Run noSnapshots.Allows e) (k k' : ℕ) (hk : k ≤ k') (i : Fin n)
    (s : Stream α) (hs : s ∈ ((e k).server i).applied :: ((e k).server i).past) (c : α) (d : Int)
    (hc : .command c d ∈ s.msgs) : Majority fun v => ((e k').server v).Saved d c := by
  rcases (Run.sound_of_noSnapshots he).sim hk with ⟨a, a', hle, h, h'⟩
  rcases ((h.servers i).sent s hs _ hc).mono hle with ⟨t, P, m, x, hchosen, rfl, hx, rfl⟩
  refine (h'.inv.chosen_stored hchosen).mono fun v hv => ?_
  exact ((noSnapshots_local.run he k').server v).saved (h'.servers v) hv hx

/-- The command that peer 0 has delivered before the hand-over is saved after it. -/
theorem delivered_durable_handedOver :
    .command 5 1 ∈ ((play World.step World.init (handedOver.take 17)).server 0).applied.msgs ∧
      Majority fun v => ((play World.step World.init (handedOver.take 21)).server v).Saved 1 5 :=
  ⟨by decide +kernel,
    delivered_durable (Runs.play (by decide +kernel : Plays _ noSnapshots.Allows _ handedOver))
      17 21 (by decide) 0 _ List.mem_cons_self 5 1 (by decide +kernel)⟩

/-! ## Started commands -/

/-- What `Start` returns on a peer: the index, the term and whether it leads. -/
def World.start (w : World n α) (i : Fin n) (command : α) : Option (Int × Int × Bool) :=
  (handleCommand command (w.server i).rf).2.map Prod.fst

/-- A `Start` that returns true was made on a leader, and its index is the next one. -/
theorem World.start_eq_true {w : World n α} {i : Fin n} {c : α} {index term : Int}
    (h : w.start i c = some (index, term, true)) :
    (w.server i).rf.status = .leader ∧
      index = (w.server i).rf.logs.length + (w.server i).rf.snapshotIndex + 1 ∧
      term = (w.server i).rf.currentTerm := by
  unfold start at h
  rw [handleCommand_run] at h
  split_ifs at h with hs
  · simp only [Option.map_some, Option.some.injEq, Prod.mk.injEq] at h
    exact ⟨hs, h.1.symm, h.2.1.symm⟩
  · simp at h

/-- The leader after it has handled a command. -/
theorem World.rf_of_start {w w' : World n α} {i : Fin n} {c : α}
    (hs : (w.server i).rf.status = .leader)
    (hstep : w.step (.handle (.start i c)) = some w') :
    (w'.server i).rf =
      (w.server i).rf.withLogs ((w.server i).rf.logs ++ [(w.server i).rf.newEntry c]) := by
  cases steps_of_step hstep with
  | handle cause a es rf harr ha ho =>
    obtain rfl := Option.some.inj harr
    rw [World.server_perform_self]
    cases ho with
    | started => rfl
    | notLeader command hne => exact absurd hs hne
    | higherTerm hin => cases hin
    | sent input es res hin => rcases hin with hin | hin <;> cases hin

/-- Entries of rooted logs with one index and one term are one entry. -/
theorem entry_unique {a : Abstract n α} {F G : List (Entry Int α)} {rf rf' : Raft n α}
    (hF : a.Rooted F) (hG : a.Rooted G) (h : Stores F rf) (h' : Stores G rf') {l l' : Log α}
    (hl : l ∈ rf.logs) (hl' : l' ∈ rf'.logs) (hindex : l.index = l'.index)
    (hterm : l.term = l'.term) : l = l' := by
  rcases common_prefix hF hG h h' hl hl' hindex hterm with ⟨P, hPF, hPG, hlen⟩
  rw [h.logs, mem_indexed_drop] at hl
  rw [h'.logs, mem_indexed_drop] at hl'
  rcases hl with ⟨d, x, -, hx, rfl⟩
  rcases hl' with ⟨d', y, -, hy, rfl⟩
  have hd : (d : Int) + 1 = d' + 1 := hindex
  obtain rfl : d = d' := by omega
  have hlt : d < P.length := by
    have hlen' : (P.length : Int) = d + 1 := hlen
    omega
  have hPx := getElem?_of_isPrefix hPF (List.getElem?_eq_getElem hlt)
  have hPy := getElem?_of_isPrefix hPG (List.getElem?_eq_getElem hlt)
  rw [hx] at hPx
  rw [hy] at hPy
  obtain rfl : x = y := (Option.some.inj hPx).trans (Option.some.inj hPy).symm
  rfl

/-- The index and the term that a leader's `Start` returns name the command: an entry
with both is that command in every log at any time, and no later `Start` on any peer
returns them again. -/
theorem start_names_command (he : Run noSnapshots.Allows e) (k : ℕ) (i : Fin n) (c : α)
    (index term : Int) (hstart : (e k).start i c = some (index, term, true))
    (hstep : (e k).step (.handle (.start i c)) = some (e (k + 1))) :
    (∀ k' j, ∀ l ∈ ((e k').server j).rf.logs, l.index = index → l.term = term → l.command = c) ∧
      ∀ k' j c', k < k' → (e k').start j c' ≠ some (index, term, true) := by
  have hrun := Run.sound_of_noSnapshots he
  rcases World.start_eq_true hstart with ⟨hs, rfl, rfl⟩
  have hrf := World.rf_of_start hs hstep
  have hmem : ((e k).server i).rf.newEntry c ∈ ((e (k + 1)).server i).rf.logs := by
    rw [hrf]
    exact List.mem_append_right _ List.mem_cons_self
  constructor
  · intro k' j l hl hindex hterm
    -- both logs are rooted in the later one of the two states
    obtain ⟨a, b, b', hb, hb', hrooted, hrooted'⟩ : ∃ a b b' : Abstract n α, Sim b (e (k + 1)) ∧
        Sim b' (e k') ∧ a.Rooted (b.log i) ∧ a.Rooted (b'.log j) := by
      rcases Nat.le_total (k + 1) k' with hk | hk
      · rcases hrun.sim hk with ⟨b, b', hle, hb, hb'⟩
        exact ⟨b', b, b', hb, hb', (hb.inv.log_rooted i).mono hle, hb'.inv.log_rooted j⟩
      · rcases hrun.sim hk with ⟨b', b, hle, hb', hb⟩
        exact ⟨b, b, b', hb, hb', hb.inv.log_rooted i, (hb'.inv.log_rooted j).mono hle⟩
    have heq := entry_unique hrooted hrooted' (hb.servers i).memory.stores
      (hb'.servers j).memory.stores hmem hl hindex.symm hterm.symm
    rw [← heq]
    rfl
  · intro k' j c' hk hstart'
    rcases World.start_eq_true hstart' with ⟨hs', hindex, hterm⟩
    rcases hrun.sim hk with ⟨b, b', hle, hb, hb'⟩
    have hi := (hb.servers i).memory
    have hj := (hb'.servers j).memory
    -- the later leader of the term has the log that the earlier `Start` has left
    have hlead := (hi.leader (by rw [hrf]; exact hs)).1
    rcases hle.lead hlead with ⟨L, hL, hpre⟩
    have hlead' := (hj.leader hs').1
    rw [hrf, withLogs_currentTerm, hterm] at hL
    obtain ⟨-, rfl⟩ := State.lead_inj hL hlead'
    have hlen := hpre.length_le
    have hold := hi.stores.length
    have hnew := hj.stores.length
    rw [hrf] at hold
    simp only [withLogs_logs, withLogs_snapshotIndex, List.length_append, List.length_singleton]
      at hold
    push_cast at hold
    omega

/-- Peer 0 is given the command 5 for index 1 of term 1. -/
theorem start_names_command_handedOver :
    (play World.step World.init (handedOver.take 6)).start 0 5 = some (1, 1, true) ∧
      (∀ k' j, ∀ l ∈ ((play World.step World.init (handedOver.take k')).server j).rf.logs,
        l.index = 1 → l.term = 1 → l.command = 5) ∧
      ∀ k' j c', 6 < k' →
        (play World.step World.init (handedOver.take k')).start j c' ≠ some (1, 1, true) :=
  ⟨by decide +kernel,
    start_names_command (Runs.play (by decide +kernel : Plays _ noSnapshots.Allows _ handedOver))
      6 0 5 1 1 (by decide +kernel) (by decide +kernel)⟩

end

end DistStudy.Raft
