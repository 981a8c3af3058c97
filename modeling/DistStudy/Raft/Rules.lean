import DistStudy.Raft.Steps

/-!
# Runs under rules, and invariants of single peers

The service and the environment are constrained by `Rules`: which inputs a peer
handles, from which persister it is restarted and which indexes and bytes the
service passes to `Snapshot`. `Rules.Allows` turns them into a condition on the events
of a run.

`Local R S P` is the induction rule for invariants that speak of one peer (`S`)
or of one call on the network (`P`) at a time: each case of it is about one
peer and one event.
-/

namespace DistStudy.Raft

variable {n : ℕ} {α : Type}

/-- The bytes that the services have passed to `Snapshot`, with their indexes. -/
abbrev Taken : Type := List (Int × GoBytes)

structure Rules (n : ℕ) (α : Type) where
  /-- The inputs that a peer handles, given its memory. -/
  input : Raft n α → Input n α → Prop := fun _ _ => True
  /-- The persister of a peer that crashes, given its memory. -/
  restart : Raft n α → Persister α → Prop := fun _ _ => True
  /-- The persister of a peer that crashes after the handler has written it, given
  the memory before the handler. -/
  resave : Raft n α → Persister α → Prop := fun _ _ => True
  /-- The index of a `Snapshot` call: by default one that the service has got. -/
  index : Server n α → Int → Prop := fun s index => index ∈ s.applied.msgs.map ApplyMsg.index
  /-- The bytes of a `Snapshot` call. -/
  snapshot : GoBytes → Prop := fun _ => True

namespace Rules

/-- The rule for a crash after the effects `es`. -/
def Restarts (R : Rules n α) (rf : Raft n α) (p : Persister α) (es : List (Effect n α)) : Prop :=
  if savesOf es = [] then R.restart rf p else R.resave rf (lastSave p es)

/-- What is known of the persister that a peer restarts from. -/
theorem Restarts.lastSave {R : Rules n α} {rf : Raft n α} {p : Persister α}
    {es : List (Effect n α)} {Q : Persister α → Prop} (h : R.Restarts rf p es)
    (hrestart : R.restart rf p → Q p)
    (hresave : R.resave rf (lastSave p es) → Q (lastSave p es)) : Q (lastSave p es) := by
  unfold Restarts at h
  split_ifs at h with hsaves
  · rw [Raft.lastSave, hsaves]
    exact hrestart h
  · exact hresave h

/-- The events that the rules allow. -/
def Allows (R : Rules n α) (w : World n α) : Event n α → Prop
  | .handle cause => ∀ a ∈ w.arrival cause, R.input (a.world.server a.server).rf a.input
  | .crashDuring cause k => ∀ a ∈ w.arrival cause,
      R.input (a.world.server a.server).rf a.input ∧
      ∀ handler ∈ serve a.server (a.world.server a.server).rf a.input,
        R.Restarts (a.world.server a.server).rf (a.world.server a.server).persister
          ((handler (a.world.server a.server).rf).1.take k)
  | .crash i => R.restart (w.server i).rf (w.server i).persister
  | .snapshot i index data => R.index (w.server i) index ∧ R.snapshot data
  | .drop _ => True
  | .fail _ => True

variable (R : Rules n α) [∀ rf input, Decidable (R.input rf input)]
  [∀ rf p, Decidable (R.restart rf p)] [∀ rf p, Decidable (R.resave rf p)]
  [∀ s index, Decidable (R.index s index)] [∀ data, Decidable (R.snapshot data)]

instance (rf : Raft n α) (p : Persister α) (es : List (Effect n α)) :
    Decidable (R.Restarts rf p es) :=
  match h : savesOf es with
  | [] => decidable_of_iff (R.restart rf p) (by simp [Restarts, h])
  | _ :: _ => decidable_of_iff (R.resave rf (lastSave p es)) (by simp [Restarts, h])

instance (w : World n α) : ∀ event, Decidable (R.Allows w event)
  | .handle cause => inferInstanceAs (Decidable (∀ a ∈ w.arrival cause, _))
  | .crashDuring cause _ => inferInstanceAs (Decidable (∀ a ∈ w.arrival cause, _ ∧ ∀ _ ∈ _, _))
  | .crash i => inferInstanceAs (Decidable (R.restart (w.server i).rf (w.server i).persister))
  | .snapshot i index data =>
    inferInstanceAs (Decidable (R.index (w.server i) index ∧ R.snapshot data))
  | .drop _ => inferInstanceAs (Decidable True)
  | .fail _ => inferInstanceAs (Decidable True)

end Rules

/-- Services take snapshots of what they have got. Nothing else is ruled out. -/
abbrev ofDelivered : Rules n α where

/-- Nothing is ruled out. -/
abbrev anything : Rules n α where
  index _ _ := True

/-! ## Invariants of single peers -/

/-- What is known of an input when the peer `s` handles it: the request was on the
network, the `Snapshot` request was in the peer's channel. -/
structure Heard (S : Taken → Server n α → Prop) (P : Taken → Call α → Prop) (T : Taken)
    (s : Server n α) (input : Input n α) : Prop where
  append : ∀ {args}, input = .appendEntries args → P T (.appendEntries args)
  install : ∀ {args}, input = .installSnapshot args →
    ∃ data, P T (.installSnapshot { args with data }) ∧ args.data = labgobBytes data
  reply : ∀ {reply args server}, input = .appendEntriesReply reply args server →
    P T (.appendEntries args)
  request : ∀ {req}, input = .snapshotRequest req →
    ∃ ch, req ∈ ch ∧ S T { s with snapshotRequestCh := ch }

theorem Heard.imp {S S' : Taken → Server n α → Prop} {P P' : Taken → Call α → Prop} {T : Taken}
    {s : Server n α} {input : Input n α} (h : Heard S P T s input)
    (hS : ∀ s, S T s → S' T s) (hP : ∀ call, P T call → P' T call) : Heard S' P' T s input where
  append hin := hP _ (h.append hin)
  install hin := by
    rcases h.install hin with ⟨data, hcall, hdata⟩
    exact ⟨data, hP _ hcall, hdata⟩
  reply hin := hP _ (h.reply hin)
  request hin := by
    rcases h.request hin with ⟨ch, hmem, hs⟩
    exact ⟨ch, hmem, hS _ hs⟩

/-- The cases of an invariant of peers and calls. -/
structure Local (R : Rules n α) (S : Taken → Server n α → Prop) (P : Taken → Call α → Prop) :
    Prop where
  init : S [] { rf := make {}, persister := {}, incarnation := 0, snapshotRequestCh := [],
                applied := { start := 0, msgs := [] }, past := [] }
  grow : ∀ {T T' s}, T ⊆ T' → S T s → S T' s
  growCall : ∀ {T T' call}, T ⊆ T' → P T call → P T' call
  channel : ∀ {T s ch}, ch.Sublist s.snapshotRequestCh → S T s →
    S T { s with snapshotRequestCh := ch }
  request : ∀ {T s index data}, S T s → R.snapshot data → R.index s index → (index, data) ∈ T →
    S T { s with snapshotRequestCh := s.snapshotRequestCh ++ [⟨index, data⟩] }
  handle : ∀ {T s i input es rf}, S T s → Heard S P T s input → R.input s.rf input →
    Outcome i s.rf input es (some rf) → S T (s.perform es rf)
  calls : ∀ {T s i input es res server call}, S T s → Heard S P T s input →
    R.input s.rf input → Outcome i s.rf input es res → .call server call ∈ es → P T call
  crash : ∀ {T s}, S T s → R.restart s.rf s.persister → S T s.restart
  cut : ∀ {T s i input es res k}, S T s → Heard S P T s input → R.input s.rf input →
    Outcome i s.rf input es res → R.Restarts s.rf s.persister (es.take k) →
    S T ((s.perform (es.take k) s.rf).restart)

/-- The invariant of a whole world. -/
structure Everywhere (S : Taken → Server n α → Prop) (P : Taken → Call α → Prop)
    (w : World n α) : Prop where
  server : ∀ i, S w.taken (w.server i)
  call : ∀ p ∈ w.net, P w.taken p.caller.call

namespace Local

variable {R : Rules n α} {S : Taken → Server n α → Prop} {P : Taken → Call α → Prop}
  {w w' : World n α} {cause : Cause n α} {a : Arrival n α} {event : Event n α}

theorem arrives (hL : Local R S P) (h : Everywhere S P w) (ha : Arrives w cause a) :
    Everywhere S P a.world ∧ Heard S P a.world.taken (a.world.server a.server) a.input := by
  refine ⟨⟨fun i => ?_, fun p hp => ?_⟩, ?_⟩
  · rcases ha.server i with ⟨ch, hch, hi⟩
    rw [hi, ha.taken]
    exact hL.channel hch (h.server i)
  · rw [ha.taken]
    exact h.call p (ha.net.subset hp)
  · cases ha with
    | timer i t => cases t <;> constructor <;> simp [Timer.input]
    | start i command => constructor <;> simp
    | snapshotRequest i k req hreq =>
      refine ⟨by simp, by simp, by simp, fun {req'} heq => ?_⟩
      obtain rfl : req = req' := by simpa using heq
      refine ⟨(w.server i).snapshotRequestCh, List.mem_of_getElem? hreq, ?_⟩
      simp only [World.server_setServer_self]
      exact h.server i
    | request k c i waiting hp =>
      have hcall : P w.taken c.call := h.call _ (List.mem_of_getElem? hp)
      cases hc : c.call with
      | requestVote ch args => constructor <;> simp [Call.input]
      | appendEntries args =>
        rw [hc] at hcall
        refine ⟨fun heq => ?_, by simp [Call.input], by simp [Call.input], by simp [Call.input]⟩
        simp only [Call.input, Input.appendEntries.injEq] at heq
        exact heq ▸ hcall
      | installSnapshot args =>
        rw [hc] at hcall
        refine ⟨by simp [Call.input], fun heq => ?_, by simp [Call.input], by simp [Call.input]⟩
        simp only [Call.input, Input.installSnapshot.injEq] at heq
        subst heq
        exact ⟨args.data, hcall, rfl⟩
    | response k c i reply input hp hinc hback =>
      have hcall : P w.taken c.call := h.call _ (List.mem_of_getElem? hp)
      cases hc : c.call <;> cases reply <;> rw [hc] at hback hcall <;> cases hback
      · constructor <;> simp
      · refine ⟨by simp, by simp, fun heq => ?_, by simp⟩
        simp only [Input.appendEntriesReply.injEq] at heq
        exact heq.2.1 ▸ hcall
      · constructor <;> simp

theorem caller (h : Everywhere S P w) (ha : Arrives w cause a) :
    ∀ c ∈ a.caller, P a.world.taken c.call := by
  intro c hc
  rw [ha.taken]
  exact h.call _ (ha.caller_mem hc).1

/-- The packets of some effects, given what is known of the calls among them. -/
theorem packets {T : Taken} {i : Fin n} {inc : ℕ} {caller : Option (Caller n α)}
    {es : List (Effect n α)} (hcaller : ∀ c ∈ caller, P T c.call)
    (hcalls : ∀ server call, .call server call ∈ es → P T call) :
    ∀ p ∈ es.filterMap (packetOf i inc caller), P T p.caller.call := by
  intro p hp
  rcases packet_cases hp with ⟨server, call, hc, rfl⟩ | ⟨c, reply, hc, -, rfl⟩
  · exact hcalls server call hc
  · exact hcaller c hc

/-- The peer `i` moves to `s` and the network grows by `ps`. -/
theorem moved (h : Everywhere S P w) {i : Fin n} {s : Server n α} (hs : S w.taken s)
    (hself : w'.server i = s) (hne : ∀ j, j ≠ i → w'.server j = w.server j)
    (htaken : w'.taken = w.taken) (hnet : ∀ p ∈ w'.net, p ∈ w.net ∨ P w.taken p.caller.call) :
    Everywhere S P w' := by
  refine ⟨fun j => ?_, fun p hp => ?_⟩
  · rw [htaken]
    by_cases hj : j = i
    · rw [hj, hself]
      exact hs
    · rw [hne j hj]
      exact h.server j
  · rw [htaken]
    rcases hnet p hp with hold | hnew
    · exact h.call p hold
    · exact hnew

/-- One step of the cluster. -/
theorem step (hL : Local R S P) (h : Everywhere S P w) (hR : R.Allows w event)
    (hs : Steps w event w') : Everywhere S P w' := by
  cases hs with
  | handle cause a es rf harr ha ho =>
    obtain ⟨hw, hheard⟩ := hL.arrives h ha
    have hin := hR a harr
    have hs := hw.server a.server
    have hcalls : ∀ server call, .call server call ∈ es → P a.world.taken call :=
      fun _ _ hc => hL.calls hs hheard hin ho hc
    refine moved hw (hL.handle hs hheard hin ho) (World.server_perform_self ..)
      (fun j hj => World.server_perform_ne _ _ _ _ hj) rfl fun p hp => ?_
    exact (List.mem_append.mp hp).imp_right (packets (caller h ha) hcalls p)
  | crashDuring cause k a es res harr ha handler hserve hes ho =>
    obtain ⟨hw, hheard⟩ := hL.arrives h ha
    obtain ⟨hin, hrestarts⟩ := hR a harr
    have hrestart := hrestarts handler hserve
    rw [← hes] at hrestart
    have hs := hw.server a.server
    have hcalls : ∀ server call, .call server call ∈ es.take k → P a.world.taken call :=
      fun _ _ hc => hL.calls hs hheard hin ho (List.take_subset k es hc)
    refine moved (i := a.server) hw (hL.cut hs hheard hin ho hrestart) ?_ (fun j hj => ?_) rfl
      fun p hp => ?_
    · rw [World.server_restart_self, World.server_perform_self]
    · rw [World.server_restart_ne _ hj, World.server_perform_ne _ _ _ _ hj]
    · exact (List.mem_append.mp hp).imp_right (packets (caller h ha) hcalls p)
  | crash i =>
    exact moved h (hL.crash (h.server i) hR) (World.server_restart_self w i)
      (fun j hj => World.server_restart_ne w hj) rfl fun p hp => Or.inl hp
  | snapshot i index data =>
    have hsub : w.taken ⊆ w.taken ++ [(index, data)] := List.subset_append_left _ _
    refine ⟨fun j => ?_, fun p hp => hL.growCall hsub (h.call p hp)⟩
    have hj' := hL.grow hsub (h.server j)
    by_cases hj : j = i
    · subst hj
      rw [World.server_snapshot_self]
      exact hL.request hj' hR.2 hR.1 (by simp)
    · rw [World.server_snapshot_ne w index data hj]
      exact hj'
  | drop k =>
    exact ⟨h.server, fun p hp => h.call p (List.mem_of_mem_eraseIdx hp)⟩
  | failRequest k c i hp =>
    have hcall : P w.taken c.call := h.call _ (List.mem_of_getElem? hp)
    refine ⟨h.server, fun p hmem => ?_⟩
    rcases List.mem_append.mp hmem with hmem | hmem
    · rcases List.mem_or_eq_of_mem_set hmem with hmem | rfl
      · exact h.call p hmem
      · exact hcall
    · obtain rfl := List.mem_singleton.mp hmem
      exact hcall
  | failResponse k c i reply hp =>
    have hcall : P w.taken c.call := h.call _ (List.mem_of_getElem? hp)
    refine ⟨h.server, fun p hmem => ?_⟩
    rcases List.mem_or_eq_of_mem_set hmem with hmem | rfl
    · exact h.call p hmem
    · exact hcall

/-- The invariant holds in every state of every run that keeps the rules. -/
theorem run (hL : Local R S P) {e : Behavior (World n α)} (he : Run R.Allows e) (k : ℕ) :
    Everywhere S P (e k) := by
  refine he.invariant (Everywhere S P) ⟨fun i => ?_, fun p hp => by cases hp⟩
    (fun _ _ _ h hR hs => hL.step h hR (steps_of_step hs)) k
  rw [World.server_init]
  exact hL.init

end Local

end DistStudy.Raft
