import DistStudy.Raft.ApplyOrder

/-!
# Indexes and terms of the entries in crash-free runs

Positions and indexes of a log are converted into each other by
`logs[k].Index = snapshotIndex + 1 + k`. The law is kept by every handler, given
that the requests in flight are consecutive, and so is the bound of the terms:
an entry is made by a leader, so its term is positive, and a peer that takes it
over has seen the term of the request.

A crash can break the law (an install saves a log without its snapshot index),
so it is about runs without crashes.
-/

namespace DistStudy.Raft

variable {n : ℕ} {α : Type}

/-! ## Terms -/

/-- The terms of `logs` are positive and at most `term`. -/
def TermsWithin (term : Int) (logs : List (Log α)) : Prop :=
  ∀ l ∈ logs, 1 ≤ l.term ∧ l.term ≤ term

instance (term : Int) (logs : List (Log α)) : Decidable (TermsWithin term logs) :=
  inferInstanceAs (Decidable (∀ l ∈ logs, _))

namespace TermsWithin

variable {term term' : Int} {logs logs' : List (Log α)}

theorem subset (h : TermsWithin term logs) (hs : logs' ⊆ logs) (ht : term ≤ term') :
    TermsWithin term' logs' := by
  intro l hl
  have hterm := h l (hs hl)
  omega

theorem append (h : TermsWithin term logs) (h' : TermsWithin term logs') :
    TermsWithin term (logs ++ logs') := by
  intro l hl
  rcases List.mem_append.mp hl with hl | hl
  · exact h l hl
  · exact h' l hl

end TermsWithin

theorem beyond_subset (last : Int) (entries : List (Log α)) : beyond last entries ⊆ entries := by
  induction entries generalizing last with
  | nil => simp [beyond]
  | cons val rest ih =>
    unfold beyond
    split_ifs
    · exact List.cons_subset_cons val (ih _)
    · exact List.subset_cons_of_subset val (ih _)

/-- The log after an accepted append holds entries of the old log and of the request. -/
theorem TermsWithin.accepted {rf : Raft n α} {args : AppendEntriesArgs α} {term : Int}
    (h : TermsWithin term rf.logs) (hargs : TermsWithin term args.entries) :
    TermsWithin term (rf.accepted args).logs := by
  have hcut : rf.cut args.entries ⊆ rf.logs := by
    unfold Raft.cut
    split
    · exact List.Subset.refl _
    · exact List.take_subset _ _
  rw [accepted_logs]
  exact (h.subset hcut le_rfl).append (hargs.subset (beyond_subset _ _) le_rfl)

/-- The terms of a peer: those of its log lie between one and its own, and the
terms in which it stands for election or leads are positive. -/
structure Termed (rf : Raft n α) : Prop where
  nonneg : 0 ≤ rf.currentTerm
  standing : rf.status ≠ .follower → 1 ≤ rf.currentTerm
  logs : TermsWithin rf.currentTerm rf.logs

/-- The entries of an append are of terms up to its own. -/
def TermedCall : Call α → Prop
  | .appendEntries args => TermsWithin args.term args.entries
  | _ => True

/-- A leader sends entries of its log. -/
theorem TermsWithin.sends {rf : Raft n α} (h : TermsWithin rf.currentTerm rf.logs)
    {me server : Fin n} {call : Call α} (hs : Sends me rf (.call server call)) :
    TermedCall call := by
  rcases hs with ⟨server', entries, prev, -, -, heq, hentries⟩
  obtain ⟨rfl, rfl⟩ : server = server' ∧ call = .appendEntries (appendRequest me rf entries prev) :=
    by simpa using heq
  have hsub : entries ⊆ rf.logs := by
    rcases hentries with rfl | ⟨-, hslice⟩
    · exact List.nil_subset _
    · unfold sliceFrom? at hslice
      split_ifs at hslice
      obtain rfl := Option.some.inj hslice
      exact List.drop_subset _ _
  exact h.subset hsub le_rfl

namespace Termed

variable {rf rf' : Raft n α}

/-- An event that keeps the log and the standing of a peer. -/
theorem congr (h : Termed rf) (hs : rf'.status = rf.status ∨ rf'.status = .follower)
    (ht : rf'.currentTerm = rf.currentTerm) (hl : rf'.logs = rf.logs) : Termed rf' := by
  constructor
  · rw [ht]
    exact h.nonneg
  · intro hstanding
    rw [ht]
    rcases hs with hs | hs
    · exact h.standing (hs ▸ hstanding)
    · exact absurd hs hstanding
  · rw [ht, hl]
    exact h.logs

theorem steppedDown (h : Termed rf) {term : Int} (ht : term > rf.currentTerm) :
    Termed (rf.steppedDown term) := by
  have hnonneg := h.nonneg
  constructor
  · simp only [steppedDown_currentTerm]
    omega
  · intro hs
    exact absurd rfl hs
  · exact h.logs.subset (List.Subset.refl _) (by simp only [steppedDown_currentTerm]; omega)

theorem caughtUp (h : Termed rf) (term : Int) : Termed (rf.caughtUp term) := by
  unfold Raft.caughtUp
  split_ifs with ht
  · exact h.steppedDown ht
  · exact h

theorem heard (h : Termed rf) (rf₀ : Raft n α) : Termed (rf₀.heard rf) := by
  unfold Raft.heard
  split_ifs
  · exact h.congr (Or.inr rfl) rfl rfl
  · exact h

/-- Every event keeps the bounds, given those of the entries it brings. -/
theorem outcome (h : Termed rf) {me : Fin n} {input : Input n α} {es : List (Effect n α)}
    (hin : ∀ args, input = .appendEntries args → TermsWithin args.term args.entries)
    (ho : Outcome me rf input es (some rf')) : Termed rf' := by
  cases ho with
  | voteGranted args ht hv hu => exact (h.caughtUp args.term).congr (Or.inl rfl) rfl rfl
  | voteRefused args ht hv hu => exact (h.caughtUp args.term).congr (Or.inl rfl) rfl rfl
  | voteTaken args ht hv => exact h.caughtUp args.term
  | appendRejected args reply ht hr => exact (h.caughtUp args.term).heard rf
  | appendAccepted args ht hr =>
    have hterm := caughtUp_currentTerm rf ht
    have hcaught := h.caughtUp args.term
    -- the peer is now in the term of the request
    have hentries := hin args rfl
    rw [← hterm] at hentries
    have hacc : Termed ((rf.caughtUp args.term).accepted args) :=
      ⟨hcaught.nonneg, hcaught.standing, hcaught.logs.accepted hentries⟩
    exact hacc.heard rf
  | installEmpty args ht hd => exact (h.caughtUp args.term).congr (Or.inl rfl) rfl rfl
  | installCleared args ht hd hr =>
    have hcaught := h.caughtUp args.term
    exact ⟨hcaught.nonneg, hcaught.standing, fun l hl => by cases hl⟩
  | installRetained args logs ht hd hr hl =>
    have hcaught := h.caughtUp args.term
    refine ⟨hcaught.nonneg, hcaught.standing, hcaught.logs.subset ?_ le_rfl⟩
    unfold sliceFrom? at hl
    split_ifs at hl
    obtain rfl := Option.some.inj hl
    exact List.drop_subset _ _
  | compacted req hreq =>
    exact ⟨h.nonneg, h.standing, h.logs.subset (List.drop_subset _ _) le_rfl⟩
  | started command hs =>
    refine ⟨h.nonneg, h.standing, h.logs.append fun l hl => ?_⟩
    -- a leader makes entries of its own term, which is positive
    have hpos := h.standing (by rw [hs]; decide)
    obtain rfl := List.mem_singleton.mp hl
    exact ⟨hpos, le_rfl⟩
  | applied es res hes hres =>
    rcases hres with hres | ⟨-, hres⟩ <;> cases hres
    exact h.congr (Or.inl rfl) rfl rfl
  | elected hs =>
    have hnonneg := h.nonneg
    refine ⟨?_, fun _ => ?_, h.logs.subset (List.Subset.refl _) ?_⟩ <;>
      simp only [elected_currentTerm] <;> omega
  | higherTerm hterm ht => exact h.steppedDown ht
  | voteCounted vote hs ht hn => exact h.congr (Or.inl rfl) rfl rfl
  | leaderElected vote es hs ht hn hes =>
    exact ⟨h.nonneg, fun _ => h.standing (by rw [hs]; decide), h.logs⟩
  | sent input es res htimer hs hes hres =>
    rcases hres with hres | hres <;> cases hres
    exact h
  | replySuccess reply args server res hs ht hreq hok hres =>
    have hcred : Termed (rf.credited args server) := by
      unfold credited
      split_ifs
      · exact h.congr (Or.inl rfl) rfl rfl
      · exact h
    rcases hres with hres | hres | ⟨M, -, -, -, hres⟩ <;> cases hres
    · exact hcred
    · exact hcred.congr (Or.inl rfl) rfl rfl
  | replyFailure reply args server es hs ht hreq hok hes => exact h.congr (Or.inl rfl) rfl rfl
  | _ => exact h

theorem calls (h : Termed rf) {me : Fin n} {input : Input n α} {es : List (Effect n α)}
    {res : Option (Raft n α)} (ho : Outcome me rf input es res) {server : Fin n} {call : Call α}
    (hc : .call server call ∈ es) : TermedCall call := by
  rcases ho.call_cases hc with ⟨-, -, rfl⟩ | ⟨-, hs⟩ | ⟨vote, -, -, hs⟩ | ⟨reply, args, -, -, rfl⟩
  · exact trivial
  · exact h.logs.sends hs
  · -- a new leader sends the log it had as a candidate
    have hlogs : TermsWithin (rf.counted vote).inaugurated.currentTerm
        (rf.counted vote).inaugurated.logs := h.logs
    exact hlogs.sends hs
  · exact trivial

end Termed

/-! ## Whole runs -/

/-- No peer crashes. -/
abbrev noCrashes : Rules n α where
  restart _ _ := False
  resave _ _ := False

/-- What holds of a peer and of a call in a run without crashes. -/
theorem noCrashes_local :
    Local (noCrashes : Rules n α) (fun _ s => Aligned s.rf ∧ Termed s.rf)
      (fun _ call => Shaped call ∧ TermedCall call) where
  init := by
    refine ⟨⟨le_refl _, .nil⟩, le_refl _, ?_, ?_⟩
    · intro hs
      exact absurd rfl hs
    · intro l hl
      cases hl
  grow _ h := h
  growCall _ h := h
  channel _ h := h
  request h _ _ _ := h
  handle h hheard _ ho := by
    refine ⟨h.1.outcome (hheard.shaped fun _ hc => hc.1) ho, h.2.outcome ?_ ho⟩
    rintro args rfl
    exact (hheard.append rfl).2
  calls h _ _ ho hc := ⟨h.1.calls ho hc, h.2.calls ho hc⟩
  crash _ hp := hp.elim
  cut _ _ _ _ hp := (hp.lastSave (Q := fun _ => False) id id).elim

/-- **Log index contiguity.** In every state of every run without crashes the
positions of every log determine the indexes of its entries, their terms lie between
one and the term of the peer, and the entries of every append in flight are
consecutive. -/
theorem log_contiguous {e : Behavior (World n α)} (he : Run noCrashes.Allows e) (k : ℕ) :
    (∀ (i : Fin n) (j : ℕ) (l : Log α), ((e k).server i).rf.logs[j]? = some l →
      l.index = ((e k).server i).rf.snapshotIndex + 1 + j ∧ 1 ≤ l.term ∧
        l.term ≤ ((e k).server i).rf.currentTerm) ∧
    ∀ p ∈ (e k).net, ∀ args, p.caller.call = .appendEntries args →
      ∀ (j : ℕ) (l : Log α), args.entries[j]? = some l → l.index = args.prevLogIndex + 1 + j := by
  have h := noCrashes_local.run he k
  constructor
  · intro i j l hl
    have hs := h.server i
    exact ⟨hs.1.contiguous j l hl, hs.2.logs l (List.mem_of_getElem? hl)⟩
  · intro p hp args hcall j l hl
    have hshape := (h.call p hp).1
    rw [hcall] at hshape
    exact hshape j l hl

theorem log_contiguous_installed :
    ((play World.step World.init (snapshotInstalled.take 20)).server 0).rf.logs = [⟨1, 2, 6⟩] ∧
      (2 : Int) = ((play World.step World.init (snapshotInstalled.take 20)).server 0).rf.snapshotIndex
        + 1 + (0 : ℕ) :=
  ⟨by decide +kernel,
    ((log_contiguous (Runs.play (by decide +kernel) : Run noCrashes.Allows
      (fun k => play World.step World.init (snapshotInstalled.take k))) 20).1 0 0 ⟨1, 2, 6⟩
      (by decide +kernel)).1⟩

end DistStudy.Raft
