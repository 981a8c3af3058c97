import DistStudy.Raft.Refinement

/-!
# The moves of one event

`Path` follows the effects of a handler in the abstract protocol: before every
effect the peer makes some moves, after which the effect is justified. A write to
the persister must then hold the peer's term, vote and log; before any other
effect these stay as they are. So a crash after any prefix of the effects finds
the persister and the network in order (`Path.spec`).

`MemSim.outcome` finds such a path for every outcome of `Outcome`, if the input is
`Sound`. This leaves out four things the code does not get right with snapshots:

* it clears the log on every snapshot, also where the log goes on after it;
* it does not look for conflicts when the request starts inside the snapshot;
* it forgets the term of the snapshot when it gets the same snapshot again, and then
  votes for candidates that lack entries (`repeated_request_loses_entry`).

The fourth, restarts from a log without its snapshot index, is a condition on
crashes and comes with the runs.
-/

namespace DistStudy.Raft

open ReplicatedLog

variable {n : ℕ} {α : Type}

/-- The inputs that keep what the peer has acknowledged. -/
def Sound (rf : Raft n α) : Input n α → Prop
  | .appendEntries args =>
    args.term < rf.currentTerm ∨ rf.snapshotIndex ≤ args.prevLogIndex ∨
      NoConflict rf.logs args.entries
  | .installSnapshot args =>
    args.term < rf.currentTerm ∨ args.data = none ∨ rf.lastLogIndex ≤ args.lastIncludedIndex ∨
      rf.snapshotIndex < args.lastIncludedIndex ∧
        ∀ l ∈ rf.logs, l.index = args.lastIncludedIndex → l.term ≠ args.lastIncludedTerm
  | .snapshotRequest req => req.index ≠ rf.snapshotIndex
  | _ => True

instance (rf : Raft n α) : ∀ input, Decidable (Sound rf input)
  | .appendEntries _ => inferInstanceAs (Decidable (_ ∨ _ ∨ _))
  | .installSnapshot _ => inferInstanceAs (Decidable (_ ∨ _ ∨ _ ∨ _ ∧ _))
  | .snapshotRequest _ => inferInstanceAs (Decidable (_ ≠ _))
  | .requestVote _ | .command _ | .electionTimer | .applyTimer | .heartbeatTimer
  | .broadcastEntriesTimer | .vote _ _ | .appendEntriesReply _ _ _
  | .installSnapshotReply _ _ => inferInstanceAs (Decidable True)

/-! ## Justified effects -/

/-- The ballot `b` of peer `i` is the one in `a`, and no other vote is new since `a₀`. -/
structure Tally (a₀ a : Abstract n α) (i : Fin n) (b : Int × Int) : Prop where
  ballot : b = (a.term i, code (a.vote i (a.term i)))
  votes : ∀ v t, v ≠ i ∨ t ≠ a.term i → a.vote v t = a₀.vote v t

/-- The persister `q`, written by a peer with the snapshot index `snap`. -/
structure Saved (a₀ a : Abstract n α) (i : Fin n) (snap : Int) (q : Persister α) : Prop where
  tally : Tally a₀ a i q.ballot
  stores : (make q : Raft n α).snapshotIndex = snap → Stores (a.log i) (make q : Raft n α)
  disk : DiskSim n a q

/-- An effect other than a write is justified. -/
def Justified (a : Abstract n α) (i : Fin n) (caller : Option (Caller n α)) :
    Effect n α → Prop
  | .save _ => True
  | .call _ call => CallSim a i call
  | .reply reply => ∀ c, caller = some c → ReplySim a i c.call reply
  | .apply msg => Sent a msg
  | .started _ _ _ => True

/-- The term, the log and the votes of the peer are the same. -/
structure Same (i : Fin n) (a a' : Abstract n α) : Prop where
  term : a'.term i = a.term i
  log : a'.log i = a.log i
  vote : a'.vote = a.vote

section

variable {a₀ a a' : Abstract n α} {i : Fin n} {caller : Option (Caller n α)} {snap : Int}

theorem Justified.mono (hle : a ≤ a') {e : Effect n α} (h : Justified a i caller e) :
    Justified a' i caller e := by
  cases e with
  | save => trivial
  | call server call => exact CallSim.mono hle h
  | reply reply => exact fun c hc => (h c hc).mono hle
  | apply msg => exact Sent.mono hle h
  | started => trivial

theorem Same.refl : Same i a a := ⟨rfl, rfl, rfl⟩

theorem Same.trans {a'' : Abstract n α} (h : Same i a a') (h' : Same i a' a'') : Same i a a'' :=
  ⟨h'.term.trans h.term, h'.log.trans h.log, h'.vote.trans h.vote⟩

theorem Tally.same {b : Int × Int} (h : Tally a₀ a i b) (hs : Same i a a') : Tally a₀ a' i b := by
  refine ⟨?_, fun v t hvt => ?_⟩
  · rw [hs.vote, hs.term]
    exact h.ballot
  · rw [hs.vote]
    rw [hs.term] at hvt
    exact h.votes v t hvt

theorem Saved.same (hle : a ≤ a') (hs : Same i a a') {q : Persister α}
    (h : Saved a₀ a i snap q) : Saved a₀ a' i snap q :=
  ⟨h.tally.same hs, by rw [hs.log]; exact h.stores, h.disk.mono hle⟩

end

/-- The effects of peer `i`, which handles the call of `caller`, as moves from `a`. -/
inductive Path (a₀ : Abstract n α) (i : Fin n) (caller : Option (Caller n α)) (snap : Int) :
    Abstract n α → List (Effect n α) → Abstract n α → Prop
  | nil (a : Abstract n α) : Path a₀ i caller snap a [] a
  | save {a a₁ a' : Abstract n α} {q : Persister α} {es : List (Effect n α)}
      (hm : Moves i a a₁) (hq : Saved a₀ a₁ i snap q) (hp : Path a₀ i caller snap a₁ es a') :
      Path a₀ i caller snap a (.save q :: es) a'
  | other {a a₁ a' : Abstract n α} {e : Effect n α} {es : List (Effect n α)}
      (hm : Moves i a a₁) (hs : Same i a a₁) (hns : ∀ q, e ≠ .save q)
      (he : Justified a₁ i caller e) (hp : Path a₀ i caller snap a₁ es a') :
      Path a₀ i caller snap a (e :: es) a'

namespace Path

variable {a₀ a a₁ a' : Abstract n α} {i : Fin n} {caller : Option (Caller n α)} {snap : Int}
  {es es' : List (Effect n α)}

theorem append (h : Path a₀ i caller snap a es a₁) (h' : Path a₀ i caller snap a₁ es' a') :
    Path a₀ i caller snap a (es ++ es') a' := by
  induction h with
  | nil => exact h'
  | save hm hq _ ih => exact .save hm hq (ih h')
  | other hm hs hns he _ ih => exact .other hm hs hns he (ih h')

theorem take (h : Path a₀ i caller snap a es a') (k : ℕ) :
    ∃ a₁, Path a₀ i caller snap a (es.take k) a₁ := by
  induction h generalizing k with
  | nil => exact ⟨_, by rw [List.take_nil]; exact .nil _⟩
  | save hm hq _ ih =>
    cases k with
    | zero => exact ⟨_, .nil _⟩
    | succ k =>
      rcases ih k with ⟨a₂, h₂⟩
      exact ⟨a₂, .save hm hq h₂⟩
  | other hm hs hns he _ ih =>
    cases k with
    | zero => exact ⟨_, .nil _⟩
    | succ k =>
      rcases ih k with ⟨a₂, h₂⟩
      exact ⟨a₂, .other hm hs hns he h₂⟩

/-- Effects other than writes, justified after moves that keep the term, the log and
the votes. -/
theorem quiet (a₀ : Abstract n α) (snap : Int) (hm : Moves i a a₁) (hs : Same i a a₁)
    (hes : ∀ e ∈ es, (∀ q, e ≠ .save q) ∧ Justified a₁ i caller e) :
    ∃ a₂, Path a₀ i caller snap a es a₂ ∧ Moves i a₂ a₁ ∧ Same i a₂ a₁ := by
  have hrest : ∀ es : List (Effect n α), (∀ e ∈ es, (∀ q, e ≠ .save q) ∧ Justified a₁ i caller e) →
      Path a₀ i caller snap a₁ es a₁ := by
    intro es hes
    induction es with
    | nil => exact .nil _
    | cons e es ih =>
      obtain ⟨hns, he⟩ := hes e (by simp)
      exact .other .refl Same.refl hns he (ih fun e' he' => hes e' (by simp [he']))
  cases es with
  | nil => exact ⟨a, .nil _, hm, hs⟩
  | cons e es =>
    obtain ⟨hns, he⟩ := hes e (by simp)
    exact ⟨a₁, .other hm hs hns he (hrest es fun e' he' => hes e' (by simp [he'])), .refl, Same.refl⟩

/-- The persister and the network after the effects of a path. -/
theorem spec (ha : Inv a) (h : Path a₀ i caller snap a es a') (p : Persister α) :
    Moves i a a' ∧ (∀ e ∈ es, Justified a' i caller e) ∧
      (savesOf es = [] ∧ Same i a a' ∨
        savesOf es ≠ [] ∧ Saved a₀ a' i snap (lastSave p es)) := by
  induction h generalizing p with
  | nil => exact ⟨.refl, by simp, Or.inl ⟨rfl, Same.refl⟩⟩
  | @save a a₁ a' q es hm hq hp ih =>
    obtain ⟨hm', hes, hsave⟩ := ih (hm.inv ha) q
    have hle := hm'.le (hm.inv ha)
    refine ⟨hm.trans hm', fun e he => ?_, Or.inr ⟨by simp [savesOf], ?_⟩⟩
    · rcases List.mem_cons.mp he with rfl | he
      · trivial
      · exact hes e he
    · rw [lastSave_save]
      rcases hsave with ⟨hnil, hsame⟩ | ⟨-, hsaved⟩
      · have hlast : lastSave q es = q := by simp [lastSave, hnil]
        rw [hlast]
        exact hq.same hle hsame
      · exact hsaved
  | @other a a₁ a' e es hm hs hns he hp ih =>
    obtain ⟨hm', hes, hsave⟩ := ih (hm.inv ha) p
    have hle := hm'.le (hm.inv ha)
    have hnone : savesOf (e :: es) = savesOf es := by
      cases e with
      | save q => exact absurd rfl (hns q)
      | _ => rfl
    refine ⟨hm.trans hm', fun e' he' => ?_, ?_⟩
    · rcases List.mem_cons.mp he' with rfl | he'
      · exact he.mono hle
      · exact hes e' he'
    · rw [hnone, lastSave_cons p e es hns]
      rcases hsave with ⟨hnil, hsame⟩ | ⟨hne, hsaved⟩
      · exact Or.inl ⟨hnil, hs.trans hsame⟩
      · exact Or.inr ⟨hne, hsaved⟩

end Path

/-! ## What is written to the persister -/

/-- The memory `r` has the log of `rf`, with its snapshot index or without one. -/
structure Restores (rf r : Raft n α) : Prop where
  logs : r.logs = rf.logs
  snapshot : r.snapshotIndex = rf.snapshotIndex ∧ r.snapshotTerm = rf.snapshotTerm ∨
    r.snapshotIndex = 0 ∧ r.snapshotTerm = 0

theorem restores_persisted (rf : Raft n α) : Restores rf (make rf.persisted) := by
  unfold persisted
  split_ifs
  · exact ⟨rfl, Or.inl ⟨rfl, rfl⟩⟩
  · exact ⟨rfl, Or.inr ⟨rfl, rfl⟩⟩

theorem restores_installed (rf : Raft n α) (data : GoBytes) :
    Restores rf (make (rf.installed data)) :=
  ⟨rfl, Or.inr ⟨rfl, rfl⟩⟩

section

variable {a₀ a : Abstract n α} {i : Fin n} {F : List (Entry Int α)} {rf r : Raft n α}

theorem Restores.stores (h : Restores rf r) (hF : Stores F rf)
    (hi : r.snapshotIndex = rf.snapshotIndex) : Stores F r := by
  rcases h.snapshot with ⟨-, ht⟩ | ⟨h0, ht⟩
  · exact hF.congr hi ht h.logs
  · refine ⟨by rw [hi]; exact hF.nonneg, by rw [hi]; exact hF.le,
      by rw [h.logs, hi]; exact hF.logs, ?_⟩
    rw [h0, ht]
    simp [TermAt]

/-- A log that is restored without its snapshot index is not contiguous, or empty. -/
theorem Restores.rooted (h : Restores rf r) (hF : Stores F rf) (hr : a.Rooted F)
    (hal : Aligned r) : ∃ F', a.Rooted F' ∧ Stores F' r := by
  by_cases hi : r.snapshotIndex = rf.snapshotIndex
  · exact ⟨F, hr, h.stores hF hi⟩
  obtain ⟨h0, ht⟩ : r.snapshotIndex = 0 ∧ r.snapshotTerm = 0 := by
    rcases h.snapshot with ⟨hi', -⟩ | h0
    · exact absurd hi' hi
    · exact h0
  have hnil : r.logs = [] := by
    refine List.eq_nil_iff_forall_not_mem.mpr fun l hl => ?_
    -- the first entry would come right after 0 and after the snapshot
    cases hhead : r.logs.head? with
    | none => simp [List.head?_eq_none_iff.mp hhead] at hl
    | some l₀ =>
      have h₁ := hal.contiguous.head?_eq hhead
      rw [h.logs] at hhead
      have h₂ := hF.aligned.contiguous.head?_eq hhead
      omega
  exact ⟨[], State.rooted_nil, by rw [h0], by rw [h0]; simp, by rw [hnil]; simp [indexed],
    by rw [h0, ht]; simp [TermAt]⟩

/-- A record of the peer's log is a correct write. -/
theorem Saved.of_restores (ha : Inv a) (hF : Stores (a.log i) rf) {q : Persister α}
    (hq : Restores rf (make q)) (ht : Tally a₀ a i q.ballot) :
    Saved a₀ a i rf.snapshotIndex q :=
  ⟨ht, hq.stores hF, hq.rooted hF (ha.log_rooted i)⟩

end

/-! ## Followers -/

/-- The memory of a peer that follows. -/
@[simps]
def following (rf : Raft n α) : Raft n α := { rf with status := .follower }

theorem following_eq {rf : Raft n α} (h : rf.status = .follower) : rf.following = rf := by
  rw [following, ← h]

theorem appendSaves_following (rf : Raft n α) (logs news : List (Log α)) :
    appendSaves rf.following logs news = appendSaves rf logs news := by
  induction news generalizing logs with
  | nil => rfl
  | cons val rest ih =>
    simp only [appendSaves, ih]
    rfl

theorem acceptSaves_following (rf : Raft n α) (entries : List (Log α)) :
    rf.following.acceptSaves entries = rf.acceptSaves entries := by
  unfold acceptSaves
  rw [appendSaves_following]
  rfl

/-! ## The state of a peer between two moves -/

/-- The memory `rf` is that of peer `i` in `a`, which has the votes of `a₀`. -/
structure Ready (a₀ a : Abstract n α) (i : Fin n) (rf : Raft n α) : Prop where
  inv : Inv a
  positive : Positive a
  memory : MemSim a i rf
  votes : a.vote = a₀.vote
  voted : rf.votedFor = code (a.vote i rf.currentTerm)

/-- The effects of an event follow a path, and its memory is reached from there. -/
def Follows (a₀ a : Abstract n α) (i : Fin n) (caller : Option (Caller n α)) (snap : Int)
    (es : List (Effect n α)) (res : Option (Raft n α)) : Prop :=
  ∃ a₁, Path a₀ i caller snap a es a₁ ∧ ∀ rf', res = some rf' → ∃ a₂, Moves i a₁ a₂ ∧
    Tally a₀ a₂ i rf'.ballot ∧ MemSim a₂ i rf' ∧ ∀ msg, .apply msg ∈ es → Covered a₂ i msg.index

/-- The parts of a memory that the relation reads. -/
theorem MemSim.congr {a : Abstract n α} {i : Fin n} {rf rf' : Raft n α} (h : MemSim a i rf)
    (hterm : rf'.currentTerm = rf.currentTerm) (hlogs : rf'.logs = rf.logs)
    (hindex : rf'.snapshotIndex = rf.snapshotIndex) (hsterm : rf'.snapshotTerm = rf.snapshotTerm)
    (hcommit : rf'.commitIndex = rf.commitIndex) (happlied : rf'.lastApplied = rf.lastApplied)
    (hstatus : rf'.status = .follower ∨
      rf'.status = rf.status ∧ rf'.matchIndex = rf.matchIndex) : MemSim a i rf' := by
  refine ⟨by rw [hterm]; exact h.term, h.stores.congr hindex hsterm hlogs,
    by rw [hcommit]; exact h.commit, by rw [happlied]; exact h.applied,
    by rw [hindex]; exact h.snapshot, fun hs => ?_, fun hs => ?_⟩
  · rcases hstatus with hf | ⟨hst, hmatch⟩
    · rw [hf] at hs
      cases hs
    · rw [hterm, hmatch]
      exact h.leader (hst.symm.trans hs)
  · rcases hstatus with hf | ⟨hst, -⟩
    · rw [hf] at hs
      cases hs
    · rw [hterm]
      exact h.candidate (hst.symm.trans hs)

namespace Ready

variable {a₀ a : Abstract n α} {i : Fin n} {rf rf' : Raft n α} {caller : Option (Caller n α)}
  {es : List (Effect n α)}

theorem tally (h : Ready a₀ a i rf) : Tally a₀ a i rf.ballot := by
  refine ⟨?_, fun v t _ => by rw [h.votes]⟩
  rw [ballot, h.memory.term, h.voted]

/-- No vote in a term that was not reached. -/
theorem vote_none (h : Ready a₀ a i rf) {t : Int} (ht : rf.currentTerm < t) :
    a.vote i t = none := by
  rw [Option.eq_none_iff_forall_ne_some]
  intro c hc
  have hle := h.inv.vote_le hc
  rw [h.memory.term] at hle
  omega

/-- An event without writes that leaves the ballot. -/
theorem quiet (h : Ready a₀ a i rf) {a₁ : Abstract n α} (hm : Moves i a a₁) (hs : Same i a a₁)
    (hes : ∀ e ∈ es, (∀ q, e ≠ .save q) ∧ Justified a₁ i caller e)
    (hb : rf'.ballot = rf.ballot) (hmem : MemSim a₁ i rf')
    (hmsg : ∀ msg, .apply msg ∈ es → Covered a₁ i msg.index) :
    Follows a₀ a i caller rf.snapshotIndex es (some rf') := by
  rcases Path.quiet a₀ rf.snapshotIndex hm hs hes with ⟨a₂, hp, hm₂, -⟩
  refine ⟨a₂, hp, fun rf'' heq => ?_⟩
  obtain rfl := Option.some.inj heq
  exact ⟨a₁, hm₂, by rw [hb]; exact h.tally.same hs, hmem, hmsg⟩

/-- The write of a memory with the peer's term, vote and log. -/
theorem saved (h : Ready a₀ a i rf) : Saved a₀ a i rf.snapshotIndex rf.persisted :=
  .of_restores h.inv h.memory.stores (restores_persisted rf) (by simpa using h.tally)

/-- A higher term is learned and written. -/
theorem steppedDown (h : Ready a₀ a i rf) {t : Int} (ht : rf.currentTerm < t) :
    Moves i a (a.bump i t) ∧ Ready a₀ (a.bump i t) i (rf.steppedDown t) := by
  have hstep : Step a i (a.bump i t) := .bump t (by rw [h.memory.term]; exact ht)
  have hm : Moves i a (a.bump i t) := .single hstep
  have hmem : MemSim (a.bump i t) i (rf.steppedDown t) := by
    refine ⟨by simp, h.memory.stores.congr rfl rfl rfl, h.memory.commit.moves h.inv hm,
      h.memory.applied.moves h.inv hm, h.memory.snapshot.moves h.inv hm, fun hs => ?_, fun hs => ?_⟩
    · cases hs
    · cases hs
  refine ⟨hm, hm.inv h.inv, Moves.positive h.positive hm, hmem, h.votes, ?_⟩
  show -1 = code (a.vote i t)
  rw [h.vote_none ht]
  rfl

/-- Looking at the term of a request. -/
theorem caughtUp (h : Ready a₀ a i rf) (caller : Option (Caller n α)) (t : Int) :
    ∃ a₁, Path a₀ i caller rf.snapshotIndex a (rf.catchUp t) a₁ ∧ Moves i a a₁ ∧
      Ready a₀ a₁ i (rf.caughtUp t) := by
  unfold catchUp Raft.caughtUp
  split_ifs with hgt
  · obtain ⟨hm, hready⟩ := h.steppedDown hgt
    exact ⟨_, .save hm hready.saved (.nil _), hm, hready⟩
  · exact ⟨a, .nil a, .refl, h⟩

/-- A request is handled after its term was looked at. -/
theorem catchUp_follows (h : Ready a₀ a i rf) {t : Int}
    {res : Option (Raft n α)}
    (hrest : ∀ a₁, Moves i a a₁ → Ready a₀ a₁ i (rf.caughtUp t) →
      Follows a₀ a₁ i caller (rf.caughtUp t).snapshotIndex es res) :
    Follows a₀ a i caller rf.snapshotIndex (rf.catchUp t ++ es) res := by
  rcases h.caughtUp caller t with ⟨a₁, hp, hm, hready⟩
  rcases hrest a₁ hm hready with ⟨a₂, hp₂, hres⟩
  rw [(caughtUp_logs rf t).2.1] at hp₂
  refine ⟨a₂, hp.append hp₂, fun rf' hrf' => ?_⟩
  rcases hres rf' hrf' with ⟨a₃, hm₃, htally, hmem, hmsg⟩
  refine ⟨a₃, hm₃, htally, hmem, fun msg hmem' => ?_⟩
  rcases List.mem_append.mp hmem' with hmem' | hmem'
  · unfold catchUp at hmem'
    split_ifs at hmem' <;> simp at hmem'
  · exact hmsg msg hmem'

/-- One write and effects that are justified after it. -/
theorem save_follows {a₁ : Abstract n α} {q : Persister α} (hm : Moves i a a₁)
    (hq : Saved a₀ a₁ i rf.snapshotIndex q)
    (hes : ∀ e ∈ es, (∀ q, e ≠ .save q) ∧ Justified a₁ i caller e)
    (htally : Tally a₀ a₁ i rf'.ballot) (hmem : MemSim a₁ i rf')
    (hmsg : ∀ msg, .apply msg ∉ es) :
    Follows a₀ a i caller rf.snapshotIndex (.save q :: es) (some rf') := by
  rcases Path.quiet a₀ rf.snapshotIndex .refl Same.refl hes with ⟨a₂, hp, hm₂, -⟩
  refine ⟨a₂, .save hm hq hp, fun rf'' heq => ?_⟩
  obtain rfl := Option.some.inj heq
  refine ⟨a₁, hm₂, htally, hmem, fun msg hmem' => ?_⟩
  simp [hmsg] at hmem'

/-! ## Votes -/

/-- The last term of a log that is not empty is positive. -/
theorem lastTerm_pos (h : Ready a₀ a i rf) {F : List (Entry Int α)} (hF : a.Rooted F)
    {t : Int} (ht : TermAt F F.length t) (hne : F ≠ []) : ∃ R y, F = R ++ [y] ∧ y.term = t ∧ 1 ≤ t := by
  rcases List.eq_nil_or_concat F with rfl | ⟨R, y, rfl⟩
  · exact absurd rfl hne
  rw [List.concat_eq_append] at ht hF ⊢
  have hyt : y.term = t := by simpa [TermAt] using ht
  rcases hF R y (List.prefix_refl _) with ⟨c, L, hL, -⟩
  rcases h.inv.lead_bid hL with ⟨l, es, hb, -, -⟩
  exact ⟨R, y, rfl, hyt, by rw [← hyt]; exact h.positive.bid hb⟩

/-- The code's comparison of logs is the protocol's. -/
theorem atLeast_of_upToDate (h : Ready a₀ a i rf) {c : Fin n} {args : RequestVoteArgs}
    {l : List (Entry Int α)} (hl : Asks a c args l) (hu : rf.upToDate args) :
    AtLeast l (a.log i) := by
  by_cases hnil : a.log i = []
  · exact Or.inl hnil
  rcases h.lastTerm_pos (h.inv.log_rooted i) h.memory.stores.lastLogTerm_eq hnil with
    ⟨R, y, hR, hy, hpos⟩
  have hne : l ≠ [] := by
    rintro rfl
    have hle : args.lastLogTerm ≤ 0 := by simpa [TermAt] using hl.term
    rcases hu with hu | ⟨hu, -⟩ <;> omega
  rcases h.lastTerm_pos (h.inv.bid_rooted hl.bid) hl.term hne with ⟨Q, x, hQ, hx, -⟩
  refine Or.inr ⟨Q, x, R, y, hQ, hR, ?_⟩
  have hidx := hl.index
  have hlast := h.memory.stores.lastLogIndex_eq
  rcases hu with hu | ⟨hu, hle⟩
  · exact Or.inl (by omega)
  · exact Or.inr ⟨by omega, by omega⟩

/-- Granting a vote. -/
theorem grant_follows (h : Ready a₀ a i rf) {args : RequestVoteArgs} (hterm : rf.currentTerm = args.term)
    {c : Fin n} (hc : args.candidateId = c) (hnone : a.vote i args.term = none)
    {l : List (Entry Int α)} (hl : Asks a c args l) (hu : rf.upToDate args) (r : RequestVoteReply) :
    Follows a₀ a i caller rf.snapshotIndex
      [.save (rf.voted args.candidateId).persisted, .reply (.requestVote r)]
      (some (rf.voted args.candidateId)) := by
  have hi : a.term i = args.term := by rw [h.memory.term, hterm]
  have hstep : Step a i (a.grant i c) :=
    .grant c l (by rw [hi]; exact hnone) (by rw [hi]; exact hl.bid) (h.atLeast_of_upToDate hl hu)
  have hm : Moves i a (a.grant i c) := .single hstep
  have hmem : MemSim (a.grant i c) i (rf.voted args.candidateId) := by
    have hold : MemSim (a.grant i c) i rf :=
      ⟨h.memory.term, h.memory.stores, h.memory.commit, h.memory.applied, h.memory.snapshot,
        h.memory.leader, h.memory.candidate⟩
    exact hold.congr rfl rfl rfl rfl rfl rfl (Or.inr ⟨rfl, rfl⟩)
  have htally : Tally a₀ (a.grant i c) i (rf.voted args.candidateId).ballot := by
    refine ⟨?_, fun v t hvt => ?_⟩
    · simp [ballot, hi, hterm, hc, code]
    · rw [← h.votes]
      rcases hvt with hv | ht
      · simp [hv]
      · by_cases hv : v = i
        · subst hv
          rw [State.grant_term] at ht
          simp [ht]
        · simp [hv]
  refine save_follows hm ?_ ?_ htally hmem (by simp)
  · exact Saved.of_restores (hm.inv h.inv) hmem.stores (restores_persisted _)
      (by simpa using htally)
  · intro e he
    obtain rfl := List.mem_singleton.mp he
    refine ⟨by simp, fun c' _ args' r' _ hr => ?_⟩
    cases hr

/-! ## Appends -/

/-- A follower takes over a prefix of the leader's log. -/
theorem adopt (h : Ready a₀ a i rf) {c : Fin n} {L P : List (Entry Int α)}
    (hl : a.lead rf.currentTerm = some (c, L)) (hP : P <+: L)
    (hk : ∀ Q, Q <+: a.log i → Q <+: L → Q <+: P) (hb : rf'.ballot = rf.ballot)
    (hf : rf'.status = .follower) (hst : Stores P rf')
    (hcommit : Covered (a.adopt i P) i rf'.commitIndex)
    (happlied : Covered (a.adopt i P) i rf'.lastApplied)
    (hsnap : Covered (a.adopt i P) i rf'.snapshotIndex) :
    Moves i a (a.adopt i P) ∧ Ready a₀ (a.adopt i P) i rf' := by
  have hstep : Step a i (a.adopt i P) := .adopt c L P (by rw [h.memory.term]; exact hl) hP hk
  have hm : Moves i a (a.adopt i P) := .single hstep
  have hterm : rf'.currentTerm = rf.currentTerm := congrArg Prod.fst hb
  have hvoted : rf'.votedFor = rf.votedFor := congrArg Prod.snd hb
  have hmem : MemSim (a.adopt i P) i rf' := by
    refine ⟨h.memory.term.trans hterm.symm, by simpa using hst, hcommit, happlied, hsnap,
      fun hs => ?_, fun hs => ?_⟩ <;> rw [hf] at hs <;> cases hs
  refine ⟨hm, hm.inv h.inv, Moves.positive h.positive hm, hmem, h.votes, ?_⟩
  rw [hvoted, hterm]
  exact h.voted

/-- A follower takes over a prefix of the leader's log and keeps its snapshot. -/
theorem adopt_logs (h : Ready a₀ a i rf) (hf : rf.status = .follower) {c : Fin n}
    {L P : List (Entry Int α)} (hl : a.lead rf.currentTerm = some (c, L)) (hP : P <+: L)
    (hk : ∀ Q, Q <+: a.log i → Q <+: L → Q <+: P)
    (hsP : (a.log i).take rf.snapshotIndex.toNat <+: P) :
    Moves i a (a.adopt i P) ∧
      Ready a₀ (a.adopt i P) i (rf.withLogs ((indexed P).drop rf.snapshotIndex.toNat)) := by
  have hstep : Step a i (a.adopt i P) := .adopt c L P (by rw [h.memory.term]; exact hl) hP hk
  have hm : Moves i a (a.adopt i P) := .single hstep
  exact h.adopt hl hP hk rfl hf (h.memory.stores.replace rfl rfl rfl hsP)
    (h.memory.commit.moves h.inv hm) (h.memory.applied.moves h.inv hm)
    (h.memory.snapshot.moves h.inv hm)

/-- The entries of the leader's log `L₀` after position `k` are appended one by one. -/
theorem append_path (caller : Option (Caller n α)) {c : Fin n} {L L₀ : List (Entry Int α)}
    (hL₀ : L₀ <+: L) (hf : rf.status = .follower) (k : ℕ)
    (hk : k ≤ L₀.length) (hsk : rf.snapshotIndex.toNat ≤ k)
    (h : Ready a₀ a i (rf.withLogs ((indexed (L₀.take k)).drop rf.snapshotIndex.toNat)))
    (hlog : a.log i = L₀.take k) (hl : a.lead rf.currentTerm = some (c, L)) :
    ∃ a₁, Path a₀ i caller rf.snapshotIndex a
        (appendSaves rf ((indexed (L₀.take k)).drop rf.snapshotIndex.toNat) ((indexed L₀).drop k)) a₁ ∧
      Moves i a a₁ ∧ a₁.log i = L₀ ∧ a₁.lead = a.lead ∧
      Ready a₀ a₁ i (rf.withLogs ((indexed L₀).drop rf.snapshotIndex.toNat)) := by
  obtain ⟨m, hm⟩ : ∃ m, m = L₀.length - k := ⟨_, rfl⟩
  -- by induction on the number of entries that are left
  induction m generalizing a k with
  | zero =>
    have hkeq : k = L₀.length := by omega
    have hnil : (indexed L₀).drop k = [] := List.drop_of_length_le (by simp [hkeq])
    have htake : L₀.take k = L₀ := List.take_of_length_le (by omega)
    rw [htake] at h hlog
    rw [hnil]
    exact ⟨a, .nil a, .refl, hlog, rfl, h⟩
  | succ m ih =>
    have hklt : k < (indexed L₀).length := by simpa using (by omega : k < L₀.length)
    have hnext : (indexed (L₀.take k)).drop rf.snapshotIndex.toNat ++ [(indexed L₀)[k]] =
        (indexed (L₀.take (k + 1))).drop rf.snapshotIndex.toNat := by
      rw [indexed_take, indexed_take, List.take_succ_eq_append_getElem hklt,
        List.drop_append_of_le_length]
      rw [List.length_take]
      omega
    rw [List.drop_eq_getElem_cons hklt]
    simp only [appendSaves]
    rw [hnext]
    have hkeep : ∀ Q, Q <+: a.log i → Q <+: L → Q <+: L₀.take (k + 1) := by
      intro Q hQ _
      rw [hlog] at hQ
      exact hQ.trans (List.take_prefix_take_left (by omega))
    have hsP : (a.log i).take rf.snapshotIndex.toNat <+: L₀.take (k + 1) := by
      rw [hlog]
      exact (List.take_prefix _ _).trans (List.take_prefix_take_left (by omega))
    obtain ⟨hmove, hready⟩ := h.adopt_logs hf hl ((List.take_prefix _ _).trans hL₀) hkeep hsP
    rcases ih (k + 1) (by omega) (by omega) hready (by simp) hl (by omega) with
      ⟨a₁, hp, hm₁, hlog₁, hlead₁, hready₁⟩
    exact ⟨a₁, .save hmove hready.saved hp, hmove.trans hm₁, hlog₁, hlead₁, hready₁⟩

/-- The cut of the log, which leaves the complete log `C`. -/
theorem cut_path (h : Ready a₀ a i rf) (caller : Option (Caller n α))
    (hf : rf.status = .follower) {entries : List (Log α)} {c : Fin n}
    {L C : List (Entry Int α)} (hl : a.lead rf.currentTerm = some (c, L))
    (hcut : rf.cut entries = (indexed C).drop rf.snapshotIndex.toNat) (hCF : C <+: a.log i)
    (hsC : (a.log i).take rf.snapshotIndex.toNat <+: C)
    (hkeep : ∀ Q, Q <+: a.log i → Q <+: L → Q <+: C) (hC : C = a.log i ∨ C <+: L) :
    ∃ a₁, Path a₀ i caller rf.snapshotIndex a (rf.cutSaves entries) a₁ ∧ Moves i a a₁ ∧
      a₁.log i = C ∧ a₁.lead = a.lead ∧ Ready a₀ a₁ i (rf.withLogs (rf.cut entries)) := by
  have hlogs := h.memory.stores.logs
  have hsame : rf.cut entries = rf.logs → Ready a₀ a i (rf.withLogs (rf.cut entries)) := by
    intro heq
    rw [heq]
    exact h
  have hlen : rf.snapshotIndex.toNat ≤ C.length := by
    have hle := h.memory.stores.le
    have hC := hsC.length_le
    rw [List.length_take] at hC
    omega
  unfold cutSaves
  cases hfc : firstConflict rf.snapshotIndex rf.logs entries with
  | none =>
    have heq : rf.cut entries = rf.logs := by simp [Raft.cut, hfc]
    have hCeq : C = a.log i := by
      refine hCF.eq_of_length ?_
      have hlens := congrArg List.length (hcut.symm.trans (heq.trans hlogs))
      have hle := hCF.length_le
      simp only [List.length_drop, indexed_length] at hlens
      omega
    exact ⟨a, .nil a, .refl, hCeq.symm, rfl, hsame heq⟩
  | some k =>
    have heq : rf.cut entries = rf.logs.take k := by simp [Raft.cut, hfc]
    show ∃ a₁, Path a₀ i caller rf.snapshotIndex a [.save (rf.withLogs (rf.logs.take k)).persisted] a₁ ∧ _
    rw [← heq]
    rcases hC with rfl | hCL
    · have hready := hsame (hcut.trans hlogs.symm)
      exact ⟨a, .save .refl hready.saved (.nil a), .refl, rfl, rfl, hready⟩
    · obtain ⟨hm, hready⟩ := h.adopt_logs hf hl hCL hkeep hsC
      rw [← hcut] at hready
      exact ⟨_, .save hm hready.saved (.nil _), hm, by simp, rfl, hready⟩

/-- The complete log `C` that the cut leaves: it keeps what the log has in common with
that of the leader. -/
theorem merged (h : Ready a₀ a i rf) {args : AppendEntriesArgs α} {c : Fin n}
    {L L₀ : List (Entry Int α)} (hl : a.lead rf.currentTerm = some (c, L)) (hL₀ : L₀ <+: L)
    (hc : Carries args L₀) (hr : rf.rejects args = none)
    (hok : rf.snapshotIndex ≤ args.prevLogIndex ∨ NoConflict rf.logs args.entries) :
    ∃ C, rf.cut args.entries = (indexed C).drop rf.snapshotIndex.toNat ∧ C <+: a.log i ∧
      (a.log i).take rf.snapshotIndex.toNat <+: C ∧ args.prevLogIndex ≤ C.length ∧
      (∀ Q, Q <+: a.log i → Q <+: L → Q <+: C) ∧ (C = a.log i ∧ L₀ <+: a.log i ∨ C <+: L₀) := by
  -- the snapshot is a settled prefix, so the leader has it
  have hsnap : (a.log i).take rf.snapshotIndex.toNat <+: L :=
    h.inv.settled_prefix h.memory.snapshot.committed.2 (le_of_eq h.memory.term) hl
  have hroot : a.Rooted L₀ := (h.inv.lead_rooted hl).of_isPrefix hL₀
  exact h.memory.stores.merge hc (h.inv.log_rooted i) hroot hsnap hL₀ hr hok

/-- The cut keeps what is committed. -/
theorem commitIndex_le_cut (h : Ready a₀ a i rf) {args : AppendEntriesArgs α} {c : Fin n}
    {L L₀ : List (Entry Int α)} (hl : a.lead rf.currentTerm = some (c, L)) (hL₀ : L₀ <+: L)
    (hc : Carries args L₀) (hr : rf.rejects args = none)
    (hok : rf.snapshotIndex ≤ args.prevLogIndex ∨ NoConflict rf.logs args.entries) :
    rf.commitIndex ≤ rf.snapshotIndex + (rf.cut args.entries).length := by
  rcases h.merged hl hL₀ hc hr hok with ⟨C, hcut, -, -, -, hkeep, -⟩
  rcases h.memory.commit with ⟨Q, hlen, hQ⟩
  have hQC := hkeep Q hQ.1 (h.inv.settled_prefix hQ.2 (le_of_eq h.memory.term) hl)
  have hle := hQC.length_le
  have hs0 := h.memory.stores.nonneg
  rw [hcut, List.length_drop, indexed_length]
  omega

/-- The writes of an accepted append: in the end the peer has the log of the request. -/
theorem accept_path (h : Ready a₀ a i rf) (caller : Option (Caller n α))
    (hf : rf.status = .follower) {args : AppendEntriesArgs α} (hterm : rf.currentTerm = args.term)
    {c : Fin n} {L₀ : List (Entry Int α)} (hA : Appends a c args L₀)
    (hr : rf.rejects args = none)
    (hok : rf.snapshotIndex ≤ args.prevLogIndex ∨ NoConflict rf.logs args.entries) :
    ∃ a₁, Path a₀ i caller rf.snapshotIndex a (rf.acceptSaves args.entries) a₁ ∧ Moves i a a₁ ∧
      L₀ <+: a₁.log i ∧ a₁.lead = a.lead ∧
      Ready a₀ a₁ i (rf.withLogs (rf.cut args.entries ++ rf.news args.entries)) := by
  rcases hA.lead with ⟨L, hl, hL₀⟩
  rw [← hterm] at hl
  have hst := h.memory.stores
  have hs0 := hst.nonneg
  rcases h.merged hl hL₀ hA.carries hr hok with ⟨C, hcut, hCF, hsC, hpC, hkeep, hC⟩
  have hC' : C = a.log i ∨ C <+: L := hC.imp And.left fun hp => hp.trans hL₀
  rcases h.cut_path caller hf hl hcut hCF hsC hkeep hC' with ⟨a₁, hp₁, hm₁, hlog₁, hlead₁, hready₁⟩
  have hsC' : rf.snapshotIndex.toNat ≤ C.length := by
    have hle := hst.le
    have hlen := hsC.length_le
    rw [List.length_take] at hlen
    omega
  have hnews : rf.news args.entries = (indexed L₀).drop C.length := by
    have hlen : ((rf.cut args.entries).length : Int) + rf.snapshotIndex = C.length := by
      rw [hcut, List.length_drop, indexed_length]
      omega
    have hp0 := hA.carries.nonneg
    unfold Raft.news
    rw [hlen, beyond_eq_drop hA.carries.contiguous hpC, hA.carries.entries, List.drop_drop]
    congr 1
    omega
  rcases hC with ⟨rfl, hLF⟩ | hCL
  · -- the request is already in the log
    have hnil : rf.news args.entries = [] := by
      rw [hnews]
      exact List.drop_of_length_le (by simpa using hLF.length_le)
    refine ⟨a₁, ?_, hm₁, by rw [hlog₁]; exact hLF, hlead₁, ?_⟩
    · rw [acceptSaves, hnil]
      simpa [appendSaves] using hp₁
    · rw [hnil, List.append_nil]
      exact hready₁
  · -- the rest of the request is appended
    have htake : L₀.take C.length = C := (List.prefix_iff_eq_take.mp hCL).symm
    have hready₁' : Ready a₀ a₁ i
        (rf.withLogs ((indexed (L₀.take C.length)).drop rf.snapshotIndex.toNat)) := by
      rw [htake, ← hcut]
      exact hready₁
    rcases append_path caller hL₀ hf C.length hCL.length_le hsC' hready₁'
      (by rw [hlog₁, htake]) (by rw [hlead₁]; exact hl) with
      ⟨a₂, hp₂, hm₂, hlog₂, hlead₂, hready₂⟩
    have hend : rf.cut args.entries ++ rf.news args.entries =
        (indexed L₀).drop rf.snapshotIndex.toNat := by
      have hlen : rf.snapshotIndex.toNat ≤ ((indexed L₀).take C.length).length := by
        have hle := hCL.length_le
        rw [List.length_take, indexed_length]
        omega
      have hCeq : indexed C = (indexed L₀).take C.length := by rw [← indexed_take, htake]
      rw [hcut, hnews, hCeq, ← List.drop_append_of_le_length hlen, List.take_append_drop]
    refine ⟨a₂, ?_, hm₁.trans hm₂, by rw [hlog₂], hlead₂.trans hlead₁, ?_⟩
    · rw [acceptSaves, hnews]
      refine hp₁.append ?_
      rw [hcut]
      rw [htake] at hp₂
      exact hp₂
    · rw [hend]
      exact hready₂

theorem following (h : Ready a₀ a i rf) : Ready a₀ a i rf.following :=
  ⟨h.inv, h.positive, h.memory.congr rfl rfl rfl rfl rfl rfl (Or.inl rfl), h.votes, h.voted⟩

/-- The new commit index is settled. -/
theorem commitAfter_covered {args : AppendEntriesArgs α} {c : Fin n} {L₀ : List (Entry Int α)}
    (h : Ready a₀ a i (rf.withLogs (rf.cut args.entries ++ rf.news args.entries)))
    (hterm : rf.currentTerm = args.term) (hA : Appends a c args L₀) (hL₀ : L₀ <+: a.log i) :
    Covered a i (rf.commitAfter args) := by
  unfold commitAfter
  split_ifs with hc
  · rcases hA.commit with ⟨Q, hlen, hQ, hset⟩
    have hcov : Covered a i args.leaderCommit := by
      refine ⟨Q, hlen, hQ.trans hL₀, ?_⟩
      rw [h.memory.term, withLogs_currentTerm, hterm]
      exact hset
    have hbound : ∀ l, (rf.cut args.entries).getLast? = some l → 0 ≤ l.index := by
      intro l hl
      have hmem : l ∈ rf.cut args.entries ++ rf.news args.entries :=
        List.mem_append_left _ (List.mem_of_getLast? hl)
      have hlt := h.memory.stores.aligned.contiguous.lt_index hmem
      exact le_of_lt (lt_of_le_of_lt h.memory.stores.nonneg hlt)
    refine hcov.of_le ?_ (min_le_left _ _)
    refine le_min (by omega) ?_
    cases hl : (rf.cut args.entries).getLast? with
    | none => simp [maxInt]
    | some l => exact hbound l hl
  · exact h.memory.commit

/-- An accepted append. -/
theorem accept_follows (h : Ready a₀ a i rf) {args : AppendEntriesArgs α}
    (hterm : rf.currentTerm = args.term) {c : Fin n} {L₀ : List (Entry Int α)}
    (hA : Appends a c args L₀) (hr : rf.rejects args = none)
    (hok : rf.snapshotIndex ≤ args.prevLogIndex ∨ NoConflict rf.logs args.entries)
    (hcaller : ∀ c', caller = some c' → c'.call = .appendEntries args) :
    Follows a₀ a i caller rf.snapshotIndex
      (rf.acceptSaves args.entries ++
        [.reply (.appendEntries { term := args.term, success := true })])
      (some (rf.accepted args).following) := by
  rcases h.following.accept_path caller rfl hterm hA hr hok with
    ⟨a₁, hp, hm, hL₀, hlead, hready⟩
  rw [acceptSaves_following] at hp
  have hA₁ : Appends a₁ c args L₀ := hA.mono (hm.le h.inv)
  have hcommit : Covered a₁ i (rf.following.commitAfter args) :=
    commitAfter_covered hready hterm hA₁ hL₀
  -- the acknowledgement
  rcases hA₁.lead with ⟨L, hl, hLL⟩
  have hack : Step a₁ i (a₁.acknowledge i L₀) := by
    refine .acknowledge c L L₀ ?_ hLL hL₀
    rw [hready.memory.term]
    exact hterm ▸ hl
  have hm₂ : Moves i a₁ (a₁.acknowledge i L₀) := .single hack
  have hmem : MemSim (a₁.acknowledge i L₀) i (rf.accepted args).following := by
    refine ⟨hready.memory.term, hready.memory.stores.congr rfl rfl rfl,
      hcommit.moves hready.inv hm₂, hready.memory.applied.moves hready.inv hm₂,
      hready.memory.snapshot.moves hready.inv hm₂, fun hs => ?_, fun hs => ?_⟩ <;> cases hs
  refine ⟨_, hp.append (.other hm₂ ⟨rfl, rfl, rfl⟩ (by simp) ?_ (.nil _)), fun rf' hrf' => ?_⟩
  · intro c' hc' args' r' hcall hr' _
    obtain rfl : args = args' := by
      rw [hcaller c' hc'] at hcall
      exact Call.appendEntries.inj hcall
    obtain rfl := Reply.appendEntries.inj hr'
    refine ⟨rfl, L₀, hA.carries, Or.inr ⟨rfl, ?_, rfl⟩⟩
    rw [hready.memory.term]
    exact hterm.symm
  · obtain rfl := Option.some.inj hrf'
    refine ⟨_, .refl, ?_, hmem, fun msg hmsg => ?_⟩
    · exact hready.tally.same ⟨rfl, rfl, rfl⟩
    · rcases List.mem_append.mp hmsg with hmsg | hmsg
      · rcases acceptSaves_saves _ _ _ hmsg with ⟨j, heq⟩
        simp at heq
      · simp at hmsg

end Ready

end DistStudy.Raft
