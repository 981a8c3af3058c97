import DistStudy.Raft.Deliveries

/-!
# The test harness

`raft/config.go` runs a cluster and watches it. For every incarnation of a
server a goroutine (`applier`) reads what it sends on `applyCh`, compares each
command with what any server has delivered at that index before (`checkLogs`) and
ends the process with `log.Fatalf` when it finds a difference or a gap. The test
itself counts the servers that have delivered an index (`nCommitted`) and looks
for leaders (`checkOneLeader`).

A `Test` is a cluster with its readers. They may lag behind the cluster and
behind each other, and the reader of an incarnation that has crashed still handles
what it was sent.

* `applier_never_fails`: without snapshots no reader ever ends the process;
* `nCommitted_agrees`: `nCommitted` never finds two values, and what it has once
  found, it finds ever after;
* `checkOneLeader_sound`: `checkOneLeader` never finds two leaders of one term,
  and returns the one of the latest term that it has seen.
-/

namespace DistStudy.Raft

variable {n : ℕ} {α : Type}

/-! ## Readers -/

/-- The part of `config` that the readers share: a copy of each server's committed
entries, and the highest index among them. -/
structure Config (n : ℕ) (α : Type) where
  logs : Fin n → Int → Option α
  maxIndex : Int

namespace Config

variable [DecidableEq α] [ToString α]

/-- Returns the error message, empty if there is none, and whether server `i` has
delivered the index before. -/
def checkLogs (cfg : Config n α) (i : Fin n) (v : α) (commandIndex : Int) :
    (String × Bool) × Config n α :=
  let errMsg := (List.finRange n).foldl (fun errMsg j =>
    match cfg.logs j commandIndex with
    | some old =>
      if old ≠ v then
        s!"commit index={commandIndex} server={i} {v} != server={j} {old}"
      else errMsg
    | none => errMsg) ""
  let prevok := (cfg.logs i (commandIndex - 1)).isSome
  ((errMsg, prevok),
    { logs := Function.update cfg.logs i (Function.update (cfg.logs i) commandIndex (some v))
      maxIndex := if commandIndex > cfg.maxIndex then commandIndex else cfg.maxIndex })

/-- The body of the loop of `applier`; an error is what `log.Fatalf` prints. -/
def applier (cfg : Config n α) (i : Fin n) : ApplyMsg α → Except String (Config n α)
  | .snapshot _ _ _ => .ok cfg
  | .command command commandIndex =>
    let ((errMsg, prevok), cfg') := cfg.checkLogs i command commandIndex
    let errMsg :=
      if commandIndex > 1 ∧ prevok = false then s!"server {i} apply out of order {commandIndex}"
      else errMsg
    if errMsg ≠ "" then .error s!"apply error: {errMsg}" else .ok cfg'

/-- The configuration after server `i` has delivered `v` at the index `d`. -/
def record (cfg : Config n α) (i : Fin n) (v : α) (d : Int) : Config n α :=
  (cfg.checkLogs i v d).2

theorem record_logs (cfg : Config n α) (i : Fin n) (v : α) (d : Int) (j : Fin n) (d' : Int) :
    (cfg.record i v d).logs j d' = if j = i ∧ d' = d then some v else cfg.logs j d' := by
  show Function.update cfg.logs i (Function.update (cfg.logs i) d (some v)) j d' = _
  by_cases hj : j = i
  · subst hj
    by_cases hd : d' = d <;> simp [hd]
  · simp [hj]

/-- A command that agrees with all logs and follows the server's last one passes. -/
theorem applier_eq_ok {cfg : Config n α} {i : Fin n} {v : α} {d : Int}
    (hagree : ∀ j old, cfg.logs j d = some old → old = v)
    (hprev : 1 < d → (cfg.logs i (d - 1)).isSome) :
    cfg.applier i (.command v d) = .ok (cfg.record i v d) := by
  have hfold : ∀ servers : List (Fin n), servers.foldl (fun errMsg j =>
      match cfg.logs j d with
      | some old =>
        if old ≠ v then s!"commit index={d} server={i} {v} != server={j} {old}" else errMsg
      | none => errMsg) "" = "" := by
    intro servers
    induction servers with
    | nil => rfl
    | cons j servers ih =>
      rw [List.foldl_cons]
      cases hj : cfg.logs j d with
      | none => exact ih
      | some old =>
        have hold : ¬ old ≠ v := not_not.mpr (hagree j old hj)
        simpa only [if_neg hold] using ih
  have hchecked : (cfg.checkLogs i v d).1.1 = "" := hfold (List.finRange n)
  have hgap : ¬ (d > 1 ∧ (cfg.checkLogs i v d).1.2 = false) := by
    rintro ⟨hd, hnone⟩
    have hnone : (cfg.logs i (d - 1)).isSome = false := hnone
    rw [hprev hd] at hnone
    cases hnone
  show (if (if d > 1 ∧ (cfg.checkLogs i v d).1.2 = false then
      s!"server {i} apply out of order {d}" else (cfg.checkLogs i v d).1.1) ≠ "" then _ else _) = _
  rw [if_neg hgap, hchecked, if_neg (by simp)]
  rfl

end Config

/-! ## A cluster under test -/

structure Test (n : ℕ) (α : Type) where
  world : World n α
  cfg : Config n α
  /-- How many messages the reader of each incarnation has handled. -/
  read : Fin n → ℕ → ℕ
  /-- What a reader has printed when it ended the process. -/
  fatal : Option String

inductive TestEvent (n : ℕ) (α : Type) where
  | cluster (event : Event n α)
  /-- The reader of an incarnation of the server handles its next message. -/
  | read (server : Fin n) (incarnation : ℕ)

namespace Test

variable [DecidableEq α] [ToString α]

/-- The reader of incarnation `k` of server `i` handles `msg`. -/
def handle (t : Test n α) (i : Fin n) (k : ℕ) (msg : ApplyMsg α) : Test n α :=
  match t.cfg.applier i msg with
  | .ok cfg =>
    { t with
      cfg := cfg
      read := Function.update t.read i (Function.update (t.read i) k (t.read i k + 1)) }
  | .error err => { t with fatal := some err }

def step (t : Test n α) : TestEvent n α → Option (Test n α)
  | .cluster event =>
    if t.fatal = none then (t.world.step event).map fun w => { t with world := w } else none
  | .read i k =>
    if t.fatal = none then ((t.world.server i).stream k)[t.read i k]?.map (t.handle i k) else none

def init : Test n α where
  world := World.init
  cfg := { logs := fun _ _ => none, maxIndex := 0 }
  read := fun _ _ => 0
  fatal := none

/-- The test never calls `Snapshot`. -/
def quiet (t : Test n α) : TestEvent n α → Prop
  | .cluster event => noSnapshots.Allows t.world event
  | .read _ _ => True

instance (t : Test n α) : ∀ event, Decidable (t.quiet event)
  | .cluster event => inferInstanceAs (Decidable (noSnapshots.Allows t.world event))
  | .read _ _ => inferInstanceAs (Decidable True)

/-- The cluster of a test is a cluster. -/
theorem run_world {e : Behavior (Test n α)} (he : Runs init step quiet e) :
    Run noSnapshots.Allows fun k => (e k).world := by
  refine ⟨by rw [he.start]; rfl, fun k => ?_⟩
  rcases he.next k with hstut | ⟨event, hC, hstep⟩
  · left
    rw [hstut]
  · cases event with
    | cluster event =>
      simp only [step] at hstep
      split_ifs at hstep
      rcases Option.map_eq_some_iff.mp hstep with ⟨w, hw, heq⟩
      right
      refine ⟨event, hC, ?_⟩
      rw [hw, ← heq]
    | read i m =>
      left
      simp only [step] at hstep
      split_ifs at hstep
      rcases Option.map_eq_some_iff.mp hstep with ⟨msg, -, heq⟩
      rw [← heq]
      unfold handle
      split <;> rfl

/-- What is known of the streams of a cluster without snapshots. -/
structure Streams (t : Test n α) : Prop where
  numbered : ∀ i k (p : ℕ) (msg : ApplyMsg α), ((t.world.server i).stream k)[p]? = some msg →
    ∃ c, msg = .command c (p + 1)
  agree : ∀ i j k k' (c c' : α) d, .command c d ∈ (t.world.server i).stream k →
    .command c' d ∈ (t.world.server j).stream k' → c = c'

theorem streams {e : Behavior (Test n α)} (he : Runs init step quiet e) (t : ℕ) :
    Streams (e t) := by
  have hrun := run_world he
  constructor
  · intro i k p msg hp
    exact hrun.stream_getElem? t i k hp
  · intro i j k k' c c' d hc hc'
    rcases hrun.sound_of_noSnapshots.sim (le_refl t) with ⟨a, -, -, h, -⟩
    rcases Server.exists_of_mem_stream hc with ⟨s, hs, hmem⟩
    rcases Server.exists_of_mem_stream hc' with ⟨s', hs', hmem'⟩
    exact Sent.command_eq h.inv ((h.servers i).sent s hs _ hmem) ((h.servers j).sent s' hs' _ hmem')

/-- The readers have recorded what they have read, and nothing else. -/
structure Recorded (t : Test n α) : Prop where
  running : t.fatal = none
  read : ∀ i k p, p < t.read i k →
    ∃ c, ((t.world.server i).stream k)[p]? = some (.command c (p + 1)) ∧
      t.cfg.logs i (p + 1) = some c
  logs : ∀ i d c, t.cfg.logs i d = some c → ∃ k, .command c d ∈ (t.world.server i).stream k

namespace Recorded

variable {t t' : Test n α} {i : Fin n} {k : ℕ} {msg : ApplyMsg α}

/-- The next message of a reader passes its checks. -/
theorem handle_eq (h : Recorded t) (hw : Streams t)
    (hmsg : ((t.world.server i).stream k)[t.read i k]? = some msg) :
    ∃ c, msg = .command c (t.read i k + 1) ∧
      (∀ j old, t.cfg.logs j (t.read i k + 1) = some old → old = c) ∧
      t.cfg.applier i msg = .ok (t.cfg.record i c (t.read i k + 1)) := by
  rcases hw.numbered i k _ msg hmsg with ⟨c, rfl⟩
  have hagree : ∀ j old, t.cfg.logs j (t.read i k + 1) = some old → old = c := by
    intro j old hold
    rcases h.logs j _ old hold with ⟨m, hm⟩
    exact hw.agree j i m k old c _ hm (List.mem_of_getElem? hmsg)
  refine ⟨c, rfl, hagree, Config.applier_eq_ok hagree fun hlt => ?_⟩
  -- the reader has recorded the message before
  rcases h.read i k (t.read i k - 1) (by omega) with ⟨c', -, hc'⟩
  have hprev : ((t.read i k - 1 : ℕ) : Int) + 1 = t.read i k + 1 - 1 := by omega
  rw [hprev] at hc'
  rw [hc']
  rfl

omit [DecidableEq α] [ToString α] in
/-- The cluster moves on. -/
theorem cluster (h : Recorded t) {w : World n α} {event : Event n α}
    (hs : Steps t.world event w) : Recorded { t with world := w } := by
  refine ⟨h.running, fun i k p hp => ?_, fun i d c hc => ?_⟩
  · rcases h.read i k p hp with ⟨c, hget, hlog⟩
    exact ⟨c, getElem?_of_isPrefix (hs.stream_isPrefix i k) hget, hlog⟩
  · rcases h.logs i d c hc with ⟨k, hmem⟩
    exact ⟨k, (hs.stream_isPrefix i k).subset hmem⟩

/-- A reader handles its next message. -/
theorem handle (h : Recorded t) (hw : Streams t)
    (hmsg : ((t.world.server i).stream k)[t.read i k]? = some msg) :
    Recorded (t.handle i k msg) := by
  rcases h.handle_eq hw hmsg with ⟨c, rfl, hagree, hok⟩
  unfold Test.handle
  rw [hok]
  refine ⟨h.running, fun j m p hp => ?_, fun j d c' hc' => ?_⟩
  · -- what was read before keeps its value
    have hkept : ∀ v, t.cfg.logs j (p + 1) = some v →
        (t.cfg.record i c (t.read i k + 1)).logs j (p + 1) = some v := by
      intro v hv
      rw [Config.record_logs]
      split_ifs with hsame
      · rw [hsame.2] at hv
        rw [hagree j v hv]
      · exact hv
    by_cases hnew : j = i ∧ m = k ∧ p = t.read i k
    · rcases hnew with ⟨rfl, rfl, rfl⟩
      exact ⟨c, hmsg, by rw [Config.record_logs, if_pos ⟨rfl, rfl⟩]⟩
    · have hold : p < t.read j m := by
        by_cases hj : j = i
        · subst hj
          by_cases hm : m = k
          · subst hm
            simp only [Function.update_self] at hp
            omega
          · simpa [hm] using hp
        · simpa [hj] using hp
      rcases h.read j m p hold with ⟨v, hget, hlog⟩
      exact ⟨v, hget, hkept v hlog⟩
  · rw [Config.record_logs] at hc'
    split_ifs at hc' with hsame
    · rcases hsame with ⟨rfl, rfl⟩
      obtain rfl := Option.some.inj hc'
      exact ⟨k, List.mem_of_getElem? hmsg⟩
    · exact h.logs j d c' hc'

theorem step (h : Recorded t) (hw : Streams t) {event : TestEvent n α}
    (hs : t.step event = some t') : Recorded t' := by
  cases event with
  | cluster event =>
    simp only [Test.step, if_pos h.running] at hs
    rcases Option.map_eq_some_iff.mp hs with ⟨w, hw', rfl⟩
    exact h.cluster (steps_of_step hw')
  | read i k =>
    simp only [Test.step, if_pos h.running] at hs
    rcases Option.map_eq_some_iff.mp hs with ⟨msg, hmsg, rfl⟩
    exact h.handle hw hmsg

end Recorded

theorem recorded {e : Behavior (Test n α)} (he : Runs init step quiet e) (t : ℕ) :
    Recorded (e t) := by
  refine he.invariant_of (streams he) Recorded ⟨rfl, ?_, ?_⟩ ?_ t
  · intro i k p hp
    cases hp
  · intro i d c hc
    cases hc
  · intro t event t' hw h _ hs
    exact h.step hw hs

/-- What is recorded stays. -/
theorem logs_mono {e : Behavior (Test n α)} (he : Runs init step quiet e) {t t' : ℕ} (ht : t ≤ t')
    {i : Fin n} {d : Int} {c : α} (hc : (e t).cfg.logs i d = some c) :
    (e t').cfg.logs i d = some c := by
  induction t', ht using Nat.le_induction with
  | base => exact hc
  | succ t' _ ih =>
    rcases he.next t' with hstut | ⟨event, -, hstep⟩
    · rw [hstut]
      exact ih
    have h := recorded he t'
    cases event with
    | cluster event =>
      simp only [step, if_pos h.running] at hstep
      rcases Option.map_eq_some_iff.mp hstep with ⟨w, -, heq⟩
      rw [← heq]
      exact ih
    | read j k =>
      simp only [step, if_pos h.running] at hstep
      rcases Option.map_eq_some_iff.mp hstep with ⟨msg, hmsg, heq⟩
      rcases h.handle_eq (streams he t') hmsg with ⟨c', rfl, hagree, hok⟩
      rw [← heq, handle, hok]
      show (Config.record _ _ _ _).logs i d = some c
      rw [Config.record_logs]
      split_ifs with hsame
      · rw [hsame.2] at ih
        rw [hagree i c ih]
      · exact ih

/-- The readers of any servers have recorded one command for an index, at any times. -/
theorem logs_agree {e : Behavior (Test n α)} (he : Runs init step quiet e) {t t' : ℕ} {i j : Fin n}
    {d : Int} {c c' : α} (hc : (e t).cfg.logs i d = some c) (hc' : (e t').cfg.logs j d = some c') :
    c = c' := by
  have h := recorded he (max t t')
  rcases h.logs i d c (logs_mono he (le_max_left t t') hc) with ⟨k, hk⟩
  rcases h.logs j d c' (logs_mono he (le_max_right t t') hc') with ⟨k', hk'⟩
  exact (streams he (max t t')).agree i j k k' c c' d hk hk'

end Test

section

variable [DecidableEq α] [ToString α] {e : Behavior (Test n α)}

/-- In a test that never calls `Snapshot` no reader of `applyCh` ends the process,
whatever crashes and is lost, and in whatever order the readers handle their messages. -/
theorem applier_never_fails (he : Runs Test.init Test.step Test.quiet e) (t : ℕ) :
    (e t).fatal = none :=
  (Test.recorded he t).running

/-- The readers of peers 0 and 1 handle what was delivered before the hand-over. -/
def watched : List (TestEvent 3 ℕ) :=
  handedOver.map .cluster ++ [.read 0 0, .read 1 0]

theorem applier_never_fails_watched :
    (play Test.step Test.init (watched.take 23)).cfg.logs 1 1 = some 5 ∧
      (play Test.step Test.init (watched.take 23)).fatal = none :=
  ⟨by decide +kernel, applier_never_fails (Runs.play (by decide +kernel)) 23⟩

/-! ## Counting what is committed -/

/-- The loop of `nCommitted`. The lock is taken for one server at a time: `cfgs i` is
the configuration while the log of server `i` is read. -/
def nCommittedLoop (cfgs : Fin n → Config n α) (index : Int) :
    List (Fin n) → ℕ → Option α → Except String (ℕ × Option α)
  | [], count, cmd => .ok (count, cmd)
  | i :: servers, count, cmd =>
    match (cfgs i).logs i index with
    | none => nCommittedLoop cfgs index servers count cmd
    | some cmd1 =>
      if count > 0 ∧ cmd ≠ some cmd1 then
        .error (s!"committed values do not match: index {index}, " ++
          (cmd.elim "<nil>" toString) ++ s!", {cmd1}")
      else nCommittedLoop cfgs index servers (count + 1) (some cmd1)

/-- How many servers have delivered the index, and what. The errors of the readers are
not looked at here: a reader with an error has ended the process. -/
def nCommitted (cfgs : Fin n → Config n α) (index : Int) : Except String (ℕ × Option α) :=
  nCommittedLoop cfgs index (List.finRange n) 0 none

/-- The number of servers of a list that have delivered the index. -/
def delivered (cfgs : Fin n → Config n α) (index : Int) (servers : List (Fin n)) : ℕ :=
  servers.countP fun i => ((cfgs i).logs i index).isSome

omit [DecidableEq α] [ToString α] in
theorem delivered_cons (cfgs : Fin n → Config n α) (index : Int) (i : Fin n)
    (servers : List (Fin n)) : delivered cfgs index (i :: servers) =
      delivered cfgs index servers + if ((cfgs i).logs i index).isSome then 1 else 0 :=
  List.countP_cons

/-- Where all servers agree on `c`, the loop counts those that have it. -/
theorem nCommittedLoop_eq {cfgs : Fin n → Config n α} {index : Int} {c : Option α}
    (hagree : ∀ i v, (cfgs i).logs i index = some v → some v = c) (servers : List (Fin n))
    {count : ℕ} {cmd : Option α} (hcmd : 0 < count → cmd = c) :
    nCommittedLoop cfgs index servers count cmd =
      .ok (count + delivered cfgs index servers,
        if delivered cfgs index servers = 0 then cmd else c) := by
  induction servers generalizing count cmd with
  | nil => rfl
  | cons i servers ih =>
    rw [delivered_cons]
    unfold nCommittedLoop
    cases hi : (cfgs i).logs i index with
    | none => simpa using ih hcmd
    | some v =>
      have hv := hagree i v hi
      have hno : ¬ (count > 0 ∧ cmd ≠ some v) := by
        rintro ⟨hpos, hne⟩
        exact hne ((hcmd hpos).trans hv.symm)
      simp only [if_neg hno, Option.isSome_some, if_true]
      rw [ih fun _ => hv, hv, ite_self, if_neg (Nat.succ_ne_zero _), Nat.add_right_comm,
        Nat.add_assoc]

/-- The servers whose log of the index is not empty only become more. -/
theorem delivered_mono {e : Behavior (Test n α)} (he : Runs Test.init Test.step Test.quiet e)
    {τ τ' : Fin n → ℕ} (hτ : ∀ i, τ i ≤ τ' i) (index : Int) (servers : List (Fin n)) :
    delivered (fun i => (e (τ i)).cfg) index servers ≤
      delivered (fun i => (e (τ' i)).cfg) index servers := by
  refine List.countP_mono_left fun i _ hi => ?_
  rcases Option.isSome_iff_exists.mp hi with ⟨c, hc⟩
  rw [Test.logs_mono he (hτ i) hc]
  rfl

/-- `nCommitted` never finds two values, whenever it reads the servers' logs. A later call
counts at least as many servers, and a value that was found stays. -/
theorem nCommitted_agrees {e : Behavior (Test n α)} (he : Runs Test.init Test.step Test.quiet e)
    (τ τ' : Fin n → ℕ) (hτ : ∀ i, τ i ≤ τ' i) (index : Int) :
    ∃ count cmd count' cmd', nCommitted (fun i => (e (τ i)).cfg) index = .ok (count, cmd) ∧
      nCommitted (fun i => (e (τ' i)).cfg) index = .ok (count', cmd') ∧ count ≤ count' ∧
      (0 < count → ∃ c, cmd = some c ∧ cmd' = some c) := by
  -- the value that the servers agree on, if the later call finds one
  obtain ⟨c, hc, hc'⟩ : ∃ c : Option α,
      (∀ i v, (e (τ i)).cfg.logs i index = some v → some v = c) ∧
      ∀ i v, (e (τ' i)).cfg.logs i index = some v → some v = c := by
    by_cases hsome : ∃ j c, (e (τ' j)).cfg.logs j index = some c
    · rcases hsome with ⟨j, c, hj⟩
      refine ⟨some c, fun i v hv => ?_, fun i v hv => ?_⟩ <;> rw [Test.logs_agree he hv hj]
    · refine ⟨none, fun i v hv => ?_, fun i v hv => ?_⟩
      · exact absurd ⟨i, v, Test.logs_mono he (hτ i) hv⟩ hsome
      · exact absurd ⟨i, v, hv⟩ hsome
  have hle := delivered_mono he hτ index (List.finRange n)
  refine ⟨_, _, _, _, nCommittedLoop_eq hc _ (fun h => by cases h),
    nCommittedLoop_eq hc' _ (fun h => by cases h), by omega, fun hpos => ?_⟩
  rw [Nat.zero_add] at hpos
  rcases List.countP_pos_iff.mp hpos with ⟨i, -, hi⟩
  rcases Option.isSome_iff_exists.mp hi with ⟨v, hv⟩
  refine ⟨v, ?_, ?_⟩
  · rw [if_neg (by omega), hc i v hv]
  · rw [if_neg (by omega), hc i v hv]

/-- The first call reads before the readers have handled anything but the log of peer 0. -/
theorem nCommitted_agrees_watched :
    nCommitted (fun _ => (play Test.step Test.init (watched.take 22)).cfg) 1 = .ok (1, some 5) ∧
      ∃ count cmd count' cmd',
        nCommitted (fun _ => (play Test.step Test.init (watched.take 22)).cfg) 1 =
          .ok (count, cmd) ∧
        nCommitted (fun _ => (play Test.step Test.init (watched.take 23)).cfg) 1 =
          .ok (count', cmd') ∧ count ≤ count' ∧ (0 < count → ∃ c, cmd = some c ∧ cmd' = some c) :=
  ⟨by decide +kernel, nCommitted_agrees (Runs.play (by decide +kernel)) (fun _ => 22) (fun _ => 23)
    (fun _ => by decide) 1⟩

end

/-! ## Looking for a leader -/

/-- `GetState`. -/
def getState (rf : Raft n α) : Int × Bool := (rf.currentTerm, decide (rf.status = .leader))

/-- One look at the servers: what `GetState` has returned for each server that is
connected, and the order in which Go ranges over the terms of its map. -/
structure Look (n : ℕ) where
  state : Fin n → Option (Int × Bool)
  terms : List Int

namespace Look

variable (look : Look n)

/-- `leaders[term]`. -/
def leaders (term : Int) : List (Fin n) :=
  (List.finRange n).filter fun i => look.state i = some (term, true)

/-- The terms are the keys of the map. -/
def Ranges : Prop := ∀ term, term ∈ look.terms ↔ look.leaders term ≠ []

/-- The loop over the map: the latest term, unless a term has two leaders. -/
def lastTermWithLeader : List Int → Int → Except String Int
  | [], last => .ok last
  | term :: terms, last =>
    if (look.leaders term).length > 1 then
      .error s!"term {term} has {(look.leaders term).length} (>1) leaders"
    else lastTermWithLeader terms (if term > last then term else last)

/-- One round of `checkOneLeader`. Indexing an empty slice panics. -/
def check : Except String (Option (Fin n)) := do
  let last ← look.lastTermWithLeader look.terms (-1)
  if look.terms.length ≠ 0 then
    match (look.leaders last).head? with
    | some i => return some i
    | none => throw "index out of range"
  else return none

end Look

/-- The rounds of `checkOneLeader`, which stop at the first leader. -/
def checkOneLeader : List (Look n) → Except String (Fin n)
  | [] => .error "expected one leader, got none"
  | look :: looks => do
    match ← look.check with
    | some i => return i
    | none => checkOneLeader looks

/-! ### Terms are not negative -/

theorem Ballots.le {me : Fin n} {rf : Raft n α} {input : Input n α} {es : List (Effect n α)}
    {b : Int × Int} (h : Ballots me rf input es b) : rf.currentTerm ≤ b.1 := by
  cases h with
  | quiet es h => exact le_refl _
  | raised p es t ht hp h => exact le_of_lt ht
  | elected => exact le_of_lt (Int.lt_succ _)
  | decided args v es₀ es p r hin hb =>
    rcases hb with ⟨hlt, -⟩ | ⟨heq, -⟩
    · exact le_of_lt hlt
    · exact le_of_eq heq

/-- The term and the vote are on the persister, and the term is not negative. -/
structure Dated (s : Server n α) : Prop where
  nonneg : 0 ≤ s.rf.currentTerm
  disk : s.persister.ballot = s.rf.ballot

theorem Dated.restart {s : Server n α} (h : 0 ≤ s.persister.ballot.1) : Dated s.restart := by
  refine ⟨?_, (make_ballot s.persister).symm⟩
  show 0 ≤ (make s.persister : Raft n α).ballot.1
  rw [make_ballot]
  exact h

theorem dated_local :
    Local (anything : Rules n α) (fun _ s => Dated s) (fun _ _ => True) where
  init := ⟨le_refl 0, rfl⟩
  grow _ h := h
  growCall _ h := h
  channel _ h := ⟨h.nonneg, h.disk⟩
  request h _ _ _ := ⟨h.nonneg, h.disk⟩
  handle := by
    intro T s i input es rf h _ _ ho
    rcases ho.ballots with ⟨b, hb, hres⟩
    have hrf := hres rf rfl
    refine ⟨?_, (hb.lastSave h.disk).trans hrf.symm⟩
    show 0 ≤ rf.ballot.1
    rw [hrf]
    exact h.nonneg.trans hb.le
  calls _ _ _ _ _ := trivial
  crash h _ := Dated.restart (by rw [h.disk]; exact h.nonneg)
  cut := by
    intro T s i input es res k h _ _ ho _
    rcases ho.ballots with ⟨b₀, hb₀, -⟩
    rcases hb₀.take k with ⟨b, hb⟩
    apply Dated.restart
    rw [Server.perform_persister, hb.lastSave h.disk]
    exact h.nonneg.trans hb.le

theorem Run.term_nonneg {C : World n α → Event n α → Prop} {e : Behavior (World n α)}
    (he : Run C e) (t : ℕ) (i : Fin n) : 0 ≤ ((e t).server i).rf.currentTerm := by
  have hrun : Run (anything : Rules n α).Allows e := by
    refine he.mono fun t event _ => ?_
    cases event with
    | handle cause => exact fun _ _ => trivial
    | crashDuring cause k =>
      refine fun _ _ => ⟨trivial, fun _ _ => ?_⟩
      unfold Rules.Restarts
      split_ifs <;> trivial
    | snapshot i index data => exact ⟨trivial, trivial⟩
    | _ => trivial
  exact ((dated_local.run hrun t).server i).nonneg

/-! ### The leader that is found -/

namespace Look

variable {look : Look n}

theorem mem_leaders {term : Int} {i : Fin n} :
    i ∈ look.leaders term ↔ look.state i = some (term, true) := by
  simp [leaders]

/-- No term has two leaders. -/
def Safe (look : Look n) : Prop :=
  ∀ term i j, look.state i = some (term, true) → look.state j = some (term, true) → i = j

theorem Safe.length_leaders (h : look.Safe) (term : Int) : ¬ (look.leaders term).length > 1 := by
  intro hlen
  have hnodup : (look.leaders term).Nodup := (List.nodup_finRange n).filter _
  match hl : look.leaders term, hlen, hnodup with
  | i :: j :: rest, _, hnodup =>
    have hi : i ∈ look.leaders term := by simp [hl]
    have hj : j ∈ look.leaders term := by simp [hl]
    have hij := h term i j (mem_leaders.mp hi) (mem_leaders.mp hj)
    simp [hij] at hnodup

/-- The loop ends with the largest of the terms. -/
theorem Safe.lastTermWithLeader_eq (h : look.Safe) (terms : List Int) (last : Int) :
    ∃ m, look.lastTermWithLeader terms last = .ok m ∧ (m = last ∨ m ∈ terms) ∧ last ≤ m ∧
      ∀ term ∈ terms, term ≤ m := by
  induction terms generalizing last with
  | nil => exact ⟨last, rfl, Or.inl rfl, le_refl _, by simp⟩
  | cons term terms ih =>
    unfold lastTermWithLeader
    rw [if_neg (h.length_leaders term)]
    rcases ih (if term > last then term else last) with ⟨m, hm, hmem, hle, hall⟩
    refine ⟨m, hm, ?_, ?_, ?_⟩
    · split_ifs at hmem with hgt
      · right
        rcases hmem with rfl | hmem
        · exact List.mem_cons_self
        · exact List.mem_cons_of_mem _ hmem
      · exact hmem.imp_right (List.mem_cons_of_mem _)
    · split_ifs at hle <;> omega
    · intro t ht
      rcases List.mem_cons.mp ht with rfl | ht
      · split_ifs at hle <;> omega
      · exact hall t ht

/-- `i` leads in a later term than every other leader that was seen. -/
def Latest (look : Look n) (i : Fin n) : Prop :=
  ∃ term, look.state i = some (term, true) ∧
    ∀ j term', look.state j = some (term', true) → j = i ∨ term' < term

/-- One round finds the latest leader, if it has seen one. -/
theorem Safe.check_eq (h : look.Safe) (hr : look.Ranges)
    (hpos : ∀ i term, look.state i = some (term, true) → 0 ≤ term) :
    (∃ i, look.check = .ok (some i) ∧ look.Latest i) ∨
      look.check = .ok none ∧ ∀ i term, look.state i ≠ some (term, true) := by
  rcases h.lastTermWithLeader_eq look.terms (-1) with ⟨m, hm, hmem, -, hall⟩
  have hcheck : look.check = if look.terms.length ≠ 0 then
      (match (look.leaders m).head? with
        | some i => .ok (some i)
        | none => .error "index out of range") else .ok none := by
    unfold check
    rw [hm]
    rfl
  cases hterms : look.terms with
  | nil =>
    right
    refine ⟨by rw [hcheck, hterms]; rfl, fun i term hi => ?_⟩
    have hmem : term ∈ look.terms := (hr term).mpr (List.ne_nil_of_mem (mem_leaders.mpr hi))
    rw [hterms] at hmem
    cases hmem
  | cons term terms =>
    left
    have hterm : ∃ i, look.state i = some (term, true) := by
      rcases List.exists_mem_of_ne_nil _ ((hr term).mp (by simp [hterms])) with ⟨i, hi⟩
      exact ⟨i, mem_leaders.mp hi⟩
    -- the latest term is one of the map
    have hm0 : m ∈ look.terms := by
      rcases hmem with rfl | hmem
      · rcases hterm with ⟨i, hi⟩
        have h0 := hpos i term hi
        have hle := hall term (by simp [hterms])
        omega
      · exact hmem
    cases hl : (look.leaders m).head? with
    | none => exact absurd (List.head?_eq_none_iff.mp hl) ((hr m).mp hm0)
    | some i =>
      have hi : look.state i = some (m, true) := mem_leaders.mp (List.mem_of_head? hl)
      refine ⟨i, ?_, m, hi, fun j term' hj => ?_⟩
      · rw [hcheck, if_pos (by simp [hterms]), hl]
      · have hle := hall term' ((hr term').mpr (List.ne_nil_of_mem (mem_leaders.mpr hj)))
        rcases lt_or_eq_of_le hle with hlt | rfl
        · exact Or.inr hlt
        · exact Or.inl (h term' j i hj hi)

/-- The look is one at the servers of the run, each at some time. -/
def Of (look : Look n) (e : Behavior (World n α)) : Prop :=
  look.Ranges ∧ ∀ i state, look.state i = some state → ∃ t, state = getState ((e t).server i).rf

theorem Of.leader {e : Behavior (World n α)} (h : look.Of e) {i : Fin n} {term : Int}
    (hi : look.state i = some (term, true)) :
    ∃ t, ((e t).server i).rf.status = .leader ∧ ((e t).server i).rf.currentTerm = term := by
  rcases h.2 i _ hi with ⟨t, ht⟩
  simp only [getState, Prod.mk.injEq] at ht
  exact ⟨t, of_decide_eq_true ht.2.symm, ht.1.symm⟩

theorem Of.safe {C : World n α → Event n α → Prop} {e : Behavior (World n α)} (he : Run C e)
    (h : look.Of e) : look.Safe := by
  intro term i j hi hj
  rcases h.leader hi with ⟨t, hs, hterm⟩
  rcases h.leader hj with ⟨t', hs', hterm'⟩
  rcases Nat.le_total t t' with ht | ht
  · exact he.leader_eq ht hs hs' (hterm.trans hterm'.symm)
  · exact (he.leader_eq ht hs' hs (hterm'.trans hterm.symm)).symm

end Look

/-- However the looks of `checkOneLeader` fall into a run, with snapshots or without, it
never finds two leaders of a term. It returns the leader of the latest term that it has
seen in a round, or has seen no leader in any round. -/
theorem checkOneLeader_sound {e : Behavior (World n α)} (he : Run (fun _ _ => True) e)
    (looks : List (Look n)) (hlooks : ∀ look ∈ looks, look.Of e) :
    (∃ i, checkOneLeader looks = .ok i ∧ ∃ look ∈ looks, look.Latest i) ∨
      checkOneLeader looks = .error "expected one leader, got none" ∧
        ∀ look ∈ looks, ∀ i term, look.state i ≠ some (term, true) := by
  induction looks with
  | nil => exact Or.inr ⟨rfl, by simp⟩
  | cons look looks ih =>
    have hof := hlooks look List.mem_cons_self
    have hpos : ∀ i term, look.state i = some (term, true) → 0 ≤ term := by
      intro i term hi
      rcases hof.leader hi with ⟨t, -, rfl⟩
      exact he.term_nonneg t i
    rcases (hof.safe he).check_eq hof.1 hpos with ⟨i, hcheck, hlatest⟩ | ⟨hcheck, hnone⟩
    · left
      refine ⟨i, ?_, look, List.mem_cons_self, hlatest⟩
      rw [checkOneLeader, hcheck]
      rfl
    · have hrest : checkOneLeader (look :: looks) = checkOneLeader looks := by
        rw [checkOneLeader, hcheck]
        rfl
      rw [hrest]
      rcases ih fun l hl => hlooks l (List.mem_cons_of_mem _ hl) with
        ⟨i, hok, l, hl, hlatest⟩ | ⟨herr, hall⟩
      · exact Or.inl ⟨i, hok, l, List.mem_cons_of_mem _ hl, hlatest⟩
      · right
        refine ⟨herr, fun l hl => ?_⟩
        rcases List.mem_cons.mp hl with rfl | hl
        · exact hnone
        · exact hall l hl

/-- All servers are connected when peer 0 has been elected. -/
def firstLook : Look 3 where
  state i := some (getState ((play World.step World.init (firstElection.take 3)).server i).rf)
  terms := [1]

theorem firstLook_ranges : firstLook.Ranges := by
  have hstates : ∀ i : Fin 3,
      (getState ((play World.step World.init (firstElection.take 3)).server i).rf).2 = true →
      (getState ((play World.step World.init (firstElection.take 3)).server i).rf).1 = 1 := by
    decide
  intro term
  constructor
  · intro hmem
    obtain rfl := List.mem_singleton.mp hmem
    decide
  · intro hne
    rcases List.exists_mem_of_ne_nil _ hne with ⟨i, hi⟩
    have hi := Option.some.inj (Look.mem_leaders.mp hi)
    have hone := hstates i (by rw [hi])
    rw [hi] at hone
    exact List.mem_singleton.mpr hone

theorem checkOneLeader_sound_first :
    checkOneLeader [firstLook] = .ok 0 ∧
      ((∃ i, checkOneLeader [firstLook] = .ok i ∧ ∃ look ∈ [firstLook], look.Latest i) ∨
        checkOneLeader [firstLook] = .error "expected one leader, got none" ∧
          ∀ look ∈ [firstLook], ∀ i term, look.state i ≠ some (term, true)) := by
  refine ⟨by decide, checkOneLeader_sound
    (Runs.play (Plays.of_forall (fun _ _ => trivial) _ firstElection)) [firstLook] ?_⟩
  intro look hlook
  obtain rfl := List.mem_singleton.mp hlook
  exact ⟨firstLook_ranges, fun i state hstate => ⟨3, (Option.some.inj hstate).symm⟩⟩

end DistStudy.Raft
