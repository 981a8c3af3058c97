import DistStudy.Lib.Behavior
import DistStudy.Porcupine.CheckSingle

/-!
# The parallel check

`checkParallel` of `porcupine/checker.go` starts a goroutine for every partition of the history.
Each of them runs `checkSingle`, stores its sequences and sends its answer on a channel; the
main loop takes the answers, or times out, and sets the flag that stops the others. The timer
may fire at any time, and the goroutines may be scheduled in any order.

`Parallel.step` is one action of one goroutine, `Steps` says what it can do, and
`Parallel.Inv.step` is the invariant: main knows the answers of the goroutines that it has
received, in the order in which they were sent, and as long as the flag is not set they are
right.
-/

namespace DistStudy.Porcupine

variable {ι ο σ : Type}

/-- What `checkParallel` is called with. -/
structure ParallelCheck (ι ο σ : Type) [DecidableEq σ] where
  model : Model ι ο σ
  history : List (List (Entry ι ο))
  computeInfo : Bool
  /-- `timeout > 0`; without it the channel of the timer is nil. -/
  hasTimeout : Bool

/-- A goroutine of a partition. -/
inductive Worker (ι ο σ : Type) where
  | searching (c : Checking ι ο σ)
  | returned (ok : Bool) (longest : Longest)
  /-- `longest` has been stored. -/
  | stored (ok : Bool)
  | sent (ok : Bool)

/-- The goroutine that runs `checkParallel`. -/
inductive Main where
  | looping (ok : Bool) (count : ℕ)
  /-- After the loop, waiting for the goroutines that are left. -/
  | collecting (ok timedOut : Bool) (count : ℕ)
  | returned (result : CheckResult) (partialLinearizations : Option (List (List (List ℕ))))
deriving DecidableEq, Repr

structure Parallel (ι ο σ : Type) where
  workers : ℕ → Worker ι ο σ
  longest : ℕ → Longest
  /-- The channel; its buffer has room for all answers. -/
  results : List Bool
  kill : Bool
  main : Main
  panicked : Bool

inductive Act where
  | round (i : ℕ)
  | store (i : ℕ)
  | send (i : ℕ)
  | receive
  | timeout
  | collect
  | conclude
deriving DecidableEq, Repr

def finalResult (ok timedOut : Bool) : CheckResult :=
  if !ok then .illegal else if timedOut then .unknown else .ok

/-- The set of the sequences of `longest`. The source takes them from a map, in no fixed
order. -/
def partials (longest : Longest) : List (List ℕ) := (longest.filterMap id).dedup

section

variable [DecidableEq σ] (J : ParallelCheck ι ο σ)

def Parallel.init : Parallel ι ο σ where
  workers i :=
    match J.history[i]? with
    | some h => .searching (initialChecking J.model h).1
    | none => .sent true
  longest _ := []
  results := []
  kill := false
  main := .looping true 0
  panicked := false

/-- The loop has been left. -/
def afterLoop (ok timedOut : Bool) (count : ℕ) : Main :=
  if J.computeInfo then .collecting ok timedOut count
  else .returned (finalResult ok timedOut) none

/-- The case of the `select` that receives an answer. -/
def receiveResult (w : Parallel ι ο σ) (ok : Bool) (count : ℕ) (result : Bool)
    (results : List Bool) : Parallel ι ο σ :=
  let count := count + 1
  let ok := ok && result
  if !ok && !J.computeInfo then
    { w with results, kill := true, main := afterLoop J ok false count }
  else if count ≥ J.history.length then { w with results, main := afterLoop J ok false count }
  else { w with results, main := .looping ok count }

def roundOf (w : Parallel ι ο σ) (i : ℕ) (h : List (Entry ι ο)) (c : Checking ι ο σ) :
    Parallel ι ο σ :=
  match round J.model J.computeInfo h.length (initialChecking J.model h).2 w.kill c with
  | none => { w with panicked := true }
  | some (.running c) => { w with workers := Function.update w.workers i (.searching c) }
  | some (.returned ok longest) =>
    { w with workers := Function.update w.workers i (.returned ok longest) }

/-- One action of one goroutine. -/
def Parallel.step (w : Parallel ι ο σ) (act : Act) : Option (Parallel ι ο σ) :=
  if w.panicked then none else
  match act with
  | .round i =>
    match J.history[i]?, w.workers i with
    | some h, .searching c => some (roundOf J w i h c)
    | _, _ => none
  | .store i =>
    match w.workers i with
    | .returned ok longest =>
      some { w with
        workers := Function.update w.workers i (.stored ok)
        longest := Function.update w.longest i longest }
    | _ => none
  | .send i =>
    match w.workers i with
    | .stored ok =>
      some { w with
        workers := Function.update w.workers i (.sent ok)
        results := w.results ++ [ok] }
    | _ => none
  | .receive =>
    match w.main, w.results with
    | .looping ok count, result :: results => some (receiveResult J w ok count result results)
    | _, _ => none
  | .timeout =>
    match w.main with
    | .looping ok count =>
      if J.hasTimeout then some { w with kill := true, main := afterLoop J ok true count }
      else none
    | _ => none
  | .collect =>
    match w.main, w.results with
    | .collecting ok timedOut count, _ :: results =>
      if count < J.history.length then
        some { w with results, main := .collecting ok timedOut (count + 1) }
      else none
    | _, _ => none
  | .conclude =>
    match w.main with
    | .collecting ok timedOut count =>
      if count < J.history.length then none
      else
        some { w with
          main := .returned (finalResult ok timedOut)
            (some ((List.range J.history.length).map fun i => partials (w.longest i))) }
    | _ => none

/-- What the actions do, and when they are enabled. -/
inductive Steps (w : Parallel ι ο σ) : Act → Parallel ι ο σ → Prop
  | round {i : ℕ} {h : List (Entry ι ο)} {c : Checking ι ο σ} (hi : J.history[i]? = some h)
      (hc : w.workers i = .searching c) : Steps w (.round i) (roundOf J w i h c)
  | store {i : ℕ} {ok : Bool} {longest : Longest} (hret : w.workers i = .returned ok longest) :
      Steps w (.store i)
        { w with
          workers := Function.update w.workers i (.stored ok)
          longest := Function.update w.longest i longest }
  | send {i : ℕ} {ok : Bool} (hst : w.workers i = .stored ok) :
      Steps w (.send i)
        { w with
          workers := Function.update w.workers i (.sent ok)
          results := w.results ++ [ok] }
  | receive {ok result : Bool} {count : ℕ} {results : List Bool}
      (hmain : w.main = .looping ok count) (hres : w.results = result :: results) :
      Steps w .receive (receiveResult J w ok count result results)
  | timeout {ok : Bool} {count : ℕ} (hmain : w.main = .looping ok count)
      (htime : J.hasTimeout = true) :
      Steps w .timeout { w with kill := true, main := afterLoop J ok true count }
  | collect {ok timedOut result : Bool} {count : ℕ} {results : List Bool}
      (hmain : w.main = .collecting ok timedOut count) (hres : w.results = result :: results)
      (hcount : count < J.history.length) :
      Steps w .collect { w with results := results, main := .collecting ok timedOut (count + 1) }
  | conclude {ok timedOut : Bool} {count : ℕ} (hmain : w.main = .collecting ok timedOut count)
      (hcount : J.history.length ≤ count) :
      Steps w .conclude
        { w with
          main := .returned (finalResult ok timedOut)
            (some ((List.range J.history.length).map fun i => partials (w.longest i))) }

variable {J} in
theorem step_iff {w w' : Parallel ι ο σ} {act : Act} (hrun : w.panicked = false) :
    w.step J act = some w' ↔ Steps J w act w' := by
  have hguard : ¬ w.panicked = true := by
    rw [hrun]
    exact Bool.false_ne_true
  unfold Parallel.step
  rw [if_neg hguard]
  constructor
  · intro hstep
    cases act with
    | round i =>
      simp only at hstep
      split at hstep
      · next h c hi hc => exact Option.some.inj hstep ▸ .round hi hc
      · cases hstep
    | store i =>
      simp only at hstep
      split at hstep
      · next ok longest hret => exact Option.some.inj hstep ▸ .store hret
      · cases hstep
    | send i =>
      simp only at hstep
      split at hstep
      · next ok hst => exact Option.some.inj hstep ▸ .send hst
      · cases hstep
    | receive =>
      simp only at hstep
      split at hstep
      · next ok count result results hmain hres =>
        exact Option.some.inj hstep ▸ .receive hmain hres
      · cases hstep
    | timeout =>
      simp only at hstep
      split at hstep
      · next ok count hmain =>
        split_ifs at hstep with htime
        exact Option.some.inj hstep ▸ .timeout hmain htime
      · cases hstep
    | collect =>
      simp only at hstep
      split at hstep
      · next ok timedOut count result results hmain hres =>
        split_ifs at hstep with hcount
        exact Option.some.inj hstep ▸ .collect hmain hres hcount
      · cases hstep
    | conclude =>
      simp only at hstep
      split at hstep
      · next ok timedOut count hmain =>
        split_ifs at hstep with hcount
        exact Option.some.inj hstep ▸ .conclude hmain (not_lt.mp hcount)
      · cases hstep
  · intro hstep
    cases hstep with
    | round hi hc => simp only [hi, hc]
    | store hret => simp only [hret]
    | send hst => simp only [hst]
    | receive hmain hres => simp only [hmain, hres]
    | timeout hmain htime => simp only [hmain, htime, if_true]
    | collect hmain hres hcount => simp only [hmain, hres, hcount, if_true]
    | conclude hmain hcount => simp only [hmain, not_lt.mpr hcount, if_false]

/-! ## The invariant -/

/-- The histories are complete, and states that are equal for the model behave in the same way. -/
structure ParallelCheck.Sound : Prop where
  lawful : J.model.Lawful
  complete : ∀ h ∈ J.history, Complete h

/-- What is known of the goroutine of the history `h`. Answers of after the flag was set may be
wrong. -/
inductive WorkerOk (kill : Bool) (longest : Longest) (h : List (Entry ι ο)) :
    Worker ι ο σ → Prop
  | searching {c : Checking ι ο σ} {m : ℕ} (hs : InSearch J.model h J.computeInfo m c) :
      WorkerOk kill longest h (.searching c)
  | returned {ok : Bool} {l : Longest} (ha : Answers J.model h J.computeInfo (kill = true) ok l) :
      WorkerOk kill longest h (.returned ok l)
  | stored {ok : Bool} (ha : Answers J.model h J.computeInfo (kill = true) ok longest) :
      WorkerOk kill longest h (.stored ok)
  | sent {ok : Bool} (ha : Answers J.model h J.computeInfo (kill = true) ok longest) :
      WorkerOk kill longest h (.sent ok)

def Worker.isSent : Worker ι ο σ → Bool
  | .sent _ => true
  | _ => false

/-- The answer of a goroutine that has sent it. -/
def Worker.answer : Worker ι ο σ → Bool
  | .sent ok => ok
  | _ => false

/-- The goroutines that have sent their answers, in this order; main has received the answers of
the first `count` of them. -/
structure Sent (workers : ℕ → Worker ι ο σ) (results : List Bool) (count : ℕ)
    (senders : List ℕ) : Prop where
  nodup : senders.Nodup
  mem : ∀ i, i ∈ senders ↔ i < J.history.length ∧ (workers i).isSent = true
  channel : results = (senders.drop count).map fun i => (workers i).answer
  count_le : count ≤ senders.length

/-- What the main loop has found out. -/
structure Judged (ok timedOut : Bool) : Prop where
  illegal : ok = false → ∃ h ∈ J.history, ¬ Explained J.model h
  legal : ok = true → timedOut = false → ∀ h ∈ J.history, Explained J.model h
  timeout : timedOut = true → J.hasTimeout = true

/-- The sequences that are returned for a partition. -/
structure PartialsOk (h : List (Entry ι ο)) (ps : List (List ℕ)) : Prop where
  valid : ∀ l ∈ ps,
    PartlyLinearizes (historySpec J.model h) (before h) (List.range (h.length / 2)) l
  maximal : J.hasTimeout = false → ∀ l,
    PartlyLinearizes (historySpec J.model h) (before h) (List.range (h.length / 2)) l →
      ∀ id ∈ l, ∃ l' ∈ ps, id ∈ l' ∧ l.length ≤ l'.length

def MainOk (workers : ℕ → Worker ι ο σ) (results : List Bool) (kill : Bool) : Main → Prop
  | .looping ok count =>
    kill = false ∧ (J.history ≠ [] → count < J.history.length) ∧
      ∃ senders, Sent J workers results count senders ∧
        ok = (senders.take count).all fun i => (workers i).answer
  | .collecting ok timedOut count =>
    J.computeInfo = true ∧ Judged J ok timedOut ∧ (timedOut = false → kill = false) ∧
      ∃ senders, Sent J workers results count senders
  | .returned result partialLinearizations =>
    (∃ ok timedOut, Judged J ok timedOut ∧ result = finalResult ok timedOut) ∧
      ∀ p, partialLinearizations = some p →
        ∀ (i : ℕ) h, J.history[i]? = some h → ∃ ps, p[i]? = some ps ∧ PartialsOk J h ps

structure Parallel.Inv (w : Parallel ι ο σ) : Prop where
  running : w.panicked = false
  worker : ∀ i h, J.history[i]? = some h → WorkerOk J w.kill (w.longest i) h (w.workers i)
  outside : ∀ i, J.history.length ≤ i → (w.workers i).isSent = true
  main : MainOk J w.workers w.results w.kill w.main

end

section

variable [DecidableEq σ] {J : ParallelCheck ι ο σ} {w w' : Parallel ι ο σ} {act : Act} {i : ℕ}

theorem WorkerOk.mono {longest : Longest} {h : List (Entry ι ο)} {worker : Worker ι ο σ}
    (hw : WorkerOk J false longest h worker) (kill : Bool) : WorkerOk J kill longest h worker := by
  have himp : false = true → kill = true := by
    intro hf
    cases hf
  cases hw with
  | searching hs => exact .searching hs
  | returned ha => exact .returned (ha.mono himp)
  | stored ha => exact .stored (ha.mono himp)
  | sent ha => exact .sent (ha.mono himp)

theorem inv_init (hJ : J.Sound) : (Parallel.init J).Inv J where
  running := rfl
  worker := by
    intro i h hi
    have hc := hJ.complete h (List.mem_of_getElem? hi)
    simp only [Parallel.init, hi]
    exact .searching (hc.inSearch_initial J.computeInfo)
  outside := by
    intro i hi
    simp only [Parallel.init, List.getElem?_eq_none hi, Worker.isSent]
  main := by
    refine ⟨rfl, fun hne => List.length_pos_iff.mpr hne, [], ⟨List.nodup_nil, ?_, rfl, le_refl _⟩, rfl⟩
    intro i
    simp only [List.not_mem_nil, false_iff, not_and, Bool.not_eq_true]
    intro hi
    simp only [Parallel.init, List.getElem?_eq_getElem hi, Worker.isSent]

end

section

variable [DecidableEq σ] {J : ParallelCheck ι ο σ} {workers : ℕ → Worker ι ο σ}
  {results : List Bool} {kill : Bool} {count i : ℕ} {senders : List ℕ} {worker : Worker ι ο σ}

/-- The answers of the senders stay as they are. -/
theorem Sent.answer_update (hs : Sent J workers results count senders)
    (hold : (workers i).isSent = false) {j : ℕ} (hj : j ∈ senders) :
    (Function.update workers i worker j).answer = (workers j).answer := by
  have hne : j ≠ i := by
    intro heq
    rw [heq, hs.mem, hold] at hj
    cases hj.2
  rw [Function.update_of_ne hne]

/-- A goroutine that has not sent its answer changes its state; nothing is sent. -/
theorem Sent.update (hs : Sent J workers results count senders)
    (hold : (workers i).isSent = false) (hnew : worker.isSent = false) :
    Sent J (Function.update workers i worker) results count senders := by
  refine ⟨hs.nodup, ?_, ?_, hs.count_le⟩
  · intro j
    rw [hs.mem]
    by_cases hj : j = i
    · simp [hj, hold, hnew]
    · simp [hj]
  · rw [hs.channel]
    apply List.map_congr_left
    intro j hj
    exact (hs.answer_update hold (List.mem_of_mem_drop hj)).symm

/-- A goroutine sends its answer. -/
theorem Sent.send (hs : Sent J workers results count senders) (hi : i < J.history.length)
    (hold : (workers i).isSent = false) (ok : Bool) :
    Sent J (Function.update workers i (.sent ok)) (results ++ [ok]) count (senders ++ [i]) := by
  have hnot : i ∉ senders := by
    intro hmem
    rw [hs.mem, hold] at hmem
    cases hmem.2
  refine ⟨?_, ?_, ?_, ?_⟩
  · rw [List.nodup_append]
    refine ⟨hs.nodup, List.nodup_singleton i, ?_⟩
    intro j hj k hk
    rw [List.mem_singleton] at hk
    rw [hk]
    rintro rfl
    exact hnot hj
  · intro j
    rw [List.mem_append, hs.mem, List.mem_singleton]
    by_cases hj : j = i
    · simp [hj, hi, Worker.isSent]
    · simp [hj]
  · rw [List.drop_append_of_le_length hs.count_le, List.map_append, hs.channel]
    congr 1
    · apply List.map_congr_left
      intro j hj
      exact (hs.answer_update hold (List.mem_of_mem_drop hj)).symm
    · simp [Worker.answer]
  · rw [List.length_append]
    exact Nat.le_add_right_of_le hs.count_le

/-- Main receives the next answer. -/
theorem Sent.receive {result : Bool} (hs : Sent J workers (result :: results) count senders) :
    Sent J workers results (count + 1) senders ∧
      (senders.take (count + 1)).all (fun i => (workers i).answer) =
        ((senders.take count).all (fun i => (workers i).answer) && result) := by
  have hlt : count < senders.length := by
    by_contra hge
    have hchannel := hs.channel
    rw [List.drop_eq_nil_of_le (not_lt.mp hge)] at hchannel
    cases hchannel
  have hchannel := hs.channel
  rw [List.drop_eq_getElem_cons hlt, List.map_cons, List.cons.injEq] at hchannel
  refine ⟨⟨hs.nodup, hs.mem, hchannel.2, hlt⟩, ?_⟩
  rw [List.take_succ_eq_append_getElem hlt, List.all_append, List.all_cons, List.all_nil,
    Bool.and_true, hchannel.1]

/-- If main has received as many answers as there are partitions, all have been sent. -/
theorem Sent.all_sent (hs : Sent J workers results count senders)
    (hcount : J.history.length ≤ count) (hi : i < J.history.length) : i ∈ senders.take count := by
  have hsub : senders.Subperm (List.range J.history.length) := by
    apply List.subperm_of_subset hs.nodup
    intro j hj
    exact List.mem_range.mpr ((hs.mem j).mp hj).1
  have hlen := hs.count_le
  have hperm := hsub.perm_of_length_le (by rw [List.length_range]; omega)
  have hlen' := hperm.length_eq
  rw [List.length_range] at hlen'
  rw [List.take_of_length_le (by omega)]
  exact hperm.mem_iff.mpr (List.mem_range.mpr hi)

theorem MainOk.update {main : Main} (hm : MainOk J workers results kill main)
    (hold : (workers i).isSent = false) (hnew : worker.isSent = false) :
    MainOk J (Function.update workers i worker) results kill main := by
  cases main with
  | looping ok count =>
    rcases hm with ⟨hkill, hcount, senders, hs, hok⟩
    refine ⟨hkill, hcount, senders, hs.update hold hnew, ?_⟩
    rw [hok, Bool.eq_iff_iff, List.all_eq_true, List.all_eq_true]
    apply forall₂_congr
    intro j hj
    rw [hs.answer_update hold (List.mem_of_mem_take hj)]
  | collecting ok timedOut count =>
    rcases hm with ⟨hinfo, hjudged, hkill, senders, hs⟩
    exact ⟨hinfo, hjudged, hkill, senders, hs.update hold hnew⟩
  | returned result p => exact hm

theorem MainOk.send {main : Main} (hm : MainOk J workers results kill main)
    (hi : i < J.history.length) (hold : (workers i).isSent = false) (ok : Bool) :
    MainOk J (Function.update workers i (.sent ok)) (results ++ [ok]) kill main := by
  cases main with
  | looping ok' count =>
    rcases hm with ⟨hkill, hcount, senders, hs, hok⟩
    refine ⟨hkill, hcount, senders ++ [i], hs.send hi hold ok, ?_⟩
    rw [hok, List.take_append_of_le_length hs.count_le, Bool.eq_iff_iff, List.all_eq_true,
      List.all_eq_true]
    apply forall₂_congr
    intro j hj
    rw [hs.answer_update hold (List.mem_of_mem_take hj)]
  | collecting ok' timedOut count =>
    rcases hm with ⟨hinfo, hjudged, hkill, senders, hs⟩
    exact ⟨hinfo, hjudged, hkill, senders ++ [i], hs.send hi hold ok⟩
  | returned result p => exact hm

end

section

variable [DecidableEq σ] {J : ParallelCheck ι ο σ} {w w' : Parallel ι ο σ} {act : Act} {i : ℕ}

/-- The answer of a goroutine that has sent it. -/
theorem Parallel.Inv.answers (hw : w.Inv J) {h : List (Entry ι ο)} (hi : J.history[i]? = some h)
    (hsent : (w.workers i).isSent = true) :
    Answers J.model h J.computeInfo (w.kill = true) (w.workers i).answer (w.longest i) := by
  have hok := hw.worker i h hi
  generalize w.workers i = worker at hok hsent
  cases hok with
  | sent ha => exact ha
  | searching => cases hsent
  | returned => cases hsent
  | stored => cases hsent

/-- As long as main is in its loop, the answers that it has received are right. -/
theorem Parallel.Inv.judge (hw : w.Inv J) (hkill : w.kill = false) {count : ℕ} {senders : List ℕ}
    {results : List Bool} (hs : Sent J w.workers results count senders) {ok : Bool}
    (hok : ok = (senders.take count).all fun i => (w.workers i).answer) {timedOut : Bool}
    (htime : timedOut = true → J.hasTimeout = true)
    (hall : timedOut = false → ok = true → J.history.length ≤ count) : Judged J ok timedOut := by
  have hknown : ∀ i ∈ senders.take count, ∃ h, J.history[i]? = some h ∧
      Answers J.model h J.computeInfo (w.kill = true) (w.workers i).answer (w.longest i) := by
    intro i hi
    rcases (hs.mem i).mp (List.mem_of_mem_take hi) with ⟨hlt, hsent⟩
    exact ⟨_, List.getElem?_eq_getElem hlt, hw.answers (List.getElem?_eq_getElem hlt) hsent⟩
  refine ⟨?_, ?_, htime⟩
  · intro hfalse
    rw [hok, List.all_eq_false] at hfalse
    rcases hfalse with ⟨i, hi, hanswer⟩
    rcases hknown i hi with ⟨h, hget, hans⟩
    rcases hans.refuted (Bool.eq_false_of_not_eq_true hanswer) with hk | hnot
    · rw [hkill] at hk
      cases hk
    · exact ⟨h, List.mem_of_getElem? hget, hnot⟩
  · intro htrue htimed h hh
    rcases List.mem_iff_getElem?.mp hh with ⟨i, hget⟩
    have hlt : i < J.history.length := (List.getElem?_eq_some_iff.mp hget).1
    have hi := hs.all_sent (hall htimed htrue) hlt
    rcases hknown i hi with ⟨h', hget', hans⟩
    rw [hget, Option.some.injEq] at hget'
    rw [hok, List.all_eq_true] at htrue
    rw [hget']
    exact (hans.found (htrue i hi)).1

/-- Main leaves the loop. -/
theorem MainOk.afterLoop {workers : ℕ → Worker ι ο σ} {results : List Bool} {kill : Bool}
    {count : ℕ} {senders : List ℕ} (hs : Sent J workers results count senders)
    {ok timedOut : Bool} (hj : Judged J ok timedOut)
    (hkill : J.computeInfo = true → timedOut = false → kill = false) :
    MainOk J workers results kill (afterLoop J ok timedOut count) := by
  rw [Porcupine.afterLoop]
  by_cases hinfo : J.computeInfo = true
  · rw [if_pos hinfo]
    exact ⟨hinfo, hj, hkill hinfo, senders, hs⟩
  · rw [if_neg hinfo]
    refine ⟨⟨ok, timedOut, hj, rfl⟩, ?_⟩
    intro p hp
    cases hp

/-- The worker of a partition makes a round. -/
theorem Parallel.Inv.round (hJ : J.Sound) (hw : w.Inv J) {h : List (Entry ι ο)}
    {c : Checking ι ο σ} (hi : J.history[i]? = some h) (hc : w.workers i = .searching c) :
    (roundOf J w i h c).Inv J := by
  have hcomplete := hJ.complete h (List.mem_of_getElem? hi)
  have hnot : (w.workers i).isSent = false := by
    rw [hc]
    rfl
  have hsearch : ∃ m, InSearch J.model h J.computeInfo m c := by
    have hok := hw.worker i h hi
    rw [hc] at hok
    cases hok with
    | searching hs => exact ⟨_, hs⟩
  have hlt : i < J.history.length := (List.getElem?_eq_some_iff.mp hi).1
  -- all that a round changes is the state of the worker
  have hupdate : ∀ worker : Worker ι ο σ, worker.isSent = false →
      WorkerOk J w.kill (w.longest i) h worker →
      ({ w with workers := Function.update w.workers i worker } : Parallel ι ο σ).Inv J := by
    intro worker hnew hworker
    refine ⟨hw.running, ?_, ?_, hw.main.update hnot hnew⟩
    · intro j h' hj
      by_cases hji : j = i
      · rw [hji, hi, Option.some.injEq] at hj
        simp only [hji, Function.update_self]
        exact hj ▸ hworker
      · simp only [Function.update_of_ne hji]
        exact hw.worker j h' hj
    · intro j hj
      have hji : j ≠ i := by omega
      simp only [Function.update_of_ne hji]
      exact hw.outside j hj
  rcases hsearch with ⟨m, hs⟩
  rw [roundOf, hcomplete.initialChecking_eq]
  rcases hs.round hJ.lawful hcomplete w.kill with
    ⟨c', m', -, hs', hround⟩ | ⟨ok, longest, hans, hround⟩
  · rw [hround]
    exact hupdate _ rfl (.searching hs')
  · rw [hround]
    exact hupdate _ rfl (.returned hans)

theorem Parallel.Inv.lt_of_not_sent (hw : w.Inv J) (hnot : (w.workers i).isSent = false) :
    i < J.history.length := by
  by_contra hge
  rw [hw.outside i (not_lt.mp hge)] at hnot
  cases hnot

/-- A worker stores its sequences. -/
theorem Parallel.Inv.store (hw : w.Inv J) {ok : Bool} {longest : Longest}
    (hret : w.workers i = .returned ok longest) :
    ({ w with
        workers := Function.update w.workers i (.stored ok)
        longest := Function.update w.longest i longest } : Parallel ι ο σ).Inv J := by
  have hnot : (w.workers i).isSent = false := by
    rw [hret]
    rfl
  refine ⟨hw.running, ?_, ?_, hw.main.update hnot rfl⟩
  · intro j h hj
    by_cases hji : j = i
    · have hok := hw.worker j h hj
      rw [hji, hret] at hok
      simp only [hji, Function.update_self]
      cases hok with
      | returned ha => exact .stored ha
    · simp only [Function.update_of_ne hji]
      exact hw.worker j h hj
  · intro j hj
    have hji : j ≠ i := Nat.ne_of_gt (Nat.lt_of_lt_of_le (hw.lt_of_not_sent hnot) hj)
    simp only [Function.update_of_ne hji]
    exact hw.outside j hj

/-- A worker sends its answer. -/
theorem Parallel.Inv.send (hw : w.Inv J) {ok : Bool} (hst : w.workers i = .stored ok) :
    ({ w with
        workers := Function.update w.workers i (.sent ok)
        results := w.results ++ [ok] } : Parallel ι ο σ).Inv J := by
  have hnot : (w.workers i).isSent = false := by
    rw [hst]
    rfl
  refine ⟨hw.running, ?_, ?_, hw.main.send (hw.lt_of_not_sent hnot) hnot ok⟩
  · intro j h hj
    by_cases hji : j = i
    · have hok := hw.worker j h hj
      rw [hji, hst] at hok
      simp only [hji, Function.update_self]
      cases hok with
      | stored ha => exact .sent ha
    · simp only [Function.update_of_ne hji]
      exact hw.worker j h hj
  · intro j hj
    have hji : j ≠ i := Nat.ne_of_gt (Nat.lt_of_lt_of_le (hw.lt_of_not_sent hnot) hj)
    simp only [Function.update_of_ne hji]
    exact hw.outside j hj

/-- Main does something; before it sets the flag, the flag was not set. -/
theorem Parallel.Inv.mainStep (hw : w.Inv J) {results : List Bool} {kill : Bool} {main : Main}
    (hkill : kill = w.kill ∨ w.kill = false) (hm : MainOk J w.workers results kill main) :
    ({ w with results := results, kill := kill, main := main } : Parallel ι ο σ).Inv J := by
  refine ⟨hw.running, ?_, hw.outside, hm⟩
  intro i h hi
  have hok := hw.worker i h hi
  rcases hkill with rfl | hfalse
  · exact hok
  · rw [hfalse] at hok
    exact hok.mono kill

/-- Main receives an answer in its loop. -/
theorem Parallel.Inv.receive (hw : w.Inv J) {ok result : Bool} {count : ℕ} {results : List Bool}
    (hmain : w.main = .looping ok count) (hres : w.results = result :: results) :
    (receiveResult J w ok count result results).Inv J := by
  have hm := hw.main
  rw [hmain, hres] at hm
  rcases hm with ⟨hkill, hcount, senders, hs, hok⟩
  rcases hs.receive with ⟨hs', hall⟩
  rw [← hok] at hall
  have hjudge : ∀ {timedOut : Bool}, (timedOut = true → J.hasTimeout = true) →
      (timedOut = false → (ok && result) = true → J.history.length ≤ count + 1) →
      Judged J (ok && result) timedOut := fun htime hle => hw.judge hkill hs' hall.symm htime hle
  have hfalse : false = true → J.hasTimeout = true := by
    intro h
    cases h
  rw [receiveResult]
  split_ifs with hbreak hlast
  · rw [Bool.and_eq_true, Bool.not_eq_true', Bool.not_eq_true'] at hbreak
    apply hw.mainStep (Or.inr hkill)
    apply MainOk.afterLoop hs'
    · apply hjudge hfalse
      intro _ htrue
      rw [hbreak.1] at htrue
      cases htrue
    · intro hinfo
      rw [hbreak.2] at hinfo
      cases hinfo
  · apply hw.mainStep (Or.inl rfl)
    apply MainOk.afterLoop hs'
    · exact hjudge hfalse fun _ _ => hlast
    · intro _ _
      exact hkill
  · apply hw.mainStep (Or.inl rfl)
    exact ⟨hkill, fun _ => by omega, senders, hs', hall.symm⟩

/-- The timer fires. -/
theorem Parallel.Inv.timeout (hw : w.Inv J) {ok : Bool} {count : ℕ}
    (hmain : w.main = .looping ok count) (htime : J.hasTimeout = true) :
    ({ w with kill := true, main := afterLoop J ok true count } : Parallel ι ο σ).Inv J := by
  have hm := hw.main
  rw [hmain] at hm
  rcases hm with ⟨hkill, -, senders, hs, hok⟩
  apply hw.mainStep (Or.inr hkill)
  apply MainOk.afterLoop hs
  · apply hw.judge hkill hs hok (fun _ => htime)
    intro h
    cases h
  · intro _ h
    cases h

/-- Main receives an answer after its loop, and does not look at it. -/
theorem Parallel.Inv.collect (hw : w.Inv J) {ok timedOut result : Bool} {count : ℕ}
    {results : List Bool} (hmain : w.main = .collecting ok timedOut count)
    (hres : w.results = result :: results) :
    ({ w with results := results, main := .collecting ok timedOut (count + 1) } :
      Parallel ι ο σ).Inv J := by
  have hm := hw.main
  rw [hmain, hres] at hm
  rcases hm with ⟨hinfo, hjudged, hkill, senders, hs⟩
  exact hw.mainStep (Or.inl rfl) ⟨hinfo, hjudged, hkill, senders, hs.receive.1⟩

theorem mem_partials {longest : Longest} {l : List ℕ} :
    l ∈ partials longest ↔ ∃ id : ℕ, longest[id]? = some (some l) := by
  rw [partials, List.mem_dedup, List.mem_filterMap]
  constructor
  · rintro ⟨x, hx, rfl⟩
    exact List.mem_iff_getElem?.mp hx
  · rintro ⟨id, hid⟩
    exact ⟨some l, List.mem_of_getElem? hid, rfl⟩

/-- All goroutines have stored their sequences before main looks at them. -/
theorem Parallel.Inv.conclude (hw : w.Inv J) {ok timedOut : Bool} {count : ℕ}
    (hmain : w.main = .collecting ok timedOut count) (hcount : J.history.length ≤ count) :
    ({ w with
        main := .returned (finalResult ok timedOut)
          (some ((List.range J.history.length).map fun i => partials (w.longest i))) } :
      Parallel ι ο σ).Inv J := by
  have hm := hw.main
  rw [hmain] at hm
  rcases hm with ⟨hinfo, hjudged, hkill, senders, hs⟩
  apply hw.mainStep (Or.inl rfl)
  refine ⟨⟨ok, timedOut, hjudged, rfl⟩, ?_⟩
  rintro p ⟨⟩ i h hi
  have hlt : i < J.history.length := (List.getElem?_eq_some_iff.mp hi).1
  have hsent := ((hs.mem i).mp (List.mem_of_mem_take (hs.all_sent hcount hlt))).2
  have hans := hw.answers hi hsent
  rw [hinfo] at hans
  refine ⟨partials (w.longest i), by simp [hlt], ?_, ?_⟩
  · intro l hl
    rcases mem_partials.mp hl with ⟨id, hid⟩
    exact (hans.valid id l hid).2
  · intro htime l hl id hid
    have hnot : ¬ w.kill = true := by
      rw [Bool.not_eq_true]
      apply hkill
      cases timedOut with
      | false => rfl
      | true =>
        rw [hjudged.timeout rfl] at htime
        cases htime
    rcases hans.longest_maximal hnot hl hid with ⟨l', hl', hle⟩
    exact ⟨l', mem_partials.mpr ⟨id, hl'⟩, (hans.valid id l' hl').1, hle⟩

theorem Parallel.Inv.step (hJ : J.Sound) (hw : w.Inv J) (hstep : w.step J act = some w') :
    w'.Inv J := by
  cases (step_iff hw.running).mp hstep with
  | round hi hc => exact hw.round hJ hi hc
  | store hret => exact hw.store hret
  | send hst => exact hw.send hst
  | receive hmain hres => exact hw.receive hmain hres
  | timeout hmain htime => exact hw.timeout hmain htime
  | collect hmain hres _ => exact hw.collect hmain hres
  | conclude hmain hcount => exact hw.conclude hmain hcount

end

end DistStudy.Porcupine
