import DistStudy.Porcupine.CheckParallel
import Mathlib.Algebra.Order.BigOperators.Group.Finset
import Mathlib.Order.Lattice.Nat

/-!
# Whole runs of the parallel check

* `checkParallel_outcome`: in whatever order the goroutines run, `Ok` is returned only if every
  partition can be explained, `Illegal` only if one cannot, and `Unknown` only after a timeout.
* `checkParallel_partials`: the sequences that are returned are partial linearizations.
* `checkParallel_ends`: every schedule ends, with a result if there is a partition;
  `stuck_iff` says that the check of no partitions waits forever.
-/

namespace DistStudy.Porcupine

variable {ι ο σ : Type}

/-! ## Termination -/

section

variable [DecidableEq σ] (J : ParallelCheck ι ο σ)

/-- The rounds that are left of a search. -/
noncomputable def roundsLeft (h : List (Entry ι ο)) (c : Checking ι ο σ) : ℕ :=
  sInf {m | InSearch J.model h J.computeInfo m c}

/-- The actions that are left to a goroutine. -/
noncomputable def Worker.left (i : ℕ) : Worker ι ο σ → ℕ
  | .searching c => ((J.history[i]?.map fun h => roundsLeft J h c).getD 0) + 3
  | .returned _ _ => 2
  | .stored _ => 1
  | .sent _ => 0

def Main.left : Main → ℕ
  | .looping _ count => (J.history.length - count) + (J.history.length + 2)
  | .collecting _ _ count => (J.history.length - count) + 1
  | .returned _ _ => 0

noncomputable def Parallel.left (w : Parallel ι ο σ) : ℕ :=
  ∑ i ∈ Finset.range J.history.length, (w.workers i).left J i + w.main.left J

/-- No schedule of the check has more actions. -/
def actBound : ℕ :=
  ∑ i ∈ Finset.range J.history.length, ((J.history[i]?.map roundBound).getD 0 + 3) +
    (2 * J.history.length + 2)

end

section

variable [DecidableEq σ] {J : ParallelCheck ι ο σ} {w w' : Parallel ι ο σ} {act : Act} {i : ℕ}

theorem sum_left_update_lt {workers : ℕ → Worker ι ο σ} (hi : i < J.history.length)
    {worker : Worker ι ο σ} (hlt : worker.left J i < (workers i).left J i) :
    ∑ j ∈ Finset.range J.history.length, (Function.update workers i worker j).left J j <
      ∑ j ∈ Finset.range J.history.length, (workers j).left J j := by
  apply Finset.sum_lt_sum
  · intro j _
    by_cases hj : j = i
    · rw [hj, Function.update_self]
      exact hlt.le
    · rw [Function.update_of_ne hj]
  · refine ⟨i, Finset.mem_range.mpr hi, ?_⟩
    rwa [Function.update_self]

theorem Parallel.Inv.roundOf_left_lt (hJ : J.Sound) (hw : w.Inv J) {h : List (Entry ι ο)}
    {c : Checking ι ο σ} (hi : J.history[i]? = some h) (hc : w.workers i = .searching c) :
    (roundOf J w i h c).left J < w.left J := by
  have hcomplete := hJ.complete h (List.mem_of_getElem? hi)
  have hlt : i < J.history.length := (List.getElem?_eq_some_iff.mp hi).1
  have hsearch : InSearch J.model h J.computeInfo (roundsLeft J h c) c := by
    have hok := hw.worker i h hi
    rw [hc] at hok
    cases hok with
    | searching hs => exact Nat.sInf_mem (s := {m | InSearch J.model h J.computeInfo m c}) ⟨_, hs⟩
  have hold : (w.workers i).left J i = roundsLeft J h c + 3 := by
    simp only [hc, Worker.left, hi, Option.map_some, Option.getD_some]
  rw [roundOf, hcomplete.initialChecking_eq]
  rcases hsearch.round hJ.lawful hcomplete w.kill with
    ⟨c', m', hm', hs', hround⟩ | ⟨ok, longest, hans, hround⟩
  · rw [hround]
    apply Nat.add_lt_add_right
    apply sum_left_update_lt hlt
    have hle : roundsLeft J h c' ≤ m' := Nat.sInf_le hs'
    rw [hold]
    simp only [Worker.left, hi, Option.map_some, Option.getD_some]
    omega
  · rw [hround]
    apply Nat.add_lt_add_right
    apply sum_left_update_lt hlt
    rw [hold, Worker.left]
    omega

theorem afterLoop_left_lt {ok ok' timedOut : Bool} {count count' : ℕ} :
    (afterLoop J ok timedOut count').left J < (Main.looping ok' count).left J := by
  rw [afterLoop]
  split_ifs
  · simp only [Main.left]
    omega
  · simp only [Main.left]
    omega

/-- Every action brings the check nearer to its end. -/
theorem Parallel.Inv.left_lt (hJ : J.Sound) (hw : w.Inv J) (hstep : w.step J act = some w') :
    w'.left J < w.left J := by
  cases (step_iff hw.running).mp hstep with
  | round hi hc => exact hw.roundOf_left_lt hJ hi hc
  | store hret =>
    apply Nat.add_lt_add_right
    apply sum_left_update_lt (hw.lt_of_not_sent (by rw [hret]; rfl))
    simp [hret, Worker.left]
  | send hst =>
    apply Nat.add_lt_add_right
    apply sum_left_update_lt (hw.lt_of_not_sent (by rw [hst]; rfl))
    simp [hst, Worker.left]
  | @receive ok result count results hmain hres =>
    have hm := hw.main
    rw [hmain, hres] at hm
    rcases hm with ⟨-, hcount, senders, hs, -⟩
    rw [receiveResult]
    split_ifs with hbreak hlast
    · apply Nat.add_lt_add_left
      rw [hmain]
      exact afterLoop_left_lt
    · apply Nat.add_lt_add_left
      rw [hmain]
      exact afterLoop_left_lt
    · apply Nat.add_lt_add_left
      rw [hmain]
      simp only [Main.left]
      omega
  | timeout hmain htime =>
    apply Nat.add_lt_add_left
    rw [hmain]
    exact afterLoop_left_lt
  | collect hmain hres hcount =>
    apply Nat.add_lt_add_left
    rw [hmain]
    simp only [Main.left]
    omega
  | conclude hmain hcount =>
    apply Nat.add_lt_add_left
    rw [hmain]
    simp only [Main.left]
    omega

theorem left_init_le (hJ : J.Sound) : (Parallel.init J).left J ≤ actBound J := by
  apply Nat.add_le_add
  · apply Finset.sum_le_sum
    intro i hi
    have hget : ∃ h, J.history[i]? = some h :=
      ⟨_, List.getElem?_eq_getElem (Finset.mem_range.mp hi)⟩
    rcases hget with ⟨h, hget⟩
    have hc := hJ.complete _ (List.mem_of_getElem? hget)
    simp only [Parallel.init, hget, Worker.left, Option.map_some, Option.getD_some]
    exact Nat.add_le_add_right (Nat.sInf_le (hc.inSearch_initial J.computeInfo)) 3
  · simp only [Parallel.init, Main.left]
    omega

theorem Parallel.Inv.isSome_step (hw : w.Inv J) (hs : Steps J w act w') :
    (w.step J act).isSome := by
  rw [(step_iff hw.running).mpr hs, Option.isSome_some]

/-- A goroutine that has not sent its answer can go on. -/
theorem Parallel.Inv.worker_enabled (hw : w.Inv J) (hi : i < J.history.length)
    (hnot : (w.workers i).isSent = false) : ∃ act, act ≠ .timeout ∧ (w.step J act).isSome := by
  cases hworker : w.workers i with
  | searching c =>
    exact ⟨.round i, by simp, hw.isSome_step (.round (List.getElem?_eq_getElem hi) hworker)⟩
  | returned ok longest => exact ⟨.store i, by simp, hw.isSome_step (.store hworker)⟩
  | stored ok => exact ⟨.send i, by simp, hw.isSome_step (.send hworker)⟩
  | sent ok =>
    rw [hworker] at hnot
    cases hnot

/-- As long as answers are missing, one is in the channel or a goroutine can go on. -/
theorem Parallel.Inv.waits (hw : w.Inv J) {count : ℕ} {senders : List ℕ}
    (hs : Sent J w.workers w.results count senders) (hcount : count < J.history.length) :
    (∃ act, act ≠ .timeout ∧ (w.step J act).isSome) ∨ ∃ result results,
      w.results = result :: results := by
  by_cases hall : ∀ i < J.history.length, (w.workers i).isSent = true
  · refine Or.inr (List.exists_cons_of_ne_nil ?_)
    intro hnil
    have hchannel := hs.channel
    rw [hnil, eq_comm, List.map_eq_nil_iff, List.drop_eq_nil_iff] at hchannel
    -- then there are fewer senders than partitions
    have hsub : (List.range J.history.length).Subperm senders := by
      apply List.subperm_of_subset List.nodup_range
      intro i hi
      have hlt := List.mem_range.mp hi
      exact (hs.mem i).mpr ⟨hlt, hall i hlt⟩
    have hlen := hsub.length_le
    rw [List.length_range] at hlen
    omega
  · push Not at hall
    rcases hall with ⟨i, hi, hnot⟩
    exact Or.inl (hw.worker_enabled hi (Bool.eq_false_of_not_eq_true hnot))

theorem Parallel.Inv.enabled (hw : w.Inv J) (hne : J.history ≠ [])
    (hmain : ∀ result p, w.main ≠ .returned result p) :
    ∃ act, act ≠ .timeout ∧ (w.step J act).isSome := by
  have hm := hw.main
  cases hmain' : w.main with
  | looping ok count =>
    rw [hmain'] at hm
    rcases hm with ⟨-, hcount, senders, hs, -⟩
    rcases hw.waits hs (hcount hne) with hact | ⟨result, results, hres⟩
    · exact hact
    · exact ⟨.receive, by simp, hw.isSome_step (.receive hmain' hres)⟩
  | collecting ok timedOut count =>
    rw [hmain'] at hm
    rcases hm with ⟨-, -, -, senders, hs⟩
    by_cases hcount : count < J.history.length
    · rcases hw.waits hs hcount with hact | ⟨result, results, hres⟩
      · exact hact
      · exact ⟨.collect, by simp, hw.isSome_step (.collect hmain' hres hcount)⟩
    · exact ⟨.conclude, by simp, hw.isSome_step (.conclude hmain' (not_lt.mp hcount))⟩
  | returned result p => exact absurd hmain' (hmain result p)

/-! ## Whole checks -/

theorem inv_follow (hJ : J.Sound) {acts : List Act}
    (hrun : follow (Parallel.step J) (Parallel.init J) acts = some w) : w.Inv J :=
  follow_invariant (fun _ _ _ hw hstep => hw.step hJ hstep) hrun (inv_init hJ)

/-- In whatever order the goroutines run and whenever the timer fires: the result is right. -/
theorem checkParallel_outcome (hJ : J.Sound) {acts : List Act} {result : CheckResult}
    {p : Option (List (List (List ℕ)))}
    (hrun : follow (Parallel.step J) (Parallel.init J) acts = some w)
    (hmain : w.main = .returned result p) :
    (result = .ok → ∀ h ∈ J.history, Explained J.model h) ∧
      (result = .illegal → ∃ h ∈ J.history, ¬ Explained J.model h) ∧
      (result = .unknown → J.hasTimeout = true) := by
  have hm := (inv_follow hJ hrun).main
  rw [hmain] at hm
  rcases hm with ⟨⟨ok, timedOut, hjudged, rfl⟩, -⟩
  cases ok with
  | false =>
    refine ⟨?_, fun _ => hjudged.illegal rfl, ?_⟩
    · intro h
      cases h
    · intro h
      cases h
  | true =>
    cases timedOut with
    | false =>
      refine ⟨fun _ => hjudged.legal rfl rfl, ?_, ?_⟩
      · intro h
        cases h
      · intro h
        cases h
    | true =>
      refine ⟨?_, ?_, fun _ => hjudged.timeout rfl⟩
      · intro h
        cases h
      · intro h
        cases h

/-- The sequences that are returned are partial linearizations; without a timeout they contain,
for every operation, one that is as long as any with this operation. -/
theorem checkParallel_partials (hJ : J.Sound) {acts : List Act} {result : CheckResult}
    {p : List (List (List ℕ))}
    (hrun : follow (Parallel.step J) (Parallel.init J) acts = some w)
    (hmain : w.main = .returned result (some p)) {i : ℕ} {h : List (Entry ι ο)}
    (hi : J.history[i]? = some h) : ∃ ps, p[i]? = some ps ∧ PartialsOk J h ps := by
  have hm := (inv_follow hJ hrun).main
  rw [hmain] at hm
  exact hm.2 p rfl i h hi

/-- The check of one history. -/
def overlappingCheck (computeInfo : Bool) : ParallelCheck (Option ℕ) ℕ ℕ :=
  ⟨register, [overlapping], computeInfo, false⟩

theorem overlappingCheck_sound (computeInfo : Bool) : (overlappingCheck computeInfo).Sound where
  lawful := Model.lawful_of_shallowEqual rfl
  complete := by
    intro h hh
    rw [List.mem_singleton.mp hh]
    exact overlapping_complete

theorem checkParallel_partials_overlapping :
    ∃ ps, [[[0, 1]]][0]? = some ps ∧ PartialsOk (overlappingCheck true) overlapping ps := by
  have hend : (follow (Parallel.step (overlappingCheck true))
      (Parallel.init (overlappingCheck true))
      [.round 0, .round 0, .round 0, .store 0, .send 0, .receive, .conclude]).map Parallel.main =
      some (.returned .ok (some [[[0, 1]]])) := by decide
  rcases Option.map_eq_some_iff.mp hend with ⟨w, hrun, hmain⟩
  exact checkParallel_partials (overlappingCheck_sound true) hrun hmain rfl

/-- Nothing panics, no schedule goes on forever, and as long as there is no result a goroutine
can go on, without help of the timer. -/
theorem checkParallel_ends (hJ : J.Sound) (hne : J.history ≠ []) {acts : List Act}
    (hrun : follow (Parallel.step J) (Parallel.init J) acts = some w) :
    w.panicked = false ∧ acts.length ≤ actBound J ∧
      ((∃ result p, w.main = .returned result p) ∨
        ∃ act, act ≠ .timeout ∧ (w.step J act).isSome) := by
  have hw := inv_follow hJ hrun
  refine ⟨hw.running, ?_, ?_⟩
  · have hle := follow_length_le (fun _ _ _ hw hstep => hw.step hJ hstep)
      (fun _ _ _ hw hstep => hw.left_lt hJ hstep) hrun (inv_init hJ)
    have hinit := left_init_le hJ
    omega
  · by_cases hmain : ∃ result p, w.main = .returned result p
    · exact Or.inl hmain
    · push Not at hmain
      exact Or.inr (hw.enabled hne hmain)

/-- The check of two partitions, with a timer. -/
def twoPartitions : ParallelCheck (Option ℕ) ℕ ℕ :=
  ⟨register, [overlapping, overlapping], true, true⟩

theorem twoPartitions_sound : twoPartitions.Sound where
  lawful := Model.lawful_of_shallowEqual rfl
  complete := by
    intro h hh
    have heq : h = overlapping := by simpa [twoPartitions] using hh
    rw [heq]
    exact overlapping_complete

/-- The second search overtakes the first one, and all answers are collected. -/
def twoPartitionsSchedule : List Act :=
  [.round 0, .round 1, .round 1, .round 1, .store 1, .send 1, .receive, .round 0, .round 0,
    .store 0, .send 0, .receive, .conclude]

theorem checkParallel_ends_overlapping :
    (∃ w, follow (Parallel.step twoPartitions) (Parallel.init twoPartitions)
        twoPartitionsSchedule = some w ∧ w.main = .returned .ok (some [[[0, 1]], [[0, 1]]]) ∧
      w.panicked = false ∧ twoPartitionsSchedule.length ≤ actBound twoPartitions) ∧
    ∃ w, follow (Parallel.step twoPartitions) (Parallel.init twoPartitions)
        (twoPartitionsSchedule.take 7) = some w ∧ w.main = .looping true 1 ∧
      ∃ act, act ≠ .timeout ∧ (w.step twoPartitions act).isSome := by
  have hne : twoPartitions.history ≠ [] := by simp [twoPartitions]
  constructor
  · have hend : (follow (Parallel.step twoPartitions) (Parallel.init twoPartitions)
        twoPartitionsSchedule).map Parallel.main =
        some (.returned .ok (some [[[0, 1]], [[0, 1]]])) := by decide
    rcases Option.map_eq_some_iff.mp hend with ⟨w, hrun, hmain⟩
    rcases checkParallel_ends twoPartitions_sound hne hrun with ⟨hpanic, hbound, -⟩
    exact ⟨w, hrun, hmain, hpanic, hbound⟩
  · have hmid : (follow (Parallel.step twoPartitions) (Parallel.init twoPartitions)
        (twoPartitionsSchedule.take 7)).map Parallel.main = some (.looping true 1) := by decide
    rcases Option.map_eq_some_iff.mp hmid with ⟨w, hrun, hmain⟩
    refine ⟨w, hrun, hmain, ?_⟩
    rcases checkParallel_ends twoPartitions_sound hne hrun with ⟨-, -, ⟨_, _, hret⟩ | hact⟩
    · rw [hmain] at hret
      cases hret
    · exact hact

/-- The check waits forever just if there is no partition and no timeout. -/
theorem stuck_iff (hJ : J.Sound) :
    (∃ acts w, follow (Parallel.step J) (Parallel.init J) acts = some w ∧
      (∀ result p, w.main ≠ .returned result p) ∧ ∀ act, w.step J act = none) ↔
      J.history = [] ∧ J.hasTimeout = false := by
  constructor
  · rintro ⟨acts, w, hrun, hmain, hstuck⟩
    have hw := inv_follow hJ hrun
    have hnil : J.history = [] := by
      by_contra hne
      rcases hw.enabled hne hmain with ⟨act, -, hact⟩
      rw [hstuck act] at hact
      cases hact
    refine ⟨hnil, ?_⟩
    by_contra htime
    rw [Bool.not_eq_false] at htime
    cases hmain' : w.main with
    | looping ok count =>
      have hstep := (step_iff hw.running).mpr (.timeout hmain' htime)
      rw [hstuck] at hstep
      cases hstep
    | collecting ok timedOut count =>
      have hcount : J.history.length ≤ count := by simp [hnil]
      have hstep := (step_iff hw.running).mpr (.conclude hmain' hcount)
      rw [hstuck] at hstep
      cases hstep
    | returned result p => exact hmain result p hmain'
  · rintro ⟨hnil, htime⟩
    refine ⟨[], Parallel.init J, rfl, ?_, ?_⟩
    · intro result p h
      cases h
    · intro act
      cases act <;> simp [Parallel.step, Parallel.init, hnil, htime]

end

end DistStudy.Porcupine
