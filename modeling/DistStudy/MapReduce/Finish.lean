import DistStudy.MapReduce.Dependencies

/-!
# What `Finish` closes

`Finish` takes the job out of the table and then closes its `Done` channel. Two things can go
wrong, and both come from `scheduleJob`, which sends a job on the channel first and stores
it in the table afterwards, whatever has become of the job meanwhile:

* a job may be stored whose channel is nil or closed already, or which another `Finish` has
  taken out of the table and is about to close; a report under its id then makes `Finish`
  panic;
* a report may be processed before its job is stored; then `Finish` does nothing, and the
  channel is never closed.

Where neither happens `Finish` does what it should: `finish_closes_opened` and
`reported_is_done`.
-/

namespace DistStudy.MapReduce

/-- A `Finish` has taken the job out of the table and has not closed its channel yet. -/
def World.Finishes (w : World) (p : Ptr) : Prop := p ∈ w.finishing.map Finishing.job

instance (w : World) (p : Ptr) : Decidable (w.Finishes p) := inferInstanceAs (Decidable (_ ∈ _))

/-! ## No panic -/

/-- A job is stored while its channel is open and no `Finish` is about to close it. The done
job is no matter, nothing is reported under its id. -/
def storesOpened (w : World) : Event → Prop
  | .store g =>
    match w.goroutines[g]? with
    | some ⟨p, _⟩ => ∀ j ∈ w.heap p, (j.done = .opened ∧ ¬ w.Finishes p) ∨ j.jobtype = .done
    | none => True
  | _ => True

instance (w : World) (event : Event) : Decidable (storesOpened w event) := by
  unfold storesOpened
  split
  · split <;> infer_instance
  · infer_instance

structure Closable (w : World) : Prop where
  fresh : Fresh w
  sent : ∀ s, w.HasSent s → s.report.tasktype ≠ .done
  table : ∀ id p, w.jobs id = some p → ∃ j, w.heap p = some j ∧ j.id = id ∧
    ((j.done = .opened ∧ ¬ w.Finishes p) ∨ j.jobtype = .done)
  finishing : ∀ p, w.Finishes p → ∃ j, w.heap p = some j ∧ j.done = .opened
  once : (w.finishing.map Finishing.job).Nodup

section

variable {cfg : Config} {w w' : World} {event : Event}

theorem Reports.ne_done {task : TaskRequest} {progress : Progress} {report : SuccessReport}
    (h : Reports cfg task progress report) : report.tasktype ≠ .done := by
  cases h <;> simp [bucketReport, mapReport, reduceReport]

/-- Nothing is sent under the id of the done job. -/
theorem Steps.sent_ne_done (hs : Steps cfg w event w')
    (h : ∀ s, w.HasSent s → s.report.tasktype ≠ .done) (s : Sent) (hsent : w'.HasSent s) :
    s.report.tasktype ≠ .done := by
  rcases hs.sent_effect hsent with hsent | ⟨n, progress, -, -, hrep⟩
  · exact h s hsent
  · exact hrep.ne_done

/-- A job that a `Finish` has taken was in the table, or taken before. -/
theorem Steps.finishes_effect (hs : Steps cfg w event w') {p : Ptr} (h : w'.Finishes p) :
    w.Finishes p ∨ ∃ s, w.HasSent s ∧ w.jobs s.report.id = some p ∧ w'.jobs s.report.id = none := by
  rcases List.mem_map.mp h with ⟨f, hf, rfl⟩
  rcases hs.finishing_effect hf with hf | ⟨r, -, hr, hp, hnone⟩
  · exact Or.inl (List.mem_map.mpr ⟨f, hf, rfl⟩)
  · exact Or.inr ⟨f.sent, Or.inl (List.mem_of_getElem? hr), hp, hnone⟩

namespace Closable

theorem init (cfg : Config) : Closable (World.init cfg) where
  fresh := fun _ _ => rfl
  sent := by simp [World.init, World.HasSent]
  table := by simp [World.init]
  finishing := by simp [World.init, World.Finishes]
  once := by simp [World.init]

/-- What `Finish` finds in the table has an open channel, and no other `Finish` has it. -/
theorem found (h : Closable w) {s : Sent} (hs : w.HasSent s) {p : Ptr}
    (hp : w.jobs s.report.id = some p) :
    ∃ j, w.heap p = some j ∧ j.id = s.report.id ∧ j.done = .opened ∧ ¬ w.Finishes p := by
  rcases h.table _ p hp with ⟨j, hj, hid, hopen | hdone⟩
  · exact ⟨j, hj, hid, hopen⟩
  · -- the type of a report is part of its id
    exact absurd ((jobId_inj.mp hid).1.symm.trans hdone) (h.sent s hs)

/-- A channel that is not closed by a step stays open. -/
theorem opened_step (h : Closable w) (hs : Steps cfg w event w') {p : Ptr} {j j' : Job}
    (hj : w.heap p = some j) (hopen : j.done = .opened) (hj' : w'.heap p = some j')
    (hp : w.Finishes p → w'.Finishes p) : j'.done = .opened := by
  cases hs.job_effect h.fresh hj' with
  | same i hi hd ho hle =>
    rcases Option.some.inj (hj.symm.trans hi) with rfl
    rw [hd, hopen]
  | closed i s hi ho hf hsent hle hd hout =>
    -- the `Finish` that closes the channel ends, and no other one has the job
    rcases hf with ⟨f, hf, hgone⟩
    have hmap : (w.finishing.map Finishing.job)[f]? = some p := by simp [hf]
    have hstill := hp (List.mem_of_getElem? hmap)
    rw [World.Finishes, hgone, ← List.eraseIdx_map] at hstill
    exact absurd hstill (notMem_eraseIdx h.once hmap)
  | again k task corrupt kvs hpk hnew hx hmem =>
    rw [hj] at hnew
    cases hnew

theorem table_step (h : Closable w) (hC : storesOpened w event) (hs : Steps cfg w event w')
    {id : Text} {p : Ptr} (hp : w'.jobs id = some p) : ∃ j, w'.heap p = some j ∧ j.id = id ∧
      ((j.done = .opened ∧ ¬ w'.Finishes p) ∨ j.jobtype = .done) := by
  have hold : ∃ j, w.heap p = some j ∧ j.id = id ∧
      ((j.done = .opened ∧ ¬ w.Finishes p) ∨ j.jobtype = .done) := by
    rcases hs.table_effect hp with hp | ⟨⟨g, rfl, hg⟩, j, hj, hid⟩
    · exact h.table id p hp
    · -- a job that is stored now meets the condition
      simp only [storesOpened, hg] at hC
      exact ⟨j, hj, hid, hC j hj⟩
  rcases hold with ⟨j, hj, hid, hopen⟩
  rcases (hs.le h.fresh).heap p j hj with ⟨j', hj', hjle⟩
  refine ⟨j', hj', hjle.id_eq.trans hid, ?_⟩
  rcases hopen with ⟨hopen, hnot⟩ | hdone
  · left
    refine ⟨h.opened_step hs hj hopen hj' (fun hp => absurd hp hnot), ?_⟩
    intro htaken
    rcases hs.finishes_effect htaken with htaken | ⟨s, hsent, hps, hnone⟩
    · exact hnot htaken
    · -- a job has only one id, under which it is no longer in the table
      rcases h.found hsent hps with ⟨i, hi, hiid, -⟩
      rcases Option.some.inj (hj.symm.trans hi) with rfl
      rw [← hid, hiid, hnone] at hp
      cases hp
  · right
    rw [hjle.jobtype, hdone]

theorem finishing_step (h : Closable w) (hs : Steps cfg w event w') {p : Ptr}
    (hp : w'.Finishes p) : ∃ j, w'.heap p = some j ∧ j.done = .opened := by
  have hold : ∃ j, w.heap p = some j ∧ j.done = .opened := by
    rcases hs.finishes_effect hp with hp | ⟨s, hsent, hps, -⟩
    · exact h.finishing p hp
    · rcases h.found hsent hps with ⟨j, hj, -, hopen, -⟩
      exact ⟨j, hj, hopen⟩
  rcases hold with ⟨j, hj, hopen⟩
  rcases (hs.le h.fresh).heap p j hj with ⟨j', hj', -⟩
  exact ⟨j', hj', h.opened_step hs hj hopen hj' fun _ => hp⟩

theorem once_step (h : Closable w) (hs : Steps cfg w event w') :
    (w'.finishing.map Finishing.job).Nodup := by
  cases hs with
  | finishFound r s p hr hp =>
    rw [List.map_append, List.nodup_append]
    refine ⟨h.once, by simp, ?_⟩
    intro q hq q' hq' heq
    rcases h.found (Or.inl (List.mem_of_getElem? hr)) hp with ⟨-, -, -, -, hnot⟩
    rw [heq, List.mem_singleton.mp hq'] at hq
    exact hnot hq
  | close f p s j hf hj ho =>
    rw [← List.eraseIdx_map]
    exact h.once.sublist (List.eraseIdx_sublist _ _)
  | _ => exact h.once

theorem step (h : Closable w) (hC : storesOpened w event) (hs : Steps cfg w event w') :
    Closable w' where
  fresh := hs.fresh h.fresh
  sent := hs.sent_ne_done h.sent
  table := fun _ _ hp => h.table_step hC hs hp
  finishing := fun _ hp => h.finishing_step hs hp
  once := h.once_step hs

end Closable

variable {C : World → Event → Prop} {e : Behavior World}

theorem Run.sent_ne_done (h : Run cfg C e) (k : ℕ) :
    ∀ s, (e k).HasSent s → s.report.tasktype ≠ .done := by
  refine h.steps (fun w => ∀ s, w.HasSent s → s.report.tasktype ≠ .done)
    (by simp [World.init, World.HasSent]) ?_ k
  intro w event w' hinv _ hs
  exact hs.sent_ne_done hinv

/-- As long as no job is stored whose channel is nil or closed, or which a `Finish` has taken
out of the table, every channel that a `Finish` is about to close is open. -/
theorem finish_closes_opened (h : Run cfg storesOpened e) (k : ℕ) :
    ∀ f ∈ (e k).finishing, ∃ j, (e k).heap f.job = some j ∧ j.done ≠ .nil ∧ j.done ≠ .closed := by
  intro f hf
  have hinv : Closable (e k) :=
    h.steps Closable (Closable.init cfg) (fun _ _ _ hinv hC hs => hinv.step hC hs) k
  rcases hinv.finishing f.job (List.mem_map.mpr ⟨f, hf, rfl⟩) with ⟨j, hj, hopen⟩
  exact ⟨j, hj, by simp [hopen], by simp [hopen]⟩

theorem finish_closes_opened_throughout :
    (play (World.step oneFile) (World.init oneFile) (throughout.take 12)).finishing.length = 1 ∧
    ∀ f ∈ (play (World.step oneFile) (World.init oneFile) (throughout.take 12)).finishing,
      ∃ j, (play (World.step oneFile) (World.init oneFile) (throughout.take 12)).heap f.job =
        some j ∧ j.done ≠ .nil ∧ j.done ≠ .closed := by
  constructor
  · decide +kernel
  · have hrun : Run oneFile storesOpened
        fun k => play (World.step oneFile) (World.init oneFile) (throughout.take k) :=
      Runs.play (by decide +kernel)
    exact finish_closes_opened hrun 12

/-- The map task is handed out, its timer fires, and it is reported; then its job is stored
again and the task is executed and reported once more. -/
def retriedAfterReport : List Event :=
  [.depsDone 0, .depsDone 1, .send 0, .store 0, .send 0, .store 0, .getTask, .receive,
    .timeout 0, .rename 0 [⟨['a'], ['1']⟩], .report 0, .report 0, .finish 0, .close 0, .finish 0,
    .close 0, .depsDone 2, .send 2, .store 2, .getTask, .receive, .receive,
    .rename 0 [⟨['a'], ['1']⟩], .report 0, .report 0, .finish 0, .finish 0]

/-- A reduce task reports that it cannot open its file, and the map job of the failure
report is executed and reported. -/
def remadeMapReported : List Event :=
  [.depsDone 0, .depsDone 1, .send 0, .store 0, .send 0, .store 0, .getTask, .receive,
    .rename 0 [⟨['a'], ['1']⟩], .report 0, .report 0, .finish 0, .close 0, .finish 0, .close 0,
    .getTask, .receive, .depsDone 0, .send 0, .store 0, .receive, .openFiles 0 [0],
    .reportFailure 0, .depsDone 1, .send 1, .store 1, .getTask, .receive,
    .rename 1 [⟨['a'], ['1']⟩], .report 1, .report 1, .finish 0, .finish 0]

/-- The job of the map task is stored again after a `Finish` has taken it out of the table.
A second `Finish` takes it out once more, and then the first one closes the channel. -/
def takenTwice : List Event :=
  [.depsDone 0, .depsDone 1, .send 0, .store 0, .send 0, .store 0, .getTask, .receive,
    .timeout 0, .rename 0 [⟨['a'], ['1']⟩], .report 0, .report 0, .finish 0, .close 0, .finish 0,
    .depsDone 2, .send 2, .store 2, .getTask, .receive, .receive, .rename 0 [⟨['a'], ['1']⟩],
    .report 0, .report 0, .finish 0, .finish 0, .close 0]

/-- A `Finish` is about to close a channel that is closed, or one that is nil. -/
theorem finish_panics :
    (∃ f ∈ (play (World.step oneFile) (World.init oneFile) retriedAfterReport).finishing,
      ((play (World.step oneFile) (World.init oneFile) retriedAfterReport).heap f.job).map
        Job.done = some .closed) ∧
    (∃ f ∈ (play (World.step oneFile) (World.init oneFile) remadeMapReported).finishing,
      ((play (World.step oneFile) (World.init oneFile) remadeMapReported).heap f.job).map
        Job.done = some .nil) ∧
    (∃ f ∈ (play (World.step oneFile) (World.init oneFile) takenTwice).finishing,
      ((play (World.step oneFile) (World.init oneFile) takenTwice).heap f.job).map
        Job.done = some .closed) := by
  decide +kernel

end

/-! ## No report is lost -/

/-- `scheduleJob` of the job is still running: it has not stored the job yet. -/
def World.Scheduling (w : World) (p : Ptr) : Prop := p ∈ w.goroutines.map Goroutine.job

instance (w : World) (p : Ptr) : Decidable (w.Scheduling p) :=
  inferInstanceAs (Decidable (_ ∈ _))

/-- When a report is processed, the job that it is about has been stored, and no other job
has been stored under the same id. -/
def storedBefore (cfg : Config) (w : World) : Event → Prop
  | .finish r => ∀ s ∈ w.reports[r]?, ∀ p ∈ cfg.initialPtrs, ∀ j ∈ w.heap p,
      j.id = s.report.id → j.done = .opened → ¬ w.Scheduling p ∧
        ∀ q ∈ cfg.initialPtrs, q ≠ p → (cfg.initialJob q).map Job.id = some s.report.id →
          w.Scheduling q
  | _ => True

instance (cfg : Config) (w : World) (event : Event) : Decidable (storedBefore cfg w event) := by
  unfold storedBefore
  split <;> infer_instance

section

variable {cfg : Config} {w w' : World} {event : Event}

/-- A goroutine keeps its job until it stores it. -/
theorem Steps.scheduling (hs : Steps cfg w event w') (hq : event.isQuiet = true) :
    (∀ g, event ≠ .store g) ∧
        w'.goroutines.map Goroutine.job = w.goroutines.map Goroutine.job ∨
      ∃ g p j, event = .store g ∧ w.goroutines[g]? = some ⟨p, .storing⟩ ∧ w.heap p = some j ∧
        w'.jobs j.id = some p ∧
        w'.goroutines.map Goroutine.job = (w.goroutines.map Goroutine.job).eraseIdx g := by
  have hset : ∀ {g : ℕ} {p : Ptr} {stage stage' : Stage}, w.goroutines[g]? = some ⟨p, stage⟩ →
      (w.goroutines.set g ⟨p, stage'⟩).map Goroutine.job = w.goroutines.map Goroutine.job := by
    intro g p stage stage' hg
    refine List.ext_getElem? fun i => ?_
    rw [List.getElem?_map, List.getElem?_map, List.getElem?_set]
    by_cases hi : g = i
    · subst hi
      obtain ⟨hlt, heq⟩ := List.getElem?_eq_some_iff.mp hg
      simp [hlt, heq]
    · simp [hi]
  cases hs with
  | depsDone g p j hg hj hd => exact Or.inl ⟨by simp, hset hg⟩
  | send g p hg hroom => exact Or.inl ⟨by simp, hset hg⟩
  | store g p j hg hj =>
    right
    refine ⟨g, p, j, rfl, hg, hj, Function.update_self _ _ _, ?_⟩
    exact (List.eraseIdx_map ..).symm
  | retry i p j hp hj hq' => cases hq
  | reportFailure x task corrupt kvs hx => cases hq
  | _ => exact Or.inl ⟨by simp, rfl⟩

/-- The goroutines of a quiet run hold different jobs of `initialize`; a job with an open
channel that was stored is in the table or taken out of it by a `Finish`, unless another was
stored in its place. -/
structure Stored (cfg : Config) (w : World) : Prop where
  sublist : (w.goroutines.map Goroutine.job).Sublist cfg.initialPtrs
  made : w.made = 0
  unscheduled : ∀ p, (∃ id, w.jobs id = some p) ∨ w.Finishes p ∨ w.IsDone p → ¬ w.Scheduling p
  table : ∀ p ∈ cfg.initialPtrs, ∀ j, w.heap p = some j → j.done = .opened → ¬ w.Scheduling p →
    w.jobs j.id = some p ∨ w.Finishes p ∨ ∃ q ∈ cfg.initialPtrs, q ≠ p ∧
      (cfg.initialJob q).map Job.id = some j.id ∧ ¬ w.Scheduling q

/-- No job of `initialize` is done at the start. -/
theorem initialJob_ne_closed {p : Ptr} {j : Job} (h : cfg.initialJob p = some j) :
    j.done ≠ .closed := by
  cases p <;> simp [Config.initialJob, newJob] at h <;> grind

theorem Stored.init (cfg : Config) : Stored cfg (World.init cfg) where
  sublist := by simp [World.init, Function.comp_def]
  made := rfl
  unscheduled := by
    rintro p (⟨id, hp⟩ | hp | hp)
    · cases hp
    · cases hp
    · rcases Option.map_eq_some_iff.mp hp with ⟨j, hj, hclosed⟩
      exact absurd hclosed (initialJob_ne_closed hj)
  table := by
    intro p hp j hj hopen hsched
    exact absurd (by simpa [World.Scheduling, World.init] using hp) hsched

/-- What a step does to an entry of the table. -/
theorem Steps.table_kept (hs : Steps cfg w event w') {p : Ptr} {id : Text}
    (hp : w.jobs id = some p) :
    w'.jobs id = some p ∨ w'.Finishes p ∨
      ∃ g q i, event = .store g ∧ w.goroutines[g]? = some ⟨q, .storing⟩ ∧ w.heap q = some i ∧
        i.id = id := by
  cases hs with
  | store g q i hg hi =>
    by_cases hid : i.id = id
    · exact Or.inr (Or.inr ⟨g, q, i, rfl, hg, hi, hid⟩)
    · left
      exact (Function.update_of_ne (Ne.symm hid) _ _).trans hp
  | finishFound r s q hr hq =>
    by_cases hid : s.report.id = id
    · -- the entry is taken out of the table
      rw [hid, hp] at hq
      rcases Option.some.inj hq with rfl
      exact Or.inr (Or.inl (by simp [World.Finishes]))
    · exact Or.inl ((Function.update_of_ne (Ne.symm hid) _ _).trans hp)
  | _ => exact Or.inl hp

/-- A `Finish` that has taken a job closes its channel. -/
theorem Steps.finishes_kept (hs : Steps cfg w event w') {p : Ptr} (hp : w.Finishes p) :
    w'.Finishes p ∨ w'.IsDone p := by
  cases hs with
  | finishFound r s q hr hq =>
    left
    rw [World.Finishes, List.map_append]
    exact List.mem_append_left _ hp
  | close f q s j hf hj ho =>
    rcases List.mem_map.mp hp with ⟨f', hf', rfl⟩
    rcases List.mem_iff_getElem?.mp hf' with ⟨i, hi⟩
    by_cases heq : i = f
    · subst heq
      rcases Option.some.inj (hi.symm.trans hf) with rfl
      right
      simp [World.IsDone, World.setJob]
    · left
      refine List.mem_map.mpr ⟨f', ?_, rfl⟩
      exact List.mem_eraseIdx_iff_getElem?.mpr ⟨i, heq, hi⟩
  | _ => exact Or.inl hp

/-- Nothing is scheduled that was not before. -/
theorem Steps.scheduling_mono (hs : Steps cfg w event w') (hq : event.isQuiet = true) {p : Ptr}
    (hp : w'.Scheduling p) : w.Scheduling p := by
  unfold World.Scheduling at hp ⊢
  rcases hs.scheduling hq with ⟨-, heq⟩ | ⟨g, q, j, -, -, -, -, heq⟩
  · rwa [heq] at hp
  · rw [heq] at hp
    exact List.mem_of_mem_eraseIdx hp

/-- Only `Store` ends the scheduling of a job, which is then in the table. -/
theorem Steps.scheduling_ends (hs : Steps cfg w event w') (hq : event.isQuiet = true) {p : Ptr}
    (hp : w.Scheduling p) (hend : ¬ w'.Scheduling p) :
    ∃ j, w.heap p = some j ∧ w'.jobs j.id = some p := by
  unfold World.Scheduling at hp hend
  rcases hs.scheduling hq with ⟨-, heq⟩ | ⟨g, q, j, -, hg, hj, htab, heq⟩
  · rw [heq] at hend
    exact absurd hp hend
  · obtain ⟨i, hi⟩ := List.mem_iff_getElem?.mp hp
    obtain rfl : i = g := by
      by_contra hne
      rw [heq, List.mem_eraseIdx_iff_getElem?] at hend
      exact hend ⟨i, hne, hi⟩
    obtain rfl : q = p := by simpa [hg] using hi
    exact ⟨j, hj, htab⟩

/-- A job is stored by the only goroutine that holds it. -/
theorem Steps.scheduling_stored (hs : Steps cfg w event w') (hq : event.isQuiet = true)
    (hnd : (w.goroutines.map Goroutine.job).Nodup) {g : ℕ} {p : Ptr} (hev : event = .store g)
    (hg : w.goroutines[g]? = some ⟨p, .storing⟩) : ¬ w'.Scheduling p := by
  unfold World.Scheduling
  rcases hs.scheduling hq with ⟨hno, -⟩ | ⟨g', q, j, hev', -, -, -, heq⟩
  · exact absurd hev (hno g)
  · obtain rfl := Event.store.inj (hev.symm.trans hev')
    rw [heq]
    exact notMem_eraseIdx hnd (by simp [hg])

/-- A job of `initialize` whose channel is open had it open before. -/
theorem Steps.opened_before (hs : Steps cfg w event w') (hf : Fresh w) {p : Ptr} {j' : Job}
    (hp : p ∈ cfg.initialPtrs) (hj' : w'.heap p = some j') (hopen : j'.done = .opened) :
    ∃ j, w.heap p = some j ∧ j.Le j' ∧ j.done = .opened := by
  cases hs.job_effect hf hj' with
  | same j hj hd ho hjle => exact ⟨j, hj, hjle, hd ▸ hopen⟩
  | closed j s hj ho hf hs' hjle hd hout => exact ⟨j, hj, hjle, ho⟩
  | again k task corrupt kvs hpk hnew hx hmem =>
    exact absurd (hpk ▸ hp) (again_notMem_initialPtrs k)

/-- A job that is stored, or further, is not scheduled again. -/
theorem Stored.unscheduled_step (h : Stored cfg w) (hf : Fresh w) (hq : event.isQuiet = true)
    (hs : Steps cfg w event w') {p : Ptr}
    (hp : (∃ id, w'.jobs id = some p) ∨ w'.Finishes p ∨ w'.IsDone p) : ¬ w'.Scheduling p := by
  have hnd : (w.goroutines.map Goroutine.job).Nodup := h.sublist.nodup (initialPtrs_nodup cfg)
  have hold : (∃ id, w.jobs id = some p) ∨ w.Finishes p ∨ w.IsDone p → ¬ w'.Scheduling p :=
    fun hp hsched => h.unscheduled p hp (hs.scheduling_mono hq hsched)
  rcases hp with ⟨id, hp⟩ | hp | hp
  · rcases hs.table_effect hp with hp | ⟨⟨g, hev, hg⟩, -⟩
    · exact hold (Or.inl ⟨id, hp⟩)
    · exact hs.scheduling_stored hq hnd hev hg
  · rcases hs.finishes_effect hp with hp | ⟨s, -, hps, -⟩
    · exact hold (Or.inr (Or.inl hp))
    · exact hold (Or.inl ⟨_, hps⟩)
  · rcases Option.map_eq_some_iff.mp hp with ⟨j', hj', hclosed⟩
    cases hs.job_effect hf hj' with
    | same j hj hd ho hjle =>
      exact hold (Or.inr (Or.inr (Option.map_eq_some_iff.mpr ⟨j, hj, hd ▸ hclosed⟩)))
    | closed j s hj ho hfin hs' hjle hd hout =>
      rcases hfin with ⟨f, hfin, -⟩
      exact hold (Or.inr (Or.inl (List.mem_map.mpr ⟨_, List.mem_of_getElem? hfin, rfl⟩)))
    | again k task corrupt kvs hpk hnew hx hmem =>
      -- the jobs of a failure report have no channel
      rcases List.mem_append.mp hmem with hmem | hmem
      · rcases List.mem_map.mp hmem with ⟨v, -, rfl⟩
        cases hclosed
      · rcases List.mem_singleton.mp hmem with rfl
        cases hclosed

theorem Stored.table_step (h : Stored cfg w) (hw : AfterInit cfg w) (hq : event.isQuiet = true)
    (hs : Steps cfg w event w') {p : Ptr} (hp : p ∈ cfg.initialPtrs) {j' : Job}
    (hj' : w'.heap p = some j') (hopen : j'.done = .opened) (hsched : ¬ w'.Scheduling p) :
    w'.jobs j'.id = some p ∨ w'.Finishes p ∨ ∃ q ∈ cfg.initialPtrs, q ≠ p ∧
      (cfg.initialJob q).map Job.id = some j'.id ∧ ¬ w'.Scheduling q := by
  have hnd : (w.goroutines.map Goroutine.job).Nodup := h.sublist.nodup (initialPtrs_nodup cfg)
  rcases hs.opened_before hw.fresh hp hj' hopen with ⟨j, hj, hjle, hopen₀⟩
  rw [hjle.id_eq]
  by_cases hwas : w.Scheduling p
  · rcases hs.scheduling_ends hq hwas hsched with ⟨i, hi, htab⟩
    rcases Option.some.inj (hj.symm.trans hi) with rfl
    exact Or.inl htab
  rcases h.table p hp j hj hopen₀ hwas with hin | hfin | ⟨q, hmem, hne, hid, hnq⟩
  · rcases hs.table_kept hin with hin | hfin | ⟨g, q, i, hev, hg, hi, hid⟩
    · exact Or.inl hin
    · exact Or.inr (Or.inl hfin)
    · -- another job is stored under the same id
      have hqw : w.Scheduling q := List.mem_map.mpr ⟨_, List.mem_of_getElem? hg, rfl⟩
      have hqmem := h.sublist.subset hqw
      rcases hw.le.initialJob hi fun k hk => again_notMem_initialPtrs k (hk ▸ hqmem) with
        ⟨i₀, hi₀, hile⟩
      refine Or.inr (Or.inr ⟨q, hqmem, ?_, ?_, hs.scheduling_stored hq hnd hev hg⟩)
      · rintro rfl
        exact hwas hqw
      · rw [hi₀, Option.map_some, ← hile.id_eq, hid]
  · rcases hs.finishes_kept hfin with hfin | hdone
    · exact Or.inr (Or.inl hfin)
    · simp [World.IsDone, hj', hopen] at hdone
  · exact Or.inr (Or.inr ⟨q, hmem, hne, hid, fun hw => hnq (hs.scheduling_mono hq hw)⟩)

theorem Stored.step (h : Stored cfg w) (hw : AfterInit cfg w) (hq : event.isQuiet = true)
    (hs : Steps cfg w event w') : Stored cfg w' := by
  constructor
  · rcases hs.scheduling hq with ⟨-, heq⟩ | ⟨g, p, j, -, -, -, -, heq⟩
    · rw [heq]
      exact h.sublist
    · rw [heq]
      exact (List.eraseIdx_sublist _ _).trans h.sublist
  · rw [← h.made]
    cases hs <;> first | rfl | cases hq
  · exact fun _ hp => h.unscheduled_step hw.fresh hq hs hp
  · exact fun _ hp _ hj' hopen hsched => h.table_step hw hq hs hp hj' hopen hsched

variable {e : Behavior World}

/-- Jobs are in the table under their ids, and `Finish` has them by the ids of the reports. -/
theorem Run.tabled_ids {C : World → Event → Prop} (h : Run cfg C e) (k : ℕ) :
    (∀ id p, (e k).jobs id = some p → ∃ j, (e k).heap p = some j ∧ j.id = id) ∧
      ∀ f ∈ (e k).finishing, ∃ j, (e k).heap f.job = some j ∧ j.id = f.sent.report.id := by
  refine h.steps_of h.since_init
    (fun w => (∀ id p, w.jobs id = some p → ∃ j, w.heap p = some j ∧ j.id = id) ∧
      ∀ f ∈ w.finishing, ∃ j, w.heap f.job = some j ∧ j.id = f.sent.report.id)
    (by simp [World.init]) ?_ k
  intro w event w' hw hinv _ hs
  exact ⟨fun _ _ => hs.table_job hw.fresh hinv.1, fun _ => hs.finishing_job hw.fresh hinv.1 hinv.2⟩

theorem Run.stored (h : Run cfg quiet e) (k : ℕ) : Stored cfg (e k) := by
  refine h.steps_of h.since_init (Stored cfg) (Stored.init cfg) ?_ k
  intro w event w' hw hinv hq hs
  exact hinv.step hw hq hs

/-- In a quiet run all jobs are jobs of `initialize`. -/
theorem Run.heap_quiet (h : Run cfg quiet e) (k : ℕ) {p : Ptr} {j : Job}
    (hj : (e k).heap p = some j) :
    p ∈ cfg.initialPtrs ∧ ∃ j₀, cfg.initialJob p = some j₀ ∧ j₀.Le j := by
  have hagain : ∀ i, p ≠ .again i := by
    rintro i rfl
    rw [(h.since_init k).fresh i ((h.stored k).made ▸ Nat.zero_le i)] at hj
    cases hj
  obtain ⟨j₀, hj₀, hle⟩ := (h.since_init k).le.initialJob hj hagain
  exact ⟨MapReduce.mem_initialPtrs.mpr (by simp [hj₀]), j₀, hj₀, hle⟩

/-- Only the done job has no channel. -/
theorem initialJob_nil {p : Ptr} {j : Job} (h : cfg.initialJob p = some j)
    (hd : j.done = .nil) : j.jobtype = .done := by
  cases p <;> simp [Config.initialJob, newJob] at h <;> grind

/-- A report of a job that is still being scheduled is lost. -/
theorem Run.finish_lost (h : Run cfg quiet e) {k : ℕ} {event : Event} {w' : World}
    (hs : Steps cfg (e k) event w') {p : Ptr} {j : Job} (hj : (e k).heap p = some j)
    (hopen : j.done = .opened) (hsched : (e k).Scheduling p) : ¬ w'.IsDone p := by
  intro hd
  rcases Option.map_eq_some_iff.mp hd with ⟨j', hj', hclosed⟩
  cases hs.job_effect (h.since_init k).fresh hj' with
  | same i hi hsame ho hle =>
    rcases Option.some.inj (hj.symm.trans hi) with rfl
    rw [hsame, hopen] at hclosed
    cases hclosed
  | closed i s hi ho hf hs' hle hd hout =>
    rcases hf with ⟨f, hf, -⟩
    refine (h.stored k).unscheduled p (Or.inr (Or.inl ?_)) hsched
    exact List.mem_map.mpr ⟨_, List.mem_of_getElem? hf, rfl⟩
  | again i task corrupt kvs hpk hnew hx hmem =>
    rw [hj] at hnew
    cases hnew

/-- The jobs under the id of a report are done: all of them when `Finish` has returned, all but
the one that it has taken out of the table before. -/
structure Settled (w : World) : Prop where
  processed : ∀ s ∈ w.processed, ∀ p j, w.heap p = some j → j.id = s.report.id → w.IsDone p
  finishing : ∀ f ∈ w.finishing, ∀ p j, w.heap p = some j → j.id = f.sent.report.id →
    p ≠ f.job → w.IsDone p

/-- A job under the id of a report that is not done when `Finish` looks for it has been stored,
and no other job under the id. -/
theorem Run.stored_of_finish (h : Run cfg quiet e) {k r : ℕ}
    (hC : storedBefore cfg (e k) (.finish r)) {s : Sent} (hr : (e k).reports[r]? = some s) {p : Ptr}
    {j : Job} (hj : (e k).heap p = some j) (hid : j.id = s.report.id) (hd : ¬ (e k).IsDone p) :
    j.done = .opened ∧ ¬ (e k).Scheduling p ∧
      ∀ q ∈ cfg.initialPtrs, q ≠ p → (cfg.initialJob q).map Job.id = some s.report.id →
        (e k).Scheduling q := by
  rcases h.heap_quiet k hj with ⟨hp, j₀, hj₀, hle⟩
  cases hch : j.done with
  | nil =>
    have ht := hle.jobtype.trans (initialJob_nil hj₀ (hle.nil.mp hch))
    have hrep := h.sent_ne_done k s (Or.inl (List.mem_of_getElem? hr))
    exact absurd ((jobId_inj.mp hid).1.symm.trans ht) hrep
  | opened => exact ⟨rfl, hC s hr p hp j hj hid hch⟩
  | closed => exact absurd (by simp [World.IsDone, hj, hch]) hd

/-- If `Finish` does not find the job of a report, the job is done. -/
theorem Run.done_of_not_found (h : Run cfg quiet e) {k r : ℕ} (hset : Settled (e k))
    (hC : storedBefore cfg (e k) (.finish r)) {s : Sent} (hr : (e k).reports[r]? = some s)
    (hnone : (e k).jobs s.report.id = none) {p : Ptr} {j : Job} (hj : (e k).heap p = some j)
    (hid : j.id = s.report.id) : (e k).IsDone p := by
  by_contra hd
  rcases h.stored_of_finish hC hr hj hid hd with ⟨hopen, hsched, hother⟩
  rcases h.heap_quiet k hj with ⟨hp, -, -, -⟩
  rcases (h.stored k).table p hp j hj hopen hsched with hin | hfin | ⟨q, hq, hne, hqid, hnot⟩
  · rw [hid, hnone] at hin
    cases hin
  · -- another `Finish` has taken the job, so that two reports were sent
    rcases List.mem_map.mp hfin with ⟨f, hf, rfl⟩
    rcases (h.tabled_ids k).2 f hf with ⟨i, hi, hiid⟩
    rcases Option.some.inj (hj.symm.trans hi) with rfl
    have honly : ∀ q, (cfg.initialJob q).map Job.id = some s.report.id → q = f.job := by
      intro q hqid
      by_contra hne
      rcases Option.map_eq_some_iff.mp hqid with ⟨i₀, hi₀, hi₀id⟩
      rcases (h.since_init k).le.heap q i₀ hi₀ with ⟨i, hi, hle⟩
      have hsame := hle.id_eq.trans (hi₀id.trans (hid.symm.trans hiid))
      have hqd := hset.finishing f hf q i hi hsame hne
      have hqs := hother q (MapReduce.mem_initialPtrs.mpr (by simp [hi₀])) hne hqid
      exact (h.stored k).unscheduled q (Or.inr (Or.inr hqd)) hqs
    have hone := h.sentCount_le_one k honly
    have hrep : 0 < (e k).reports.countP (fun s' => s'.report.id = s.report.id) :=
      List.countP_pos_iff.mpr ⟨s, List.mem_of_getElem? hr, by simp⟩
    have hfound : 0 < (e k).finishing.countP (fun f => f.sent.report.id = s.report.id) :=
      List.countP_pos_iff.mpr ⟨f, hf, by simp [← hiid, hid]⟩
    unfold World.sentCount at hone
    omega
  · exact hnot (hother q hq hne (hid ▸ hqid))

/-- No other job under the id of a report is left when `Finish` finds one. -/
theorem Run.done_of_found (h : Run cfg quiet e) {k r : ℕ}
    (hC : storedBefore cfg (e k) (.finish r)) {s : Sent} (hr : (e k).reports[r]? = some s)
    {q : Ptr} (hq : (e k).jobs s.report.id = some q) {p : Ptr} {j : Job}
    (hj : (e k).heap p = some j) (hid : j.id = s.report.id) (hne : p ≠ q) : (e k).IsDone p := by
  by_contra hd
  rcases h.stored_of_finish hC hr hj hid hd with ⟨-, -, hother⟩
  rcases (h.tabled_ids k).1 _ q hq with ⟨i, hi, hiid⟩
  rcases h.heap_quiet k hi with ⟨hqmem, i₀, hi₀, hle⟩
  have hqs := hother q hqmem (Ne.symm hne) (by rw [hi₀, Option.map_some, ← hle.id_eq, hiid])
  exact (h.stored k).unscheduled q (Or.inl ⟨_, hq⟩) hqs

theorem Run.settled (h : Run cfg (fun w event => quiet w event ∧ storedBefore cfg w event) e)
    (k : ℕ) : Settled (e k) := by
  have hq : Run cfg quiet e := h.mono fun _ _ hC => hC.1
  induction k with
  | zero =>
    rw [h.start]
    exact ⟨by simp [World.init], by simp [World.init]⟩
  | succ k ih =>
    rcases h.next k with hstut | ⟨event, hC, hstep⟩
    · rw [hstut]
      exact ih
    have hs := steps_of_step hstep
    have hmono := hs.le (hq.since_init k).fresh
    -- jobs keep their ids, so it is a job that was there before
    have hbefore : ∀ {p : Ptr} {j' : Job}, (e (k + 1)).heap p = some j' →
        ∃ j, (e k).heap p = some j ∧ j'.id = j.id := by
      intro p j' hj'
      rcases hq.heap_quiet (k + 1) hj' with ⟨-, j₀, hj₀, hle⟩
      rcases (hq.since_init k).le.heap p j₀ hj₀ with ⟨j, hj, hjle⟩
      exact ⟨j, hj, hle.id_eq.trans hjle.id_eq.symm⟩
    constructor
    · intro s hmem p j' hj' hid
      rcases hbefore hj' with ⟨j, hj, heq⟩
      rw [heq] at hid
      rcases hs.processed_effect hmem with hmem | ⟨r, rfl, hr, hnone⟩ | ⟨f, q, rfl, hf, hd⟩
      · exact hmono.isDone (ih.processed s hmem p j hj hid)
      · exact hmono.isDone (hq.done_of_not_found ih hC.2 hr hnone hj hid)
      · by_cases hpq : p = q
        · exact hpq ▸ hd
        · exact hmono.isDone (ih.finishing _ (List.mem_of_getElem? hf) p j hj hid hpq)
    · intro f hf p j' hj' hid hne
      rcases hbefore hj' with ⟨j, hj, heq⟩
      rw [heq] at hid
      apply hmono.isDone
      rcases hs.finishing_effect hf with hf | ⟨r, rfl, hr, hp, -⟩
      · exact ih.finishing f hf p j hj hid hne
      · exact hq.done_of_found hC.2 hr hp hj hid hne

/-- As long as no timer fires and no failure is reported, and every report finds its job
stored, a job whose report was processed is done. -/
theorem reported_is_done (h : Run cfg (fun w event => quiet w event ∧ storedBefore cfg w event) e)
    (k : ℕ) : ∀ s ∈ (e k).processed, ∀ p j, (e k).heap p = some j → j.id = s.report.id →
      (e k).IsDone p := (h.settled k).processed

theorem reported_is_done_throughout :
    (play (World.step oneFile) (World.init oneFile) throughout).processed.length = 3 ∧
    ∀ s ∈ (play (World.step oneFile) (World.init oneFile) throughout).processed, ∀ p j,
      (play (World.step oneFile) (World.init oneFile) throughout).heap p = some j →
      j.id = s.report.id →
      (play (World.step oneFile) (World.init oneFile) throughout).IsDone p := by
  constructor
  · decide +kernel
  · have hrun : Run oneFile (fun w event => quiet w event ∧ storedBefore oneFile w event)
        fun k => play (World.step oneFile) (World.init oneFile) (throughout.take k) :=
      Runs.play (by decide +kernel)
    exact reported_is_done hrun throughout.length

/-- The map task is executed while the pseudo job of its bucket waits to be stored. -/
def reportedBeforeStore : List Event :=
  [.depsDone 0, .depsDone 1, .send 0, .store 0, .send 0, .getTask, .receive,
    .rename 0 [⟨['a'], ['1']⟩], .report 0, .finish 0, .store 0, .report 0, .finish 0, .close 0]

/-- The report of the bucket is processed and its job is stored afterwards, never to be
done. -/
theorem bucket_report_lost :
    (∃ s ∈ (play (World.step oneFile) (World.init oneFile) reportedBeforeStore).processed,
      s = oneFile.bucketSent 0 0 ∧
      ((play (World.step oneFile) (World.init oneFile) reportedBeforeStore).heap
        (.pseudo 0 0)).map Job.id = some s.report.id) ∧
    ¬ (play (World.step oneFile) (World.init oneFile) reportedBeforeStore).IsDone (.pseudo 0 0) ∧
    (play (World.step oneFile) (World.init oneFile) reportedBeforeStore).reports = [] ∧
    (play (World.step oneFile) (World.init oneFile) reportedBeforeStore).finishing = [] ∧
    (play (World.step oneFile) (World.init oneFile) reportedBeforeStore).executions = [] := by
  decide +kernel

end

end DistStudy.MapReduce
