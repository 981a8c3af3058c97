import DistStudy.MapReduce.Conservation
import DistStudy.MapReduce.Effects

/-!
# Tasks are handed out in the order of their dependencies

The order of the tasks is kept only by the `Done` channels of the jobs, which `Finish`
closes for whatever job it finds under the id of a report. So the proof follows the
reports: each is one that an execution of a handed-out task sends (`Genuine`), an id
determines the map and the reduce number as long as the latter has one digit, and so a
closed channel stands for the report of that very bucket.

All interleavings are covered, with timeouts, crashes and the jobs that `ReportMapFailure`
makes again.
-/

namespace DistStudy.MapReduce

/-! ## Reports -/

/-- What a worker that executes map task `m` sends for bucket `(m, r)`. -/
def Config.bucketSent (cfg : Config) (m r : ℕ) : Sent :=
  ⟨bucketReport (itoa m) (cfg.bucket m r) r, cfg.mapRequest m⟩

/-- What workers send for the tasks they were handed. -/
inductive Genuine (cfg : Config) : Sent → Prop
  | bucket (m r : ℕ) (hm : m < cfg.files.length) (hr : r < cfg.nReduce) :
      Genuine cfg (cfg.bucketSent m r)
  | map (m : ℕ) (hm : m < cfg.files.length) :
      Genuine cfg ⟨mapReport (itoa m), cfg.mapRequest m⟩
  | reduce (r : ℕ) (task : TaskRequest) (hr : r < cfg.nReduce) (ht : task.tasktype = .reduce)
      (hk : task.key = itoa r) : Genuine cfg ⟨reduceReport (itoa r), task⟩

section

variable {cfg : Config} {s : Sent} {m r : ℕ}

/-- A report under the id of a pseudo job is the one of its bucket. -/
theorem Genuine.of_bucket (h : Genuine cfg s) (hcfg : cfg.nReduce ≤ 10) (hr : r < cfg.nReduce)
    (hid : s.report.id = jobId .pseudo (bucketKey (itoa m) r)) : s = cfg.bucketSent m r := by
  cases h with
  | bucket m' r' hm' hr' =>
    have hkey : bucketKey (itoa m') r' = bucketKey (itoa m) r := (jobId_inj.mp hid).2
    obtain ⟨rfl, rfl⟩ := (bucketKey_inj (by omega) (by omega)).mp hkey
    rfl
  | map m' hm' => cases (jobId_inj.mp hid).1
  | reduce r' task hr' ht hk => cases (jobId_inj.mp hid).1

/-- A report under the id of a reduce job is one of its task. -/
theorem Genuine.of_reduce (h : Genuine cfg s) (hid : s.report.id = jobId .reduce (itoa r)) :
    s.report = reduceReport (itoa r) ∧ s.task.tasktype = .reduce ∧ s.task.key = itoa r := by
  cases h with
  | bucket m' r' hm' hr' => cases (jobId_inj.mp hid).1
  | map m' hm' => cases (jobId_inj.mp hid).1
  | reduce r' task hr' ht hk =>
    have hkey : itoa r' = itoa r := (jobId_inj.mp hid).2
    obtain rfl := itoa_inj.mp hkey
    exact ⟨rfl, ht, hk⟩

end

namespace World

/-- For every map a report of its bucket `r` has been processed. -/
def Released (cfg : Config) (w : World) (r : ℕ) : Prop :=
  ∀ m < cfg.files.length, cfg.bucketSent m r ∈ w.processed

/-- A report of reduce task `r` has been processed. -/
def Reduced (w : World) (r : ℕ) : Prop :=
  ∃ task : TaskRequest, task.tasktype = .reduce ∧ task.key = itoa r ∧
    ⟨reduceReport (itoa r), task⟩ ∈ w.processed

end World

theorem World.Le.released {cfg : Config} {w w' : World} (h : w.Le w') {r : ℕ}
    (hr : w.Released cfg r) : w'.Released cfg r :=
  fun m hm => h.processed (hr m hm)

theorem World.Le.reduced {w w' : World} (h : w.Le w') {r : ℕ} (hr : w.Reduced r) :
    w'.Reduced r := by
  obtain ⟨task, ht, hk, hmem⟩ := hr
  exact ⟨task, ht, hk, h.processed hmem⟩

/-! ## The invariant -/

/-- A job that `ReportMapFailure` has made. -/
structure Remade (cfg : Config) (w : World) (j : Job) : Prop where
  deps : j.deps = []
  done : j.done = .nil
  kind : (j.jobtype = .map ∧ ∃ m, j.key = itoa m) ∨
    (j.jobtype = .reduce ∧ ∃ r < cfg.nReduce, j.key = itoa r ∧ w.Released cfg r)

/-- A worker executes a map task, or a reduce task whose buckets are reported. -/
def Fits (cfg : Config) (w : World) (x : Execution) : Prop :=
  if x.progress.isMapping then ∃ m < cfg.files.length, x.task = cfg.mapRequest m
  else ∃ r < cfg.nReduce, x.task.tasktype = .reduce ∧ x.task.key = itoa r ∧ w.Released cfg r

structure Ordered (cfg : Config) (w : World) : Prop where
  fresh : Fresh w
  initial : (World.init cfg).Le w
  again : ∀ k j, w.heap (.again k) = some j → Remade cfg w j
  closed : ∀ p j, w.heap p = some j → j.done = .closed →
    ∃ s ∈ w.processed, s.report.id = j.id ∧ s.report.outputFilename = j.output
  table : ∀ id p, w.jobs id = some p → ∃ j, w.heap p = some j ∧ j.id = id
  goroutines : ∀ p stage, ⟨p, stage⟩ ∈ w.goroutines → stage ≠ .waiting → w.Ready p
  jobCh : ∀ p ∈ w.jobCh, w.Ready p
  executions : ∀ x ∈ w.executions, Fits cfg w x
  finishing : ∀ f ∈ w.finishing, ∃ j, w.heap f.job = some j ∧ j.id = f.sent.report.id
  sent : ∀ s, w.HasSent s → Genuine cfg s
  handed : ∀ task ∈ w.handed, task.tasktype = .reduce →
    ∃ r < cfg.nReduce, task.key = itoa r ∧ w.Released cfg r
  doneCh : w.doneCh = .closed → ∀ r < cfg.nReduce, w.Reduced r

section

variable {cfg : Config} {w w' : World} {event : Event}

theorem Remade.mono {j j' : Job} (h : Remade cfg w j) (hw : w.Le w') (hj : j.Le j') :
    Remade cfg w' j' := by
  refine ⟨hj.deps.trans h.deps, hj.nil.mpr h.done, ?_⟩
  rw [hj.jobtype, hj.key]
  rcases h.kind with hmap | ⟨ht, r, hr, hk, hrel⟩
  · exact Or.inl hmap
  · exact Or.inr ⟨ht, r, hr, hk, hw.released hrel⟩

theorem Fits.mono {x : Execution} {progress : Progress} (h : Fits cfg w ⟨x.task, progress⟩)
    (hw : w.Le w') (hp : progress.isMapping = x.progress.isMapping) : Fits cfg w' x := by
  unfold Fits at h ⊢
  rw [← hp]
  dsimp only at h
  split_ifs at h ⊢
  · exact h
  · obtain ⟨r, hr, ht, hk, hrel⟩ := h
    exact ⟨r, hr, ht, hk, hw.released hrel⟩

theorem Fits.map {x : Execution} (h : Fits cfg w x) {i : ℕ} {renamed : Bool}
    (hx : x.progress = .mapping i renamed) : ∃ m < cfg.files.length, x.task = cfg.mapRequest m := by
  simpa [Fits, hx, Progress.isMapping] using h

theorem Fits.reduce {x : Execution} (h : Fits cfg w x) (hx : x.progress.isMapping = false) :
    ∃ r < cfg.nReduce, x.task.tasktype = .reduce ∧ x.task.key = itoa r ∧ w.Released cfg r := by
  simpa [Fits, hx] using h

/-- A report fits the task of the worker that sends it. -/
theorem Reports.genuine {task : TaskRequest} {progress : Progress} {report : SuccessReport}
    (h : Reports cfg task progress report) (hx : Fits cfg w ⟨task, progress⟩) :
    Genuine cfg ⟨report, task⟩ := by
  cases h with
  | bucket i renamed hi hb =>
    obtain ⟨m, hm, rfl⟩ := hx.map rfl
    exact .bucket m i hm hi
  | map i renamed hi =>
    obtain ⟨m, hm, rfl⟩ := hx.map rfl
    exact .map m hm
  | reduce offset =>
    obtain ⟨r, hr, ht, hk, -⟩ := hx.reduce rfl
    dsimp only at ht hk ⊢
    rw [hk]
    exact .reduce r task hr ht hk

/-! ## Jobs under the invariant -/

namespace Ordered

variable {p : Ptr} {j : Job}

/-- A job is one of `initialize` or has been made by `ReportMapFailure`. -/
theorem job (h : Ordered cfg w) (hj : w.heap p = some j) :
    (∃ j₀, cfg.initialJob p = some j₀ ∧ j₀.Le j) ∨ Remade cfg w j := by
  by_cases hp : ∃ k, p = .again k
  · obtain ⟨k, rfl⟩ := hp
    exact Or.inr (h.again k j hj)
  · exact Or.inl (h.initial.initialJob hj fun k hk => hp ⟨k, hk⟩)

theorem map_key (h : Ordered cfg w) (hj : w.heap p = some j) (ht : j.jobtype = .map) :
    ∃ m, j.key = itoa m := by
  rcases h.job hj with ⟨j₀, hj₀, hle⟩ | hre
  · rw [hle.jobtype] at ht
    rw [hle.key]
    cases p <;> simp [Config.initialJob, newJob] at hj₀ <;> grind
  · rcases hre.kind with ⟨-, hm⟩ | ⟨hr, -⟩
    · exact hm
    · rw [ht] at hr
      cases hr

/-- A job that is done was reported under its id. -/
theorem reported (h : Ordered cfg w) (hd : w.IsDone p) (hj : w.heap p = some j) :
    ∃ s ∈ w.processed, Genuine cfg s ∧ s.report.id = j.id ∧
      s.report.outputFilename = j.output := by
  obtain ⟨j', hj', hclosed⟩ := Option.map_eq_some_iff.mp hd
  obtain rfl := Option.some.inj (hj.symm.trans hj')
  obtain ⟨s, hs, hid, hout⟩ := h.closed p j hj hclosed
  exact ⟨s, hs, h.sent s (Or.inr (Or.inr hs)), hid, hout⟩

/-- A pseudo job is done when its bucket is reported, and it has the name of its file. -/
theorem bucket_done (h : Ordered cfg w) (hcfg : cfg.nReduce ≤ 10) {m r : ℕ}
    (hm : m < cfg.files.length) (hr : r < cfg.nReduce) (hd : w.IsDone (.pseudo m r)) :
    cfg.bucketSent m r ∈ w.processed ∧
      ((w.heap (.pseudo m r)).map Job.output).getD [] = cfg.bucketOutput m r := by
  have hj₀ : cfg.initialJob (.pseudo m r) = some (newJob .pseudo (bucketKey (itoa m) r) []) :=
    if_pos ⟨hm, hr⟩
  obtain ⟨j, hj, hle⟩ := h.initial.heap (.pseudo m r) _ hj₀
  obtain ⟨s, hs, hgen, hid, hout⟩ := h.reported hd hj
  rw [hle.id_eq] at hid
  obtain rfl := hgen.of_bucket hcfg hr hid
  refine ⟨hs, ?_⟩
  rw [hj]
  exact hout.symm

theorem reduce_done (h : Ordered cfg w) {r : ℕ} (hr : r < cfg.nReduce)
    (hd : w.IsDone (.reduce r)) : w.Reduced r := by
  obtain ⟨j, hj, hle⟩ := h.initial.heap (.reduce r) _ (if_pos hr)
  obtain ⟨⟨report, task⟩, hs, hgen, hid, -⟩ := h.reported hd hj
  rw [hle.id_eq] at hid
  obtain ⟨hrep, ht, hk⟩ := hgen.of_reduce hid
  dsimp only at hrep
  exact ⟨task, ht, hk, hrep ▸ hs⟩

/-- A reduce job past its wait has all its buckets reported. -/
theorem released (h : Ordered cfg w) (hcfg : cfg.nReduce ≤ 10) (hp : w.Ready p)
    (hj : w.heap p = some j) (ht : j.jobtype = .reduce) :
    ∃ r < cfg.nReduce, j.key = itoa r ∧ w.Released cfg r := by
  rcases h.job hj with ⟨j₀, hj₀, hle⟩ | hre
  · obtain ⟨r, hr, rfl, rfl⟩ := initialJob_reduce hj₀ (hle.jobtype ▸ ht)
    obtain ⟨j', hj', hdeps⟩ := hp
    obtain rfl := Option.some.inj (hj.symm.trans hj')
    refine ⟨r, hr, hle.key, fun m hm => (h.bucket_done hcfg hm hr (hdeps _ ?_)).1⟩
    rw [hle.deps]
    exact List.mem_map.mpr ⟨m, List.mem_range.mpr hm, rfl⟩
  · rcases hre.kind with ⟨hmap, -⟩ | ⟨-, hr⟩
    · rw [ht] at hmap
      cases hmap
    · exact hr

/-- The done job past its wait has all reduce tasks reported. -/
theorem reduced (h : Ordered cfg w) (hp : w.Ready p) (hj : w.heap p = some j)
    (ht : j.jobtype = .done) : ∀ r < cfg.nReduce, w.Reduced r := by
  intro r hr
  rcases h.job hj with ⟨j₀, hj₀, hle⟩ | hre
  · obtain rfl := initialJob_done hj₀ (hle.jobtype ▸ ht)
    obtain rfl := Option.some.inj hj₀
    obtain ⟨j', hj', hdeps⟩ := hp
    obtain rfl := Option.some.inj (hj.symm.trans hj')
    refine h.reduce_done hr (hdeps _ ?_)
    rw [hle.deps]
    exact List.mem_map.mpr ⟨r, List.mem_range.mpr hr, rfl⟩
  · rcases hre.kind with ⟨hmap, -⟩ | ⟨hred, -⟩
    · rw [ht] at hmap
      cases hmap
    · rw [ht] at hred
      cases hred

/-- A worker starts with a task that fits. -/
theorem fits_start (h : Ordered cfg w) (hcfg : cfg.nReduce ≤ 10) (hp : w.Ready p)
    (hj : w.heap p = some j) {x : Execution} (hreply : Replies cfg w j x.task)
    (hx : x ∈ World.start x.task) : Fits cfg w x := by
  rcases start_cases hx with ⟨ht, heq⟩ | ⟨ht, heq⟩
  · -- a map task: the key is the number of its file
    obtain ⟨m, hkey⟩ := h.map_key hj (hreply.tasktype ▸ ht)
    obtain ⟨f, hf, hfile⟩ := hreply.file (hreply.tasktype ▸ ht)
    rw [hkey, atoi_itoa] at hf
    simp only [Fits, congrArg Execution.progress heq, Progress.isMapping, if_true]
    refine ⟨m, (List.getElem?_eq_some_iff.mp hf).1, ?_⟩
    cases htask : x.task with
    | mk filenames tasktype key nReduce nMap =>
      rw [htask] at hfile ht hreply
      simp only [Config.mapRequest, hf, Option.getD_some, TaskRequest.mk.injEq]
      exact ⟨hfile, ht, hreply.key.trans hkey, hreply.nReduce, hreply.nMap⟩
  · obtain ⟨r, hr, hkey, hrel⟩ := h.released hcfg hp hj (hreply.tasktype ▸ ht)
    simp only [Fits, congrArg Execution.progress heq, Progress.isMapping]
    exact ⟨r, hr, ht, hreply.key.trans hkey, hrel⟩

end Ordered

/-! ## Steps keep the invariant -/

theorem Ordered.init (cfg : Config) : Ordered cfg (World.init cfg) where
  fresh := fun _ _ => rfl
  initial := .refl _
  again := by simp [World.init, Config.initialJob]
  closed := by
    intro p j hj hclosed
    cases p <;> simp [World.init, Config.initialJob, newJob] at hj <;> grind
  table := by simp [World.init]
  goroutines := by
    intro p stage hmem hstage
    obtain ⟨q, -, heq⟩ := List.mem_map.mp hmem
    exact absurd (Goroutine.mk.inj heq).2.symm hstage
  jobCh := by simp [World.init]
  executions := by simp [World.init]
  finishing := by simp [World.init]
  sent := by simp [World.init, World.HasSent]
  handed := by simp [World.init]
  doneCh := by simp [World.init]

/-- The jobs of a failure report of a worker whose task fits. -/
theorem remade_of_failedJobs {x : Execution} (hx : Fits cfg w x)
    (hp : x.progress.isMapping = false) {corrupt : List ℕ} {j : Job}
    (hj : j ∈ World.failedJobs ⟨corrupt, atoi x.task.key⟩) : Remade cfg w j := by
  obtain ⟨r, hr, -, hk, hrel⟩ := hx.reduce hp
  rw [World.failedJobs, hk, atoi_itoa] at hj
  rcases List.mem_append.mp hj with hmem | hmem
  · obtain ⟨v, -, rfl⟩ := List.mem_map.mp hmem
    exact ⟨rfl, rfl, Or.inl ⟨rfl, v, rfl⟩⟩
  · obtain rfl := List.mem_singleton.mp hmem
    exact ⟨rfl, rfl, Or.inr ⟨rfl, r, hr, rfl, hrel⟩⟩

theorem Ordered.closed_step (h : Ordered cfg w) (hs : Steps cfg w event w') {p : Ptr} {j' : Job}
    (hj' : w'.heap p = some j') (hclosed : j'.done = .closed) :
    ∃ s ∈ w'.processed, s.report.id = j'.id ∧ s.report.outputFilename = j'.output := by
  cases hs.job_effect h.fresh hj' with
  | same j hj hd ho hjle =>
    obtain ⟨s, hmem, hid, hout⟩ := h.closed p j hj (hd ▸ hclosed)
    exact ⟨s, (hs.le h.fresh).processed hmem, hid.trans hjle.id_eq.symm, hout.trans ho.symm⟩
  | closed j s hj ho hf hs hjle hd hout =>
    -- the table had the job under the id of the report
    rcases hf with ⟨f, hf, -⟩
    obtain ⟨i, hi, hid⟩ := h.finishing _ (List.mem_of_getElem? hf)
    obtain rfl := Option.some.inj (hj.symm.trans hi)
    exact ⟨s, hs, hid.symm.trans hjle.id_eq.symm, hout.symm⟩
  | again k task corrupt kvs hp hnew hx hj =>
    have hnil := (remade_of_failedJobs (h.executions _ hx) rfl hj).done
    rw [hclosed] at hnil
    cases hnil

theorem Ordered.handed_step (h : Ordered cfg w) (hcfg : cfg.nReduce ≤ 10)
    (hs : Steps cfg w event w') {task : TaskRequest} (hmem : task ∈ w'.handed)
    (ht : task.tasktype = .reduce) : ∃ r < cfg.nReduce, task.key = itoa r ∧ w.Released cfg r := by
  rcases hs.handed_effect hmem with hmem | ⟨p, j, hp, hj, hreply⟩
  · exact h.handed task hmem ht
  · rw [hreply.key]
    exact h.released hcfg (h.jobCh p hp) hj (hreply.tasktype ▸ ht)

theorem Ordered.step (hcfg : cfg.nReduce ≤ 10) (h : Ordered cfg w)
    (hs : Steps cfg w event w') : Ordered cfg w' := by
  have hle := hs.le h.fresh
  constructor
  case fresh => exact hs.fresh h.fresh
  case initial => exact h.initial.trans hle
  case closed => exact fun p j' => h.closed_step hs
  case again =>
    intro k j' hj'
    cases hs.job_effect h.fresh hj' with
    | same j hj hd ho hjle => exact (h.again k j hj).mono hle hjle
    | closed j s hj ho hf hs hjle hd hout => exact (h.again k j hj).mono hle hjle
    | again k' task corrupt kvs hp hnew hx hj =>
      exact (remade_of_failedJobs (h.executions _ hx) rfl hj).mono hle (.refl j')
  case table => exact fun id p => hs.table_job h.fresh h.table
  case goroutines =>
    intro p stage hmem hstage
    rcases hs.goroutine_effect h.fresh hmem hstage with ⟨stage', hstage', hmem'⟩ | hready
    · exact hle.ready (h.goroutines p stage' hmem' hstage')
    · exact hle.ready hready
  case jobCh =>
    intro p hp
    rcases hs.jobCh_effect hp with hmem | hmem
    · exact hle.ready (h.jobCh p hmem)
    · exact hle.ready (h.goroutines p .sending hmem (by simp))
  case executions =>
    intro x hx
    rcases hs.task_effect hx with ⟨progress, hmem, hp⟩ | ⟨p, j, hmem, hj, hreply, hstart⟩
    · exact (h.executions _ hmem).mono hle hp
    · exact Fits.mono (h.fits_start hcfg (h.jobCh p hmem) hj hreply hstart) hle rfl
  case finishing => exact fun f hf => hs.finishing_job h.fresh h.table h.finishing hf
  case sent =>
    intro s hsent
    rcases hs.sent_effect hsent with hsent | ⟨n, progress, -, hx, hrep⟩
    · exact h.sent s hsent
    · exact hrep.genuine (h.executions _ (List.mem_of_getElem? hx))
  case handed =>
    intro task hmem ht
    obtain ⟨r, hr, hk, hrel⟩ := h.handed_step hcfg hs hmem ht
    exact ⟨r, hr, hk, hle.released hrel⟩
  case doneCh =>
    intro hclosed r hr
    refine hle.reduced ?_
    rcases hs.doneCh_effect hclosed with hold | ⟨p, j, hp, hj, ht⟩
    · exact h.doneCh hold r hr
    · exact h.reduced (h.jobCh p hp) hj ht r hr

variable {C : World → Event → Prop} {e : Behavior World}

theorem Run.ordered (hcfg : cfg.nReduce ≤ 10) (h : Run cfg C e) (k : ℕ) : Ordered cfg (e k) :=
  h.steps (Ordered cfg) (Ordered.init cfg) (fun _ _ _ hinv _ hs => hinv.step hcfg hs) k

/-- With reduce numbers of one digit, a reduce task is handed out only when the report of
its bucket was processed for every map, and `doneCh` is closed only when a report of
every reduce task was. -/
theorem dependency_order (hcfg : cfg.nReduce ≤ 10) (h : Run cfg C e) (k : ℕ) :
    (∀ task ∈ (e k).handed, ∀ r, task.tasktype = .reduce → task.key = itoa r →
      ∀ m < cfg.files.length, ∃ s ∈ (e k).processed, s.task = cfg.mapRequest m ∧
        s.report.tasktype = .pseudo ∧ s.report.key = bucketKey (itoa m) r) ∧
    ((e k).doneCh = .closed → ∀ r < cfg.nReduce, ∃ s ∈ (e k).processed,
      s.task.tasktype = .reduce ∧ s.task.key = itoa r ∧ s.report = reduceReport (itoa r)) := by
  have hinv := h.ordered hcfg k
  constructor
  · intro task hmem r ht hk m hm
    obtain ⟨r', hr', hk', hrel⟩ := hinv.handed task hmem ht
    obtain rfl := itoa_inj.mp (hk'.symm.trans hk)
    exact ⟨_, hrel m hm, rfl, rfl, rfl⟩
  · intro hclosed r hr
    obtain ⟨task, ht, hk, hmem⟩ := hinv.doneCh hclosed r hr
    exact ⟨_, hmem, ht, hk, rfl⟩

theorem dependency_order_throughout :
    (play (World.step oneFile) (World.init oneFile) throughout).doneCh = .closed ∧
    ∀ r < 1, ∃ s ∈ (play (World.step oneFile) (World.init oneFile) throughout).processed,
      s.task.tasktype = .reduce ∧ s.task.key = itoa r ∧ s.report = reduceReport (itoa r) := by
  have hrun : Run oneFile (fun _ _ => True)
      fun k => play (World.step oneFile) (World.init oneFile) (throughout.take k) :=
    Runs.play (Plays.of_forall (fun _ _ => trivial) _ _)
  have hclosed : (play (World.step oneFile) (World.init oneFile) throughout).doneCh = .closed := by
    decide +kernel
  exact ⟨hclosed, (dependency_order (by decide) hrun throughout.length).2 hclosed⟩

end

end DistStudy.MapReduce
