import DistStudy.MapReduce.Dependencies

/-!
# The inputs of reduce tasks

`GetTask` takes the file names of a reduce task from the job's dependencies, each time it
hands the job out. For the jobs of `initialize` these are the pseudo jobs of all maps in
the order of the map numbers, and the task is `reduceRequest`. A reduce job that
`ReportMapFailure` has made has no dependencies: its task has no file names at all.
-/

namespace DistStudy.MapReduce

section

variable {cfg : Config} {w w' : World} {event : Event} {p : Ptr} {j : Job} {task : TaskRequest}

/-- What `GetTask` replies for a reduce job of `initialize`. -/
theorem Ordered.request (h : Ordered cfg w) (hcfg : cfg.nReduce ≤ 10) (hp : w.Ready p)
    (hj : w.heap p = some j) (hagain : ∀ k, p ≠ .again k) (hreply : Replies cfg w j task)
    (ht : j.jobtype = .reduce) : ∃ r < cfg.nReduce, task = cfg.reduceRequest r := by
  obtain ⟨j₀, hj₀, hle⟩ := h.initial.initialJob hj hagain
  obtain ⟨r, hr, rfl, rfl⟩ := initialJob_reduce hj₀ (hle.jobtype ▸ ht)
  obtain ⟨j', hj', hdeps⟩ := hp
  obtain rfl := Option.some.inj (hj.symm.trans hj')
  -- every dependency is done, so its output is the name of its bucket's file
  have hfiles : task.filenames = (List.range cfg.files.length).map (cfg.bucketOutput · r) := by
    rw [hreply.deps ht, hle.deps, newJob, List.map_map]
    refine List.map_congr_left fun m hm => ?_
    refine (h.bucket_done hcfg (List.mem_range.mp hm) hr (hdeps _ ?_)).2
    rw [hle.deps]
    exact List.mem_map.mpr ⟨m, hm, rfl⟩
  refine ⟨r, hr, ?_⟩
  cases htask : task with
  | mk filenames tasktype key nReduce nMap =>
    rw [htask] at hfiles hreply
    simp only [Config.reduceRequest, TaskRequest.mk.injEq]
    exact ⟨hfiles, hreply.tasktype.trans ht, hreply.key.trans hle.key, hreply.nReduce, hreply.nMap⟩

/-- The reduce jobs that are received are those of `initialize`. -/
def initialReduces (w : World) : Event → Prop
  | .receive =>
    match w.jobCh with
    | .again k :: _ => (w.heap (.again k)).map Job.jobtype ≠ some .reduce
    | _ => True
  | _ => True

instance (w : World) (event : Event) : Decidable (initialReduces w event) := by
  unfold initialReduces
  split
  · split <;> infer_instance
  · infer_instance

/-- Every reduce task has the file of each map. -/
def Requested (cfg : Config) (w : World) : Prop :=
  ∀ task ∈ w.handed, task.tasktype = .reduce → ∃ r < cfg.nReduce, task = cfg.reduceRequest r

theorem Requested.step (hcfg : cfg.nReduce ≤ 10) (hord : Ordered cfg w) (h : Requested cfg w)
    (hC : initialReduces w event) (hs : Steps cfg w event w') : Requested cfg w' := by
  cases hs with
  | hand p jobCh j task getters hget hch hj ht htask hdone =>
    intro task' hmem ht'
    rcases List.mem_append.mp hmem with hmem | hmem
    · exact h task' hmem ht'
    · obtain rfl := List.mem_singleton.mp hmem
      have hreply := replies htask
      have hred : j.jobtype = .reduce := hreply.tasktype ▸ ht'
      refine hord.request hcfg (hord.jobCh p (by simp [hch])) hj ?_ hreply hred
      rintro k rfl
      simp [initialReduces, hch, hj, hred] at hC
  | _ => exact h

variable {C : World → Event → Prop} {e : Behavior World}

theorem Run.requested (hcfg : cfg.nReduce ≤ 10) (h : Run cfg initialReduces e) (k : ℕ) :
    Requested cfg (e k) := by
  refine h.steps_of (h.ordered hcfg) (Requested cfg) ?_ ?_ k
  · simp [Requested, World.init]
  · intro w event w' hord hinv hC hs
    exact hinv.step hcfg hord hC hs

/-- As long as no reduce job of a failure report is received, a reduce task has one file
name for every map, which a worker that executes this map has reported for the bucket. -/
theorem reduce_inputs (hcfg : cfg.nReduce ≤ 10) (h : Run cfg initialReduces e) (k : ℕ) :
    ∀ task ∈ (e k).handed, ∀ r, task.tasktype = .reduce → task.key = itoa r →
      task.filenames.length = cfg.files.length ∧
      ∀ m < cfg.files.length, ∃ s ∈ (e k).processed, s.task = cfg.mapRequest m ∧
        s.report.tasktype = .pseudo ∧ s.report.key = bucketKey (itoa m) r ∧
        task.filenames[m]? = some s.report.outputFilename ∧
        s.report.outputFilename =
          if cfg.bucket m r = [] then [] else resultName (itoa m) r := by
  intro task hmem r ht hk
  obtain ⟨r', hr', rfl⟩ := h.requested hcfg k task hmem ht
  obtain rfl : r' = r := itoa_inj.mp hk
  obtain ⟨r'', -, hk'', hrel⟩ := (h.ordered hcfg k).handed _ hmem ht
  obtain rfl := itoa_inj.mp (hk''.symm.trans hk)
  refine ⟨by simp [Config.reduceRequest], fun m hm => ?_⟩
  refine ⟨_, hrel m hm, rfl, rfl, rfl, ?_, rfl⟩
  simp [Config.reduceRequest, Config.bucketOutput, Config.bucketSent, hm]

theorem reduce_inputs_throughout :
    ∃ task ∈ (play (World.step oneFile) (World.init oneFile) throughout).handed,
      task.tasktype = .reduce ∧ task.filenames.length = 1 := by
  have hrun : Run oneFile initialReduces
      fun k => play (World.step oneFile) (World.init oneFile) (throughout.take k) :=
    Runs.play (by decide +kernel)
  have hmem : oneFile.reduceRequest 0 ∈
      (play (World.step oneFile) (World.init oneFile) throughout).handed := by
    decide +kernel
  have h := reduce_inputs (by decide) hrun throughout.length _ hmem 0 rfl rfl
  exact ⟨_, hmem, rfl, h.1⟩

/-- The reduce task cannot open its file and reports this, and the reduce job of the report
is received. -/
def failureReported : List Event :=
  [.depsDone 0, .depsDone 1, .send 0, .store 0, .send 0, .store 0, .getTask, .receive,
    .rename 0 [⟨['a'], ['1']⟩], .report 0, .report 0, .finish 0, .close 0, .finish 0, .close 0,
    .getTask, .receive, .depsDone 0, .send 0, .store 0, .receive, .openFiles 0 [0],
    .reportFailure 0, .depsDone 2, .send 2, .getTask, .receive]

/-- The task of a job that `ReportMapFailure` has made has no file names. -/
theorem remade_reduce_without_inputs :
    oneFile.files.length = 1 ∧
    ∃ task ∈ (play (World.step oneFile) (World.init oneFile) failureReported).handed,
      task.tasktype = .reduce ∧ task.key = itoa 0 ∧ task.filenames = [] := by
  decide +kernel

end

end DistStudy.MapReduce
