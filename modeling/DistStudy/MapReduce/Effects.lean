import DistStudy.MapReduce.Steps

/-!
# Where things come from

For each component of a world, what a step can have put there: a job, an entry of the
table, a goroutine past its wait, a job in the channel, the execution of a task, a report.
Every invariant of the coordinator is an induction over these lemmas.
-/

namespace DistStudy.MapReduce

/-- The job at `p` and all its dependencies are there, and the dependencies are done. -/
def World.Ready (w : World) (p : Ptr) : Prop :=
  ∃ j, w.heap p = some j ∧ ∀ d ∈ j.deps, w.IsDone d

theorem World.Le.ready {w w' : World} (h : w.Le w') {p : Ptr} (hr : w.Ready p) : w'.Ready p := by
  obtain ⟨j, hj, hd⟩ := hr
  obtain ⟨j', hj', hle⟩ := h.heap p j hj
  refine ⟨j', hj', fun d hmem => h.isDone (hd d ?_)⟩
  rwa [hle.deps] at hmem

/-- A worker has sent the report. -/
def World.HasSent (w : World) (s : Sent) : Prop :=
  s ∈ w.reports ∨ s ∈ w.finishing.map Finishing.sent ∨ s ∈ w.processed

/-- The execution is one of a map task. -/
def Progress.isMapping : Progress → Bool
  | .mapping _ _ => true
  | _ => false

/-- How a job came to be as it is after a step. -/
inductive JobEffect (w w' : World) (p : Ptr) (j' : Job) : Prop
  | same (j : Job) (hj : w.heap p = some j) (hd : j'.done = j.done) (ho : j'.output = j.output)
      (hle : j.Le j')
  | closed (j : Job) (s : Sent) (hj : w.heap p = some j) (ho : j.done = .opened)
      (hf : ∃ f, w.finishing[f]? = some ⟨p, s⟩ ∧ w'.finishing = w.finishing.eraseIdx f)
      (hs : s ∈ w'.processed) (hle : j.Le j') (hd : j'.done = .closed)
      (hout : j'.output = s.report.outputFilename)
  | again (k : ℕ) (task : TaskRequest) (corrupt : List ℕ) (kvs : List KeyValue) (hp : p = .again k)
      (hnew : w.heap p = none)
      (hx : ⟨task, .failing corrupt kvs⟩ ∈ w.executions)
      (hj : j' ∈ World.failedJobs ⟨corrupt, atoi task.key⟩)

/-- A report fits the execution that sends it. -/
inductive Reports (cfg : Config) (task : TaskRequest) : Progress → SuccessReport → Prop
  | bucket (i : ℕ) (renamed : Bool) (hi : i < task.nReduce)
      (hb : renamed = true ∨ cfg.bucketOf task i = []) :
      Reports cfg task (.mapping i renamed) (bucketReport task.key (cfg.bucketOf task i) i)
  | map (i : ℕ) (renamed : Bool) (hi : ¬ i < task.nReduce) :
      Reports cfg task (.mapping i renamed) (mapReport task.key)
  | reduce (offset : ℕ) : Reports cfg task (.writing [] offset) (reduceReport task.key)

/-- How far an execution is after a step. -/
inductive ExecutionEffect (cfg : Config) (w w' : World) (event : Event) : Execution → Prop
  | kept (x : Execution) (hx : x ∈ w.executions) : ExecutionEffect cfg w w' event x
  | started (x : Execution) (p : Ptr) (j : Job) (hp : p ∈ w.jobCh) (hj : w.heap p = some j)
      (hreply : Replies cfg w j x.task) (hx : x ∈ World.start x.task) :
      ExecutionEffect cfg w w' event x
  | renamed (task : TaskRequest) (i : ℕ) (kvs : List KeyValue)
      (hx : ⟨task, .mapping i false⟩ ∈ w.executions)
      (hfile : w'.files (resultName task.key i) = some kvs)
      (hperm : kvs.Perm (cfg.bucketOf task i)) :
      ExecutionEffect cfg w w' event ⟨task, .mapping i true⟩
  | reported (task : TaskRequest) (i : ℕ) (renamed : Bool)
      (hx : ⟨task, .mapping i renamed⟩ ∈ w.executions) :
      ExecutionEffect cfg w w' event ⟨task, .mapping (i + 1) false⟩
  | opened (n : ℕ) (task : TaskRequest) (broken : List ℕ) (hev : event = .openFiles n broken)
      (hx : ⟨task, .opening⟩ ∈ w.executions) :
      ExecutionEffect cfg w w' event
        ⟨task, if corruptMapWorkers w.files broken task.filenames = [] then
            .loaded (decoded w.files broken task.filenames)
          else .failing (corruptMapWorkers w.files broken task.filenames)
            (decoded w.files broken task.filenames)⟩
  | failed (task : TaskRequest) (corrupt : List ℕ) (kvs : List KeyValue)
      (hx : ⟨task, .failing corrupt kvs⟩ ∈ w.executions) :
      ExecutionEffect cfg w w' event ⟨task, .loaded kvs⟩
  | created (task : TaskRequest) (kvs sorted : List KeyValue)
      (hx : ⟨task, .loaded kvs⟩ ∈ w.executions) :
      ExecutionEffect cfg w w' event ⟨task, .writing (reduceLoop cfg.reducef sorted) 0⟩
  | written (task : TaskRequest) (lines lines' : List Line) (offset offset' : ℕ)
      (hx : ⟨task, .writing lines offset⟩ ∈ w.executions) :
      ExecutionEffect cfg w w' event ⟨task, .writing lines' offset'⟩

namespace Steps

variable {cfg : Config} {w w' : World} {event : Event}

/-- What is found after one position was written. -/
theorem update_eq_some {α β : Type*} [DecidableEq α] {f : α → Option β} {a b : α} {x y : β}
    (h : Function.update f a (some x) b = some y) : b = a ∧ y = x ∨ b ≠ a ∧ f b = some y := by
  by_cases hb : b = a
  · subst hb
    rw [Function.update_self] at h
    exact Or.inl ⟨rfl, (Option.some.inj h).symm⟩
  · rw [Function.update_of_ne hb] at h
    exact Or.inr ⟨hb, h⟩

theorem job_effect (hf : Fresh w) (hs : Steps cfg w event w') {p : Ptr} {j' : Job}
    (hj' : w'.heap p = some j') : JobEffect w w' p j' := by
  cases hs with
  | depsDone g q j hg hj hd =>
    rcases update_eq_some hj' with ⟨rfl, rfl⟩ | ⟨-, hj'⟩
    · exact .same j hj rfl rfl ⟨rfl, rfl, rfl, fun h => ⟨h, rfl⟩, Iff.rfl⟩
    · exact .same j' hj' rfl rfl (.refl j')
  | close f q s j hclose hj ho =>
    rcases update_eq_some hj' with ⟨rfl, rfl⟩ | ⟨-, hj'⟩
    · refine .closed j s hj ho ⟨f, hclose, rfl⟩ (by simp) ?_ rfl rfl
      exact ⟨rfl, rfl, rfl, by simp [ho], by simp [ho]⟩
    · exact .same j' hj' rfl rfl (.refl j')
  | reportFailure x task corrupt kvs hx =>
    have h := resubmits (World.failedJobs ⟨corrupt, atoi task.key⟩) w hf
    by_cases hp : ∃ k, p = .again (w.made + k)
    · obtain ⟨k, rfl⟩ := hp
      exact .again _ task corrupt kvs rfl (hf _ (Nat.le_add_right _ _)) (List.mem_of_getElem? hx)
        (List.mem_of_getElem? ((h.new k).symm.trans hj'))
    · refine .same j' ((h.old p fun k hk => hp ⟨k, hk⟩).symm.trans hj') rfl rfl (.refl j')
  | _ => exact .same j' hj' rfl rfl (.refl j')

/-- Only `Store` makes an entry of the table. -/
theorem table_effect (hs : Steps cfg w event w') {id : Text} {p : Ptr}
    (hp : w'.jobs id = some p) :
    w.jobs id = some p ∨
      (∃ g, event = .store g ∧ w.goroutines[g]? = some ⟨p, .storing⟩) ∧
        ∃ j, w.heap p = some j ∧ j.id = id := by
  cases hs with
  | store g q j hg hj =>
    rcases update_eq_some hp with ⟨rfl, rfl⟩ | ⟨-, hp⟩
    · exact Or.inr ⟨⟨g, rfl, hg⟩, j, hj, rfl⟩
    · exact Or.inl hp
  | finishFound r s q hr hq =>
    left
    by_cases hid : id = s.report.id
    · subst hid
      cases (Function.update_self _ _ _).symm.trans hp
    · exact (Function.update_of_ne hid _ _).symm.trans hp
  | _ => exact Or.inl hp

/-- The table has every job under its id. -/
theorem table_job (hf : Fresh w) (hs : Steps cfg w event w')
    (h : ∀ id p, w.jobs id = some p → ∃ j, w.heap p = some j ∧ j.id = id) {id : Text} {p : Ptr}
    (hp : w'.jobs id = some p) : ∃ j, w'.heap p = some j ∧ j.id = id := by
  apply (hs.le hf).job_id
  rcases hs.table_effect hp with hp | ⟨-, hj⟩
  · exact h id p hp
  · exact hj

/-- A goroutine past its wait has passed it before, or passes it now. -/
theorem goroutine_effect (hf : Fresh w) (hs : Steps cfg w event w') {p : Ptr} {stage : Stage}
    (hg' : ⟨p, stage⟩ ∈ w'.goroutines) (hstage : stage ≠ .waiting) :
    (∃ stage', stage' ≠ .waiting ∧ ⟨p, stage'⟩ ∈ w.goroutines) ∨ w.Ready p := by
  cases hs with
  | depsDone g q j hg hj hd =>
    rcases List.mem_or_eq_of_mem_set hg' with hmem | heq
    · exact Or.inl ⟨stage, hstage, hmem⟩
    · obtain ⟨rfl, rfl⟩ := Goroutine.mk.inj heq
      exact Or.inr ⟨j, hj, hd⟩
  | send g q hg hroom =>
    left
    rcases List.mem_or_eq_of_mem_set hg' with hmem | heq
    · exact ⟨stage, hstage, hmem⟩
    · obtain ⟨rfl, rfl⟩ := Goroutine.mk.inj heq
      exact ⟨.sending, by simp, List.mem_of_getElem? hg⟩
  | store g q j hg hj => exact Or.inl ⟨stage, hstage, List.mem_of_mem_eraseIdx hg'⟩
  | retry i q j hp hj hq =>
    left
    rcases List.mem_append.mp hg' with hmem | hmem
    · exact ⟨stage, hstage, hmem⟩
    · simp_all
  | reportFailure x task corrupt kvs hx =>
    left
    have h := resubmits (World.failedJobs ⟨corrupt, atoi task.key⟩) w hf
    have hmem : _ ∈ w.goroutines ++ _ := h.goroutines ▸ hg'
    rcases List.mem_append.mp hmem with hmem | hmem
    · exact ⟨stage, hstage, hmem⟩
    · obtain ⟨k, -, heq⟩ := List.mem_map.mp hmem
      exact absurd (Goroutine.mk.inj heq).2.symm hstage
  | _ => exact Or.inl ⟨stage, hstage, hg'⟩

/-- A job gets into the channel from a goroutine that has waited for its dependencies. -/
theorem jobCh_effect (hs : Steps cfg w event w') {p : Ptr} (hp : p ∈ w'.jobCh) :
    p ∈ w.jobCh ∨ ⟨p, .sending⟩ ∈ w.goroutines := by
  cases hs with
  | send g q hg hroom =>
    rcases List.mem_append.mp hp with hmem | hmem
    · exact Or.inl hmem
    · obtain rfl := List.mem_singleton.mp hmem
      exact Or.inr (List.mem_of_getElem? hg)
  | dropPseudo q jobCh j hch hj ht => exact Or.inl (hch ▸ List.mem_cons_of_mem q hp)
  | hand q jobCh j task getters hget hch hj ht htask hdone =>
    exact Or.inl (hch ▸ List.mem_cons_of_mem q hp)
  | _ => exact Or.inl hp

/-- A task that has been handed out comes from a job in the channel. -/
theorem handed_effect (hs : Steps cfg w event w') {task : TaskRequest} (h : task ∈ w'.handed) :
    task ∈ w.handed ∨ ∃ p j, p ∈ w.jobCh ∧ w.heap p = some j ∧ Replies cfg w j task := by
  cases hs with
  | hand p jobCh j task' getters hget hch hj ht htask hdone =>
    rcases List.mem_append.mp h with hmem | hmem
    · exact Or.inl hmem
    · obtain rfl := List.mem_singleton.mp hmem
      exact Or.inr ⟨p, j, by simp [hch], hj, replies htask⟩
  | _ => exact Or.inl h

/-- `doneCh` is closed when a done job is received. -/
theorem doneCh_effect (hs : Steps cfg w event w') (h : w'.doneCh = .closed) :
    w.doneCh = .closed ∨ ∃ p j, p ∈ w.jobCh ∧ w.heap p = some j ∧ j.jobtype = .done := by
  cases hs with
  | hand p jobCh j task' getters hget hch hj ht htask hdone =>
    by_cases htd : j.jobtype = .done
    · exact Or.inr ⟨p, j, by simp [hch], hj, htd⟩
    · left
      simpa [htd] using h
  | _ => exact Or.inl h

theorem execution_effect (hs : Steps cfg w event w') {x : Execution} (hx : x ∈ w'.executions) :
    ExecutionEffect cfg w w' event x := by
  -- of the executions in a list that is set at one position, one is new
  have hset : ∀ {i : ℕ} {y : Execution}, x ∈ w.executions.set i y →
      ExecutionEffect cfg w w' event y → ExecutionEffect cfg w w' event x := by
    intro i y hmem hy
    rcases List.mem_or_eq_of_mem_set hmem with hmem | rfl
    · exact .kept x hmem
    · exact hy
  cases hs with
  | hand p jobCh j task getters hget hch hj ht htask hdone =>
    rcases List.mem_append.mp hx with hmem | hmem
    · exact .kept x hmem
    · have htask' : x.task = task := by
        unfold World.start at hmem
        split at hmem <;> simp_all
      subst htask'
      exact .started x p j (by simp [hch]) hj (replies htask) hmem
  | rename i task b kvs hi hlt hne hperm =>
    refine hset hx (.renamed task b kvs (List.mem_of_getElem? hi) ?_ hperm)
    simp [renameBucket, hne]
  | reportBucket i task b renamed hi hlt hb =>
    exact hset hx (.reported task b renamed (List.mem_of_getElem? hi))
  | reportMap i task b renamed hi hlt => exact .kept x (List.mem_of_mem_eraseIdx hx)
  | reportReduce i task offset hi => exact .kept x (List.mem_of_mem_eraseIdx hx)
  | openFiles i task broken hi =>
    exact hset hx (.opened i task broken rfl (List.mem_of_getElem? hi))
  | reportFailure i task corrupt kvs hi =>
    exact hset hx (.failed task corrupt kvs (List.mem_of_getElem? hi))
  | create i task kvs sorted hi hsort =>
    exact hset hx (.created task kvs sorted (List.mem_of_getElem? hi))
  | write i task line lines offset hi =>
    exact hset hx (.written task (line :: lines) lines offset _ (List.mem_of_getElem? hi))
  | crash i hi => exact .kept x (List.mem_of_mem_eraseIdx hx)
  | _ => exact .kept x hx

/-- An execution goes on with its task, or starts with a task that is handed out. -/
theorem task_effect (hs : Steps cfg w event w') {x : Execution} (hx' : x ∈ w'.executions) :
    (∃ progress, ⟨x.task, progress⟩ ∈ w.executions ∧
      progress.isMapping = x.progress.isMapping) ∨
    ∃ p j, p ∈ w.jobCh ∧ w.heap p = some j ∧ Replies cfg w j x.task ∧ x ∈ World.start x.task := by
  cases hs.execution_effect hx' with
  | kept _ hx => exact Or.inl ⟨x.progress, hx, rfl⟩
  | started _ p j hp hj hreply hx => exact Or.inr ⟨p, j, hp, hj, hreply, hx⟩
  | renamed task i kvs hx hfile hperm => exact Or.inl ⟨_, hx, rfl⟩
  | reported task i renamed hx => exact Or.inl ⟨_, hx, rfl⟩
  | opened n task broken hev hx =>
    refine Or.inl ⟨_, hx, ?_⟩
    dsimp only
    split_ifs <;> rfl
  | failed task corrupt kvs hx => exact Or.inl ⟨_, hx, rfl⟩
  | created task kvs sorted hx => exact Or.inl ⟨_, hx, rfl⟩
  | written task lines lines' offset offset' hx => exact Or.inl ⟨_, hx, rfl⟩

/-- Only the rename of a map task makes an intermediate file. -/
theorem files_effect (hs : Steps cfg w event w') (f : Text) :
    w'.files f = w.files f ∨ ∃ task i kvs, ⟨task, .mapping i false⟩ ∈ w.executions ∧
      i < task.nReduce ∧ f = resultName task.key i ∧ w'.files f = some kvs ∧
      kvs.Perm (cfg.bucketOf task i) := by
  cases hs with
  | rename x task i kvs hx hi hne hperm =>
    by_cases hf : f = resultName task.key i
    · right
      refine ⟨task, i, kvs, List.mem_of_getElem? hx, hi, hf, ?_, hperm⟩
      simp [renameBucket, hne, hf]
    · left
      simp [renameBucket, hne, Function.update_of_ne hf]
  | _ => exact Or.inl rfl

/-- Only reduce tasks make output files. -/
theorem outputs_effect (hs : Steps cfg w event w') (f : Text) :
    w'.outputs f = w.outputs f ∨ ∃ x ∈ w.executions, x.progress.isMapping = false ∧
      f = outName x.task.key := by
  -- an output file that is written is that of the execution
  have hwrite : ∀ {i : ℕ} {task : TaskRequest} {progress : Progress} {content : Bytes},
      w.executions[i]? = some ⟨task, progress⟩ → progress.isMapping = false →
      Function.update w.outputs (outName task.key) (some content) f = w.outputs f ∨
        ∃ x ∈ w.executions, x.progress.isMapping = false ∧ f = outName x.task.key := by
    intro i task progress content hi hp
    by_cases hf : f = outName task.key
    · exact Or.inr ⟨_, List.mem_of_getElem? hi, hp, hf⟩
    · exact Or.inl (Function.update_of_ne hf _ _)
  cases hs with
  | create x task kvs sorted hx hsort => exact hwrite hx rfl
  | write x task line lines offset hx => exact hwrite hx rfl
  | _ => exact Or.inl rfl

/-- Reports come from executions. -/
theorem report_effect (hs : Steps cfg w event w') {s : Sent} (h : s ∈ w'.reports) :
    s ∈ w.reports ∨ ∃ n progress, event = .report n ∧
      w.executions[n]? = some ⟨s.task, progress⟩ ∧ Reports cfg s.task progress s.report := by
  -- the report of a worker is the last one
  have hsent : ∀ {i : ℕ} {task : TaskRequest} {progress : Progress} {report : SuccessReport},
      w.executions[i]? = some ⟨task, progress⟩ → Reports cfg task progress report →
      s ∈ w.reports ++ [⟨report, task⟩] → s ∈ w.reports ∨
      ∃ n progress, Event.report i = .report n ∧ w.executions[n]? = some ⟨s.task, progress⟩ ∧
        Reports cfg s.task progress s.report := by
    intro i task progress report hi hr hmem
    rcases List.mem_append.mp hmem with hmem | hmem
    · exact Or.inl hmem
    · obtain rfl := List.mem_singleton.mp hmem
      exact Or.inr ⟨i, progress, rfl, hi, hr⟩
  cases hs with
  | finishLost r s' hr hnone => exact Or.inl (List.mem_of_mem_eraseIdx h)
  | finishFound r s' p hr hp => exact Or.inl (List.mem_of_mem_eraseIdx h)
  | reportBucket i task b renamed hi hlt hb => exact hsent hi (.bucket b renamed hlt hb) h
  | reportMap i task b renamed hi hlt => exact hsent hi (.map b renamed hlt) h
  | reportReduce i task offset hi => exact hsent hi (.reduce offset) h
  | _ => exact Or.inl h

/-- `Finish` takes a job out of the table under the id of a report. -/
theorem finishing_effect (hs : Steps cfg w event w') {f : Finishing} (h : f ∈ w'.finishing) :
    f ∈ w.finishing ∨ ∃ r, event = .finish r ∧ w.reports[r]? = some f.sent ∧
      w.jobs f.sent.report.id = some f.job ∧ w'.jobs f.sent.report.id = none := by
  cases hs with
  | finishFound r s p hr hp =>
    rcases List.mem_append.mp h with hmem | hmem
    · exact Or.inl hmem
    · obtain rfl := List.mem_singleton.mp hmem
      exact Or.inr ⟨r, rfl, hr, hp, Function.update_self _ _ _⟩
  | close f' p s j hclose hj ho => exact Or.inl (List.mem_of_mem_eraseIdx h)
  | _ => exact Or.inl h

/-- The job that `Finish` has found has the id of the report. -/
theorem finishing_job (hf : Fresh w) (hs : Steps cfg w event w')
    (htable : ∀ id p, w.jobs id = some p → ∃ j, w.heap p = some j ∧ j.id = id)
    (h : ∀ f ∈ w.finishing, ∃ j, w.heap f.job = some j ∧ j.id = f.sent.report.id) {f : Finishing}
    (hmem : f ∈ w'.finishing) : ∃ j, w'.heap f.job = some j ∧ j.id = f.sent.report.id := by
  apply (hs.le hf).job_id
  rcases hs.finishing_effect hmem with hmem | ⟨r, -, -, hp, -⟩
  · exact h f hmem
  · exact htable _ _ hp

/-- `Finish` returns when it finds no job, or has closed the channel of the one it found. -/
theorem processed_effect (hs : Steps cfg w event w') {s : Sent} (h : s ∈ w'.processed) :
    s ∈ w.processed ∨
      (∃ r, event = .finish r ∧ w.reports[r]? = some s ∧ w.jobs s.report.id = none) ∨
      ∃ f p, event = .close f ∧ w.finishing[f]? = some ⟨p, s⟩ ∧ w'.IsDone p := by
  cases hs with
  | finishLost r s' hr hnone =>
    rcases List.mem_append.mp h with hmem | hmem
    · exact Or.inl hmem
    · obtain rfl := List.mem_singleton.mp hmem
      exact Or.inr (Or.inl ⟨r, rfl, hr, hnone⟩)
  | close f p s' j hclose hj ho =>
    rcases List.mem_append.mp h with hmem | hmem
    · exact Or.inl hmem
    · obtain rfl := List.mem_singleton.mp hmem
      exact Or.inr (Or.inr ⟨f, p, rfl, hclose, by simp [World.IsDone, World.setJob]⟩)
  | _ => exact Or.inl h

/-- What was sent before a step, or is sent by it. -/
theorem sent_effect (hs : Steps cfg w event w') {s : Sent} (h : w'.HasSent s) :
    w.HasSent s ∨ ∃ n progress, event = .report n ∧
      w.executions[n]? = some ⟨s.task, progress⟩ ∧ Reports cfg s.task progress s.report := by
  rcases h with hmem | hmem | hmem
  · exact (hs.report_effect hmem).imp_left Or.inl
  · left
    rcases List.mem_map.mp hmem with ⟨f, hf, rfl⟩
    rcases hs.finishing_effect hf with hf | ⟨r, -, hr, -, -⟩
    · exact Or.inr (Or.inl (List.mem_map.mpr ⟨f, hf, rfl⟩))
    · exact Or.inl (List.mem_of_getElem? hr)
  · left
    rcases hs.processed_effect hmem with hmem | ⟨r, -, hr, -⟩ | ⟨f, p, -, hf, -⟩
    · exact Or.inr (Or.inr hmem)
    · exact Or.inl (List.mem_of_getElem? hr)
    · exact Or.inr (Or.inl (List.mem_map.mpr ⟨_, List.mem_of_getElem? hf, rfl⟩))

end Steps

end DistStudy.MapReduce
