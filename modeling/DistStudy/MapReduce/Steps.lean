import DistStudy.MapReduce.Coordinator

/-!
# The steps as a relation

`Steps cfg w event w'` lists what an event can do, one constructor for each way through
the code, with the guards it has passed. What the steps never take back is stated once,
as an order on worlds (`World.Le`): jobs keep their type, key and dependencies, a closed
channel stays closed, and the histories grow.
-/

namespace DistStudy.MapReduce

inductive Steps (cfg : Config) (w : World) : Event → World → Prop
  | getTask : Steps cfg w .getTask { w with getters := w.getters + 1 }
  | depsDone (g : ℕ) (p : Ptr) (j : Job) (hg : w.goroutines[g]? = some ⟨p, .waiting⟩)
      (hj : w.heap p = some j) (hd : ∀ d ∈ j.deps, w.IsDone d) :
      Steps cfg w (.depsDone g) ((w.setJob p { j with queued := true }).setStage g p .sending)
  | send (g : ℕ) (p : Ptr) (hg : w.goroutines[g]? = some ⟨p, .sending⟩)
      (hroom : w.jobCh.length < cfg.size + w.getters) :
      Steps cfg w (.send g) { w.setStage g p .storing with jobCh := w.jobCh ++ [p] }
  | store (g : ℕ) (p : Ptr) (j : Job) (hg : w.goroutines[g]? = some ⟨p, .storing⟩)
      (hj : w.heap p = some j) :
      Steps cfg w (.store g)
        { w with
          jobs := Function.update w.jobs j.id (some p)
          goroutines := w.goroutines.eraseIdx g }
  | dropPseudo (p : Ptr) (jobCh : List Ptr) (j : Job) (hch : w.jobCh = p :: jobCh)
      (hj : w.heap p = some j) (ht : j.jobtype = .pseudo) :
      Steps cfg w .receive { w with jobCh := jobCh, taken := w.taken ++ [p] }
  | hand (p : Ptr) (jobCh : List Ptr) (j : Job) (task : TaskRequest) (getters : ℕ)
      (hget : w.getters = getters + 1) (hch : w.jobCh = p :: jobCh) (hj : w.heap p = some j)
      (ht : j.jobtype ≠ .pseudo) (htask : w.reply cfg j = some task)
      (hdone : ¬ (j.jobtype = .done ∧ w.doneCh = .closed)) :
      Steps cfg w .receive
        { w with
          jobCh := jobCh
          taken := w.taken ++ [p]
          getters := getters
          doneCh := if j.jobtype = .done then .closed else w.doneCh
          watching := w.watching ++ [p]
          handed := w.handed ++ [task]
          executions := w.executions ++ World.start task }
  | finishLost (r : ℕ) (s : Sent) (hr : w.reports[r]? = some s)
      (hnone : w.jobs s.report.id = none) :
      Steps cfg w (.finish r)
        { w with reports := w.reports.eraseIdx r, processed := w.processed ++ [s] }
  | finishFound (r : ℕ) (s : Sent) (p : Ptr) (hr : w.reports[r]? = some s)
      (hp : w.jobs s.report.id = some p) :
      Steps cfg w (.finish r)
        { w with
          reports := w.reports.eraseIdx r
          jobs := Function.update w.jobs s.report.id none
          finishing := w.finishing ++ [⟨p, s⟩] }
  | close (f : ℕ) (p : Ptr) (s : Sent) (j : Job) (hf : w.finishing[f]? = some ⟨p, s⟩)
      (hj : w.heap p = some j) (ho : j.done = .opened) :
      Steps cfg w (.close f)
        { w.setJob p { j with output := s.report.outputFilename, done := .closed } with
          finishing := w.finishing.eraseIdx f
          processed := w.processed ++ [s] }
  | retry (i : ℕ) (p : Ptr) (j : Job) (hp : w.watching[i]? = some p) (hj : w.heap p = some j)
      (hq : j.queued = true) :
      Steps cfg w (.timeout i)
        { w with
          watching := w.watching.eraseIdx i
          goroutines := w.goroutines ++ [⟨p, .waiting⟩] }
  | retryUnqueued (i : ℕ) (p : Ptr) (j : Job) (hp : w.watching[i]? = some p)
      (hj : w.heap p = some j) (hq : j.queued = false) :
      Steps cfg w (.timeout i) { w with watching := w.watching.eraseIdx i }
  | unwatch (i : ℕ) (p : Ptr) (hp : w.watching[i]? = some p) (hd : w.IsDone p) :
      Steps cfg w (.unwatch i) { w with watching := w.watching.eraseIdx i }
  | rename (x : ℕ) (task : TaskRequest) (i : ℕ) (kvs : List KeyValue)
      (hx : w.executions[x]? = some ⟨task, .mapping i false⟩) (hi : i < task.nReduce)
      (hne : kvs ≠ []) (hb : kvs.Perm (cfg.bucketOf task i)) :
      Steps cfg w (.rename x kvs)
        { w.setProgress x task (.mapping i true) with
          files := renameBucket task.key kvs i w.files }
  | reportBucket (x : ℕ) (task : TaskRequest) (i : ℕ) (renamed : Bool)
      (hx : w.executions[x]? = some ⟨task, .mapping i renamed⟩) (hi : i < task.nReduce)
      (hb : renamed = true ∨ cfg.bucketOf task i = []) :
      Steps cfg w (.report x)
        ((w.sendReport (bucketReport task.key (cfg.bucketOf task i) i) task).setProgress x task
          (.mapping (i + 1) false))
  | reportMap (x : ℕ) (task : TaskRequest) (i : ℕ) (renamed : Bool)
      (hx : w.executions[x]? = some ⟨task, .mapping i renamed⟩) (hi : ¬ i < task.nReduce) :
      Steps cfg w (.report x) ((w.sendReport (mapReport task.key) task).retire x)
  | reportReduce (x : ℕ) (task : TaskRequest) (offset : ℕ)
      (hx : w.executions[x]? = some ⟨task, .writing [] offset⟩) :
      Steps cfg w (.report x) ((w.sendReport (reduceReport task.key) task).retire x)
  | openFiles (x : ℕ) (task : TaskRequest) (broken : List ℕ)
      (hx : w.executions[x]? = some ⟨task, .opening⟩) :
      Steps cfg w (.openFiles x broken)
        (w.setProgress x task
          (if corruptMapWorkers w.files broken task.filenames = [] then
            .loaded (decoded w.files broken task.filenames)
          else .failing (corruptMapWorkers w.files broken task.filenames)
            (decoded w.files broken task.filenames)))
  | reportFailure (x : ℕ) (task : TaskRequest) (corrupt : List ℕ) (kvs : List KeyValue)
      (hx : w.executions[x]? = some ⟨task, .failing corrupt kvs⟩) :
      Steps cfg w (.reportFailure x)
        { w.setProgress x task (.loaded kvs) with
          heap := (w.reportMapFailure ⟨corrupt, atoi task.key⟩).heap
          made := (w.reportMapFailure ⟨corrupt, atoi task.key⟩).made
          goroutines := (w.reportMapFailure ⟨corrupt, atoi task.key⟩).goroutines }
  | create (x : ℕ) (task : TaskRequest) (kvs sorted : List KeyValue)
      (hx : w.executions[x]? = some ⟨task, .loaded kvs⟩) (hs : Sorts kvs sorted) :
      Steps cfg w (.create x sorted)
        { w.setProgress x task (.writing (reduceLoop cfg.reducef sorted) 0) with
          outputs := Function.update w.outputs (outName task.key) (some []) }
  | write (x : ℕ) (task : TaskRequest) (line : Line) (lines : List Line) (offset : ℕ)
      (hx : w.executions[x]? = some ⟨task, .writing (line :: lines) offset⟩) :
      Steps cfg w (.write x)
        { w.setProgress x task (.writing lines (offset + (utf8 line.text).length)) with
          outputs := Function.update w.outputs (outName task.key)
            (some (World.writeAt ((w.outputs (outName task.key)).getD []) offset
              (utf8 line.text))) }
  | crash (x : ℕ) (hx : x < w.executions.length) : Steps cfg w (.crash x) (w.retire x)

/-! ## The executable step is in the relation -/

section

variable {cfg : Config} {w w' : World}

theorem depsDone_steps {g : ℕ} (h : w.depsDone g = some w') : Steps cfg w (.depsDone g) w' := by
  unfold World.depsDone at h
  split at h
  · rename_i p hg
    simp only [Option.bind_eq_bind, Option.bind_eq_some_iff] at h
    rcases h with ⟨j, hj, h⟩
    split_ifs at h with hd
    obtain rfl := Option.some.inj h
    exact .depsDone g p j hg hj hd
  · cases h

theorem send_steps {g : ℕ} (h : w.send cfg.size g = some w') : Steps cfg w (.send g) w' := by
  unfold World.send at h
  split at h
  · rename_i p hg
    split_ifs at h with hroom
    obtain rfl := Option.some.inj h
    exact .send g p hg hroom
  · cases h

theorem store_steps {g : ℕ} (h : w.store g = some w') : Steps cfg w (.store g) w' := by
  unfold World.store at h
  split at h
  · rename_i p hg
    simp only [Option.bind_eq_bind, Option.bind_eq_some_iff] at h
    rcases h with ⟨j, hj, h⟩
    obtain rfl := Option.some.inj h
    exact .store g p j hg hj
  · cases h

theorem receive_steps (h : w.receive cfg = some w') : Steps cfg w .receive w' := by
  unfold World.receive at h
  split at h
  · rename_i getters p jobCh hget hch
    simp only [Option.bind_eq_bind, Option.bind_eq_some_iff] at h
    rcases h with ⟨j, hj, h⟩
    split at h
    · rename_i ht
      obtain rfl := Option.some.inj h
      exact .dropPseudo p jobCh j hch hj ht
    · rename_i ht
      rw [Option.bind_eq_some_iff] at h
      rcases h with ⟨task, htask, h⟩
      by_cases hdone : j.jobtype = .done ∧ w.doneCh = .closed
      · rw [if_pos hdone] at h
        cases h
      · rw [if_neg hdone] at h
        obtain rfl := Option.some.inj h
        exact .hand p jobCh j task getters hget hch hj ht htask hdone
  · cases h

theorem finish_steps {r : ℕ} (h : w.finish r = some w') : Steps cfg w (.finish r) w' := by
  simp only [World.finish, Option.bind_eq_bind, Option.bind_eq_some_iff] at h
  rcases h with ⟨s, hr, h⟩
  split at h
  · rename_i hnone
    obtain rfl := Option.some.inj h
    exact .finishLost r s hr hnone
  · rename_i p hp
    obtain rfl := Option.some.inj h
    exact .finishFound r s p hr hp

theorem close_steps {f : ℕ} (h : w.close f = some w') : Steps cfg w (.close f) w' := by
  simp only [World.close, Option.bind_eq_bind, Option.bind_eq_some_iff] at h
  rcases h with ⟨⟨p, s⟩, hf, j, hj, h⟩
  split_ifs at h with ho
  obtain rfl := Option.some.inj h
  exact .close f p s j hf hj ho

theorem timeout_steps {i : ℕ} (h : w.timeout i = some w') : Steps cfg w (.timeout i) w' := by
  simp only [World.timeout, Option.bind_eq_bind, Option.bind_eq_some_iff] at h
  rcases h with ⟨p, hp, j, hj, h⟩
  obtain rfl := Option.some.inj h
  by_cases hq : j.queued = true
  · rw [if_pos hq]
    exact .retry i p j hp hj hq
  · rw [if_neg hq]
    exact .retryUnqueued i p j hp hj (by simpa using hq)

theorem unwatch_steps {i : ℕ} (h : w.unwatch i = some w') : Steps cfg w (.unwatch i) w' := by
  simp only [World.unwatch, Option.bind_eq_bind, Option.bind_eq_some_iff] at h
  rcases h with ⟨p, hp, h⟩
  split_ifs at h with hd
  obtain rfl := Option.some.inj h
  exact .unwatch i p hp hd

theorem rename_steps {x : ℕ} {kvs : List KeyValue} (h : w.rename cfg x kvs = some w') :
    Steps cfg w (.rename x kvs) w' := by
  unfold World.rename at h
  split at h
  · rename_i task i hx
    split_ifs at h with hb
    obtain rfl := Option.some.inj h
    exact .rename x task i kvs hx hb.1 hb.2.1 hb.2.2
  · cases h

theorem report_steps {x : ℕ} (h : w.report cfg x = some w') : Steps cfg w (.report x) w' := by
  unfold World.report at h
  split at h
  · rename_i task i renamed hx
    split_ifs at h with hi hb
    · obtain rfl := Option.some.inj h
      exact .reportBucket x task i renamed hx hi hb
    · obtain rfl := Option.some.inj h
      exact .reportMap x task i renamed hx hi
  · rename_i task offset hx
    obtain rfl := Option.some.inj h
    exact .reportReduce x task offset hx
  · cases h

end

/-- `ReportMapFailure` makes jobs and starts their goroutines. -/
theorem foldl_submitAgain (js : List Job) (w : World) :
    js.foldl World.submitAgain w =
      { w with
        heap := (js.foldl World.submitAgain w).heap
        made := (js.foldl World.submitAgain w).made
        goroutines := (js.foldl World.submitAgain w).goroutines } := by
  induction js generalizing w with
  | nil => rfl
  | cons j js ih =>
    rw [List.foldl_cons, ih]
    rfl

theorem reportFailure_steps {cfg : Config} {w w' : World} {x : ℕ}
    (h : w.reportFailure x = some w') : Steps cfg w (.reportFailure x) w' := by
  unfold World.reportFailure at h
  split at h
  · rename_i task corrupt kvs hx
    obtain rfl := Option.some.inj h
    unfold World.reportMapFailure
    rw [foldl_submitAgain]
    exact .reportFailure x task corrupt kvs hx
  · cases h

theorem steps_of_step {cfg : Config} {w w' : World} {event : Event}
    (h : w.step cfg event = some w') : Steps cfg w event w' := by
  cases event with
  | getTask =>
    obtain rfl := Option.some.inj h
    exact .getTask
  | depsDone g => exact depsDone_steps h
  | send g => exact send_steps h
  | store g => exact store_steps h
  | receive => exact receive_steps h
  | finish r => exact finish_steps h
  | close f => exact close_steps h
  | timeout i => exact timeout_steps h
  | unwatch i => exact unwatch_steps h
  | rename x kvs => exact rename_steps h
  | report x => exact report_steps h
  | openFiles x broken =>
    simp only [World.step, World.openFiles] at h
    split at h
    · rename_i task hx
      obtain rfl := Option.some.inj h
      exact .openFiles x task broken hx
    · cases h
  | reportFailure x => exact reportFailure_steps h
  | create x sorted =>
    simp only [World.step, World.create] at h
    split at h
    · rename_i task kvs hx
      split_ifs at h with hs
      obtain rfl := Option.some.inj h
      exact .create x task kvs sorted hx hs
    · cases h
  | write x =>
    simp only [World.step, World.write] at h
    split at h
    · rename_i task line lines offset hx
      obtain rfl := Option.some.inj h
      exact .write x task line lines offset hx
    · cases h
  | crash x =>
    simp only [World.step, World.crash] at h
    split_ifs at h with hx
    obtain rfl := Option.some.inj h
    exact .crash x hx

/-- The reply of `GetTask`, field by field. -/
structure Replies (cfg : Config) (w : World) (j : Job) (task : TaskRequest) : Prop where
  tasktype : task.tasktype = j.jobtype
  key : task.key = j.key
  nReduce : task.nReduce = cfg.nReduce
  nMap : task.nMap = cfg.files.length
  deps : j.jobtype = .reduce →
    task.filenames = j.deps.map fun d => ((w.heap d).map Job.output).getD []
  file : j.jobtype = .map → ∃ f, cfg.files[atoi j.key]? = some f ∧ task.filenames = [f]

theorem replies {cfg : Config} {w : World} {j : Job} {task : TaskRequest}
    (h : w.reply cfg j = some task) : Replies cfg w j task := by
  unfold World.reply at h
  cases ht : j.jobtype with
  | map =>
    rw [ht] at h
    simp only [Option.bind_eq_bind, Option.bind_eq_some_iff, Option.map_eq_some_iff] at h
    rcases h with ⟨_, ⟨f, hf, rfl⟩, h⟩
    obtain rfl := Option.some.inj h
    exact ⟨ht.symm, rfl, rfl, rfl, by simp [ht], fun _ => ⟨f, hf, rfl⟩⟩
  | reduce =>
    rw [ht] at h
    obtain rfl := Option.some.inj h
    exact ⟨ht.symm, rfl, rfl, rfl, fun _ => rfl, by simp [ht]⟩
  | pseudo | done =>
    rw [ht] at h
    obtain rfl := Option.some.inj h
    exact ⟨ht.symm, rfl, rfl, rfl, by simp [ht], by simp [ht]⟩

/-- A worker starts with a map task or with a reduce task. -/
theorem start_cases {task : TaskRequest} {x : Execution} (hx : x ∈ World.start task) :
    (task.tasktype = .map ∧ x = ⟨task, .mapping 0 false⟩) ∨
      (task.tasktype = .reduce ∧ x = ⟨task, .opening⟩) := by
  unfold World.start at hx
  split at hx
  · rename_i ht
    exact Or.inl ⟨ht, List.mem_singleton.mp hx⟩
  · rename_i ht
    exact Or.inr ⟨ht, List.mem_singleton.mp hx⟩
  · cases hx

/-! ## What steps never take back -/

/-- A later state of a job. -/
structure Job.Le (j j' : Job) : Prop where
  jobtype : j'.jobtype = j.jobtype
  key : j'.key = j.key
  deps : j'.deps = j.deps
  closed : j.done = .closed → j'.done = .closed ∧ j'.output = j.output
  nil : j'.done = .nil ↔ j.done = .nil

theorem Job.Le.refl (j : Job) : j.Le j := ⟨rfl, rfl, rfl, fun h => ⟨h, rfl⟩, Iff.rfl⟩

theorem Job.Le.trans {j j' j'' : Job} (h : j.Le j') (h' : j'.Le j'') : j.Le j'' := by
  refine ⟨h'.jobtype.trans h.jobtype, h'.key.trans h.key, h'.deps.trans h.deps, ?_,
    h'.nil.trans h.nil⟩
  intro hclosed
  exact ⟨(h'.closed (h.closed hclosed).1).1,
    (h'.closed (h.closed hclosed).1).2.trans (h.closed hclosed).2⟩

theorem Job.Le.id_eq {j j' : Job} (h : j.Le j') : j'.id = j.id := by
  rw [Job.id, Job.id, h.jobtype, h.key]

/-- The pointers that `ReportMapFailure` will use next are free. -/
def Fresh (w : World) : Prop := ∀ k, w.made ≤ k → w.heap (.again k) = none

/-- A later world: the jobs have moved on, jobs made later are retried ones, and the
histories have grown. -/
structure World.Le (w w' : World) : Prop where
  heap : ∀ p j, w.heap p = some j → ∃ j', w'.heap p = some j' ∧ j.Le j'
  unmade : ∀ p, (∀ k, p ≠ .again k) → w.heap p = none → w'.heap p = none
  processed : w.processed ⊆ w'.processed
  handed : w.handed ⊆ w'.handed

namespace World.Le

variable {w w' w'' : World}

theorem refl (w : World) : w.Le w :=
  ⟨fun _ j hj => ⟨j, hj, .refl j⟩, fun _ _ h => h, List.Subset.refl _, List.Subset.refl _⟩

theorem trans (h : w.Le w') (h' : w'.Le w'') : w.Le w'' := by
  refine ⟨?_, fun p hp hnone => h'.unmade p hp (h.unmade p hp hnone),
    List.Subset.trans h.processed h'.processed, List.Subset.trans h.handed h'.handed⟩
  intro p j hj
  obtain ⟨j', hj', hle⟩ := h.heap p j hj
  obtain ⟨j'', hj'', hle'⟩ := h'.heap p j' hj'
  exact ⟨j'', hj'', hle.trans hle'⟩

/-- A step that changes none of the jobs. -/
theorem of_heap_eq (h : w'.heap = w.heap) (hp : w.processed ⊆ w'.processed)
    (hh : w.handed ⊆ w'.handed) : w.Le w' := by
  refine ⟨fun p j hj => ⟨j, by rw [h, hj], .refl j⟩, fun p _ hnone => ?_, hp, hh⟩
  rw [h, hnone]

/-- A step that moves one job on. -/
theorem of_setJob {p : Ptr} {j j' : Job} (hj : w.heap p = some j) (hle : j.Le j')
    (h : w'.heap = Function.update w.heap p (some j')) (hp : w.processed ⊆ w'.processed)
    (hh : w.handed ⊆ w'.handed) : w.Le w' := by
  refine ⟨fun q i hi => ?_, fun q _ hnone => ?_, hp, hh⟩
  · by_cases hq : q = p
    · subst hq
      obtain rfl := Option.some.inj (hj.symm.trans hi)
      exact ⟨j', by rw [h, Function.update_self], hle⟩
    · exact ⟨i, by rw [h, Function.update_of_ne hq, hi], .refl i⟩
  · have hq : q ≠ p := by
      rintro rfl
      rw [hj] at hnone
      cases hnone
    rw [h, Function.update_of_ne hq, hnone]

theorem isDone (h : w.Le w') {p : Ptr} (hd : w.IsDone p) : w'.IsDone p := by
  obtain ⟨j, hj, hclosed⟩ := Option.map_eq_some_iff.mp hd
  obtain ⟨j', hj', hle⟩ := h.heap p j hj
  exact Option.map_eq_some_iff.mpr ⟨j', hj', (hle.closed hclosed).1⟩

/-- A job keeps its id. -/
theorem job_id (h : w.Le w') {p : Ptr} {id : Text} (hj : ∃ j, w.heap p = some j ∧ j.id = id) :
    ∃ j, w'.heap p = some j ∧ j.id = id := by
  rcases hj with ⟨j, hj, hid⟩
  rcases h.heap p j hj with ⟨j', hj', hle⟩
  exact ⟨j', hj', hle.id_eq.trans hid⟩

end World.Le

/-- What `ReportMapFailure` leaves alone, and what it adds. -/
structure Resubmits (w w' : World) (js : List Job) : Prop where
  old : ∀ p, (∀ k, p ≠ .again (w.made + k)) → w'.heap p = w.heap p
  new : ∀ k, w'.heap (.again (w.made + k)) = js[k]?
  made : w'.made = w.made + js.length
  goroutines : w'.goroutines =
    w.goroutines ++ (List.range js.length).map fun k => ⟨.again (w.made + k), .waiting⟩

theorem resubmits (js : List Job) (w : World) (hf : Fresh w) :
    Resubmits w (js.foldl World.submitAgain w) js := by
  induction js generalizing w with
  | nil =>
    refine ⟨fun _ _ => rfl, fun k => ?_, rfl, by simp⟩
    exact hf _ (by omega)
  | cons j js ih =>
    have hf' : Fresh (w.submitAgain j) := by
      intro k hk
      have hne : Ptr.again k ≠ .again w.made := by
        simp only [ne_eq, Ptr.again.injEq]
        have hlt : w.made + 1 ≤ k := hk
        omega
      exact (Function.update_of_ne hne _ _).trans (hf k (Nat.le_of_succ_le hk))
    have h := ih (w.submitAgain j) hf'
    have hmade : (w.submitAgain j).made = w.made + 1 := rfl
    constructor
    · intro p hp
      rw [List.foldl_cons, h.old p fun k => ?_]
      · exact Function.update_of_ne (hp 0) _ _
      · rw [hmade, Nat.add_assoc]
        exact hp (1 + k)
    · intro k
      rw [List.foldl_cons]
      cases k with
      | zero =>
        have hne : ∀ k, Ptr.again (w.made + 0) ≠ .again ((w.submitAgain j).made + k) := by
          intro k
          simp only [ne_eq, Ptr.again.injEq, hmade]
          omega
        rw [h.old _ hne]
        exact Function.update_self _ _ _
      | succ k =>
        have heq := h.new k
        rw [hmade, Nat.add_assoc, Nat.add_comm 1 k] at heq
        simpa using heq
    · rw [List.foldl_cons, h.made, hmade, List.length_cons]
      omega
    · rw [List.foldl_cons, h.goroutines, List.length_cons, List.range_succ_eq_map, List.map_cons,
        List.map_map, hmade]
      simp only [World.submitAgain, List.append_assoc, List.cons_append, List.nil_append]
      refine congrArg _ (congrArg _ (List.map_congr_left fun k _ => ?_))
      simp only [Function.comp_apply, Goroutine.mk.injEq, Ptr.again.injEq, and_true]
      omega

section

variable {cfg : Config} {w w' : World} {event : Event}

theorem Fresh.setJob (h : Fresh w) {p : Ptr} {j : Job} (hj : w.heap p = some j) (j' : Job) :
    Fresh (w.setJob p j') := by
  intro k hk
  have hne : Ptr.again k ≠ p := by
    rintro rfl
    rw [h k hk] at hj
    cases hj
  exact (Function.update_of_ne hne _ _).trans (h k hk)

theorem Steps.fresh (hf : Fresh w) (hs : Steps cfg w event w') : Fresh w' := by
  cases hs with
  | depsDone g p j hg hj hd => exact hf.setJob hj _
  | close f p s j hclose hj ho => exact hf.setJob hj _
  | reportFailure x task corrupt kvs hx =>
    have h := resubmits (World.failedJobs ⟨corrupt, atoi task.key⟩) w hf
    intro k hk
    have hlt : w.made + (World.failedJobs ⟨corrupt, atoi task.key⟩).length ≤ k := h.made ▸ hk
    obtain ⟨d, rfl⟩ := Nat.exists_eq_add_of_le (Nat.le_of_add_right_le hlt)
    refine (h.new d).trans (List.getElem?_eq_none ?_)
    omega
  | _ => exact hf

theorem Steps.le (hf : Fresh w) (hs : Steps cfg w event w') : w.Le w' := by
  cases hs with
  | depsDone g p j hg hj hd =>
    refine .of_setJob hj ?_ rfl (List.Subset.refl _) (List.Subset.refl _)
    exact ⟨rfl, rfl, rfl, fun h => ⟨h, rfl⟩, Iff.rfl⟩
  | hand => exact .of_heap_eq rfl (List.Subset.refl _) (List.subset_append_left _ _)
  | finishLost => exact .of_heap_eq rfl (List.subset_append_left _ _) (List.Subset.refl _)
  | close f p s j hclose hj ho =>
    refine .of_setJob hj ?_ rfl (List.subset_append_left _ _) (List.Subset.refl _)
    refine ⟨rfl, rfl, rfl, fun h => ?_, by simp [ho]⟩
    rw [ho] at h
    cases h
  | reportFailure x task corrupt kvs hx =>
    have h := resubmits (World.failedJobs ⟨corrupt, atoi task.key⟩) w hf
    refine ⟨fun p j hj => ⟨j, (h.old p fun k hp => ?_).trans hj, .refl j⟩, fun p hp hnone => ?_,
      List.Subset.refl _, List.Subset.refl _⟩
    · rw [hp, hf _ (Nat.le_add_right _ _)] at hj
      cases hj
    · exact (h.old p fun k => hp _).trans hnone
  | _ => exact .of_heap_eq rfl (List.Subset.refl _) (List.Subset.refl _)

variable {C : World → Event → Prop} {e : Behavior World}

/-- Induction over a run, with the steps as a relation. -/
theorem Run.steps_of (h : Run cfg C e) {known : World → Prop} (hknown : ∀ k, known (e k))
    (inv : World → Prop) (hinit : inv (World.init cfg))
    (hstep : ∀ w event w', known w → inv w → C w event → Steps cfg w event w' → inv w')
    (k : ℕ) : inv (e k) :=
  h.invariant_of hknown inv hinit
    (fun w event w' hw hinv hC hs => hstep w event w' hw hinv hC (steps_of_step hs)) k

theorem Run.steps (h : Run cfg C e) (inv : World → Prop) (hinit : inv (World.init cfg))
    (hstep : ∀ w event w', inv w → C w event → Steps cfg w event w' → inv w') (k : ℕ) :
    inv (e k) :=
  h.invariant inv hinit (fun w event w' hinv hC hs => hstep w event w' hinv hC (steps_of_step hs)) k

/-- A job that `ReportMapFailure` has not made is one of `initialize`. -/
theorem World.Le.initialJob (h : (World.init cfg).Le w) {p : Ptr} {j : Job}
    (hj : w.heap p = some j) (hp : ∀ k, p ≠ .again k) :
    ∃ j₀, cfg.initialJob p = some j₀ ∧ j₀.Le j := by
  cases hj₀ : cfg.initialJob p with
  | none =>
    have hnone := h.unmade p hp hj₀
    rw [hj] at hnone
    cases hnone
  | some j₀ =>
    obtain ⟨j', hj', hle⟩ := h.heap p j₀ hj₀
    obtain rfl := Option.some.inj (hj.symm.trans hj')
    exact ⟨j₀, rfl, hle⟩

/-- A later world of the one in which a run starts. -/
structure AfterInit (cfg : Config) (w : World) : Prop where
  fresh : Fresh w
  le : (World.init cfg).Le w

theorem Run.since_init (h : Run cfg C e) (k : ℕ) : AfterInit cfg (e k) := by
  refine h.steps (AfterInit cfg) ?_ ?_ k
  · exact ⟨fun _ _ => rfl, .refl _⟩
  · intro w event w' hinv _ hs
    exact ⟨hs.fresh hinv.fresh, hinv.le.trans (hs.le hinv.fresh)⟩

end

end DistStudy.MapReduce
