import DistStudy.MapReduce.Intermediate

/-!
# The output files when the job is done

`reduceTask` creates `mr-out-r` under its final name and writes it line by line. The file
is complete when the task is reported, and stays so unless another execution of the same
task, which a timeout has started, creates the file again. The done job waits for the
reports only.

As long as no execution creates the file of a task that another one is writing or has
reported, the file holds at every moment the lines that its only writer has written so
far (`SingleWriter`), and all of them once the task is reported.
-/

namespace DistStudy.MapReduce

/-- The contents of a file with these lines. -/
def contents (lines : List Line) : Bytes := lines.flatMap fun line => utf8 line.text

/-- The execution has created the output file of the reduce task with this key. -/
def Execution.writes (key : Text) (x : Execution) : Bool :=
  match x.progress with
  | .writing _ _ => x.task.key = key
  | _ => false

/-- While `doneCh` is open, no execution creates an output file that another one is
writing, or after its task was reported. -/
def createsAlone (w : World) : Event → Prop
  | .create n _ => w.doneCh = .opened → ∀ x ∈ w.executions[n]?,
      (∀ y ∈ w.executions, y.writes x.task.key = false) ∧
        ∀ s ∈ w.reports ++ w.finishing.map Finishing.sent ++ w.processed,
          s.report ≠ reduceReport x.task.key
  | _ => True

instance (w : World) (event : Event) : Decidable (createsAlone w event) := by
  unfold createsAlone
  split <;> infer_instance

/-- The lines that one execution of reduce task `r` writes. -/
def Config.AllLines (cfg : Config) (r : ℕ) (lines : List Line) : Prop :=
  ∃ sorted, Sorts (cfg.reduceInput r) sorted ∧ lines = reduceLoop cfg.reducef sorted

/-- The output file of reduce task `r` and the executions that write it. -/
structure SingleWriter (cfg : Config) (w : World) (r : ℕ) : Prop where
  one : w.executions.countP (Execution.writes (itoa r)) ≤ 1
  writing : ∀ x ∈ w.executions, x.task.key = itoa r →
    ∀ lines offset, x.progress = .writing lines offset →
      ∃ written, cfg.AllLines r (written ++ lines) ∧
        w.outputs (outName (itoa r)) = some (contents written) ∧
        offset = (contents written).length
  reported : ∀ s, w.HasSent s → s.report = reduceReport (itoa r) →
    w.executions.countP (Execution.writes (itoa r)) = 0 ∧
      ∃ lines, cfg.AllLines r lines ∧ w.outputs (outName (itoa r)) = some (contents lines)

theorem contents_append (lines lines' : List Line) :
    contents (lines ++ lines') = contents lines ++ contents lines' := List.flatMap_append

/-- A write at the end of a file. -/
theorem writeAt_length (content data : Bytes) :
    World.writeAt content content.length data = content ++ data := by
  simp [World.writeAt]

theorem outName_ne {r r' : ℕ} (h : r ≠ r') : outName (itoa r) ≠ outName (itoa r') := by
  rw [outName, outName, ne_eq, List.append_cancel_left_eq, itoa_inj]
  exact h

theorem writes_eq {x : Execution} {lines : List Line} {offset : ℕ}
    (hp : x.progress = .writing lines offset) (key : Text) :
    x.writes key = decide (x.task.key = key) := by
  simp [Execution.writes, hp]

/-- Of the executions after one was set, the others were there before. -/
theorem mem_set_cases {l : List Execution} {n : ℕ} {x y z : Execution} (hn : l[n]? = some z)
    (hx : x ∈ l.set n y) : x = y ∨ x ∈ l.eraseIdx n := by
  obtain ⟨hlt, -⟩ := List.getElem?_eq_some_iff.mp hn
  exact List.mem_cons.mp ((List.set_perm_cons_eraseIdx hlt y).mem_iff.mp hx)

namespace SingleWriter

variable {cfg : Config} {w w' : World} {event : Event} {r n : ℕ} {task : TaskRequest}

theorem init (cfg : Config) (r : ℕ) : SingleWriter cfg (World.init cfg) r where
  one := by simp [World.init]
  writing := by simp [World.init]
  reported := by simp [World.init, World.HasSent]

/-! ### Steps that do not concern the file -/

section

variable (h : SingleWriter cfg w r)
  (hout : w'.outputs (outName (itoa r)) = w.outputs (outName (itoa r)))
  (hrep : ∀ s, s.report = reduceReport (itoa r) → w'.HasSent s → w.HasSent s)

include h hout hrep

theorem frame
    (hcount : w'.executions.countP (Execution.writes (itoa r)) ≤
      w.executions.countP (Execution.writes (itoa r)))
    (hmem : ∀ x ∈ w'.executions, x.writes (itoa r) = true → x ∈ w.executions) :
    SingleWriter cfg w' r := by
  constructor
  · exact hcount.trans h.one
  · intro x hx hk lines offset hp
    rw [hout]
    refine h.writing x (hmem x hx ?_) hk lines offset hp
    rw [writes_eq hp, hk, decide_eq_true rfl]
  · intro s hs hr
    rw [hout]
    obtain ⟨hzero, hlines⟩ := h.reported s (hrep s hr hs) hr
    exact ⟨Nat.le_zero.mp (hzero ▸ hcount), hlines⟩

/-- A worker that goes on with something else. -/
theorem set {progress progress' : Progress} (hn : w.executions[n]? = some ⟨task, progress⟩)
    (hx : w'.executions = w.executions.set n ⟨task, progress'⟩)
    (hp : Execution.writes (itoa r) ⟨task, progress⟩ = false)
    (hp' : Execution.writes (itoa r) ⟨task, progress'⟩ = false) : SingleWriter cfg w' r := by
  refine h.frame hout hrep ?_ fun x hmem hwr => ?_
  · have hcount := countP_set (x := ⟨task, progress'⟩) (Execution.writes (itoa r)) hn
    rw [hp, hp'] at hcount
    rw [hx]
    exact le_of_eq hcount
  · rw [hx] at hmem
    rcases List.mem_or_eq_of_mem_set hmem with hmem | rfl
    · exact hmem
    · rw [hp'] at hwr
      cases hwr

/-- A worker that is through with its task, or has crashed. -/
theorem retire (hx : w'.executions = w.executions.eraseIdx n) : SingleWriter cfg w' r := by
  refine h.frame hout hrep ?_ fun x hmem _ => ?_
  · rw [hx]
    exact (List.eraseIdx_sublist _ _).countP_le
  · exact List.mem_of_mem_eraseIdx (hx ▸ hmem)

end

/-! ### Steps of the writer -/

theorem create (hn : ∃ x, w.executions[n]? = some x)
    (halone : ∀ y ∈ w.executions, y.writes (itoa r) = false)
    (hunreported : ∀ s, w'.HasSent s → s.report ≠ reduceReport (itoa r))
    {lines : List Line} (hlines : cfg.AllLines r lines)
    (hx : w'.executions = w.executions.set n ⟨task, .writing lines 0⟩)
    (hout : w'.outputs (outName (itoa r)) = some []) : SingleWriter cfg w' r := by
  obtain ⟨z, hn⟩ := hn
  constructor
  · have hzero : w.executions.countP (Execution.writes (itoa r)) = 0 :=
      List.countP_eq_zero.mpr fun y hy => by simp [halone y hy]
    have hcount := countP_set (x := ⟨task, .writing lines 0⟩) (Execution.writes (itoa r)) hn
    rw [hx]
    split_ifs at hcount <;> omega
  · intro x hmem hk lines' offset hp
    rw [hx] at hmem
    rcases List.mem_or_eq_of_mem_set hmem with hmem | rfl
    · have hfalse := halone x hmem
      rw [writes_eq hp, hk, decide_eq_true rfl] at hfalse
      cases hfalse
    · obtain ⟨rfl, rfl⟩ := Progress.writing.inj hp
      exact ⟨[], hlines, hout, rfl⟩
  · intro s hs hr
    exact absurd hr (hunreported s hs)

/-- The other executions do not write the file. -/
theorem eraseIdx_eq_zero (h : SingleWriter cfg w r) {x : Execution}
    (hn : w.executions[n]? = some x) (hwr : x.writes (itoa r) = true) :
    (w.executions.eraseIdx n).countP (Execution.writes (itoa r)) = 0 := by
  have hcount := countP_eraseIdx (Execution.writes (itoa r)) hn
  have hone := h.one
  rw [if_pos hwr] at hcount
  omega

theorem write (h : SingleWriter cfg w r) (hk : task.key = itoa r) {line : Line}
    {lines : List Line} {offset : ℕ}
    (hn : w.executions[n]? = some ⟨task, .writing (line :: lines) offset⟩)
    (hx : w'.executions =
      w.executions.set n ⟨task, .writing lines (offset + (utf8 line.text).length)⟩)
    (hout : w'.outputs (outName (itoa r)) = some (World.writeAt
      ((w.outputs (outName (itoa r))).getD []) offset (utf8 line.text)))
    (hsent : ∀ s, w'.HasSent s → w.HasSent s) : SingleWriter cfg w' r := by
  have hwr : ∀ ls o, Execution.writes (itoa r) ⟨task, .writing ls o⟩ = true := by
    intro ls o
    rw [writes_eq rfl, hk, decide_eq_true rfl]
  have hothers := h.eraseIdx_eq_zero hn (hwr _ _)
  constructor
  · have hcount := countP_set (x := ⟨task, .writing lines (offset + (utf8 line.text).length)⟩)
      (Execution.writes (itoa r)) hn
    have hone := h.one
    rw [hwr, hwr] at hcount
    rw [hx]
    omega
  · intro x hmem hk' lines' offset' hp
    rw [hx] at hmem
    rcases mem_set_cases hn hmem with rfl | hmem
    · -- the line is added at the end of the file
      obtain ⟨rfl, rfl⟩ := Progress.writing.inj hp
      obtain ⟨written, hall, hfile, hoff⟩ := h.writing _ (List.mem_of_getElem? hn) hk _ _ rfl
      have hline : contents [line] = utf8 line.text := by simp [contents]
      refine ⟨written ++ [line], by simpa using hall, ?_, ?_⟩
      · rw [hout, hfile, Option.getD_some, hoff, writeAt_length, contents_append, hline]
      · rw [contents_append, hline, List.length_append, hoff]
    · refine absurd ?_ (List.countP_eq_zero.mp hothers x hmem)
      rw [writes_eq hp, hk', decide_eq_true rfl]
  · intro s hs hr
    -- a task that is reported has no writer
    have hzero := (h.reported s (hsent s hs) hr).1
    exact absurd (hwr _ _) (List.countP_eq_zero.mp hzero _ (List.mem_of_getElem? hn))

theorem report (h : SingleWriter cfg w r) (hk : task.key = itoa r) {offset : ℕ}
    (hn : w.executions[n]? = some ⟨task, .writing [] offset⟩)
    (hx : w'.executions = w.executions.eraseIdx n) (hout : w'.outputs = w.outputs) :
    SingleWriter cfg w' r := by
  have hothers := h.eraseIdx_eq_zero hn (by rw [writes_eq rfl, hk, decide_eq_true rfl])
  constructor
  · rw [hx]
    exact hothers ▸ Nat.zero_le 1
  · intro x hmem hk' lines' offset' hp
    refine absurd ?_ (List.countP_eq_zero.mp hothers x (hx ▸ hmem))
    rw [writes_eq hp, hk', decide_eq_true rfl]
  · intro s _ _
    -- all lines are written
    obtain ⟨written, hall, hfile, -⟩ := h.writing _ (List.mem_of_getElem? hn) hk _ _ rfl
    rw [hx, hout]
    exact ⟨hothers, written, by simpa using hall, hfile⟩

/-! ### All steps -/

/-- A step that does not report the task. -/
theorem hasSent_of_step (hs : Steps cfg w event w')
    (hne : ∀ n task offset, event = .report n →
      w.executions[n]? = some ⟨task, .writing [] offset⟩ → task.key ≠ itoa r) :
    ∀ s, s.report = reduceReport (itoa r) → w'.HasSent s → w.HasSent s := by
  intro s hrep hsent
  rcases hs.sent_effect hsent with hsent | ⟨n, progress, hev, hx, hreports⟩
  · exact hsent
  · rw [hrep] at hreports
    generalize hreport : reduceReport (itoa r) = report at hreports
    cases hreports with
    | bucket i renamed hi hb => cases congrArg SuccessReport.tasktype hreport
    | map i renamed hi => cases congrArg SuccessReport.tasktype hreport
    | reduce offset =>
      exact absurd (congrArg SuccessReport.key hreport).symm (hne n s.task offset hev hx)

theorem step (h : SingleWriter cfg w r) (hint : Intact cfg w) (hopen : w.doneCh = .opened)
    (hC : createsAlone w event) (hs : Steps cfg w event w') : SingleWriter cfg w' r := by
  have hsent := hasSent_of_step (r := r) hs
  cases hs with
  | hand p jobCh j task getters hget hch hj ht htask hdone =>
    have hstart : ∀ x ∈ World.start task, x.writes (itoa r) = false := by
      intro x hx
      rcases start_cases hx with ⟨-, rfl⟩ | ⟨-, rfl⟩ <;> rfl
    refine h.frame rfl (fun _ _ hs => hs) ?_ fun x hx hwr => ?_
    · have hzero : (World.start task).countP (Execution.writes (itoa r)) = 0 :=
        List.countP_eq_zero.mpr fun x hx => by simp [hstart x hx]
      rw [List.countP_append, hzero]
      exact le_refl _
    · rcases List.mem_append.mp hx with hmem | hmem
      · exact hmem
      · rw [hstart x hmem] at hwr
        cases hwr
  | finishLost n s hn hnone => exact h.frame rfl (hsent (by simp)) (le_refl _) fun _ hx _ => hx
  | finishFound n s p hn hp => exact h.frame rfl (hsent (by simp)) (le_refl _) fun _ hx _ => hx
  | close n p s j hn hj ho => exact h.frame rfl (hsent (by simp)) (le_refl _) fun _ hx _ => hx
  | rename n task i kvs hn hi hne hb => exact h.set rfl (fun _ _ hs => hs) hn rfl rfl rfl
  | reportBucket n task i renamed hn hi hb =>
    refine h.set rfl (hsent ?_) hn rfl rfl rfl
    rintro _ task' offset ⟨⟩ hn'
    rw [hn] at hn'
    cases hn'
  | reportMap n task i renamed hn hi =>
    refine h.retire rfl (hsent ?_) rfl
    rintro _ task' offset ⟨⟩ hn'
    rw [hn] at hn'
    cases hn'
  | reportReduce n task offset hn =>
    by_cases hk : task.key = itoa r
    · exact h.report hk hn rfl rfl
    · refine h.retire rfl (hsent ?_) rfl
      rintro _ task' offset' ⟨⟩ hn'
      rw [hn] at hn'
      cases hn'
      exact hk
  | openFiles n task broken hn =>
    refine h.set rfl (fun _ _ hs => hs) hn rfl rfl ?_
    split_ifs <;> rfl
  | reportFailure n task corrupt kvs hn => exact h.set rfl (fun _ _ hs => hs) hn rfl rfl rfl
  | create n task kvs sorted hn hsort =>
    obtain ⟨r', hr', rfl, hperm⟩ := hint.loaded _ (List.mem_of_getElem? hn) kvs rfl
    obtain ⟨halone, hunreported⟩ := hC hopen _ hn
    by_cases hr : r = r'
    · subst hr
      refine create ⟨_, hn⟩ halone (fun s hs => hunreported s ?_) ⟨sorted, hsort.of_perm hperm, rfl⟩
        rfl (Function.update_self _ _ _)
      rw [List.mem_append, List.mem_append, or_assoc]
      exact hs
    · refine h.set (Function.update_of_ne (outName_ne hr) _ _) (fun _ _ hs => hs) hn rfl rfl ?_
      rw [writes_eq rfl]
      exact decide_eq_false fun heq => hr (itoa_inj.mp heq).symm
  | write n task line lines offset hn =>
    obtain ⟨r', hr', rfl⟩ := hint.request _ (List.mem_of_getElem? hn) rfl
    by_cases hr : r = r'
    · subst hr
      exact h.write rfl hn rfl (Function.update_self _ _ _) fun _ hs => hs
    · have hother : ∀ ls o, Execution.writes (itoa r) ⟨cfg.reduceRequest r', .writing ls o⟩ =
          false := by
        intro ls o
        rw [writes_eq rfl]
        exact decide_eq_false fun heq => hr (itoa_inj.mp heq).symm
      exact h.set (Function.update_of_ne (outName_ne hr) _ _) (fun _ _ hs => hs) hn rfl
        (hother _ _) (hother _ _)
  | crash n hn => exact h.retire rfl (fun _ _ hs => hs) rfl
  | _ => exact ⟨h.one, h.writing, h.reported⟩

end SingleWriter

/-! ## The files when `doneCh` is closed -/

section

variable {cfg : Config} {w w' : World} {event : Event} {e : Behavior World}

/-- `doneCh` stays open until a done job is received, which changes nothing else that
matters here. -/
theorem Steps.doneCh_cases (hs : Steps cfg w event w') :
    w'.doneCh = w.doneCh ∨
      (w'.doneCh = .closed ∧ w'.outputs = w.outputs ∧ w'.processed = w.processed) := by
  cases hs with
  | hand p jobCh j task getters hget hch hj ht htask hdone =>
    by_cases htd : j.jobtype = .done
    · exact Or.inr ⟨if_pos htd, rfl, rfl⟩
    · exact Or.inl (if_neg htd)
  | _ => exact Or.inl rfl

theorem Run.singleWriter (hcfg : cfg.nReduce ≤ 10)
    (h : Run cfg (fun w event => opensFiles w event ∧ createsAlone w event) e) (k : ℕ)
    (hopen : (e k).doneCh = .opened) (r : ℕ) : SingleWriter cfg (e k) r := by
  have hint : Run cfg opensFiles e := h.mono fun _ _ hC => hC.1
  refine h.steps_of (hint.intact hcfg) (fun w => w.doneCh = .opened → SingleWriter cfg w r)
    (fun _ => SingleWriter.init cfg r) ?_ k hopen
  intro w event w' hw hinv hC hs hopen'
  have hopen₀ : w.doneCh = .opened := by
    rcases hs.doneCh_cases with hsame | ⟨hclosed, -⟩
    · rw [← hsame, hopen']
    · rw [hopen'] at hclosed
      cases hclosed
  exact (hinv hopen₀).step hw hopen₀ hC.2 hs

/-- When `doneCh` is closed, the output file of every reduce task is complete. -/
theorem Run.allLines_of_closed (hcfg : cfg.nReduce ≤ 10)
    (h : Run cfg (fun w event => opensFiles w event ∧ createsAlone w event) e) {k : ℕ}
    (hopen : (e k).doneCh = .opened) (hclosed : (e (k + 1)).doneCh = .closed) {r : ℕ}
    (hr : r < cfg.nReduce) : ∃ lines, cfg.AllLines r lines ∧
      (e (k + 1)).outputs (outName (itoa r)) = some (contents lines) := by
  -- the closing step leaves the files and the processed reports alone
  have hstep : (e (k + 1)).outputs = (e k).outputs ∧ (e (k + 1)).processed = (e k).processed := by
    rcases h.next k with hstut | ⟨event, hC, hstep⟩
    · rw [hstut, hopen] at hclosed
      cases hclosed
    · rcases (steps_of_step hstep).doneCh_cases with hsame | ⟨-, hout, hproc⟩
      · rw [hsame, hopen] at hclosed
        cases hclosed
      · exact ⟨hout, hproc⟩
  -- the task has been reported, so its file is complete
  rcases (h.ordered hcfg (k + 1)).doneCh hclosed r hr with ⟨task, -, -, hmem⟩
  rw [hstep.2] at hmem
  rcases (h.singleWriter hcfg k hopen r).reported _ (Or.inr (Or.inr hmem)) rfl with
    ⟨-, lines, hall, hfile⟩
  rw [hstep.1]
  exact ⟨lines, hall, hfile⟩

/-- As long as files that exist can be opened, and no execution creates an output file that
another one is writing or has completed: when `doneCh` is closed, the output file of every
reduce task holds all lines of one execution. -/
theorem output_complete (hcfg : cfg.nReduce ≤ 10)
    (h : Run cfg (fun w event => opensFiles w event ∧ createsAlone w event) e) (k : ℕ)
    (hopen : (e k).doneCh = .opened) (hclosed : (e (k + 1)).doneCh = .closed) :
    ∀ r < cfg.nReduce, ∃ sorted, Sorts (cfg.reduceInput r) sorted ∧
      (e (k + 1)).outputs (outName (itoa r)) =
        some ((reduceLoop cfg.reducef sorted).flatMap fun line => utf8 line.text) := by
  intro r hr
  rcases h.allLines_of_closed hcfg hopen hclosed hr with ⟨_, ⟨sorted, hsort, rfl⟩, hfile⟩
  exact ⟨sorted, hsort, hfile⟩

theorem output_complete_throughout :
    (play (World.step oneFile) (World.init oneFile) (throughout.take 32)).doneCh = .closed ∧
    ∀ r < 1, ∃ sorted, Sorts (oneFile.reduceInput r) sorted ∧
      (play (World.step oneFile) (World.init oneFile) (throughout.take 32)).outputs
        (outName (itoa r)) =
        some ((reduceLoop oneFile.reducef sorted).flatMap fun line => utf8 line.text) := by
  have hrun : Run oneFile (fun w event => opensFiles w event ∧ createsAlone w event)
      fun k => play (World.step oneFile) (World.init oneFile) (throughout.take k) :=
    Runs.play (by decide +kernel)
  have hopen : (play (World.step oneFile) (World.init oneFile) (throughout.take 31)).doneCh =
      .opened := by decide +kernel
  have hclosed : (play (World.step oneFile) (World.init oneFile) (throughout.take 32)).doneCh =
      .closed := by decide +kernel
  exact ⟨hclosed, output_complete (by decide) hrun 31 hopen hclosed⟩

/-- The timer of the reduce task fires while it is executed. The second worker creates the
output file after the first one has reported. -/
def createdAgain : List Event :=
  [.depsDone 0, .depsDone 1, .send 0, .store 0, .send 0, .store 0, .getTask, .receive,
    .rename 0 [⟨['a'], ['1']⟩], .report 0, .report 0, .finish 0, .close 0, .finish 0, .close 0,
    .getTask, .receive, .depsDone 0, .send 0, .store 0, .receive, .timeout 1, .depsDone 1, .send 1,
    .getTask, .receive, .openFiles 0 [], .create 0 [⟨['a'], ['1']⟩], .write 0, .report 0,
    .openFiles 0 [], .create 0 [⟨['a'], ['1']⟩], .finish 0, .close 0, .depsDone 0, .send 0,
    .getTask, .receive]

/-- `doneCh` is closed while the output file is empty. -/
theorem output_truncated :
    Plays (World.step oneFile) opensFiles (World.init oneFile) createdAgain ∧
    (play (World.step oneFile) (World.init oneFile) (createdAgain.take 37)).doneCh = .opened ∧
    (play (World.step oneFile) (World.init oneFile) (createdAgain.take 38)).doneCh = .closed ∧
    ¬ ∃ sorted, Sorts (oneFile.reduceInput 0) sorted ∧
      (play (World.step oneFile) (World.init oneFile) (createdAgain.take 38)).outputs
        (outName (itoa 0)) =
        some ((reduceLoop oneFile.reducef sorted).flatMap fun line => utf8 line.text) := by
  refine ⟨by decide +kernel, by decide +kernel, by decide +kernel, ?_⟩
  rintro ⟨sorted, ⟨-, hperm⟩, hfile⟩
  -- there is one record, and so one line
  have hinput : oneFile.reduceInput 0 = [⟨['a'], ['1']⟩] := by decide +kernel
  have hempty : (play (World.step oneFile) (World.init oneFile) (createdAgain.take 38)).outputs
      (outName (itoa 0)) = some [] := by decide +kernel
  rw [hinput, List.perm_singleton] at hperm
  rw [hempty, hperm] at hfile
  exact absurd hfile (by decide +kernel)

end

end DistStudy.MapReduce
