import DistStudy.Lib.Behavior
import DistStudy.MapReduce.Tasks

/-!
# The coordinator and its workers: `mr/jobqueue.go`, `mr/coordinator.go`, `mr/worker.go`

A world holds the coordinator's memory, its goroutines, the workers with the tasks they
execute, and the shared files. An event is one step of one goroutine or of one worker:

* `scheduleJob` waits for the dependencies, sends the job on the channel and then stores
  it in the table, in three steps;
* `GetTask` waits on the channel; a receive drops a pseudo job, closes `doneCh` for the
  done job and hands any other job to the worker;
* a report of a worker starts a goroutine that runs `Finish` at some later time, in two
  steps: it takes the job out of the table, and then closes the job's channel;
* the timer of a watched job may fire at any time;
* a map task renames and reports its buckets one by one, a reduce task opens its files,
  reports those it cannot open, creates its output file and writes it line by line;
* a worker may crash between any two of its steps.

A step that panics has no successor. A second close of a channel panics, and so does the
close of a nil channel.

A map task takes the contents that its input file had before the job. These are still the
contents of the file if no input file is called `mr-m-r` or `mr-out-r`; `World.input` is what
the directory really holds. The records of a bucket may be written in any order: a map
function that ranges over a Go map has another one each time it runs.
-/

namespace DistStudy.MapReduce

/-! ## State -/

/-- A pointer to a job says where the job was made. -/
inductive Ptr where
  | map (m : ℕ)
  | pseudo (m r : ℕ)
  | reduce (r : ℕ)
  | done
  /-- The `k`-th job that `ReportMapFailure` has made. -/
  | again (k : ℕ)
  deriving DecidableEq, Repr

structure Job where
  jobtype : JobType
  key : Text
  done : DoneCh
  deps : List Ptr
  output : Text := []
  /-- The `queue` pointer is set. -/
  queued : Bool := false
  deriving DecidableEq, Repr

def newJob (jobtype : JobType) (key : Text) (deps : List Ptr) : Job :=
  { jobtype, key, deps, done := .opened }

def Job.id (j : Job) : Text := jobId j.jobtype j.key

/-- Where a `scheduleJob` goroutine stands. -/
inductive Stage where
  | waiting
  | sending
  | storing
  deriving DecidableEq, Repr

structure Goroutine where
  job : Ptr
  stage : Stage
  deriving DecidableEq, Repr

/-- How far a worker is with its task. -/
inductive Progress where
  /-- The next bucket of a map task, and whether its file has been renamed. -/
  | mapping (i : ℕ) (renamed : Bool)
  | opening
  /-- Some files could not be opened. -/
  | failing (corrupt : List ℕ) (kvs : List KeyValue)
  | loaded (kvs : List KeyValue)
  /-- The lines that are still to be written, and the offset in the output file. -/
  | writing (lines : List Line) (offset : ℕ)
  deriving DecidableEq, Repr

structure Execution where
  task : TaskRequest
  progress : Progress
  deriving DecidableEq, Repr

/-- A report, with the task of the worker that has sent it. -/
structure Sent where
  report : SuccessReport
  task : TaskRequest
  deriving DecidableEq, Repr

/-- A `Finish` that has taken a job out of the table and has not closed its channel yet. -/
structure Finishing where
  job : Ptr
  sent : Sent
  deriving DecidableEq, Repr

structure World where
  heap : Ptr → Option Job
  /-- The number of jobs that `ReportMapFailure` has made. -/
  made : ℕ
  goroutines : List Goroutine
  jobCh : List Ptr
  /-- The table of running jobs. -/
  jobs : Text → Option Ptr
  /-- The number of `GetTask` calls that wait for a job. -/
  getters : ℕ
  /-- The jobs that `watchJob` goroutines watch. -/
  watching : List Ptr
  doneCh : DoneCh
  executions : List Execution
  /-- The reports whose `onTaskFinish` goroutine has not run yet. -/
  reports : List Sent
  finishing : List Finishing
  files : Files
  outputs : Text → Option Bytes
  /-- History: what `GetJob` has returned. -/
  taken : List Ptr
  /-- History: the tasks that `GetTask` has replied. -/
  handed : List TaskRequest
  /-- History: the reports for which `Finish` has returned. -/
  processed : List Sent

inductive Event where
  /-- A worker calls `GetTask`. -/
  | getTask
  /-- The wait of `scheduleJob` for the dependencies is over. -/
  | depsDone (g : ℕ)
  | send (g : ℕ)
  | store (g : ℕ)
  /-- A waiting `GetTask` receives a job. -/
  | receive
  /-- `Finish` looks for the job of a report. -/
  | finish (r : ℕ)
  /-- `Finish` closes the channel of the job that it has found. -/
  | close (f : ℕ)
  | timeout (w : ℕ)
  /-- The watched job is done. -/
  | unwatch (w : ℕ)
  /-- A map task renames the file of its next bucket, in which it has written `kvs`. -/
  | rename (x : ℕ) (kvs : List KeyValue)
  | report (x : ℕ)
  /-- A reduce task opens its files; those at the positions `broken` fail. -/
  | openFiles (x : ℕ) (broken : List ℕ)
  | reportFailure (x : ℕ)
  /-- A reduce task sorts its records and creates its output file. -/
  | create (x : ℕ) (sorted : List KeyValue)
  | write (x : ℕ)
  | crash (x : ℕ)
  deriving DecidableEq, Repr

/-! ## The job queue -/

namespace World

variable (w : World)

/-- The job at `p` is done. -/
def IsDone (p : Ptr) : Prop := (w.heap p).map Job.done = some .closed

instance (p : Ptr) : Decidable (w.IsDone p) := inferInstanceAs (Decidable (_ = _))

def setJob (p : Ptr) (j : Job) : World :=
  { w with heap := Function.update w.heap p (some j) }

/-- `SubmitJob`. -/
def submitJob (p : Ptr) : World :=
  { w with goroutines := w.goroutines ++ [⟨p, .waiting⟩] }

/-- Make a job as `ReportMapFailure` does and submit it. -/
def submitAgain (j : Job) : World :=
  { w with
    heap := Function.update w.heap (.again w.made) (some j)
    made := w.made + 1
    goroutines := w.goroutines ++ [⟨.again w.made, .waiting⟩] }

def setStage (g : ℕ) (p : Ptr) (stage : Stage) : World :=
  { w with goroutines := w.goroutines.set g ⟨p, stage⟩ }

/-- `scheduleJob` up to the send. -/
def depsDone (g : ℕ) : Option World :=
  match w.goroutines[g]? with
  | some ⟨p, .waiting⟩ => do
    let j ← w.heap p
    if ∀ d ∈ j.deps, w.IsDone d then
      some ((w.setJob p { j with queued := true }).setStage g p .sending)
    else none
  | _ => none

/-- The send on `jobCh`. It succeeds if the channel has room or a receiver waits. -/
def send (size : ℕ) (g : ℕ) : Option World :=
  match w.goroutines[g]? with
  | some ⟨p, .sending⟩ =>
    if w.jobCh.length < size + w.getters then
      some { w.setStage g p .storing with jobCh := w.jobCh ++ [p] }
    else none
  | _ => none

def store (g : ℕ) : Option World :=
  match w.goroutines[g]? with
  | some ⟨p, .storing⟩ => do
    let j ← w.heap p
    some { w with
      jobs := Function.update w.jobs j.id (some p)
      goroutines := w.goroutines.eraseIdx g }
  | _ => none

/-- `Finish` up to `LoadAndDelete`. -/
def finish (r : ℕ) : Option World := do
  let s ← w.reports[r]?
  let w' := { w with reports := w.reports.eraseIdx r }
  match w.jobs s.report.id with
  -- already finished, or was never in the queue
  | none => some { w' with processed := w.processed ++ [s] }
  | some p =>
    some { w' with
      jobs := Function.update w.jobs s.report.id none
      finishing := w.finishing ++ [⟨p, s⟩] }

/-- The rest of `Finish`. The output of a job is read only when its channel is closed, so that
it can be set in the same step. -/
def close (f : ℕ) : Option World := do
  let ⟨p, s⟩ ← w.finishing[f]?
  let j ← w.heap p
  if j.done = .opened then
    some { w.setJob p { j with output := s.report.outputFilename, done := .closed } with
           finishing := w.finishing.eraseIdx f
           processed := w.processed ++ [s] }
  else none

/-! ## The coordinator -/

/-- The reply of `GetTask` for a job. -/
def reply (cfg : Config) (j : Job) : Option TaskRequest := do
  let filenames ←
    match j.jobtype with
    | .reduce => some (j.deps.map fun d => ((w.heap d).map Job.output).getD [])
    | .map => (cfg.files[atoi j.key]?).map fun f => [f]
    | _ => some []
  some { filenames, tasktype := j.jobtype, key := j.key, nReduce := cfg.nReduce,
         nMap := cfg.files.length }

/-- What a worker does first with a task. -/
def start (task : TaskRequest) : List Execution :=
  match task.tasktype with
  | .map => [⟨task, .mapping 0 false⟩]
  | .reduce => [⟨task, .opening⟩]
  | _ => []

/-- One iteration of the loop of `GetTask`, with the rest of `GetTask` if it is the last. -/
def receive (cfg : Config) : Option World :=
  match w.getters, w.jobCh with
  | getters + 1, p :: jobCh => do
    let j ← w.heap p
    match j.jobtype with
    -- pseudo tasks are not sent to workers
    | .pseudo => some { w with jobCh := jobCh, taken := w.taken ++ [p] }
    | _ => do
      let task ← w.reply cfg j
      if j.jobtype = .done ∧ w.doneCh = .closed then none
      else
        some { w with
          jobCh := jobCh
          taken := w.taken ++ [p]
          getters := getters
          doneCh := if j.jobtype = .done then .closed else w.doneCh
          watching := w.watching ++ [p]
          handed := w.handed ++ [task]
          executions := w.executions ++ start task }
  | _, _ => none

/-- The timer of `watchJob` fires: `Retry`. -/
def timeout (i : ℕ) : Option World := do
  let p ← w.watching[i]?
  let j ← w.heap p
  let w' := { w with watching := w.watching.eraseIdx i }
  some (if j.queued then w'.submitJob p else w')

def unwatch (i : ℕ) : Option World := do
  let p ← w.watching[i]?
  if w.IsDone p then some { w with watching := w.watching.eraseIdx i } else none

/-- The jobs that `ReportMapFailure` makes. They have no `Done` channel and no
dependencies. -/
def failedJobs (report : FailureReport) : List Job :=
  report.failingMapNumbers.map
      (fun v => { jobtype := .map, key := itoa v, done := .nil, deps := [] }) ++
    [{ jobtype := .reduce, key := itoa report.failingReduceNumber, done := .nil, deps := [] }]

def reportMapFailure (report : FailureReport) : World :=
  (failedJobs report).foldl submitAgain w

/-! ## Workers -/

def setProgress (x : ℕ) (task : TaskRequest) (progress : Progress) : World :=
  { w with executions := w.executions.set x ⟨task, progress⟩ }

/-- The worker has sent a report and is through with its task. -/
def retire (x : ℕ) : World := { w with executions := w.executions.eraseIdx x }

def sendReport (report : SuccessReport) (task : TaskRequest) : World :=
  { w with reports := w.reports ++ [⟨report, task⟩] }

/-- A map task renames the file of its next bucket. -/
def rename (cfg : Config) (x : ℕ) (kvs : List KeyValue) : Option World :=
  match w.executions[x]? with
  | some ⟨task, .mapping i false⟩ =>
    if i < task.nReduce ∧ kvs ≠ [] ∧ kvs.Perm (cfg.bucketOf task i) then
      some { w.setProgress x task (.mapping i true) with
             files := renameBucket task.key kvs i w.files }
    else none
  | _ => none

/-- A worker reports: a bucket of its map task, its map task or its reduce task. -/
def report (cfg : Config) (x : ℕ) : Option World :=
  match w.executions[x]? with
  | some ⟨task, .mapping i renamed⟩ =>
    if i < task.nReduce then
      if renamed = true ∨ cfg.bucketOf task i = [] then
        some ((w.sendReport (bucketReport task.key (cfg.bucketOf task i) i) task).setProgress x task
          (.mapping (i + 1) false))
      else none
    else some ((w.sendReport (mapReport task.key) task).retire x)
  | some ⟨task, .writing [] _⟩ => some ((w.sendReport (reduceReport task.key) task).retire x)
  | _ => none

/-- A reduce task opens its files and decodes those it can open. -/
def openFiles (x : ℕ) (broken : List ℕ) : Option World :=
  match w.executions[x]? with
  | some ⟨task, .opening⟩ =>
    let corrupt := corruptMapWorkers w.files broken task.filenames
    let kvs := decoded w.files broken task.filenames
    some (w.setProgress x task (if corrupt = [] then .loaded kvs else .failing corrupt kvs))
  | _ => none

/-- The report of the files that could not be opened. The task goes on with the others. -/
def reportFailure (x : ℕ) : Option World :=
  match w.executions[x]? with
  | some ⟨task, .failing corrupt kvs⟩ =>
    some ((w.reportMapFailure ⟨corrupt, atoi task.key⟩).setProgress x task (.loaded kvs))
  | _ => none

/-- `os.Create` on the output file: the file is truncated. -/
def create (cfg : Config) (x : ℕ) (sorted : List KeyValue) : Option World :=
  match w.executions[x]? with
  | some ⟨task, .loaded kvs⟩ =>
    if Sorts kvs sorted then
      some { w.setProgress x task (.writing (reduceLoop cfg.reducef sorted) 0) with
             outputs := Function.update w.outputs (outName task.key) (some []) }
    else none
  | _ => none

/-- Write `data` at an offset. A gap before it is filled with zeros. -/
def writeAt (content : Bytes) (offset : ℕ) (data : Bytes) : Bytes :=
  content.take offset ++ List.replicate (offset - content.length) 0 ++ data ++
    content.drop (offset + data.length)

def write (x : ℕ) : Option World :=
  match w.executions[x]? with
  | some ⟨task, .writing (line :: lines) offset⟩ =>
    let data := utf8 line.text
    let content := (w.outputs (outName task.key)).getD []
    some { w.setProgress x task (.writing lines (offset + data.length)) with
           outputs := Function.update w.outputs (outName task.key)
             (some (writeAt content offset data)) }
  | _ => none

def crash (x : ℕ) : Option World :=
  if x < w.executions.length then some (w.retire x) else none

/-- What an input file holds now: all tasks write to the directory of the input files. -/
def input (cfg : Config) (filename : Text) : Bytes :=
  (w.outputs (cfg.entry filename)).getD (cfg.read w.files filename)

end World

/-! ## Runs -/

/-- The jobs that `initialize` makes. -/
def Config.initialJob (cfg : Config) : Ptr → Option Job
  | .map m => if m < cfg.files.length then some (newJob .map (itoa m) []) else none
  | .pseudo m r =>
    if m < cfg.files.length ∧ r < cfg.nReduce then some (newJob .pseudo (bucketKey (itoa m) r) [])
    else none
  | .reduce r =>
    if r < cfg.nReduce then
      some (newJob .reduce (itoa r) ((List.range cfg.files.length).map (.pseudo · r)))
    else none
  | .done =>
    some { jobtype := .done, key := ['d', 'o', 'n', 'e'], done := .nil,
           deps := (List.range cfg.nReduce).map .reduce }
  | .again _ => none

/-- The pointers to these jobs, in the order in which they are submitted. -/
def Config.initialPtrs (cfg : Config) : List Ptr :=
  (List.range cfg.files.length).map .map ++
    (List.range cfg.nReduce).flatMap
      (fun r => (List.range cfg.files.length).map (.pseudo · r)) ++
    (List.range cfg.nReduce).map .reduce ++ [.done]

namespace World

/-- The world after `MakeCoordinator`. -/
def init (cfg : Config) : World where
  heap := cfg.initialJob
  made := 0
  goroutines := cfg.initialPtrs.map (⟨·, .waiting⟩)
  jobCh := []
  jobs := fun _ => none
  getters := 0
  watching := []
  doneCh := .opened
  executions := []
  reports := []
  finishing := []
  files := fun _ => none
  outputs := fun _ => none
  taken := []
  handed := []
  processed := []

def step (cfg : Config) (w : World) : Event → Option World
  | .getTask => some { w with getters := w.getters + 1 }
  | .depsDone g => w.depsDone g
  | .send g => w.send cfg.size g
  | .store g => w.store g
  | .receive => w.receive cfg
  | .finish r => w.finish r
  | .close f => w.close f
  | .timeout i => w.timeout i
  | .unwatch i => w.unwatch i
  | .rename x kvs => w.rename cfg x kvs
  | .report x => w.report cfg x
  | .openFiles x broken => w.openFiles x broken
  | .reportFailure x => w.reportFailure x
  | .create x sorted => w.create cfg x sorted
  | .write x => w.write x
  | .crash x => w.crash x

end World

/-- A run of the coordinator and its workers in which every event meets `C`. -/
abbrev Run (cfg : Config) (C : World → Event → Prop) (e : Behavior World) : Prop :=
  Runs (World.init cfg) (World.step cfg) C e

end DistStudy.MapReduce
