import DistStudy.MapReduce.Output
import DistStudy.MapReduce.Records

/-!
# A reduce task on arbitrary files: `reduceTask` of `mr/worker.go`

In the world of the coordinator an intermediate file is a list of records. Here it is
whatever a reader finds in it: a file may be missing, may end within a record or hold
something else, and the output file may refuse a line. `reduceTask` is the Go function over
such files, as the list of what it does in the end to the coordinator and to its output file.

It always ends with the report of its success, so `reportsOnlyComplete_iff` says what the
files must be like for the report to be true. On the files that map tasks have written
`reduceTask` does the same as the worker of the world (`play_reduceTask`).
-/

namespace DistStudy.MapReduce

/-! ## The task -/

/-- The files during one reduce task. -/
structure FileSystem (σ : Type) where
  /-- What can be read from a file, if it exists. -/
  content : Text → Option (List σ)
  /-- The positions of the files for which `os.Open` fails although they exist. -/
  broken : List ℕ
  /-- The line reaches the output file. None does if the file could not be created. -/
  writes : ℕ → Bool

/-- `sort.Sort(ByKey(kvs))`. -/
structure Sorter where
  sort : List KeyValue → List KeyValue
  sorts : ∀ kvs, Sorts kvs (sort kvs)

/-- A key with the values of its records, as they go to the reduce function. -/
structure KeyValues where
  key : Text
  values : List Text
  deriving DecidableEq, Repr

def KeyValues.records (g : KeyValues) : List KeyValue := g.values.map (⟨g.key, ·⟩)

def KeyValues.line (reducef : Text → List Text → Text) (g : KeyValues) : Line :=
  ⟨g.key, reducef g.key g.values⟩

/-- The groups of the loop over the sorted records. -/
def groups (kvs : List KeyValue) : List KeyValues :=
  groupRuns KeyValue.key KeyValue.value KeyValues.mk kvs

/-- What a reduce task does to the coordinator and to its output file. -/
inductive Action where
  | reportMapFailure (report : FailureReport)
  | create (oname : Text)
  /-- The line of a group is written. -/
  | write (oname : Text) (group : KeyValues) (line : Line)
  | reportDone (report : SuccessReport)
  deriving DecidableEq, Repr

section

variable {σ : Type} (c : Codec KeyValue σ) (fs : FileSystem σ)

/-- `os.Open` of the file at a position. -/
def FileSystem.openFile (idx : ℕ) (filename : Text) : Option (List σ) :=
  if idx ∈ fs.broken then none else fs.content filename

/-- The first loop: the files that were opened, and the positions of those that could not. -/
def FileSystem.openAll (filenames : List Text) : List (List σ) × List ℕ :=
  filenames.zipIdx.foldl
    (fun (files, corrupt) (filename, idx) =>
      -- map worker didn't produce anything
      if filename = [] then (files, corrupt)
      else
        match fs.openFile idx filename with
        | none => (files, corrupt ++ [idx])
        | some file => (files ++ [file], corrupt))
    ([], [])

/-- The second loop. An error of the decoder ends a file like its end does. -/
def readAll (files : List (List σ)) : List KeyValue :=
  files.foldl (fun kvs file => kvs ++ (c.decodeAll file).records) []

/-- The groups whose lines reach the output file. -/
def FileSystem.written (gs : List KeyValues) : List KeyValues :=
  (gs.zipIdx.filter fun g => fs.writes g.2).map Prod.fst

def reduceTask (sorter : Sorter) (reducef : Text → List Text → Text) (task : TaskRequest) :
    List Action :=
  let (files, corrupt) := fs.openAll task.filenames
  let failure :=
    if corrupt ≠ [] then [.reportMapFailure ⟨corrupt, atoi task.key⟩] else []
  let kvs := sorter.sort (readAll c files)
  let oname := outName task.key
  failure ++ [.create oname] ++
    (fs.written (groups kvs)).map (fun g => .write oname g (g.line reducef)) ++
    [.reportDone (reduceReport task.key)]

/-! ## What the report stands for -/

/-- The files that a task names, with their positions. -/
def named (filenames : List Text) : List (Text × ℕ) := filenames.zipIdx.filter fun f => f.1 ≠ []

/-- The records that map tasks have written to the files of a task. -/
def TaskRequest.inputs (task : TaskRequest) (files : Files) : List KeyValue :=
  (named task.filenames).flatMap fun f => (files f.1).getD []

/-- The records of the group that an action writes. -/
def Action.records : Action → List KeyValue
  | .write _ group _ => group.records
  | _ => []

/-- Every file of a task can be opened and is read to its end. -/
def FileSystem.ReadsToEnd (filenames : List Text) : Prop :=
  ∀ f ∈ named filenames, ∃ file, fs.openFile f.2 f.1 = some file ∧ (c.decodeAll file).ending = .eof

/-- Success is reported only if every file was opened and read to its end, and every record
that map tasks have written to the files is in one of the groups that were written. -/
def ReportsOnlyComplete (files : Files) (sorter : Sorter) (reducef : Text → List Text → Text)
    (task : TaskRequest) : Prop :=
  .reportDone (reduceReport task.key) ∈ reduceTask c fs sorter reducef task →
    fs.ReadsToEnd c task.filenames ∧
      (task.inputs files).Subperm ((reduceTask c fs sorter reducef task).flatMap Action.records)

/-- What can be read from the files of a task. -/
def FileSystem.records (filenames : List Text) : List KeyValue :=
  (named filenames).flatMap fun f =>
    ((fs.openFile f.2 f.1).map fun file => (c.decodeAll file).records).getD []

/-- The input of a task is there, and the lines that it contributes to can be written. -/
structure Arrived (files : Files) (sorter : Sorter) (task : TaskRequest) : Prop where
  readsToEnd : fs.ReadsToEnd c task.filenames
  records : (task.inputs files).Subperm (fs.records c task.filenames)
  writes : ∀ i g, (groups (sorter.sort (fs.records c task.filenames)))[i]? = some g →
    (∃ kv ∈ task.inputs files, kv.key = g.key) → fs.writes i = true

variable {c fs}

/-- The first loop sorts the named files into those that can be opened and the others. -/
theorem openAll_eq (filenames : List Text) :
    fs.openAll filenames =
      ((named filenames).filterMap fun f => fs.openFile f.2 f.1,
        ((named filenames).filter fun f => fs.openFile f.2 f.1 = none).map Prod.snd) := by
  have hloop : ∀ (l : List (Text × ℕ)) (files : List (List σ)) (corrupt : List ℕ),
      l.foldl
        (fun (files, corrupt) (filename, idx) =>
          if filename = [] then (files, corrupt)
          else
            match fs.openFile idx filename with
            | none => (files, corrupt ++ [idx])
            | some file => (files ++ [file], corrupt))
        (files, corrupt) =
      (files ++ (l.filter fun f => f.1 ≠ []).filterMap fun f => fs.openFile f.2 f.1,
        corrupt ++ ((l.filter fun f => f.1 ≠ []).filter
          fun f => fs.openFile f.2 f.1 = none).map Prod.snd) := by
    intro l
    induction l with
    | nil => simp
    | cons f l ih =>
      intro files corrupt
      obtain ⟨filename, idx⟩ := f
      rw [List.foldl_cons]
      by_cases hname : filename = []
      · simp [hname, ih]
      · cases hopen : fs.openFile idx filename with
        | none => simp [hname, hopen, ih]
        | some file => simp [hname, hopen, ih]
  exact hloop filenames.zipIdx [] []

theorem readAll_eq (files : List (List σ)) :
    readAll c files = files.flatMap fun file => (c.decodeAll file).records := by
  have hloop : ∀ (files : List (List σ)) (kvs : List KeyValue),
      files.foldl (fun kvs file => kvs ++ (c.decodeAll file).records) kvs =
        kvs ++ files.flatMap fun file => (c.decodeAll file).records := by
    intro files
    induction files with
    | nil => simp
    | cons file files ih => simp [ih]
  exact hloop files []

theorem readAll_openAll (filenames : List Text) :
    readAll c (fs.openAll filenames).1 = fs.records c filenames := by
  rw [readAll_eq, openAll_eq, FileSystem.records]
  induction named filenames with
  | nil => rfl
  | cons f l ih =>
    cases hopen : fs.openFile f.2 f.1 with
    | none => simp [hopen, ih]
    | some file => simp [hopen, ih]

/-- The groups hold the records of the loop. -/
theorem groups_records (kvs : List KeyValue) :
    (groups kvs).flatMap KeyValues.records = kvs := by
  have hrecords : ∀ k vs, KeyValues.records ⟨k, vs⟩ = vs.map (KeyValue.mk k) := fun _ _ => rfl
  exact flatMap_groupRuns (fun _ => rfl) hrecords kvs

theorem KeyValues.key_of_mem {g : KeyValues} {kv : KeyValue} (h : kv ∈ g.records) :
    kv.key = g.key := by
  obtain ⟨v, -, rfl⟩ := List.mem_map.mp h
  rfl

/-- Sorted records have one group for each key. -/
theorem groups_nodup {kvs : List KeyValue} (h : SortedBy KeyValue.key kvs) :
    ((groups kvs).map KeyValues.key).Nodup :=
  (map_groupRuns_perm (fun _ _ => rfl) h).nodup_iff.mpr (List.nodup_dedup _)

theorem mem_written {gs : List KeyValues} {g : KeyValues} :
    g ∈ fs.written gs ↔ ∃ i, gs[i]? = some g ∧ fs.writes i = true := by
  simp only [FileSystem.written, List.mem_map, List.mem_filter, Prod.exists, exists_and_right,
    exists_eq_right, List.mem_zipIdx_iff_getElem?]

/-- Records are in groups that are written if they are in groups at all, and the lines to
which they contribute can be written. -/
theorem subperm_written {inputs : List KeyValue} {gs : List KeyValues}
    (hkeys : (gs.map KeyValues.key).Nodup) :
    inputs.Subperm ((fs.written gs).flatMap KeyValues.records) ↔
      inputs.Subperm (gs.flatMap KeyValues.records) ∧
        ∀ i g, gs[i]? = some g → (∃ kv ∈ inputs, kv.key = g.key) → fs.writes i = true := by
  -- the groups that are written, and the others
  set others := (gs.zipIdx.filter fun g => !fs.writes g.2).map Prod.fst with hothers
  have hperm : (fs.written gs ++ others).Perm gs := by
    have h := (List.filter_append_perm (fun g : KeyValues × ℕ => fs.writes g.2) gs.zipIdx).map
      Prod.fst
    rwa [List.map_append, List.zipIdx_map_fst] at h
  have hrecords := hperm.flatMap_right KeyValues.records
  rw [List.flatMap_append] at hrecords
  constructor
  · intro h
    refine ⟨(h.trans (List.sublist_append_left _ _).subperm).trans hrecords.subperm, ?_⟩
    rintro i g hi ⟨kv, hkv, hkey⟩
    obtain ⟨g', hg', hmem⟩ := List.mem_flatMap.mp (h.subset hkv)
    obtain ⟨j, hj, hwrites⟩ := mem_written.mp hg'
    -- there is only one group for the key
    have hij : i = j := by
      have heq : g.key = g'.key := hkey.symm.trans (KeyValues.key_of_mem hmem)
      have hlt : i < (gs.map KeyValues.key).length := by
        rw [List.length_map]
        exact (List.getElem?_eq_some_iff.mp hi).1
      refine (List.getElem?_inj hlt hkeys).mp ?_
      rw [List.getElem?_map, List.getElem?_map, hi, hj, Option.map_some, Option.map_some, heq]
    rw [hij]
    exact hwrites
  · rintro ⟨h, hwrites⟩
    rw [List.subperm_ext_iff]
    intro kv hkv
    have hnot : kv ∉ others.flatMap KeyValues.records := by
      intro hmem
      obtain ⟨g, hg, hmem⟩ := List.mem_flatMap.mp hmem
      simp only [hothers, List.mem_map, List.mem_filter, Prod.exists, exists_and_right,
        exists_eq_right, List.mem_zipIdx_iff_getElem?] at hg
      obtain ⟨i, hi, hfalse⟩ := hg
      simp [hwrites i g hi ⟨kv, hkv, KeyValues.key_of_mem hmem⟩] at hfalse
    have hcount := List.subperm_ext_iff.mp (h.trans hrecords.symm.subperm) kv hkv
    rwa [List.count_append, List.count_eq_zero_of_not_mem hnot, Nat.add_zero] at hcount

variable {files : Files} {sorter : Sorter} {reducef : Text → List Text → Text} {task : TaskRequest}

/-- The records of the groups that a reduce task writes. -/
theorem reduceTask_records :
    (reduceTask c fs sorter reducef task).flatMap Action.records =
      (fs.written (groups (sorter.sort (fs.records c task.filenames)))).flatMap
        KeyValues.records := by
  have hfailure : ∀ (corrupt : List ℕ) (report : FailureReport),
      (if corrupt ≠ [] then [Action.reportMapFailure report] else []).flatMap Action.records =
        [] := by
    intro corrupt report
    split_ifs <;> rfl
  simp only [reduceTask, List.flatMap_append, hfailure, readAll_openAll]
  simp [Action.records, List.flatMap_map]

/-- Success is reported whatever the files are like, so the report is true just if the input
of the task has arrived. -/
theorem reportsOnlyComplete_iff :
    ReportsOnlyComplete c fs files sorter reducef task ↔ Arrived c fs files sorter task := by
  have hsent : .reportDone (reduceReport task.key) ∈ reduceTask c fs sorter reducef task := by
    simp [reduceTask]
  obtain ⟨hsorted, hperm⟩ := sorter.sorts (fs.records c task.filenames)
  set kvs := sorter.sort (fs.records c task.filenames)
  have hwritten : (task.inputs files).Subperm ((fs.written (groups kvs)).flatMap
      KeyValues.records) ↔ _ := subperm_written (groups_nodup hsorted)
  rw [groups_records] at hwritten
  constructor
  · intro h
    obtain ⟨hends, hincluded⟩ := h hsent
    rw [reduceTask_records] at hincluded
    obtain ⟨hrecords, hwrites⟩ := hwritten.mp hincluded
    exact ⟨hends, hrecords.trans hperm.subperm, hwrites⟩
  · intro h _
    refine ⟨h.readsToEnd, ?_⟩
    rw [reduceTask_records]
    exact hwritten.mpr ⟨h.records.trans hperm.symm.subperm, h.writes⟩

end

/-- Sorting by insertion. -/
def insertionSorter : Sorter := ⟨sortByKey, sorts_sortByKey⟩

/-- Reduce task 0 of two maps. -/
def reduceTwo : TaskRequest :=
  { filenames := [resultName (itoa 0) 0, resultName (itoa 1) 0], tasktype := .reduce,
    key := itoa 0, nReduce := 1, nMap := 2 }

/-- Each of the two map tasks has written one record. -/
def twoRecords : Files :=
  Function.update (Function.update (fun _ => none) (resultName (itoa 0) 0) (some [⟨['a'], ['1']⟩]))
    (resultName (itoa 1) 0) (some [⟨['b'], ['1']⟩])

/-- The file of the first map, and some state of that of the second one. -/
def secondFile (content : Option Text) : FileSystem Char where
  content := Function.update (Function.update (fun _ => none) (resultName (itoa 0) 0)
    (some (jsonCodec.encodeAll [⟨['a'], ['1']⟩]))) (resultName (itoa 1) 0) content
  broken := []
  writes _ := true

/-- The beginning of the second file. -/
def cutContent : Text := (jsonCodec.encodeAll [⟨['b'], ['1']⟩]).take 20

/-- The reduce function that counts the values of a key. -/
def countValues (_ : Text) (values : List Text) : Text := itoa values.length

/-- A file is missing: the failure is reported, and then the success. A file ends within a
record: only the success is reported. The record of the second file is in neither output. -/
theorem incomplete_input_reported :
    (reduceTask jsonCodec (secondFile none) insertionSorter countValues reduceTwo =
        [.reportMapFailure ⟨[1], 0⟩, .create (outName (itoa 0)),
          .write (outName (itoa 0)) ⟨['a'], [['1']]⟩ ⟨['a'], ['1']⟩,
          .reportDone (reduceReport (itoa 0))] ∧
      ¬ ReportsOnlyComplete jsonCodec (secondFile none) twoRecords insertionSorter countValues
        reduceTwo) ∧
    (jsonCodec.decodeAll cutContent).ending = .error ∧
    reduceTask jsonCodec (secondFile (some cutContent)) insertionSorter countValues reduceTwo =
        [.create (outName (itoa 0)), .write (outName (itoa 0)) ⟨['a'], [['1']]⟩ ⟨['a'], ['1']⟩,
          .reportDone (reduceReport (itoa 0))] ∧
      ¬ ReportsOnlyComplete jsonCodec (secondFile (some cutContent)) twoRecords insertionSorter
        countValues reduceTwo := by
  have hlost : ∀ fs, (reduceTask jsonCodec fs insertionSorter countValues reduceTwo).flatMap
      Action.records = [⟨['a'], ['1']⟩] →
        ¬ ReportsOnlyComplete jsonCodec fs twoRecords insertionSorter countValues reduceTwo := by
    intro fs hrecords h
    obtain ⟨-, hsub⟩ := h (by simp [reduceTask])
    rw [hrecords] at hsub
    have hmem : ⟨['b'], ['1']⟩ ∈ reduceTwo.inputs twoRecords := by decide +kernel
    exact absurd (hsub.subset hmem) (by decide)
  refine ⟨⟨?_, hlost _ ?_⟩, ?_, ?_, hlost _ ?_⟩ <;> decide +kernel

section

variable {σ : Type} {c : Codec KeyValue σ} {fs : FileSystem σ} {files : Files} {sorter : Sorter}
  {task : TaskRequest}

/-! ## The files of map tasks -/

/-- The files are as map tasks have written them. -/
def FileSystem.Holds (c : Codec KeyValue σ) (fs : FileSystem σ) (files : Files) : Prop :=
  ∀ name, fs.content name = (files name).map c.encodeAll

theorem openFile_eq (h : fs.Holds c files) (idx : ℕ) (filename : Text) :
    fs.openFile idx filename =
      if CanOpen files fs.broken idx filename then some (c.encodeAll ((files filename).getD []))
      else none := by
  rw [FileSystem.openFile, h]
  by_cases hbroken : idx ∈ fs.broken
  · simp [hbroken, CanOpen]
  · cases hfile : files filename with
    | none => simp [hbroken, CanOpen, hfile]
    | some kvs => simp [hbroken, CanOpen, hfile]

theorem records_eq_decoded (h : fs.Holds c files) (filenames : List Text) :
    fs.records c filenames = decoded files fs.broken filenames := by
  rw [FileSystem.records, decoded, named]
  induction filenames.zipIdx with
  | nil => rfl
  | cons f l ih =>
    by_cases hname : f.1 = []
    · simpa [hname] using ih
    · by_cases hopen : CanOpen files fs.broken f.2 f.1
      · simpa [hname, hopen, openFile_eq h, Codec.decodeAll_encodeAll] using ih
      · simpa [hname, hopen, openFile_eq h] using ih

theorem corrupt_eq (h : fs.Holds c files) (filenames : List Text) :
    (fs.openAll filenames).2 = corruptMapWorkers files fs.broken filenames := by
  rw [openAll_eq, corruptMapWorkers, named, List.filter_filter]
  refine congrArg (List.map Prod.snd) (List.filter_congr fun f _ => ?_)
  by_cases hopen : CanOpen files fs.broken f.2 f.1 <;> simp [openFile_eq h, hopen]

theorem canOpen_of_named {broken : List ℕ} {filenames : List Text}
    (h : corruptMapWorkers files broken filenames = []) {f : Text × ℕ} (hf : f ∈ named filenames) :
    CanOpen files broken f.2 f.1 := by
  obtain ⟨hmem, hname⟩ := List.mem_filter.mp hf
  have hnot := List.filter_eq_nil_iff.mp (List.map_eq_nil_iff.mp h) f hmem
  simp only [decide_eq_true_eq, not_and, not_not] at hname hnot
  exact hnot hname

/-- The input of a task has arrived if all its files can be opened and hold what map tasks
have written, and the output file can be written. -/
theorem Arrived.of_holds (h : fs.Holds c files)
    (hopen : corruptMapWorkers files fs.broken task.filenames = [])
    (hwrites : ∀ i, fs.writes i = true) : Arrived c fs files sorter task where
  readsToEnd := by
    intro f hf
    refine ⟨c.encodeAll ((files f.1).getD []), ?_, ?_⟩
    · rw [openFile_eq h, if_pos (canOpen_of_named hopen hf)]
    · rw [Codec.decodeAll_encodeAll]
  records := by
    refine (List.Perm.of_eq (List.flatMap_congr fun f hf => ?_)).subperm
    simp [openFile_eq h, canOpen_of_named hopen hf, Codec.decodeAll_encodeAll]
  writes := fun i _ _ _ => hwrites i

/-! ## The worker of the world -/

theorem reduceLoop_eq (reducef : Text → List Text → Text) (kvs : List KeyValue) :
    reduceLoop reducef kvs = (groups kvs).map (KeyValues.line reducef) := by
  rw [groups, map_groupRuns]
  rfl

theorem written_eq (hwrites : ∀ i, fs.writes i = true) (gs : List KeyValues) :
    fs.written gs = gs := by
  simp [FileSystem.written, hwrites, List.zipIdx_map_fst]

end

namespace World

/-- What an action of a reduce task does to the world. -/
def perform (task : TaskRequest) (w : World) : Action → World
  | .reportMapFailure report => w.reportMapFailure report
  | .create oname => { w with outputs := Function.update w.outputs oname (some []) }
  | .write oname _ line =>
    { w with
      outputs := Function.update w.outputs oname
        (some ((w.outputs oname).getD [] ++ utf8 line.text)) }
  | .reportDone report => w.sendReport report task

/-- The length of the output file of a reduce task. -/
def outputLength (w : World) (key : Text) : ℕ := ((w.outputs (outName key)).getD []).length

section

variable {cfg : Config} {w : World} {x : ℕ} {task : TaskRequest} {p p' : Progress}

theorem setProgress_get (hx : x < w.executions.length) :
    (w.setProgress x task p).executions[x]? = some ⟨task, p⟩ := by
  simp [setProgress, hx]

theorem setProgress_set :
    (w.setProgress x task p).setProgress x task p' = w.setProgress x task p' := by
  simp [setProgress]

theorem setProgress_retire : (w.setProgress x task p).retire x = w.retire x := by
  simp [setProgress, retire, List.eraseIdx_set_eq]

theorem setProgress_reportMapFailure (report : FailureReport) :
    (w.setProgress x task p).reportMapFailure report =
      (w.reportMapFailure report).setProgress x task p :=
  List.foldl_hom (setProgress · x task p) fun _ _ => rfl

theorem foldl_perform_executions (actions : List Action) :
    (actions.foldl (perform task) w).executions = w.executions := by
  induction actions generalizing w with
  | nil => rfl
  | cons action actions ih =>
    rw [List.foldl_cons, ih]
    cases action with
    | reportMapFailure report =>
      have h := congrArg executions (foldl_submitAgain (failedJobs report) w)
      exact h
    | create oname => rfl
    | write oname group line => rfl
    | reportDone report => rfl

/-! Each step of a worker that has opened its files performs one action. -/

theorem step_reportFailure (hx : x < w.executions.length) (corrupt : List ℕ) (kvs : List KeyValue) :
    (w.setProgress x task (.failing corrupt kvs)).step cfg (.reportFailure x) =
      some ((w.perform task (.reportMapFailure ⟨corrupt, atoi task.key⟩)).setProgress x task
        (.loaded kvs)) := by
  simp only [step, reportFailure, setProgress_get hx, setProgress_reportMapFailure,
    setProgress_set, perform]

theorem step_create (hx : x < w.executions.length) {kvs sorted : List KeyValue}
    (hsorts : Sorts kvs sorted) :
    (w.setProgress x task (.loaded kvs)).step cfg (.create x sorted) =
      some ((w.perform task (.create (outName task.key))).setProgress x task
        (.writing (reduceLoop cfg.reducef sorted) 0)) := by
  simp only [step, create, setProgress_get hx, hsorts, if_true, setProgress_set]
  rfl

theorem step_write (hx : x < w.executions.length) (group : KeyValues) (line : Line)
    (lines : List Line) :
    (w.setProgress x task (.writing (line :: lines) (w.outputLength task.key))).step cfg (.write x) =
      some ((w.perform task (.write (outName task.key) group line)).setProgress x task
        (.writing lines ((w.perform task (.write (outName task.key) group line)).outputLength
          task.key))) := by
  have hlength : (w.perform task (.write (outName task.key) group line)).outputLength task.key =
      w.outputLength task.key + (utf8 line.text).length := by
    simp [perform, outputLength]
  rw [hlength]
  simp only [step, write, setProgress_get hx]
  simp only [setProgress, perform, outputLength, writeAt_length, List.set_set]

theorem step_report (hx : x < w.executions.length) (offset : ℕ) :
    (w.setProgress x task (.writing [] offset)).step cfg (.report x) =
      some ((w.perform task (.reportDone (reduceReport task.key))).retire x) := by
  simp only [step, report, setProgress_get hx, Option.some.injEq]
  exact setProgress_retire (w := w.sendReport (reduceReport task.key) task)

/-- The lines of the groups are written one after the other. -/
theorem play_write (hx : x < w.executions.length) (gs : List KeyValues) :
    let w' := (gs.map fun g => Action.write (outName task.key) g (g.line cfg.reducef)).foldl
      (perform task) w
    play (step cfg)
        (w.setProgress x task (.writing (gs.map (KeyValues.line cfg.reducef)) (w.outputLength task.key)))
        (List.replicate gs.length (.write x)) =
      w'.setProgress x task (.writing [] (w'.outputLength task.key)) := by
  induction gs generalizing w with
  | nil => rfl
  | cons g gs ih =>
    simp only [List.map_cons, List.length_cons, List.replicate_succ, play,
      step_write hx g, Option.getD_some, List.foldl_cons]
    exact ih hx

end

end World

variable {σ : Type} (c : Codec KeyValue σ) (fs : FileSystem σ) (sorter : Sorter)

/-- The steps of the worker `x` on a reduce task. -/
def reduceEvents (x : ℕ) (task : TaskRequest) : List Event :=
  let (files, corrupt) := fs.openAll task.filenames
  let kvs := sorter.sort (readAll c files)
  [.openFiles x fs.broken] ++ (if corrupt ≠ [] then [.reportFailure x] else []) ++
    [.create x kvs] ++ List.replicate (groups kvs).length (.write x) ++ [.report x]

/-- On the files of the world, a worker that is not interrupted does what `reduceTask` does. -/
theorem play_reduceTask {cfg : Config} {w : World} {x : ℕ} {task : TaskRequest}
    (hfiles : fs.Holds c w.files) (hwrites : ∀ i, fs.writes i = true)
    (hx : w.executions[x]? = some ⟨task, .opening⟩) :
    play (World.step cfg) w (reduceEvents c fs sorter x task) =
      ((reduceTask c fs sorter cfg.reducef task).foldl (World.perform task) w).retire x := by
  have hlt : x < w.executions.length := (List.getElem?_eq_some_iff.mp hx).1
  have hsorts := sorter.sorts (fs.records c task.filenames)
  simp only [reduceEvents, reduceTask, readAll_openAll, corrupt_eq hfiles, written_eq hwrites]
  rw [records_eq_decoded hfiles] at hsorts ⊢
  set kvs := decoded w.files fs.broken task.filenames
  set corrupt := corruptMapWorkers w.files fs.broken task.filenames with hcorrupt
  set v := (if corrupt ≠ [] then [Action.reportMapFailure ⟨corrupt, atoi task.key⟩]
    else []).foldl (World.perform task) w with hv
  -- the files are opened, and those that could not be opened are reported
  have hopened : play (World.step cfg) w ([.openFiles x fs.broken] ++
      if corrupt ≠ [] then [.reportFailure x] else []) =
        v.setProgress x task (.loaded kvs) := by
    have hstep : w.step cfg (.openFiles x fs.broken) = some (w.setProgress x task
        (if corrupt = [] then .loaded kvs else .failing corrupt kvs)) := by
      simp only [World.step, World.openFiles, hx]
      rfl
    by_cases hc : corrupt = []
    · simp [play, hstep, hv, hc]
    · simp [play, hstep, hv, hc, World.step_reportFailure hlt]
  have hvx : x < v.executions.length := by rwa [hv, World.foldl_perform_executions]
  set u := v.perform task (.create (outName task.key)) with hu
  have hux : x < u.executions.length := hvx
  have hzero : u.outputLength task.key = 0 := by simp [hu, World.perform, World.outputLength]
  set u' := ((groups (sorter.sort kvs)).map fun g =>
    Action.write (outName task.key) g (g.line cfg.reducef)).foldl (World.perform task) u with hu'
  -- the lines of the groups are written
  have hwritten : play (World.step cfg)
      (u.setProgress x task (.writing (reduceLoop cfg.reducef (sorter.sort kvs)) 0))
      (List.replicate (groups (sorter.sort kvs)).length (.write x)) =
        u'.setProgress x task (.writing [] (u'.outputLength task.key)) := by
    rw [reduceLoop_eq, ← hzero]
    exact World.play_write hux (groups (sorter.sort kvs))
  have hux' : x < u'.executions.length := by rwa [hu', World.foldl_perform_executions]
  rw [play_append, play_append, play_append, hopened]
  simp only [List.foldl_append, List.foldl_cons, List.foldl_nil, play, World.step_create hvx hsorts,
    Option.getD_some, ← hv, ← hu, ← hu', hwritten, World.step_report hux']

end DistStudy.MapReduce
