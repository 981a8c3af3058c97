import DistStudy.MapReduce.Output

/-!
# The output of a whole job

A job is over when `doneCh` is closed. Whatever the workers and the coordinator did until
then, as long as files that exist can be opened and no output file is created twice, the
lines of the output files are those of `mrsequential` (`whole_job`), and these are one line
for every key with the reduced values of that key (`Config.result`).

The workers write to the directory of the input files. `whole_job` is about jobs none of
whose input files is called like a file that workers write; then no input file ever changes
(`Run.input_eq`), and it does not matter when `mrsequential` runs.
-/

namespace DistStudy.MapReduce

section

variable {cfg : Config} {w w' : World} {event : Event} {C : World → Event → Prop}
  {e : Behavior World}

/-! ## The input files during a job -/

/-- No input file is one that workers write. -/
def Config.InputsApart (cfg : Config) : Prop :=
  ∀ f ∈ cfg.files, (∀ m < cfg.files.length, ∀ r < cfg.nReduce,
    cfg.entry f ≠ resultName (itoa m) r) ∧ ∀ r < cfg.nReduce, cfg.entry f ≠ outName (itoa r)

instance (cfg : Config) : Decidable cfg.InputsApart :=
  inferInstanceAs (Decidable (∀ f ∈ cfg.files, (∀ m < cfg.files.length, ∀ r < cfg.nReduce,
    cfg.entry f ≠ resultName (itoa m) r) ∧ ∀ r < cfg.nReduce, cfg.entry f ≠ outName (itoa r)))

/-- All records, if `mrsequential` runs now. -/
def World.intermediate (cfg : Config) (w : World) : List KeyValue :=
  cfg.files.flatMap fun f => cfg.mapf f (w.input cfg f)

/-- The names of the files that workers write. -/
structure WritesOwn (cfg : Config) (w : World) : Prop where
  files : ∀ f, (w.files f).isSome →
    ∃ m < cfg.files.length, ∃ r < cfg.nReduce, f = resultName (itoa m) r
  outputs : ∀ f, (w.outputs f).isSome → ∃ r < cfg.nReduce, f = outName (itoa r)

theorem WritesOwn.step (h : WritesOwn cfg w) (hord : Ordered cfg w) (hs : Steps cfg w event w') :
    WritesOwn cfg w' := by
  constructor
  · intro f hf
    rcases hs.files_effect f with hsame | ⟨task, i, kvs, hx, hi, hname, -, -⟩
    · rw [hsame] at hf
      exact h.files f hf
    · rcases (hord.executions _ hx).map rfl with ⟨m, hm, rfl⟩
      exact ⟨m, hm, i, hi, hname⟩
  · intro f hf
    rcases hs.outputs_effect f with hsame | ⟨x, hx, hp, hname⟩
    · rw [hsame] at hf
      exact h.outputs f hf
    · rcases (hord.executions x hx).reduce hp with ⟨r, hr, -, hk, -⟩
      exact ⟨r, hr, hk ▸ hname⟩

theorem Run.writesOwn (hcfg : cfg.nReduce ≤ 10) (h : Run cfg C e) (k : ℕ) :
    WritesOwn cfg (e k) := by
  refine h.steps_of (h.ordered hcfg) (WritesOwn cfg) ?_ ?_ k
  · exact ⟨by simp [World.init], by simp [World.init]⟩
  · intro w event w' hord hinv _ hs
    exact hinv.step hord hs

/-- No input file ever changes. -/
theorem Run.input_eq (hcfg : cfg.nReduce ≤ 10) (hapart : cfg.InputsApart) (h : Run cfg C e)
    (k : ℕ) {f : Text} (hf : f ∈ cfg.files) : (e k).input cfg f = cfg.contents f := by
  have hown := h.writesOwn hcfg k
  have hout : (e k).outputs (cfg.entry f) = none := by
    by_contra hsome
    rcases hown.outputs _ (Option.isSome_iff_ne_none.mpr hsome) with ⟨r, hr, hname⟩
    exact (hapart f hf).2 r hr hname
  have hfile : (e k).files (cfg.entry f) = none := by
    by_contra hsome
    rcases hown.files _ (Option.isSome_iff_ne_none.mpr hsome) with ⟨m, hm, r, hr, hname⟩
    exact (hapart f hf).1 m hm r hr hname
  rw [World.input, hout, Option.getD_none, Config.read, hfile]

theorem Run.intermediate_eq (hcfg : cfg.nReduce ≤ 10) (hapart : cfg.InputsApart)
    (h : Run cfg C e) (k : ℕ) : (e k).intermediate cfg = cfg.intermediate := by
  refine List.flatMap_congr fun f hf => ?_
  rw [h.input_eq hcfg hapart k hf]
  rfl

/-! ## What a job computes -/

/-- The line of a key: the reduce function on all its values, in the order of the files. -/
def Config.lineOf (cfg : Config) (key : Text) : Line :=
  ⟨key, cfg.reducef key (valuesAt KeyValue.key KeyValue.value key cfg.intermediate)⟩

/-- One line for every key. -/
def Config.result (cfg : Config) : List Line :=
  (cfg.intermediate.map KeyValue.key).dedup.map cfg.lineOf

namespace Config.OrderFree

/-- The sequential program writes one line for every key. -/
theorem sequential (h : cfg.OrderFree) {all : List KeyValue} (hall : Sorts cfg.intermediate all) :
    (reduceLoop cfg.reducef all).Perm cfg.result := by
  refine (groupRuns_perm hall.1).trans ?_
  refine List.Perm.trans (List.Perm.of_eq ?_) ((hall.2.map KeyValue.key).dedup.map cfg.lineOf)
  refine List.map_congr_left fun key _ => ?_
  rw [Config.lineOf, h key _ _ (valuesAt_perm hall.2)]

/-- The reduce tasks write the lines of the sequential program. -/
theorem distributed (h : cfg.OrderFree) (hn : 1 ≤ cfg.nReduce) {lines : ℕ → List Line}
    (hlines : ∀ r < cfg.nReduce, cfg.AllLines r (lines r)) {all : List KeyValue}
    (hall : Sorts cfg.intermediate all) :
    ((List.range cfg.nReduce).flatMap lines).Perm (reduceLoop cfg.reducef all) := by
  choose! sorted hsorted using hlines
  have heq : (List.range cfg.nReduce).flatMap lines =
      (List.range cfg.nReduce).flatMap fun r => reduceLoop cfg.reducef (sorted r) := by
    apply List.flatMap_congr
    intro r hr
    exact (hsorted r (List.mem_range.mp hr)).2
  rw [heq]
  exact h.reduceLoop_perm hn (fun r hr => (hsorted r hr).1) hall

end Config.OrderFree

/-! ## The end of a job -/

/-- When `doneCh` is closed, every output file is complete. -/
theorem Run.outputs_of_closed (hcfg : cfg.nReduce ≤ 10)
    (h : Run cfg (fun w event => opensFiles w event ∧ createsAlone w event) e) {k : ℕ}
    (hopen : (e k).doneCh = .opened) (hclosed : (e (k + 1)).doneCh = .closed) :
    ∃ lines : ℕ → List Line, ∀ r < cfg.nReduce, cfg.AllLines r (lines r) ∧
      (e (k + 1)).outputs (outName (itoa r)) = some (contents (lines r)) := by
  have hfile : ∀ r < cfg.nReduce, ∃ lines, cfg.AllLines r lines ∧
      (e (k + 1)).outputs (outName (itoa r)) = some (contents lines) :=
    fun r hr => h.allLines_of_closed hcfg hopen hclosed hr
  choose! lines hlines using hfile
  exact ⟨lines, hlines⟩

/-- At the end of a job the output files hold one line for every key. -/
theorem Run.result_of_closed (hn : 1 ≤ cfg.nReduce) (hcfg : cfg.nReduce ≤ 10)
    (hreduce : cfg.OrderFree)
    (h : Run cfg (fun w event => opensFiles w event ∧ createsAlone w event) e) {k : ℕ}
    (hopen : (e k).doneCh = .opened) (hclosed : (e (k + 1)).doneCh = .closed) :
    ∃ lines : ℕ → List Line,
      (∀ r < cfg.nReduce, (e (k + 1)).outputs (outName (itoa r)) = some (contents (lines r))) ∧
      ((List.range cfg.nReduce).flatMap lines).Perm cfg.result := by
  rcases h.outputs_of_closed hcfg hopen hclosed with ⟨lines, hlines⟩
  have hall := sorts_sortByKey cfg.intermediate
  refine ⟨lines, fun r hr => (hlines r hr).2, ?_⟩
  exact (hreduce.distributed hn (fun r hr => (hlines r hr).1) hall).trans (hreduce.sequential hall)

/-- **A finished job has the output of the sequential program.** Let no input file be one that
workers write. As long as files that exist can be opened, and no execution creates an output
file that another one is writing or has completed: when `doneCh` is closed, the lines of the
output files are those that `mrsequential` writes in the same directory, whenever it runs and
whatever its sort returns. -/
theorem whole_job (hn : 1 ≤ cfg.nReduce) (hcfg : cfg.nReduce ≤ 10) (hreduce : cfg.OrderFree)
    (hapart : cfg.InputsApart)
    (h : Run cfg (fun w event => opensFiles w event ∧ createsAlone w event) e) (k : ℕ)
    (hopen : (e k).doneCh = .opened) (hclosed : (e (k + 1)).doneCh = .closed) :
    ∃ lines : ℕ → List Line,
      (∀ r < cfg.nReduce, (e (k + 1)).outputs (outName (itoa r)) = some (contents (lines r))) ∧
      ∀ i all, Sorts ((e i).intermediate cfg) all →
        ((List.range cfg.nReduce).flatMap lines).Perm (reduceLoop cfg.reducef all) := by
  rcases h.outputs_of_closed hcfg hopen hclosed with ⟨lines, hlines⟩
  refine ⟨lines, fun r hr => (hlines r hr).2, ?_⟩
  intro i all hall
  rw [h.intermediate_eq hcfg hapart i] at hall
  exact hreduce.distributed hn (fun r hr => (hlines r hr).1) hall

theorem whole_job_throughout :
    (play (World.step oneFile) (World.init oneFile) (throughout.take 32)).doneCh = .closed ∧
    ∃ lines : ℕ → List Line,
      (∀ r < 1, (play (World.step oneFile) (World.init oneFile) (throughout.take 32)).outputs
        (outName (itoa r)) = some (contents (lines r))) ∧
      ∀ i all, Sorts ((play (World.step oneFile) (World.init oneFile)
          (throughout.take i)).intermediate oneFile) all →
        ((List.range 1).flatMap lines).Perm (reduceLoop oneFile.reducef all) := by
  have hrun : Run oneFile (fun w event => opensFiles w event ∧ createsAlone w event)
      fun k => play (World.step oneFile) (World.init oneFile) (throughout.take k) :=
    Runs.play (by decide +kernel)
  have hopen : (play (World.step oneFile) (World.init oneFile) (throughout.take 31)).doneCh =
      .opened := by decide +kernel
  have hclosed : (play (World.step oneFile) (World.init oneFile) (throughout.take 32)).doneCh =
      .closed := by decide +kernel
  have hreduce : oneFile.OrderFree := fun _ _ _ hp => congrArg itoa hp.length_eq
  exact ⟨hclosed, whole_job (by decide) (by decide) hreduce (by decide) hrun 31 hopen hclosed⟩

end

end DistStudy.MapReduce
