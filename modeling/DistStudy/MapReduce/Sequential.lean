import DistStudy.MapReduce.Tasks

/-!
# The distributed result is the sequential one

All map tasks run once, in any order, then all reduce tasks, each on the files that the map
tasks have reported for it, in the order of the map numbers. They all work in one directory.
If no input file is a file that another map task writes (`Config.Separate`), each map task
reads what its input file held at the start, so that the records of a reduce task are those
of the sequential program whose keys hash to its number (`distributedInput_perm`,
`reduceInput_eq`), and `groupRuns_buckets` compares the two. Otherwise a map task may read
what another one has written in the place of its input (`input_overwritten`).
-/

namespace DistStudy.MapReduce

namespace Config

variable (cfg : Config)

/-- The task that `GetTask` makes of a map job. -/
def mapRequest (m : ℕ) : TaskRequest :=
  { filenames := [cfg.files[m]?.getD []], tasktype := .map, key := itoa m,
    nReduce := cfg.nReduce, nMap := cfg.files.length }

/-- The task that `GetTask` makes of a reduce job whose buckets are all reported. -/
def reduceRequest (r : ℕ) : TaskRequest :=
  { filenames := (List.range cfg.files.length).map (cfg.bucketOutput · r), tasktype := .reduce,
    key := itoa r, nReduce := cfg.nReduce, nMap := cfg.files.length }

/-- The records that the map tasks have for reduce task `r`. -/
def reduceInput (r : ℕ) : List KeyValue := (List.range cfg.files.length).flatMap (cfg.bucket · r)

/-- The reduce function does not look at the order of the values. -/
def OrderFree : Prop :=
  ∀ key values values', values.Perm values' → cfg.reducef key values = cfg.reducef key values'

/-! ## One execution of every task -/

/-- Map task `m` runs: the files, and the reports of every map task so far. -/
def runMap (done : Files × (ℕ → List SuccessReport)) (m : ℕ) : Files × (ℕ → List SuccessReport) :=
  let result := cfg.mapTask (cfg.mapRequest m) done.1
  (result.1, Function.update done.2 m result.2)

/-- The map tasks run once each, in the given order. -/
def runMaps (order : List ℕ) : Files × (ℕ → List SuccessReport) :=
  order.foldl cfg.runMap (fun _ => none, fun _ => [])

/-- What the map tasks have reported for bucket `r`. -/
def reported (order : List ℕ) (r : ℕ) : List Text :=
  (List.range cfg.files.length).map fun m =>
    (((cfg.runMaps order).2 m)[r]?.map SuccessReport.outputFilename).getD []

/-- What `reduceTask` reads for reduce task `r` then, no file being broken. -/
def distributedInput (order : List ℕ) (r : ℕ) : List KeyValue :=
  decoded (cfg.runMaps order).1 [] (cfg.reported order r)

/-- No map task has a file for its input that another one writes. -/
def Separate : Prop :=
  ∀ m < cfg.files.length, ∀ m' < cfg.files.length, m' ≠ m → ∀ r < cfg.nReduce,
    cfg.entry (cfg.files[m]?.getD []) ≠ resultName (itoa m') r

instance : Decidable cfg.Separate :=
  inferInstanceAs (Decidable (∀ m < cfg.files.length, ∀ m' < cfg.files.length, m' ≠ m →
    ∀ r < cfg.nReduce, cfg.entry (cfg.files[m]?.getD []) ≠ resultName (itoa m') r))

end Config

/-! ## The intermediate files -/

section

variable {cfg : Config} {m r : ℕ}

/-- A file after some buckets of a map task were renamed: one of these, or what it was. -/
theorem foldl_renameBucket (n : Text) (grouped : ℕ → List KeyValue) (is : List ℕ) (files : Files)
    (f : Text) :
    (∃ i ∈ is, f = resultName n i ∧ grouped i ≠ [] ∧
      (is.foldl (fun files i => renameBucket n (grouped i) i files) files) f = some (grouped i)) ∨
    (∀ i ∈ is, f = resultName n i → grouped i = []) ∧
      (is.foldl (fun files i => renameBucket n (grouped i) i files) files) f = files f := by
  induction is generalizing files with
  | nil => exact Or.inr ⟨by simp, rfl⟩
  | cons i is ih =>
    rw [List.foldl_cons]
    rcases ih (renameBucket n (grouped i) i files) with ⟨i', hi', hf, hne, heq⟩ | ⟨hother, heq⟩
    · exact Or.inl ⟨i', List.mem_cons_of_mem i hi', hf, hne, heq⟩
    rw [heq]
    by_cases hthis : f = resultName n i ∧ grouped i ≠ []
    · -- this bucket is written now
      left
      refine ⟨i, List.mem_cons_self, hthis.1, hthis.2, ?_⟩
      rw [renameBucket, if_neg hthis.2, hthis.1, Function.update_self]
    · right
      constructor
      · intro i' hi' hf
        rcases List.mem_cons.mp hi' with rfl | hi'
        · by_contra hne
          exact hthis ⟨hf, hne⟩
        · exact hother i' hi' hf
      · unfold renameBucket
        split_ifs with hempty
        · rfl
        · exact Function.update_of_ne (fun hf => hthis ⟨hf, hempty⟩) _ _

/-- The map tasks of `done` have run, on the contents that their input files had at the
start. -/
structure Ran (cfg : Config) (done : List ℕ) (state : Files × (ℕ → List SuccessReport)) : Prop where
  written : ∀ f, (state.1 f).isSome → ∃ m ∈ done, ∃ r < cfg.nReduce, f = resultName (itoa m) r
  bucket : ∀ m ∈ done, ∀ r < cfg.nReduce, cfg.bucket m r ≠ [] →
    state.1 (resultName (itoa m) r) = some (cfg.bucket m r)
  reports : ∀ m ∈ done, ∀ r < cfg.nReduce,
    ((state.2 m)[r]?.map SuccessReport.outputFilename).getD [] = cfg.bucketOutput m r

namespace Ran

variable {done : List ℕ} {state : Files × (ℕ → List SuccessReport)}

/-- The next map task reads what its input file held at the start. -/
theorem read_eq (h : Ran cfg done state) (hsep : cfg.Separate)
    (hdone : ∀ m' ∈ done, m' < cfg.files.length) (hm : m < cfg.files.length) (hnew : m ∉ done) :
    cfg.read state.1 (cfg.files[m]?.getD []) = cfg.contents (cfg.files[m]?.getD []) := by
  unfold Config.read
  cases hfile : state.1 (cfg.entry (cfg.files[m]?.getD [])) with
  | none => rfl
  | some kvs =>
    have hsome : (state.1 (cfg.entry (cfg.files[m]?.getD []))).isSome := by rw [hfile]; rfl
    rcases h.written _ hsome with ⟨m', hm', r, hr, hname⟩
    have hne : m' ≠ m := fun heq => hnew (heq ▸ hm')
    exact absurd hname (hsep m hm m' (hdone m' hm') hne r hr)

/-- What a map task leaves that reads what its input file held at the start. -/
theorem mapTask_eq {files : Files} (hread : cfg.read files (cfg.files[m]?.getD []) =
      cfg.contents (cfg.files[m]?.getD [])) :
    cfg.mapTask (cfg.mapRequest m) files =
      ((List.range cfg.nReduce).foldl
          (fun files i => renameBucket (itoa m) (cfg.bucket m i) i files) files,
        (List.range cfg.nReduce).map (fun i => bucketReport (itoa m) (cfg.bucket m i) i) ++
          [mapReport (itoa m)]) := by
  simp only [Config.mapTask, Config.mapRequest, List.headD_cons, hread]
  rfl

theorem runMap (h : Ran cfg done state) (hsep : cfg.Separate)
    (hdone : ∀ m' ∈ done, m' < cfg.files.length) (hm : m < cfg.files.length) (hnew : m ∉ done) :
    Ran cfg (m :: done) (cfg.runMap state m) := by
  have hfiles := foldl_renameBucket (itoa m) (cfg.bucket m) (List.range cfg.nReduce) state.1
  rw [Config.runMap, mapTask_eq (h.read_eq hsep hdone hm hnew)]
  constructor
  · intro f hf
    rcases hfiles f with ⟨i, hi, hname, -, -⟩ | ⟨-, heq⟩
    · exact ⟨m, List.mem_cons_self, i, List.mem_range.mp hi, hname⟩
    · dsimp only at hf
      rw [heq] at hf
      rcases h.written f hf with ⟨m', hm', hname⟩
      exact ⟨m', List.mem_cons_of_mem m hm', hname⟩
  · intro m' hm' r hr hb
    dsimp only
    rcases hfiles (resultName (itoa m') r) with ⟨i, -, hname, -, heq⟩ | ⟨hother, heq⟩
    · rcases resultName_inj.mp hname with ⟨rfl, rfl⟩
      exact heq
    · rcases List.mem_cons.mp hm' with rfl | hm'
      · exact absurd (hother r (List.mem_range.mpr hr) rfl) hb
      · rw [heq]
        exact h.bucket m' hm' r hr hb
  · intro m' hm' r hr
    dsimp only
    rcases List.mem_cons.mp hm' with rfl | hm'
    · rw [Function.update_self, List.getElem?_append_left (by simpa using hr)]
      simp [hr, Config.bucketOutput]
    · have hne : m' ≠ m := fun heq => hnew (heq ▸ hm')
      rw [Function.update_of_ne hne]
      exact h.reports m' hm' r hr

theorem foldl (h : Ran cfg done state) (hsep : cfg.Separate)
    (hdone : ∀ m' ∈ done, m' < cfg.files.length) {order : List ℕ}
    (horder : ∀ m ∈ order, m < cfg.files.length) (hnodup : order.Nodup)
    (hnew : ∀ m ∈ order, m ∉ done) : ∃ done', Ran cfg done' (order.foldl cfg.runMap state) ∧
      ∀ m, m ∈ done' ↔ m ∈ order ∨ m ∈ done := by
  induction order generalizing done state with
  | nil => exact ⟨done, h, by simp⟩
  | cons m order ih =>
    have hm : m < cfg.files.length := horder m List.mem_cons_self
    rw [List.nodup_cons] at hnodup
    have hstep := h.runMap hsep hdone hm (hnew m List.mem_cons_self)
    have hdone' : ∀ m' ∈ m :: done, m' < cfg.files.length := by
      intro m' hm'
      rcases List.mem_cons.mp hm' with rfl | hm'
      · exact hm
      · exact hdone m' hm'
    have hnew' : ∀ m' ∈ order, m' ∉ m :: done := by
      intro m' hm' hmem
      rcases List.mem_cons.mp hmem with rfl | hmem
      · exact hnodup.1 hm'
      · exact hnew m' (List.mem_cons_of_mem m hm') hmem
    rcases ih hstep hdone' (fun m' hm' => horder m' (List.mem_cons_of_mem m hm')) hnodup.2
      hnew' with ⟨done', hran, hmem⟩
    refine ⟨done', hran, fun m' => ?_⟩
    rw [hmem, List.mem_cons, List.mem_cons]
    tauto

end Ran

/-- Without broken files, everything that exists is read. -/
theorem decoded_nil (files : Files) (filenames : List Text) :
    decoded files [] filenames =
      filenames.flatMap fun f => if f = [] then [] else (files f).getD [] := by
  have hgen : ∀ (k : ℕ), ((filenames.zipIdx k).filter fun f =>
      f.1 ≠ [] ∧ CanOpen files [] f.2 f.1).flatMap (fun f => (files f.1).getD []) =
      filenames.flatMap fun f => if f = [] then [] else (files f).getD [] := by
    induction filenames with
    | nil => simp
    | cons f rest ih =>
      intro k
      rw [List.zipIdx_cons, List.filter_cons, List.flatMap_cons]
      by_cases hf : f = []
      · simpa [hf] using ih (k + 1)
      · cases hfile : files f with
        | none => simpa [hf, CanOpen, hfile] using ih (k + 1)
        | some kvs => simpa [hf, CanOpen, hfile] using ih (k + 1)
  exact hgen 0

/-- The records of all maps are those of the sequential program. -/
theorem flatMap_kvs (cfg : Config) :
    (List.range cfg.files.length).flatMap cfg.kvs = cfg.intermediate := by
  have hfiles : (List.range cfg.files.length).map (fun m => cfg.files[m]?.getD []) = cfg.files := by
    refine List.ext_getElem (by simp) fun i hi _ => ?_
    simp only [List.length_map, List.length_range] at hi
    simp [hi]
  calc (List.range cfg.files.length).flatMap cfg.kvs
      = ((List.range cfg.files.length).map fun m => cfg.files[m]?.getD []).flatMap cfg.mapped := by
        rw [List.flatMap_map]
        rfl
    _ = cfg.intermediate := by rw [hfiles, Config.intermediate]

/-- The records for a reduce task are those whose key hashes to its number. -/
theorem reduceInput_eq (cfg : Config) (r : ℕ) :
    cfg.reduceInput r = cfg.intermediate.filter fun kv => ihash kv.key % cfg.nReduce = r := by
  rw [Config.reduceInput, ← flatMap_kvs, List.filter_flatMap]
  refine List.flatMap_congr fun m _ => ?_
  rw [← Config.bucket_eq]

/-- The records of the files that the map tasks have reported. -/
theorem decoded_perm {files : Files} (hfiles : ∀ m < cfg.files.length, cfg.bucket m r ≠ [] →
      ∃ kvs, files (resultName (itoa m) r) = some kvs ∧ kvs.Perm (cfg.bucket m r)) :
    (decoded files [] (cfg.reduceRequest r).filenames).Perm (cfg.reduceInput r) := by
  rw [Config.reduceInput, decoded_nil, Config.reduceRequest, List.flatMap_map]
  refine List.Perm.flatMap_left _ fun m hm => ?_
  rw [Config.bucketOutput_eq]
  by_cases hb : cfg.bucket m r = []
  · simp [hb]
  · rcases hfiles m (List.mem_range.mp hm) hb with ⟨kvs, hfile, hperm⟩
    simpa [hb, resultName_ne_nil, hfile] using hperm

/-- A reduce task reads the records that the map tasks have for it. -/
theorem distributedInput_perm (hsep : cfg.Separate) {order : List ℕ}
    (horder : order.Perm (List.range cfg.files.length)) (hr : r < cfg.nReduce) :
    (cfg.distributedInput order r).Perm (cfg.reduceInput r) := by
  have hstart : Ran cfg [] (fun _ => none, fun _ => []) :=
    ⟨by simp, by simp, by simp⟩
  have hlt : ∀ m ∈ order, m < cfg.files.length :=
    fun m hm => List.mem_range.mp (horder.mem_iff.mp hm)
  rcases hstart.foldl hsep (by simp) hlt (horder.nodup_iff.mpr List.nodup_range) (by simp) with
    ⟨done, hran, hmem⟩
  have hall : ∀ m < cfg.files.length, m ∈ done := by
    intro m hm
    rw [hmem, horder.mem_iff]
    exact Or.inl (List.mem_range.mpr hm)
  have hnames : cfg.reported order r = (cfg.reduceRequest r).filenames :=
    List.map_congr_left fun m hm => hran.reports m (hall m (List.mem_range.mp hm)) r hr
  rw [Config.distributedInput, hnames]
  apply decoded_perm
  intro m hm hb
  exact ⟨_, hran.bucket m (hall m hm) r hr hb, List.Perm.refl _⟩

end

/-! ## The two programs -/

/-- A key has a line in the output exactly if it has a record in the input. -/
theorem mem_reduceLoop_keys {reducef : Text → List Text → Text} {kvs sorted : List KeyValue}
    (h : Sorts kvs sorted) (key : Text) :
    key ∈ (reduceLoop reducef sorted).map Line.key ↔ key ∈ kvs.map KeyValue.key := by
  have hkeys : ((reduceLoop reducef sorted).map Line.key).Perm (sorted.map KeyValue.key).dedup :=
    map_groupRuns_perm (fun _ _ => rfl) h.1
  rw [hkeys.mem_iff, List.mem_dedup]
  exact (h.2.map KeyValue.key).mem_iff

section

variable {cfg : Config} {sorted : ℕ → List KeyValue} {all : List KeyValue}

/-- The lines of all reduce tasks together are those of the sequential program. -/
theorem Config.OrderFree.reduceLoop_perm (h : cfg.OrderFree) (hn : 1 ≤ cfg.nReduce)
    (hsorted : ∀ r < cfg.nReduce, Sorts (cfg.reduceInput r) (sorted r))
    (hall : Sorts cfg.intermediate all) :
    ((List.range cfg.nReduce).flatMap fun r => reduceLoop cfg.reducef (sorted r)).Perm
      (reduceLoop cfg.reducef all) := by
  have hvalues : ∀ key vs vs', vs.Perm vs' →
      Line.mk key (cfg.reducef key vs) = ⟨key, cfg.reducef key vs'⟩ := by
    intro key vs vs' hp
    rw [h key vs vs' hp]
  refine groupRuns_buckets hvalues (fun key => Nat.mod_lt (ihash key) hn) ?_ hall.1 hall.2
  intro r hr
  have hs := hsorted r hr
  rw [reduceInput_eq] at hs
  exact hs

/-- A key has a line in the output of one reduce task. -/
theorem existsUnique_reduceLoop (hn : 1 ≤ cfg.nReduce)
    (hsorted : ∀ r < cfg.nReduce, Sorts (cfg.reduceInput r) (sorted r)) {key : Text}
    (hkey : key ∈ cfg.intermediate.map KeyValue.key) :
    ∃! r, r < cfg.nReduce ∧ key ∈ (reduceLoop cfg.reducef (sorted r)).map Line.key := by
  have hhash : ∀ key : Text, ihash key % cfg.nReduce < cfg.nReduce :=
    fun key => Nat.mod_lt _ hn
  rcases List.mem_map.mp hkey with ⟨kv, hkv, rfl⟩
  refine ⟨ihash kv.key % cfg.nReduce, ⟨hhash _, ?_⟩, ?_⟩
  · rw [mem_reduceLoop_keys (hsorted _ (hhash _)), reduceInput_eq]
    exact List.mem_map.mpr ⟨kv, by simp [hkv], rfl⟩
  · -- a key with a line in `mr-out-r` hashes to `r`
    rintro r ⟨hr, hmem⟩
    rw [mem_reduceLoop_keys (hsorted r hr), reduceInput_eq] at hmem
    rcases List.mem_map.mp hmem with ⟨kv', hkv', heq⟩
    have hb := (List.mem_filter.mp hkv').2
    rw [heq] at hb
    exact (of_decide_eq_true hb).symm

end

/-- **The distributed result equals the sequential one.** Let no input file be one that
another map task writes. For a reduce function that does not look at the order of the values,
the lines of all output files together are, as a multiset, those of the sequential program,
in whatever order the map tasks run and whatever sorted permutations the sorts return; and
every key of the input is in exactly one output file. -/
theorem distributed_eq_sequential (cfg : Config) (hn : 1 ≤ cfg.nReduce) (hsep : cfg.Separate)
    (hreduce : ∀ key values values', values.Perm values' →
      cfg.reducef key values = cfg.reducef key values')
    (order : List ℕ) (horder : order.Perm (List.range cfg.files.length))
    (sorted : ℕ → List KeyValue)
    (hsorted : ∀ r < cfg.nReduce, Sorts (cfg.distributedInput order r) (sorted r))
    (all : List KeyValue) (hall : Sorts cfg.intermediate all) :
    ((List.range cfg.nReduce).flatMap fun r =>
        (reduceLoop cfg.reducef (sorted r)).map Line.text).Perm
      ((reduceLoop cfg.reducef all).map Line.text) ∧
    ∀ key ∈ cfg.intermediate.map KeyValue.key, ∃! r, r < cfg.nReduce ∧
      key ∈ (reduceLoop cfg.reducef (sorted r)).map Line.key := by
  have hinput : ∀ r < cfg.nReduce, Sorts (cfg.reduceInput r) (sorted r) := by
    intro r hr
    exact (hsorted r hr).of_perm (distributedInput_perm hsep horder hr)
  constructor
  · have hlines := (Config.OrderFree.reduceLoop_perm hreduce hn hinput hall).map Line.text
    rwa [List.map_flatMap] at hlines
  · intro key hkey
    exact existsUnique_reduceLoop hn hinput hkey

/-- Two files, `aba` and `bc`, whose letters are counted in two buckets. -/
def letterCount : Config where
  files := [['x'], ['y']]
  contents name := if name = ['x'] then [97, 98, 97] else [98, 99]
  mapf _ content := content.map fun b => ⟨[Char.ofNat b.toNat], ['1']⟩
  reducef _ values := itoa values.length
  nReduce := 2

theorem distributed_eq_sequential_letterCount :
    ([['a', ' ', '2', '\n'], ['c', ' ', '1', '\n'], ['b', ' ', '2', '\n']] : List Text).Perm
      [['a', ' ', '2', '\n'], ['b', ' ', '2', '\n'], ['c', ' ', '1', '\n']] :=
  (distributed_eq_sequential letterCount (by decide) (by decide)
    (fun _ _ _ hp => congrArg itoa hp.length_eq) [1, 0] (by decide)
    (fun r => if r = 0 then [⟨['a'], ['1']⟩, ⟨['a'], ['1']⟩, ⟨['c'], ['1']⟩]
      else [⟨['b'], ['1']⟩, ⟨['b'], ['1']⟩])
    (by decide)
    [⟨['a'], ['1']⟩, ⟨['a'], ['1']⟩, ⟨['b'], ['1']⟩, ⟨['b'], ['1']⟩, ⟨['c'], ['1']⟩]
    (by decide)).1

/-- The files `x` and `mr-0-0`, in which the letter `a` is counted. -/
def ownInput : Config where
  files := [['x'], ['m', 'r', '-', '0', '-', '0']]
  contents name := if name = ['x'] then [97] else [98]
  mapf _ content := (content.filter (· = 97)).map fun _ => ⟨['a'], ['1']⟩
  reducef _ values := itoa values.length
  nReduce := 1

/-- Map task 0 writes its bucket over the input of map task 1, which then counts the letters
`a` of the encoded record. -/
theorem input_overwritten :
    let sorted : List KeyValue := [⟨['a'], ['1']⟩, ⟨['a'], ['1']⟩, ⟨['a'], ['1']⟩]
    let all : List KeyValue := [⟨['a'], ['1']⟩]
    (∀ key values values', values.Perm values' →
      ownInput.reducef key values = ownInput.reducef key values') ∧
    [0, 1].Perm (List.range ownInput.files.length) ∧
    (∀ r < ownInput.nReduce, Sorts (ownInput.distributedInput [0, 1] r) sorted) ∧
    Sorts ownInput.intermediate all ∧
    (reduceLoop ownInput.reducef sorted).map Line.text = [['a', ' ', '3', '\n']] ∧
    (reduceLoop ownInput.reducef all).map Line.text = [['a', ' ', '1', '\n']] ∧
    ¬ ((List.range ownInput.nReduce).flatMap fun _ =>
        (reduceLoop ownInput.reducef sorted).map Line.text).Perm
      ((reduceLoop ownInput.reducef all).map Line.text) := by
  refine ⟨fun _ _ _ hp => congrArg itoa hp.length_eq, ?_⟩
  decide +kernel

end DistStudy.MapReduce
