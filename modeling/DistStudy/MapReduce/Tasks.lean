import DistStudy.Lib.Grouping
import DistStudy.MapReduce.Records
import Mathlib.Data.Char
import Mathlib.Data.List.Lex
import Mathlib.Data.List.Sort
import Mathlib.Order.Lattice

/-!
# What workers compute: `mr/worker.go` and `main/mrsequential.go`

The map and the reduce function are those of the loaded plugin, the input files are
given by their names and their contents before the job. An intermediate file is the list of
records that was encoded into it, and decodes to the same list.

Map tasks read and write in one working directory. An input file that is itself called
`mr-m-r` is overwritten by map task `m`; whoever opens it then reads what was encoded into
it (`Config.read`).

`sort.Sort` may return any sorted permutation, so the sorted list is a parameter of
whatever comes after it. Strings are compared byte by byte, which for UTF-8 is the
lexicographic order of the characters.
-/

namespace DistStudy.MapReduce

/-- The parameters of one MapReduce job. -/
structure Config where
  /-- The input files, whose positions are the map numbers. -/
  files : List Text
  /-- What the input files hold before the job. -/
  contents : Text → Bytes
  mapf : Text → Bytes → List KeyValue
  reducef : Text → List Text → Text
  nReduce : ℕ
  /-- The capacity of the job channel. -/
  size : ℕ := 1000
  /-- The entry of the working directory that a path leads to: `mr-0-0` for `./mr-0-0`. -/
  entry : Text → Text := id

/-- The intermediate files, by their names. -/
abbrev Files : Type := Text → Option (List KeyValue)

/-! ## Buckets -/

/-- The sum of `fnv.New32a`. -/
def fnv32a (bytes : Bytes) : UInt32 :=
  bytes.foldl (fun h b => (h ^^^ b.toUInt32) * 16777619) 2166136261

def ihash (key : Text) : ℕ := (fnv32a (utf8 key) &&& 0x7fffffff).toNat

/-- The loop of `mapTask` that distributes the records; a number that is not in the Go
map has no records. -/
def groupedKv (nReduce : ℕ) (kvs : List KeyValue) : ℕ → List KeyValue :=
  kvs.foldl
    (fun grouped kv =>
      let reduceTaskNumber := ihash kv.key % nReduce
      Function.update grouped reduceTaskNumber (grouped reduceTaskNumber ++ [kv]))
    fun _ => []

/-- A bucket holds the records whose key hashes to its number, in their order. -/
theorem groupedKv_eq (nReduce : ℕ) (kvs : List KeyValue) (i : ℕ) :
    groupedKv nReduce kvs i = kvs.filter fun kv => ihash kv.key % nReduce = i := by
  -- the loop adds to what the buckets already hold
  have hloop : ∀ (kvs : List KeyValue) (grouped : ℕ → List KeyValue),
      (kvs.foldl (fun grouped kv => Function.update grouped (ihash kv.key % nReduce)
        (grouped (ihash kv.key % nReduce) ++ [kv])) grouped) i =
      grouped i ++ kvs.filter fun kv => ihash kv.key % nReduce = i := by
    intro kvs
    induction kvs with
    | nil => simp
    | cons kv rest ih =>
      intro grouped
      rw [List.foldl_cons, ih]
      by_cases hi : ihash kv.key % nReduce = i
      · subst hi
        simp
      · simp [hi, Function.update_of_ne (Ne.symm hi)]
  simpa [groupedKv] using hloop kvs fun _ => []

/-! ## Map tasks -/

/-- What a map task reports for its bucket `i`: a bucket without records has no file. -/
def bucketReport (n : Text) (bucket : List KeyValue) (i : ℕ) : SuccessReport :=
  { outputFilename := if bucket = [] then [] else resultName n i
    tasktype := .pseudo
    key := bucketKey n i }

def mapReport (n : Text) : SuccessReport :=
  { outputFilename := [], tasktype := .map, key := n }

/-- Write bucket `i`: the temporary file is renamed, so the file is complete at once. -/
def renameBucket (n : Text) (bucket : List KeyValue) (i : ℕ) (files : Files) : Files :=
  if bucket = [] then files else Function.update files (resultName n i) (some bucket)

namespace Config

variable (cfg : Config)

/-- The records that the map function makes of a file. -/
def mapped (filename : Text) : List KeyValue := cfg.mapf filename (cfg.contents filename)

/-- The records of map task `m`. -/
def kvs (m : ℕ) : List KeyValue := cfg.mapped (cfg.files[m]?.getD [])

/-- The records that map task `m` has for reduce task `r`. -/
def bucket (m r : ℕ) : List KeyValue := groupedKv cfg.nReduce (cfg.kvs m) r

/-- The file of bucket `(m, r)`, the empty name for a bucket without records. -/
def bucketOutput (m r : ℕ) : Text := (bucketReport (itoa m) (cfg.bucket m r) r).outputFilename

theorem bucket_eq (m r : ℕ) :
    cfg.bucket m r = (cfg.kvs m).filter fun kv => ihash kv.key % cfg.nReduce = r :=
  groupedKv_eq _ _ _

theorem bucketOutput_eq (m r : ℕ) :
    cfg.bucketOutput m r = if cfg.bucket m r = [] then [] else resultName (itoa m) r := rfl

/-- The records of bucket `i` of a map task. -/
def bucketOf (task : TaskRequest) (i : ℕ) : List KeyValue :=
  groupedKv task.nReduce (cfg.mapped (task.filenames.headD [])) i

/-- What a worker finds in an input file when map tasks have written `files`. -/
def read (files : Files) (filename : Text) : Bytes :=
  match files (cfg.entry filename) with
  | some kvs => utf8 (jsonCodec.encodeAll kvs)
  | none => cfg.contents filename

/-- The whole of `mapTask`: the files it leaves and the reports it sends. -/
def mapTask (task : TaskRequest) (files : Files) : Files × List SuccessReport :=
  let filename := task.filenames.headD []
  let n := task.key
  let bucket := groupedKv task.nReduce (cfg.mapf filename (cfg.read files filename))
  ((List.range task.nReduce).foldl (fun files i => renameBucket n (bucket i) i files) files,
    (List.range task.nReduce).map (fun i => bucketReport n (bucket i) i) ++ [mapReport n])

end Config

/-! ## Reduce tasks -/

/-- The file at position `idx` can be opened: it exists and is not among the broken ones. -/
def CanOpen (files : Files) (broken : List ℕ) (idx : ℕ) (filename : Text) : Prop :=
  idx ∉ broken ∧ (files filename).isSome

instance (files : Files) (broken : List ℕ) (idx : ℕ) (filename : Text) :
    Decidable (CanOpen files broken idx filename) :=
  inferInstanceAs (Decidable (_ ∧ _))

/-- The positions of the files that `reduceTask` cannot open. -/
def corruptMapWorkers (files : Files) (broken : List ℕ) (filenames : List Text) : List ℕ :=
  (filenames.zipIdx.filter fun f => f.1 ≠ [] ∧ ¬ CanOpen files broken f.2 f.1).map Prod.snd

/-- The records of the files that `reduceTask` can open, in the order of the files. -/
def decoded (files : Files) (broken : List ℕ) (filenames : List Text) : List KeyValue :=
  (filenames.zipIdx.filter fun f => f.1 ≠ [] ∧ CanOpen files broken f.2 f.1).flatMap
    fun f => (files f.1).getD []

/-- One line of an output file. -/
structure Line where
  key : Text
  output : Text
  deriving DecidableEq, Repr

/-- `fmt.Fprintf(ofile, "%v %v\n", key, output)`. -/
def Line.text (l : Line) : Text := l.key ++ [' '] ++ l.output ++ ['\n']

/-- The loop over the sorted records, in `reduceTask` as in `mrsequential`: the records
from `i` to `j` have one key, and their values go to the reduce function. -/
def reduceLoop (reducef : Text → List Text → Text) (kvs : List KeyValue) : List Line :=
  groupRuns KeyValue.key KeyValue.value (fun key values => ⟨key, reducef key values⟩) kvs

/-- A result of `sort.Sort(ByKey(kvs))`. -/
def Sorts (kvs sorted : List KeyValue) : Prop :=
  SortedBy KeyValue.key sorted ∧ sorted.Perm kvs

instance (kvs sorted : List KeyValue) : Decidable (Sorts kvs sorted) :=
  inferInstanceAs (Decidable (SortedBy KeyValue.key sorted ∧ sorted.Perm kvs))

/-- One of the results. -/
def sortByKey (kvs : List KeyValue) : List KeyValue :=
  kvs.insertionSort fun x y => x.key ≤ y.key

theorem sorts_sortByKey (kvs : List KeyValue) : Sorts kvs (sortByKey kvs) := by
  have htrans : IsTrans KeyValue fun x y => x.key ≤ y.key := ⟨fun _ _ _ => le_trans⟩
  have htotal : Std.Total fun x y : KeyValue => x.key ≤ y.key := ⟨fun _ _ => le_total _ _⟩
  exact ⟨List.pairwise_insertionSort _ kvs, List.perm_insertionSort _ kvs⟩

/-- What is sorted may be given in any order. -/
theorem Sorts.of_perm {kvs kvs' sorted : List KeyValue} (h : Sorts kvs sorted)
    (hp : kvs.Perm kvs') : Sorts kvs' sorted := ⟨h.1, h.2.trans hp⟩

def reduceReport (key : Text) : SuccessReport :=
  { outputFilename := [], tasktype := .reduce, key := key }

/-! ## The sequential program -/

/-- All records, in the order in which `mrsequential` collects them. -/
def Config.intermediate (cfg : Config) : List KeyValue := cfg.files.flatMap cfg.mapped

end DistStudy.MapReduce
