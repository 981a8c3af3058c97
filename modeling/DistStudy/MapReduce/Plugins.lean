import DistStudy.MapReduce.WholeJob

/-!
# The plugins of `mrapps`

The plugins `wc`, `indexer` and `crash` have reduce functions that do not look at the order
of the values, so that a job which runs one of them ends with `Config.result` in its output
files. This is the number of occurrences of every word, the sorted list of the documents of
every word, and four lines about the names and the lengths of the files.

What Go's libraries do with a string is a parameter (`Unicode`). The indexer walks over a Go
map, in another order each time it runs; its map function here has one of the orders, and the
workers may write a bucket in any.
-/

namespace DistStudy.MapReduce

/-! ## Strings -/

/-- The runes of a string that is given by its bytes, and `unicode.IsLetter`. -/
structure Unicode where
  runes : Bytes → Text
  isLetter : Char → Bool

/-- The rest of `strings.FieldsFunc`, when `field` is the open field. -/
def fieldsFrom (f : Char → Bool) : Text → Text → List Text
  | field, [] => if field = [] then [] else [field]
  | field, c :: rest =>
    if f c then
      if field = [] then fieldsFrom f [] rest else field :: fieldsFrom f [] rest
    else fieldsFrom f (field ++ [c]) rest

/-- `strings.FieldsFunc`: the pieces between the runes that meet `f`. -/
def fieldsFunc (f : Char → Bool) (s : Text) : List Text := fieldsFrom f [] s

/-- The words of a file. -/
def Unicode.words (u : Unicode) (content : Bytes) : List Text :=
  fieldsFunc (fun r => !u.isLetter r) (u.runes content)

/-- `sort.Strings`. -/
def sortStrings (values : List Text) : List Text := values.insertionSort (· ≤ ·)

/-- `strings.Join`. -/
def join (values : List Text) (sep : Text) : Text := sep.intercalate values

theorem sortStrings_perm {values values' : List Text} (h : values.Perm values') :
    sortStrings values = sortStrings values' := by
  apply List.Perm.eq_of_pairwise' (r := (· ≤ ·))
  · exact List.pairwise_insertionSort _ _
  · exact List.pairwise_insertionSort _ _
  · exact (List.perm_insertionSort _ _).trans (h.trans (List.perm_insertionSort _ _).symm)

/-! ## The plugins -/

/-- What a plugin exports. -/
structure Plugin where
  mapf : Text → Bytes → List KeyValue
  reducef : Text → List Text → Text

/-- A job that runs the plugin. -/
def Plugin.on (plugin : Plugin) (files : List Text) (contents : Text → Bytes) (nReduce : ℕ)
    (entry : Text → Text) : Config :=
  { files, contents, nReduce, entry, mapf := plugin.mapf, reducef := plugin.reducef }

/-- `wc.go`. -/
def wc (u : Unicode) : Plugin where
  mapf _ contents := (u.words contents).map fun w => ⟨w, ['1']⟩
  reducef _ values := itoa values.length

/-- `indexer.go`. -/
def indexer (u : Unicode) : Plugin where
  mapf document value := (u.words value).dedup.map fun w => ⟨w, document⟩
  reducef _ values := itoa values.length ++ [' '] ++ join (sortStrings values) [',']

/-- `crash.go` and `nocrash.go`; crashes are events of the worker. -/
def crash : Plugin where
  mapf filename contents :=
    [⟨['a'], filename⟩, ⟨['b'], itoa (utf8 filename).length⟩, ⟨['c'], itoa contents.length⟩,
      ⟨['d'], ['x', 'y', 'z', 'z', 'y']⟩]
  reducef _ values := join (sortStrings values) [' ']

section

variable (u : Unicode) (files : List Text) (content : Text → Bytes) (nReduce : ℕ)
  (entry : Text → Text)

/-- The words of all files. -/
def Unicode.allWords : List Text := files.flatMap fun f => u.words (content f)

/-- The files with the word `w`. -/
def Unicode.documentsOf (w : Text) : List Text := files.filter fun f => w ∈ u.words (content f)

theorem wc_orderFree : ((wc u).on files content nReduce entry).OrderFree := by
  intro _ values values' hp
  exact congrArg itoa hp.length_eq

theorem indexer_orderFree : ((indexer u).on files content nReduce entry).OrderFree := by
  intro _ values values' hp
  simp only [Plugin.on, indexer, hp.length_eq, sortStrings_perm hp]

theorem crash_orderFree : (crash.on files content nReduce entry).OrderFree := by
  intro _ values values' hp
  simp only [Plugin.on, crash, sortStrings_perm hp]

/-- The values of a word in a list in which every word has the same value. -/
theorem valuesAt_pairs (w value : Text) (ws : List Text) :
    valuesAt KeyValue.key KeyValue.value w (ws.map fun w => ⟨w, value⟩) =
      List.replicate (ws.count w) value := by
  apply valuesAt_map
  · intro w
    rfl
  · intro w
    rfl

/-- `wc` counts the occurrences of every word. -/
theorem wc_result :
    ((wc u).on files content nReduce entry).result =
      (u.allWords files content).dedup.map fun w =>
        ⟨w, itoa ((u.allWords files content).count w)⟩ := by
  have hrecords : ((wc u).on files content nReduce entry).intermediate =
      (u.allWords files content).map fun w => ⟨w, ['1']⟩ := by
    rw [Unicode.allWords, List.map_flatMap]
    rfl
  rw [Config.result, hrecords, List.map_map]
  have hkeys : (u.allWords files content).map (KeyValue.key ∘ fun w => ⟨w, ['1']⟩) =
      u.allWords files content := List.map_id _
  rw [hkeys]
  apply List.map_congr_left
  intro w _
  rw [Config.lineOf, hrecords, valuesAt_pairs]
  simp only [Plugin.on, wc, List.length_replicate]

/-- The values that the indexer has for a word are the files with the word. -/
theorem valuesAt_indexer (w : Text) :
    valuesAt KeyValue.key KeyValue.value w
        ((indexer u).on files content nReduce entry).intermediate =
      u.documentsOf files content w := by
  -- a file has one record of each of its words
  have hone : ∀ document ws, valuesAt KeyValue.key KeyValue.value w
      ((List.dedup ws).map fun w => KeyValue.mk w document) =
      if w ∈ ws then [document] else [] := by
    intro document ws
    rw [valuesAt_pairs, (List.nodup_dedup ws).count]
    simp only [List.mem_dedup]
    split_ifs <;> rfl
  calc valuesAt KeyValue.key KeyValue.value w
        ((indexer u).on files content nReduce entry).intermediate
      = files.flatMap fun f => if w ∈ u.words (content f) then [f] else [] := by
        rw [Config.intermediate, valuesAt_flatMap]
        exact List.flatMap_congr fun f _ => hone f _
    _ = u.documentsOf files content w := by
        rw [Unicode.documentsOf]
        induction files with
        | nil => rfl
        | cons f rest ih =>
          rw [List.flatMap_cons, List.filter_cons, ih]
          by_cases hw : w ∈ u.words (content f) <;> simp [hw]

/-- The indexer lists for every word the files that hold it. -/
theorem indexer_result :
    ((indexer u).on files content nReduce entry).result.Perm
      ((u.allWords files content).dedup.map fun w =>
        ⟨w, itoa (u.documentsOf files content w).length ++ [' '] ++
          join (sortStrings (u.documentsOf files content w)) [',']⟩) := by
  have hkeys : (((indexer u).on files content nReduce entry).intermediate.map
      KeyValue.key).dedup.Perm (u.allWords files content).dedup := by
    rw [List.perm_ext_iff_of_nodup (List.nodup_dedup _) (List.nodup_dedup _)]
    intro w
    simp only [List.mem_dedup, Unicode.allWords, List.mem_flatMap, Config.intermediate,
      List.map_flatMap, Config.mapped, Plugin.on, indexer, List.map_map]
    refine exists_congr fun f => and_congr_right fun _ => ?_
    have hid : ((u.words (content f)).dedup.map (KeyValue.key ∘ fun w => ⟨w, f⟩)) =
        (u.words (content f)).dedup := List.map_id _
    rw [hid, List.mem_dedup]
  refine List.Perm.trans (List.Perm.of_eq ?_) (hkeys.map _)
  apply List.map_congr_left
  intro w _
  rw [Config.lineOf, valuesAt_indexer]
  rfl

/-- The lines of `crash` for some files. -/
theorem crash_result (hfiles : files ≠ []) :
    (crash.on files content nReduce entry).result.Perm
      [⟨['a'], join (sortStrings files) [' ']⟩,
       ⟨['b'], join (sortStrings (files.map fun f => itoa (utf8 f).length)) [' ']⟩,
       ⟨['c'], join (sortStrings (files.map fun f => itoa (content f).length)) [' ']⟩,
       ⟨['d'], join (sortStrings (files.map fun _ => ['x', 'y', 'z', 'z', 'y'])) [' ']⟩] := by
  have hkeys : ((crash.on files content nReduce entry).intermediate.map KeyValue.key).dedup.Perm
      [['a'], ['b'], ['c'], ['d']] := by
    rw [List.perm_ext_iff_of_nodup (List.nodup_dedup _) (by decide)]
    intro key
    rcases List.exists_mem_of_ne_nil files hfiles with ⟨f, hf⟩
    simp only [List.mem_dedup, Config.intermediate, List.map_flatMap, Config.mapped, Plugin.on,
      crash, List.mem_flatMap, List.map_cons, List.map_nil]
    constructor
    · rintro ⟨_, _, hkey⟩
      exact hkey
    · intro hkey
      exact ⟨f, hf, hkey⟩
  have hvalues : ∀ (key : Text) (value : Text → Text),
      (∀ f, valuesAt KeyValue.key KeyValue.value key (crash.mapf f (content f)) = [value f]) →
      (crash.on files content nReduce entry).lineOf key =
        ⟨key, join (sortStrings (files.map value)) [' ']⟩ := by
    intro key value h
    have heq : valuesAt KeyValue.key KeyValue.value key
        (crash.on files content nReduce entry).intermediate = files.map value := by
      rw [Config.intermediate, valuesAt_flatMap, ← List.flatMap_pure_eq_map]
      exact List.flatMap_congr fun f _ => h f
    rw [Config.lineOf, heq]
    rfl
  have ha := hvalues ['a'] id fun _ => rfl
  rw [List.map_id] at ha
  refine (hkeys.map (crash.on files content nReduce entry).lineOf).trans (List.Perm.of_eq ?_)
  simp only [List.map_cons, List.map_nil, ha, hvalues ['b'] (fun f => itoa (utf8 f).length)
    (fun _ => rfl), hvalues ['c'] (fun f => itoa (content f).length) (fun _ => rfl),
    hvalues ['d'] (fun _ => ['x', 'y', 'z', 'z', 'y']) (fun _ => rfl)]

/-! ## Jobs that run them -/

variable {u files content nReduce entry} {content' : Text → Bytes} {e : Behavior World}

theorem allWords_congr (h : ∀ f ∈ files, content f = content' f) :
    u.allWords files content = u.allWords files content' := by
  refine List.flatMap_congr fun f hf => ?_
  rw [h f hf]

theorem documentsOf_congr (h : ∀ f ∈ files, content f = content' f) (w : Text) :
    u.documentsOf files content w = u.documentsOf files content' w := by
  refine List.filter_congr fun f hf => ?_
  rw [h f hf]

/-- When a `wc` job is over, the output files hold one line for every word of the input, with
the number of its occurrences in all files. -/
theorem wc_whole_job (hn : 1 ≤ nReduce) (hcfg : nReduce ≤ 10)
    (hapart : ((wc u).on files content nReduce entry).InputsApart)
    (h : Run ((wc u).on files content nReduce entry)
      (fun w event => opensFiles w event ∧ createsAlone w event) e) (k : ℕ)
    (hopen : (e k).doneCh = .opened) (hclosed : (e (k + 1)).doneCh = .closed) :
    ∃ lines : ℕ → List Line,
      (∀ r < nReduce, (e (k + 1)).outputs (outName (itoa r)) =
        some (contents (lines r))) ∧
      ∀ i, let input := (e i).input ((wc u).on files content nReduce entry)
        ((List.range nReduce).flatMap lines).Perm
          ((u.allWords files input).dedup.map fun w =>
            ⟨w, itoa ((u.allWords files input).count w)⟩) := by
  rcases h.result_of_closed hn hcfg (wc_orderFree u files content nReduce entry) hopen hclosed with
    ⟨lines, hfiles, hlines⟩
  refine ⟨lines, hfiles, fun i => ?_⟩
  have hinput : ∀ f ∈ files, (e i).input ((wc u).on files content nReduce entry) f = content f :=
    fun f hf => h.input_eq hcfg hapart i hf
  rw [wc_result] at hlines
  dsimp only
  rw [allWords_congr hinput]
  exact hlines

/-- When an indexer job is over, the output files hold one line for every word of the input,
with the number and the sorted list of the files that hold it. -/
theorem indexer_whole_job (hn : 1 ≤ nReduce) (hcfg : nReduce ≤ 10)
    (hapart : ((indexer u).on files content nReduce entry).InputsApart)
    (h : Run ((indexer u).on files content nReduce entry)
      (fun w event => opensFiles w event ∧ createsAlone w event) e) (k : ℕ)
    (hopen : (e k).doneCh = .opened) (hclosed : (e (k + 1)).doneCh = .closed) :
    ∃ lines : ℕ → List Line,
      (∀ r < nReduce, (e (k + 1)).outputs (outName (itoa r)) =
        some (contents (lines r))) ∧
      ∀ i, let input := (e i).input ((indexer u).on files content nReduce entry)
        ((List.range nReduce).flatMap lines).Perm
          ((u.allWords files input).dedup.map fun w =>
            ⟨w, itoa (u.documentsOf files input w).length ++ [' '] ++
              join (sortStrings (u.documentsOf files input w)) [',']⟩) := by
  rcases h.result_of_closed hn hcfg (indexer_orderFree u files content nReduce entry) hopen
    hclosed with ⟨lines, hfiles, hlines⟩
  refine ⟨lines, hfiles, fun i => ?_⟩
  have hinput : ∀ f ∈ files, (e i).input ((indexer u).on files content nReduce entry) f =
      content f := fun f hf => h.input_eq hcfg hapart i hf
  dsimp only
  simp only [allWords_congr hinput, documentsOf_congr hinput]
  exact hlines.trans (indexer_result u files content nReduce entry)

/-- When a `crash` job is over, whatever its workers did, the output files hold four lines
about the names and the lengths of the input files. -/
theorem crash_whole_job (hfiles : files ≠ []) (hn : 1 ≤ nReduce) (hcfg : nReduce ≤ 10)
    (hapart : (crash.on files content nReduce entry).InputsApart)
    (h : Run (crash.on files content nReduce entry)
      (fun w event => opensFiles w event ∧ createsAlone w event) e) (k : ℕ)
    (hopen : (e k).doneCh = .opened) (hclosed : (e (k + 1)).doneCh = .closed) :
    ∃ lines : ℕ → List Line,
      (∀ r < nReduce, (e (k + 1)).outputs (outName (itoa r)) =
        some (contents (lines r))) ∧
      ∀ i, let input := (e i).input (crash.on files content nReduce entry)
        ((List.range nReduce).flatMap lines).Perm
          [⟨['a'], join (sortStrings files) [' ']⟩,
           ⟨['b'], join (sortStrings (files.map fun f => itoa (utf8 f).length)) [' ']⟩,
           ⟨['c'], join (sortStrings (files.map fun f => itoa (input f).length)) [' ']⟩,
           ⟨['d'], join (sortStrings (files.map fun _ => ['x', 'y', 'z', 'z', 'y'])) [' ']⟩] := by
  rcases h.result_of_closed hn hcfg (crash_orderFree files content nReduce entry) hopen
    hclosed with ⟨lines, houtputs, hlines⟩
  refine ⟨lines, houtputs, fun i => ?_⟩
  have hlengths : (files.map fun f =>
      itoa ((e i).input (crash.on files content nReduce entry) f).length) =
      files.map fun f => itoa (content f).length := by
    refine List.map_congr_left fun f hf => ?_
    rw [h.input_eq hcfg hapart i hf]
    rfl
  dsimp only
  rw [hlengths]
  exact hlines.trans (crash_result files content nReduce entry hfiles)

end

/-- Bytes are runes, as in an ASCII file. -/
def ascii : Unicode where
  runes content := content.map fun b => Char.ofNat b.toNat
  isLetter := Char.isAlpha

/-- The words `a`, `bc` and `a`. -/
example : ascii.words [97, 32, 98, 99, 46, 97] = [['a'], ['b', 'c'], ['a']] := by decide

/-- The file `x` holds the word `a` twice. -/
def wcJob : Config := (wc ascii).on [['x']] (fun _ => [97, 32, 97]) 1 id

def indexerJob : Config := (indexer ascii).on [['x']] (fun _ => [97, 32, 97]) 1 id

def crashJob : Config := crash.on [['x']] (fun _ => [97, 32, 97]) 1 id

/-- A job of one map task and one reduce task, whose records are `kvs`. A worker crashes with
the map task, which is then retried. -/
def fromStartToEnd (kvs : List KeyValue) (keys : ℕ) : List Event :=
  [.depsDone 0, .depsDone 1, .send 0, .store 0, .send 0, .store 0, .getTask, .receive,
    .rename 0 kvs, .crash 0, .timeout 0, .depsDone 2, .send 2, .store 2, .getTask, .receive,
    .receive, .rename 0 kvs, .report 0, .report 0, .finish 0, .close 0, .finish 0, .close 0,
    .getTask, .depsDone 0, .send 0, .store 0, .receive, .openFiles 0 [], .create 0 kvs] ++
  List.replicate keys (.write 0) ++
  [.report 0, .finish 0, .close 0, .depsDone 0, .send 0, .store 0, .getTask, .receive]

theorem wc_whole_job_wcJob :
    ∃ lines : ℕ → List Line,
      (∀ r < 1, (play (World.step wcJob) (World.init wcJob)
        ((fromStartToEnd [⟨['a'], ['1']⟩, ⟨['a'], ['1']⟩] 1).take 40)).outputs (outName (itoa r)) =
          some (contents (lines r))) ∧
      ((List.range 1).flatMap lines).Perm [⟨['a'], ['2']⟩] := by
  have hrun : Run wcJob (fun w event => opensFiles w event ∧ createsAlone w event)
      fun k => play (World.step wcJob) (World.init wcJob)
        ((fromStartToEnd [⟨['a'], ['1']⟩, ⟨['a'], ['1']⟩] 1).take k) :=
    Runs.play (by decide +kernel)
  rcases wc_whole_job (by decide) (by decide) (by decide) hrun 39 (by decide +kernel)
    (by decide +kernel) with ⟨lines, houtputs, hlines⟩
  simp only [Nat.reduceAdd] at houtputs
  exact ⟨lines, houtputs, hlines 0⟩

theorem indexer_whole_job_indexerJob :
    ∃ lines : ℕ → List Line,
      (∀ r < 1, (play (World.step indexerJob) (World.init indexerJob)
        ((fromStartToEnd [⟨['a'], ['x']⟩] 1).take 40)).outputs (outName (itoa r)) =
          some (contents (lines r))) ∧
      ((List.range 1).flatMap lines).Perm [⟨['a'], ['1', ' ', 'x']⟩] := by
  have hrun : Run indexerJob (fun w event => opensFiles w event ∧ createsAlone w event)
      fun k => play (World.step indexerJob) (World.init indexerJob)
        ((fromStartToEnd [⟨['a'], ['x']⟩] 1).take k) :=
    Runs.play (by decide +kernel)
  rcases indexer_whole_job (by decide) (by decide) (by decide) hrun 39 (by decide +kernel)
    (by decide +kernel) with ⟨lines, houtputs, hlines⟩
  simp only [Nat.reduceAdd] at houtputs
  exact ⟨lines, houtputs, hlines 0⟩

theorem crash_whole_job_crashJob :
    ∃ lines : ℕ → List Line,
      (∀ r < 1, (play (World.step crashJob) (World.init crashJob)
        ((fromStartToEnd (crashJob.bucket 0 0) 4).take 43)).outputs (outName (itoa r)) =
          some (contents (lines r))) ∧
      ((List.range 1).flatMap lines).Perm
        [⟨['a'], ['x']⟩, ⟨['b'], ['1']⟩, ⟨['c'], ['3']⟩, ⟨['d'], ['x', 'y', 'z', 'z', 'y']⟩] := by
  have hrun : Run crashJob (fun w event => opensFiles w event ∧ createsAlone w event)
      fun k => play (World.step crashJob) (World.init crashJob)
        ((fromStartToEnd (crashJob.bucket 0 0) 4).take k) :=
    Runs.play (by decide +kernel)
  rcases crash_whole_job (by decide) (by decide) (by decide) (by decide) hrun 42
    (by decide +kernel) (by decide +kernel) with ⟨lines, houtputs, hlines⟩
  simp only [Nat.reduceAdd] at houtputs
  exact ⟨lines, houtputs, hlines 0⟩

end DistStudy.MapReduce
