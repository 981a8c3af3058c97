import DistStudy.Porcupine.Entries
import DistStudy.Porcupine.ParallelRuns
import Mathlib.Data.List.Sort

/-!
# Checking a key/value store

`checkOperations` and `checkEvents` partition a history and check the partitions. The model
`KvModel` of `models/kv.go` is that of a single key; it partitions a history by the keys.

`checkKv_correct` is about the whole store: the check of a history of gets, puts and appends
on many keys answers whether some order of all the operations explains them on one map from
keys to values. `checkKv_stuck_iff` is a case that callers have to know: the check of an empty
history never returns. `checkEvents_correct` is about the check of a list of events.
-/

namespace DistStudy.Porcupine

variable {ι ο σ : Type}

section

variable [DecidableEq σ]

/-- `checkOperations`; its sort is `sorter`, `verbose` asks for the partial linearizations. -/
def checkOperations (sorter : EntrySorter ι ο) (model : Model ι ο σ)
    (history : List (Operation ι ο)) (verbose hasTimeout : Bool) : ParallelCheck ι ο σ where
  model := model
  history := (model.partition history).map (makeEntries sorter)
  computeInfo := verbose
  hasTimeout := hasTimeout

def checkEvents (model : Model ι ο σ) (history : List (Event ι ο)) (verbose hasTimeout : Bool) :
    ParallelCheck ι ο σ where
  model := model
  history := (model.partitionEvent history).map fun subhistory =>
    convertEntries (renumber subhistory)
  computeInfo := verbose
  hasTimeout := hasTimeout

end

structure KvInput where
  /-- 0 is a get, 1 a put, anything else an append. -/
  op : UInt8
  key : String
  value : String
deriving DecidableEq, Repr

structure KvOutput where
  value : String
deriving DecidableEq, Repr

/-- The map of the loop in `Partition`, with `m` before it. -/
def groupByKey (m : String → List (Operation KvInput KvOutput)) :
    List (Operation KvInput KvOutput) → String → List (Operation KvInput KvOutput)
  | [] => m
  | v :: history =>
    groupByKey (Function.update m v.input.key (m v.input.key ++ [v])) history

def kvPartition (history : List (Operation KvInput KvOutput)) :
    List (List (Operation KvInput KvOutput)) :=
  let m := groupByKey (fun _ => []) history
  let keys := (history.map (·.input.key)).dedup.insertionSort (· ≤ ·)
  keys.map m

def kvStep (state : String) (input : KvInput) (output : KvOutput) : Bool × String :=
  if input.op = 0 then (output.value = state, state)
  else if input.op = 1 then (true, input.value)
  else (true, state ++ input.value)

/-- The model of the value of a single key. -/
def kvModel : Model KvInput KvOutput String where
  partition := kvPartition
  init := ""
  step := kvStep

/-! ## Partitions -/

section

variable {ops : List (Operation KvInput KvOutput)}

theorem groupByKey_eq (m : String → List (Operation KvInput KvOutput)) (k : String) :
    groupByKey m ops k = m k ++ ops.filter (·.input.key = k) := by
  induction ops generalizing m with
  | nil => simp [groupByKey]
  | cons v ops ih =>
    rw [groupByKey, ih]
    by_cases hk : v.input.key = k
    · simp [hk]
    · simp [hk, Ne.symm hk]

/-- There is a partition for every key, with the operations on the key. -/
theorem mem_kvPartition {part : List (Operation KvInput KvOutput)} :
    part ∈ kvPartition ops ↔
      ∃ k ∈ ops.map (·.input.key), part = ops.filter (·.input.key = k) := by
  simp only [kvPartition, List.mem_map, List.mem_insertionSort, List.mem_dedup, groupByKey_eq,
    List.nil_append]
  constructor
  · rintro ⟨k, hk, rfl⟩
    exact ⟨k, hk, rfl⟩
  · rintro ⟨k, hk, rfl⟩
    exact ⟨k, hk, rfl⟩

theorem kvPartition_eq_nil_iff : kvPartition ops = [] ↔ ops = [] := by
  constructor
  · intro h
    by_contra hne
    rcases List.exists_mem_of_ne_nil ops hne with ⟨op, hop⟩
    have hmem : ops.filter (·.input.key = op.input.key) ∈ kvPartition ops :=
      mem_kvPartition.mpr ⟨op.input.key, List.mem_map_of_mem hop, rfl⟩
    rw [h] at hmem
    cases hmem
  · rintro rfl
    rw [List.eq_nil_iff_forall_not_mem]
    intro part hpart
    rcases mem_kvPartition.mp hpart with ⟨k, hk, -⟩
    cases hk

/-! ## The whole store -/

/-- A get, put or append on a map from keys to values. -/
def storeStep (store : String → String) (op : Operation KvInput KvOutput) :
    Option (String → String) :=
  if op.input.op = 0 then
    if op.output.value = store op.input.key then some store else none
  else if op.input.op = 1 then some (Function.update store op.input.key op.input.value)
  else
    some (Function.update store op.input.key (store op.input.key ++ op.input.value))

def storeSpec (ops : List (Operation KvInput KvOutput)) : SeqSpec (String → String) ℕ where
  init _ := ""
  step store id := ops[id]?.bind (storeStep store)

/-- Some order of all the operations, one that respects their times, is right for the store. -/
def StoreLinearizable (ops : List (Operation KvInput KvOutput)) : Prop :=
  Linearizable (storeSpec ops) (precedes ops) (List.range ops.length)

def keyAt (ops : List (Operation KvInput KvOutput)) (id : ℕ) : String :=
  (ops[id]?.map (·.input.key)).getD ""

/-- The store is made of its keys. -/
theorem storeSpec_step (store : String → String) (id : ℕ) :
    (storeSpec ops).step store id =
      ((operationSpec kvModel ops).product (keyAt ops)).step store id := by
  cases hop : ops[id]? with
  | none => simp [storeSpec, SeqSpec.product, operationSpec, hop]
  | some op =>
    simp only [storeSpec, SeqSpec.product, operationSpec, keyAt, hop, Option.bind_some,
      Option.map_some, Option.getD_some, kvModel, kvStep, storeStep]
    split_ifs with hget hput hval <;> simp_all

theorem storeLinearizable_iff (hspan : ∀ op ∈ ops, op.call ≤ op.ret) :
    StoreLinearizable ops ↔ ∀ part ∈ kvPartition ops, OperationsLinearizable kvModel part := by
  have htimes : ∀ a ∈ List.range ops.length, ∃ op, ops[a]? = some op := by
    intro a ha
    exact ⟨_, List.getElem?_eq_getElem (List.mem_range.mp ha)⟩
  -- the times of the operations, for the order of real time
  let call : ℕ → Int := fun a => (ops[a]?.map Operation.call).getD 0
  let ret : ℕ → Int := fun a => (ops[a]?.map Operation.ret).getD 0
  have hprecedes : ∀ a ∈ List.range ops.length, ∀ b ∈ List.range ops.length,
      (precedes ops a b ↔ ret a < call b) := by
    intro a ha b hb
    rcases htimes a ha with ⟨opa, hopa⟩
    rcases htimes b hb with ⟨opb, hopb⟩
    simp [precedes, call, ret, hopa, hopb]
  have hspan' : ∀ a ∈ List.range ops.length, call a ≤ ret a := by
    intro a ha
    rcases htimes a ha with ⟨op, hop⟩
    simp only [call, ret, hop, Option.map_some, Option.getD_some]
    exact hspan op (List.mem_of_getElem? hop)
  have hkeys : (List.range ops.length).map (keyAt ops) = ops.map (·.input.key) := by
    apply List.ext_getElem
    · simp
    · intro i hi hi'
      have hlt : i < ops.length := by simpa using hi'
      simp [keyAt, hlt]
  have hparts : ∀ k, Linearizable (operationSpec kvModel ops) (fun a b => ret a < call b)
      ((List.range ops.length).filter (keyAt ops · = k)) ↔
        OperationsLinearizable kvModel (ops.filter (·.input.key = k)) := by
    intro k
    have hfilter : (List.range ops.length).filter (keyAt ops · = k) =
        (List.range ops.length).filter fun i => ops[i]?.any (·.input.key = k) := by
      apply List.filter_congr
      intro i hi
      rcases htimes i hi with ⟨op, hop⟩
      simp [keyAt, hop]
    rw [operationsLinearizable_filter_iff, hfilter]
    apply linearizable_congr
    · rfl
    · intro s a _
      rfl
    · intro a ha b hb
      exact (hprecedes a (List.mem_of_mem_filter ha) b (List.mem_of_mem_filter hb)).symm
  have hproduct : StoreLinearizable ops ↔
      Linearizable ((operationSpec kvModel ops).product (keyAt ops)) (fun a b => ret a < call b)
        (List.range ops.length) := by
    apply linearizable_congr
    · rfl
    · intro store a _
      exact storeSpec_step store a
    · exact hprecedes
  rw [hproduct, linearizable_product_iff hspan', hkeys]
  constructor
  · intro h part hpart
    rcases mem_kvPartition.mp hpart with ⟨k, hk, rfl⟩
    exact (hparts k).mp (h k hk)
  · intro h k hk
    exact (hparts k).mpr (h _ (mem_kvPartition.mpr ⟨k, hk, rfl⟩))

end

/-! ## Whole checks -/

section

variable [DecidableEq σ] {M : Model ι ο σ} {ops : List (Operation ι ο)}
  {events : List (Event ι ο)} {verbose hasTimeout : Bool}

theorem checkOperations_sound (sorter : EntrySorter ι ο) (verbose hasTimeout : Bool)
    (hM : M.Lawful) (hspan : ∀ part ∈ M.partition ops, ∀ op ∈ part, op.call ≤ op.ret) :
    (checkOperations sorter M ops verbose hasTimeout).Sound where
  lawful := hM
  complete := by
    intro h hh
    rcases List.mem_map.mp hh with ⟨part, hpart, rfl⟩
    exact makeEntries_complete sorter (hspan part hpart)

theorem checkEvents_sound (hM : M.Lawful)
    (hcomplete : ∀ part ∈ M.partitionEvent events, EventsComplete part) :
    (checkEvents M events verbose hasTimeout).Sound where
  lawful := hM
  complete := by
    intro h hh
    rcases List.mem_map.mp hh with ⟨part, hpart, rfl⟩
    exact (explained_convertEntries (M := M) (hcomplete part hpart)).1

/-- What the result of a check of events says about its partitions. -/
theorem checkEvents_correct (hM : M.Lawful)
    (hcomplete : ∀ part ∈ M.partitionEvent events, EventsComplete part) {acts : List Act}
    {w : Parallel ι ο σ} {result : CheckResult} {p : Option (List (List (List ℕ)))}
    (hrun : follow (Parallel.step (checkEvents M events verbose hasTimeout))
      (Parallel.init (checkEvents M events verbose hasTimeout)) acts = some w)
    (hmain : w.main = .returned result p) :
    (result = .ok → ∀ part ∈ M.partitionEvent events, EventsLinearizable M part) ∧
      (result = .illegal → ∃ part ∈ M.partitionEvent events, ¬ EventsLinearizable M part) ∧
      (result = .unknown → hasTimeout = true) := by
  have hresult := checkParallel_outcome (checkEvents_sound hM hcomplete) hrun hmain
  refine ⟨?_, ?_, hresult.2.2⟩
  · intro hok part hpart
    rw [← (explained_convertEntries (hcomplete part hpart)).2]
    exact hresult.1 hok _ (List.mem_map_of_mem hpart)
  · intro hillegal
    rcases hresult.2.1 hillegal with ⟨h, hh, hnot⟩
    rcases List.mem_map.mp hh with ⟨part, hpart, rfl⟩
    refine ⟨part, hpart, ?_⟩
    rw [← (explained_convertEntries (hcomplete part hpart)).2]
    exact hnot

/-- A write of 1 and a read of 1 that overlap, under ids of the caller. -/
def overlappingEvents : List (Event (Option ℕ) ℕ) :=
  [⟨0, .call (some 1), 7⟩, ⟨1, .call none, 5⟩, ⟨1, .ret 1, 5⟩, ⟨0, .ret 0, 7⟩]

theorem checkEvents_correct_overlapping : EventsLinearizable register overlappingEvents := by
  let J := checkEvents register overlappingEvents false false
  have hcomplete : ∀ part ∈ register.partitionEvent overlappingEvents, EventsComplete part := by
    intro part hpart
    rw [List.mem_singleton.mp hpart]
    exact ⟨by decide, by decide, by decide⟩
  have hend : (follow (Parallel.step J) (Parallel.init J)
      [.round 0, .round 0, .round 0, .store 0, .send 0, .receive]).map Parallel.main =
      some (.returned .ok none) := by decide
  rcases Option.map_eq_some_iff.mp hend with ⟨w, hrun, hmain⟩
  exact (checkEvents_correct (Model.lawful_of_shallowEqual rfl) hcomplete hrun hmain).1 rfl _
    List.mem_cons_self

end

section

variable {sorter : EntrySorter KvInput KvOutput} {ops : List (Operation KvInput KvOutput)}
  {verbose hasTimeout : Bool}

theorem kvModel_lawful : kvModel.Lawful := Model.lawful_of_shallowEqual rfl

theorem kvPartition_span (hspan : ∀ op ∈ ops, op.call ≤ op.ret) :
    ∀ part ∈ kvModel.partition ops, ∀ op ∈ part, op.call ≤ op.ret := by
  intro part hpart op hop
  rcases mem_kvPartition.mp hpart with ⟨k, -, rfl⟩
  exact hspan op (List.mem_of_mem_filter hop)

/-- The check of a history with many keys is right about the store as a whole. -/
theorem checkKv_correct (hspan : ∀ op ∈ ops, op.call ≤ op.ret) {acts : List Act}
    {w : Parallel KvInput KvOutput String} {result : CheckResult}
    {p : Option (List (List (List ℕ)))}
    (hrun : follow (Parallel.step (checkOperations sorter kvModel ops verbose hasTimeout))
      (Parallel.init (checkOperations sorter kvModel ops verbose hasTimeout)) acts = some w)
    (hmain : w.main = .returned result p) :
    (result = .ok → StoreLinearizable ops) ∧
      (result = .illegal → ¬ StoreLinearizable ops) ∧
      (result = .unknown → hasTimeout = true) := by
  have hparts := kvPartition_span hspan
  have hresult := checkParallel_outcome
    (checkOperations_sound sorter verbose hasTimeout kvModel_lawful hparts) hrun hmain
  refine ⟨?_, ?_, hresult.2.2⟩
  · intro hok
    rw [storeLinearizable_iff hspan]
    intro part hpart
    rw [← explained_makeEntries (hparts part hpart)]
    exact hresult.1 hok _ (List.mem_map_of_mem hpart)
  · intro hillegal hstore
    rcases hresult.2.1 hillegal with ⟨h, hh, hnot⟩
    rcases List.mem_map.mp hh with ⟨part, hpart, rfl⟩
    rw [explained_makeEntries (hparts part hpart)] at hnot
    exact hnot ((storeLinearizable_iff hspan).mp hstore part hpart)

/-- A put and a get that overlaps it, on one key, and an append on another. -/
def twoKeys : List (Operation KvInput KvOutput) :=
  [⟨0, ⟨1, "x", "1"⟩, 0, ⟨""⟩, 3⟩, ⟨1, ⟨0, "x", ""⟩, 1, ⟨"1"⟩, 2⟩, ⟨0, ⟨2, "y", "a"⟩, 4, ⟨""⟩, 5⟩]

theorem twoKeys_span : ∀ op ∈ twoKeys, op.call ≤ op.ret := by decide

theorem checkKv_correct_twoKeys : StoreLinearizable twoKeys := by
  let J := checkOperations (insertionSorter KvInput KvOutput) kvModel twoKeys false false
  have hend : (follow (Parallel.step J) (Parallel.init J)
      [.round 1, .round 0, .round 1, .store 1, .round 0, .round 0, .store 0, .send 1, .send 0,
        .receive, .receive]).map Parallel.main = some (.returned .ok none) := by
    decide
  rcases Option.map_eq_some_iff.mp hend with ⟨w, hrun, hmain⟩
  exact (checkKv_correct twoKeys_span hrun hmain).1 rfl

/-- Without a timeout, the check of the empty history waits for an answer that nobody sends. -/
theorem checkKv_stuck_iff (hspan : ∀ op ∈ ops, op.call ≤ op.ret) :
    (∃ acts w, follow (Parallel.step (checkOperations sorter kvModel ops verbose hasTimeout))
        (Parallel.init (checkOperations sorter kvModel ops verbose hasTimeout)) acts = some w ∧
      (∀ result p, w.main ≠ .returned result p) ∧
      ∀ act, w.step (checkOperations sorter kvModel ops verbose hasTimeout) act = none) ↔
      ops = [] ∧ hasTimeout = false := by
  have hsound := checkOperations_sound sorter verbose hasTimeout kvModel_lawful
    (kvPartition_span hspan)
  rw [stuck_iff hsound, ← kvPartition_eq_nil_iff]
  apply and_congr_left
  intro _
  exact List.map_eq_nil_iff

theorem checkKv_stuck_twoKeys :
    ¬ ∃ acts w, follow
        (Parallel.step (checkOperations (insertionSorter _ _) kvModel twoKeys false false))
        (Parallel.init (checkOperations (insertionSorter _ _) kvModel twoKeys false false))
        acts = some w ∧
      (∀ result p, w.main ≠ .returned result p) ∧
      ∀ act, w.step (checkOperations (insertionSorter _ _) kvModel twoKeys false false) act =
        none := by
  rw [checkKv_stuck_iff twoKeys_span]
  simp [twoKeys]

end

end DistStudy.Porcupine
