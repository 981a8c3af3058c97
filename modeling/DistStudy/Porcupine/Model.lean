import Mathlib.Data.List.Basic
import Mathlib.Tactic.Common

/-!
# Models and histories of the linearizability checker

The types of `porcupine/model.go` and the parts of `porcupine/checker.go` that turn a history
into the entries that are searched: `makeEntries` for operations with their times, `renumber`
and `convertEntries` for events.

* The values of a history have an input type `ι` and an output type `ο` in place of
  `interface{}`, so a call always carries an input and a return an output.
* `sort.Sort` need not be stable, so the sort is a parameter with the promise to sort.
-/

namespace DistStudy.Porcupine

variable {ι ο σ : Type}

structure Operation (ι ο : Type) where
  clientId : Int
  input : ι
  /-- The time of the invocation. -/
  call : Int
  output : ο
  /-- The time of the response. -/
  ret : Int
deriving DecidableEq, Repr

/-- The kind of an event or entry and its value. -/
inductive Value (ι ο : Type) where
  | call (input : ι)
  | ret (output : ο)
deriving DecidableEq, Repr

def Value.isCall : Value ι ο → Bool
  | .call _ => true
  | .ret _ => false

structure Event (ι ο : Type) where
  clientId : Int
  value : Value ι ο
  id : Int
deriving DecidableEq, Repr

def noPartition (history : List (Operation ι ο)) : List (List (Operation ι ο)) := [history]

def noPartitionEvent (history : List (Event ι ο)) : List (List (Event ι ο)) := [history]

def shallowEqual [DecidableEq σ] (state1 state2 : σ) : Bool := state1 = state2

/-- The defaults of the fields are what `fillDefault` puts in place of `nil`. The functions
that describe operations and states are for visualization only and left out. -/
structure Model (ι ο σ : Type) [DecidableEq σ] where
  partition : List (Operation ι ο) → List (List (Operation ι ο)) := noPartition
  partitionEvent : List (Event ι ο) → List (List (Event ι ο)) := noPartitionEvent
  init : σ
  /-- Whether the system could take the step, and the new state. -/
  step : σ → ι → ο → Bool × σ
  equal : σ → σ → Bool := shallowEqual

inductive CheckResult where
  | unknown
  | ok
  | illegal
deriving DecidableEq, Repr

/-! ## Entries -/

structure Entry (ι ο : Type) where
  value : Value ι ο
  id : ℕ
  time : Int
  clientId : Int
deriving DecidableEq, Repr

namespace Entry

def isCall (e : Entry ι ο) : Bool := e.value.isCall

/-- `byTime.Less`: at the same time calls come before returns. -/
def less (a b : Entry ι ο) : Bool :=
  if a.time ≠ b.time then a.time < b.time else a.isCall && !b.isCall

end Entry

/-- `sort.Sort(byTime(entries))`. -/
structure EntrySorter (ι ο : Type) where
  sort : List (Entry ι ο) → List (Entry ι ο)
  perm : ∀ entries, (sort entries).Perm entries
  sorted : ∀ entries, (sort entries).Pairwise fun a b => b.less a = false

def callEntry (id : ℕ) (elem : Operation ι ο) : Entry ι ο :=
  { value := .call elem.input, id, time := elem.call, clientId := elem.clientId }

def returnEntry (id : ℕ) (elem : Operation ι ο) : Entry ι ο :=
  { value := .ret elem.output, id, time := elem.ret, clientId := elem.clientId }

/-- The loop of `makeEntries`: each operation is numbered and split into two entries. -/
def splitOperations : ℕ → List (Operation ι ο) → List (Entry ι ο)
  | _, [] => []
  | id, elem :: history =>
    callEntry id elem :: returnEntry id elem :: splitOperations (id + 1) history

def makeEntries (sorter : EntrySorter ι ο) (history : List (Operation ι ο)) :
    List (Entry ι ο) :=
  sorter.sort (splitOperations 0 history)

/-- An event whose id has been replaced. -/
structure NumberedEvent (ι ο : Type) where
  clientId : Int
  value : Value ι ο
  id : ℕ
deriving DecidableEq, Repr

/-- The loop of `renumber`: `m` is the renumbering so far, `id` the next number. -/
def renumberFrom : (Int → Option ℕ) → ℕ → List (Event ι ο) → List (NumberedEvent ι ο)
  | _, _, [] => []
  | m, id, v :: events =>
    match m v.id with
    | some r => ⟨v.clientId, v.value, r⟩ :: renumberFrom m id events
    | none =>
      ⟨v.clientId, v.value, id⟩ ::
        renumberFrom (fun x => if x = v.id then some id else m x) (id + 1) events

def renumber (events : List (Event ι ο)) : List (NumberedEvent ι ο) :=
  renumberFrom (fun _ => none) 0 events

/-- The index of an event is its time. -/
def convertEntries (events : List (NumberedEvent ι ο)) : List (Entry ι ο) :=
  events.zipIdx.map fun (elem, i) =>
    { value := elem.value, id := elem.id, time := i, clientId := elem.clientId }

end DistStudy.Porcupine
