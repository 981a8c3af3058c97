import DistStudy.Porcupine.History
import Mathlib.Data.List.Sort

/-!
# From operations and events to entries

`makeEntries` sorts the calls and returns of operations by their times, a call before a return
of the same time. `renumber` and `convertEntries` give the operations of a list of events the
numbers from 0 on. Both give complete histories, with the order of real time:
`explained_makeEntries` and `explained_convertEntries` say that what is searched is what was
asked.
-/

namespace DistStudy.Porcupine

variable {ι ο σ : Type}

/-! ## Operations -/

section

variable {ops : List (Operation ι ο)} {sorter : EntrySorter ι ο} {k : ℕ} {e : Entry ι ο}

theorem callEntry_isCall (id : ℕ) (op : Operation ι ο) : (callEntry id op).isCall = true := rfl

theorem returnEntry_isCall (id : ℕ) (op : Operation ι ο) : (returnEntry id op).isCall = false := rfl

theorem mem_splitOperations : e ∈ splitOperations k ops ↔
    ∃ i op, ops[i]? = some op ∧ (e = callEntry (k + i) op ∨ e = returnEntry (k + i) op) := by
  induction ops generalizing k with
  | nil => simp [splitOperations]
  | cons elem ops ih =>
    rw [splitOperations, List.mem_cons, List.mem_cons, ih, ← or_assoc]
    constructor
    · rintro (hfirst | ⟨i, op, hop, hor⟩)
      · exact ⟨0, elem, rfl, hfirst⟩
      · refine ⟨i + 1, op, hop, ?_⟩
        rwa [Nat.add_assoc, Nat.add_comm 1 i] at hor
    · rintro ⟨i, op, hop, hor⟩
      cases i with
      | zero =>
        rw [List.getElem?_cons_zero, Option.some.injEq] at hop
        rw [← hop] at hor
        exact Or.inl hor
      | succ i =>
        refine Or.inr ⟨i, op, hop, ?_⟩
        rwa [Nat.add_assoc, Nat.add_comm 1 i]

theorem splitOperations_calls (k : ℕ) (ops : List (Operation ι ο)) :
    ((splitOperations k ops).filter Entry.isCall).map Entry.id = List.range' k ops.length := by
  induction ops generalizing k with
  | nil => rfl
  | cons elem ops ih =>
    rw [splitOperations, List.filter_cons_of_pos (callEntry_isCall k elem),
      List.filter_cons_of_neg (by simp [returnEntry_isCall]), List.map_cons, ih,
      List.length_cons, List.range'_succ]
    rfl

theorem splitOperations_returns (k : ℕ) (ops : List (Operation ι ο)) :
    ((splitOperations k ops).filter fun e => !e.isCall).map Entry.id =
      List.range' k ops.length := by
  induction ops generalizing k with
  | nil => rfl
  | cons elem ops ih =>
    rw [splitOperations, List.filter_cons_of_neg (by simp [callEntry_isCall]),
      List.filter_cons_of_pos (by simp [returnEntry_isCall]), List.map_cons, ih,
      List.length_cons, List.range'_succ]
    rfl

theorem splitOperations_length (k : ℕ) (ops : List (Operation ι ο)) :
    (splitOperations k ops).length = 2 * ops.length := by
  induction ops generalizing k with
  | nil => rfl
  | cons elem ops ih =>
    rw [splitOperations, List.length_cons, List.length_cons, ih, List.length_cons]
    omega

theorem makeEntries_length (sorter : EntrySorter ι ο) (ops : List (Operation ι ο)) :
    (makeEntries sorter ops).length / 2 = ops.length := by
  rw [makeEntries, (sorter.perm _).length_eq, splitOperations_length]
  omega

/-- The entries are those of the operations, with their numbers. -/
theorem mem_makeEntries : e ∈ makeEntries sorter ops ↔
    ∃ i op, ops[i]? = some op ∧ (e = callEntry i op ∨ e = returnEntry i op) := by
  rw [makeEntries, (sorter.perm _).mem_iff, mem_splitOperations]
  simp only [Nat.zero_add]

theorem makeEntries_sorted (sorter : EntrySorter ι ο) (ops : List (Operation ι ο)) :
    (makeEntries sorter ops).Pairwise fun a b => b.less a = false :=
  sorter.sorted _

/-- Of two sorted entries, a return before a call is earlier. -/
theorem time_lt_of_not_less {r c : Entry ι ο} (hr : r.isCall = false) (hc : c.isCall = true)
    (hless : c.less r = false) : r.time < c.time := by
  by_cases htime : c.time = r.time
  · simp [Entry.less, htime, hr, hc] at hless
  · simp only [Entry.less, ne_eq, htime, not_false_eq_true, if_true, decide_eq_false_iff_not] at hless
    omega

theorem makeEntries_complete (sorter : EntrySorter ι ο) (hspan : ∀ op ∈ ops, op.call ≤ op.ret) :
    Complete (makeEntries sorter ops) := by
  have hperm := sorter.perm (splitOperations 0 ops)
  have hreturns : (((makeEntries sorter ops).filter fun e => !e.isCall).map Entry.id).Perm
      (List.range ((makeEntries sorter ops).length / 2)) := by
    rw [makeEntries_length, List.range_eq_range', ← splitOperations_returns]
    exact (hperm.filter _).map _
  refine ⟨?_, hreturns, ?_⟩
  · rw [makeEntries_length, List.range_eq_range', ← splitOperations_calls]
    exact (hperm.filter _).map _
  · have hnodup := hreturns.nodup_iff.mpr List.nodup_range
    rw [List.Nodup, List.pairwise_map, List.pairwise_filter] at hnodup
    apply ((makeEntries_sorted sorter ops).and hnodup).imp_of_mem
    rintro a b ha hb ⟨hless, hne⟩ hid
    by_contra hcall
    rw [Bool.not_eq_true] at hcall
    rcases mem_makeEntries.mp ha with ⟨i, op, hop, rfl | rfl⟩
    · cases hcall
    · rcases mem_makeEntries.mp hb with ⟨j, op', hop', rfl | rfl⟩
      · -- the call of the operation itself would be after its return
        have hij : i = j := hid
        rw [← hij, hop, Option.some.injEq] at hop'
        have hlt := time_lt_of_not_less hcall (callEntry_isCall j op') hless
        rw [← hop'] at hlt
        exact absurd (hspan op (List.mem_of_getElem? hop)) (not_le.mpr hlt)
      · exact hne rfl rfl hid

/-- Operation `a` returned before operation `b` was called, by their times. -/
def precedes (ops : List (Operation ι ο)) (a b : ℕ) : Prop :=
  ∃ opa opb, ops[a]? = some opa ∧ ops[b]? = some opb ∧ opa.ret < opb.call

/-- The order of the entries is that of the times. -/
theorem before_makeEntries {a b : ℕ} :
    before (makeEntries sorter ops) a b ↔ precedes ops a b := by
  have hsorted := List.pairwise_iff_getElem.mp (makeEntries_sorted sorter ops)
  constructor
  · rintro ⟨i, j, hij, ⟨r, hr, hret, rfl⟩, c, hc, hcall, rfl⟩
    rcases List.getElem?_eq_some_iff.mp hr with ⟨hi, hr'⟩
    rcases List.getElem?_eq_some_iff.mp hc with ⟨hj, hc'⟩
    have hless := hsorted i j hi hj hij
    rw [hr', hc'] at hless
    have hlt := time_lt_of_not_less hret hcall hless
    rcases mem_makeEntries.mp (List.mem_of_getElem? hr) with ⟨x, opa, hopa, rfl | rfl⟩
    · cases hret
    rcases mem_makeEntries.mp (List.mem_of_getElem? hc) with ⟨y, opb, hopb, rfl | rfl⟩
    · exact ⟨opa, opb, hopa, hopb, hlt⟩
    · cases hcall
  · rintro ⟨opa, opb, hopa, hopb, hlt⟩
    have hr : returnEntry a opa ∈ makeEntries sorter ops :=
      mem_makeEntries.mpr ⟨a, opa, hopa, Or.inr rfl⟩
    have hc : callEntry b opb ∈ makeEntries sorter ops :=
      mem_makeEntries.mpr ⟨b, opb, hopb, Or.inl rfl⟩
    rcases List.mem_iff_getElem.mp hr with ⟨i, hi, hri⟩
    rcases List.mem_iff_getElem.mp hc with ⟨j, hj, hcj⟩
    refine ⟨i, j, ?_, ⟨_, List.getElem?_eq_some_iff.mpr ⟨hi, hri⟩, rfl, rfl⟩,
      ⟨_, List.getElem?_eq_some_iff.mpr ⟨hj, hcj⟩, rfl, rfl⟩⟩
    rcases Nat.lt_trichotomy i j with hij | hij | hij
    · exact hij
    · subst hij
      rw [hri] at hcj
      cases congrArg Entry.isCall hcj
    · have hless := hsorted j i hj hi hij
      rw [hri, hcj] at hless
      have hne : opa.ret ≠ opb.call := by omega
      simp [Entry.less, returnEntry, callEntry, hne, hlt] at hless

end

section

variable [DecidableEq σ] {M : Model ι ο σ} {ops : List (Operation ι ο)} {sorter : EntrySorter ι ο}

/-- The model, with operations that are named by their positions. -/
def operationSpec (M : Model ι ο σ) (ops : List (Operation ι ο)) : SeqSpec σ ℕ where
  init := M.init
  step s id := ops[id]?.bind fun op =>
    if (M.step s op.input op.output).1 then some (M.step s op.input op.output).2 else none

/-- Some order of the operations, one that respects their times, is accepted by the model. -/
def OperationsLinearizable (M : Model ι ο σ) (ops : List (Operation ι ο)) : Prop :=
  Linearizable (operationSpec M ops) (precedes ops) (List.range ops.length)

/-- The operations that pass a test, taken from the list or named by their positions in it. -/
theorem operationsLinearizable_filter_iff (p : Operation ι ο → Bool) :
    OperationsLinearizable M (ops.filter p) ↔ Linearizable (operationSpec M ops) (precedes ops)
      ((List.range ops.length).filter fun i => ops[i]?.any p) := by
  have hlist : ((List.range ops.length).filter fun i => ops[i]?.any p).map (fun i => ops[i]?) =
      (ops.filter p).map some := by
    have hall : (List.range ops.length).map (fun i => ops[i]?) = ops.map some := by
      apply List.ext_getElem?
      intro i
      by_cases hi : i < ops.length
      · simp [hi]
      · simp [hi]
    have hfilter := congrArg (List.filter fun x : Option (Operation ι ο) => x.any p) hall
    rw [List.filter_map, List.filter_map] at hfilter
    exact hfilter
  generalize hL : ((List.range ops.length).filter fun i => ops[i]?.any p) = L at hlist
  have hlen : L.length = (ops.filter p).length := by
    have hlen := congrArg List.length hlist
    rwa [List.length_map, List.length_map] at hlen
  -- the operation at position `j` of the filtered list
  have hget : ∀ j < (ops.filter p).length, ops[L.getD j 0]? = (ops.filter p)[j]? := by
    intro j hj
    have hget := congrArg (fun l => l[j]?) hlist
    have hjL : j < L.length := hlen ▸ hj
    simp only [List.getElem?_map, List.getElem?_eq_getElem hjL, List.getElem?_eq_getElem hj,
      Option.map_some, Option.some.injEq] at hget
    rw [List.getD_eq_getElem?_getD, List.getElem?_eq_getElem hjL, Option.getD_some, hget,
      List.getElem?_eq_getElem hj]
  have hmap : (List.range (ops.filter p).length).map (fun j => L.getD j 0) = L := by
    apply List.ext_getElem
    · simp [hlen]
    · intro j hj hj'
      simp [List.getD_eq_getElem?_getD, List.getElem?_eq_getElem hj']
  rw [OperationsLinearizable, ← hmap]
  symm
  apply linearizable_map_iff
  · rfl
  · intro s j hj
    simp only [operationSpec, hget j (List.mem_range.mp hj)]
  · intro a ha b hb
    simp only [precedes, hget a (List.mem_range.mp ha), hget b (List.mem_range.mp hb)]

/-- The entries of operations ask for an order of the operations. -/
theorem explained_makeEntries (hspan : ∀ op ∈ ops, op.call ≤ op.ret) :
    Explained M (makeEntries sorter ops) ↔ OperationsLinearizable M ops := by
  have hc := makeEntries_complete sorter hspan
  rw [Explained, OperationsLinearizable, makeEntries_length]
  apply linearizable_congr
  · rfl
  · intro s a ha
    rw [List.mem_range] at ha
    have hop : ops[a]? = some ops[a] := List.getElem?_eq_getElem ha
    have hcall : callEntry a ops[a] ∈ makeEntries sorter ops :=
      mem_makeEntries.mpr ⟨a, _, hop, Or.inl rfl⟩
    have hret : returnEntry a ops[a] ∈ makeEntries sorter ops :=
      mem_makeEntries.mpr ⟨a, _, hop, Or.inr rfl⟩
    simp only [operationSpec, hop, Option.bind_some]
    exact hc.historySpec_step hcall rfl hret rfl rfl s
  · intro a _ b _
    exact before_makeEntries

end

/-- A sort by time. -/
def insertionSorter (ι ο : Type) : EntrySorter ι ο where
  sort := List.insertionSort fun a b => b.less a = false
  perm := List.perm_insertionSort _
  sorted entries := by
    have htotal : Std.Total fun a b : Entry ι ο => b.less a = false := by
      constructor
      intro a b
      simp only [Entry.less]
      grind
    have htrans : IsTrans (Entry ι ο) fun a b => b.less a = false := by
      constructor
      intro a b c
      simp only [Entry.less]
      grind
    exact List.pairwise_insertionSort _ entries

/-! ## Events -/

/-- The renumbering so far has given the numbers below `id`, each to one of the old ids. -/
structure Numbers (m : Int → Option ℕ) (id : ℕ) : Prop where
  injective : ∀ x y r, m x = some r → m y = some r → x = y
  lt : ∀ x r, m x = some r → r < id
  onto : ∀ r < id, ∃ x, m x = some r

section

variable {events : List (Event ι ο)} {m : Int → Option ℕ} {id : ℕ}

theorem Numbers.next (hm : Numbers m id) {x : Int} (hx : m x = none) :
    Numbers (fun y => if y = x then some id else m y) (id + 1) := by
  have hcase : ∀ y r, (if y = x then some id else m y) = some r →
      y = x ∧ r = id ∨ m y = some r ∧ r < id := by
    intro y r hy
    split_ifs at hy with hyx
    · exact Or.inl ⟨hyx, (Option.some.inj hy).symm⟩
    · exact Or.inr ⟨hy, hm.lt y r hy⟩
  constructor
  · intro y z r hy hz
    rcases hcase y r hy with ⟨hyx, hr⟩ | ⟨hmy, hr⟩
    · rcases hcase z r hz with ⟨hzx, -⟩ | ⟨-, hr'⟩
      · rw [hyx, hzx]
      · omega
    · rcases hcase z r hz with ⟨-, hr'⟩ | ⟨hmz, -⟩
      · omega
      · exact hm.injective y z r hmy hmz
  · intro y r hy
    rcases hcase y r hy with ⟨-, hr⟩ | ⟨-, hr⟩
    · omega
    · omega
  · intro r hr
    by_cases hrid : r = id
    · exact ⟨x, by rw [if_pos rfl, hrid]⟩
    · rcases hm.onto r (by omega) with ⟨y, hy⟩
      refine ⟨y, ?_⟩
      rw [if_neg, hy]
      intro hyx
      rw [hyx, hx] at hy
      cases hy

/-- The loop of `renumber` ends with a numbering of the ids of the events, by which all of them
are replaced. -/
theorem Numbers.renumberFrom (hm : Numbers m id) :
    ∃ m' id', Numbers m' id' ∧ (∀ x r, m x = some r → m' x = some r) ∧
      (∀ x, (m' x).isSome ↔ (m x).isSome ∨ x ∈ events.map Event.id) ∧
      renumberFrom m id events =
        events.map fun v => ⟨v.clientId, v.value, (m' v.id).getD 0⟩ := by
  induction events generalizing m id with
  | nil => exact ⟨m, id, hm, fun x r hx => hx, by simp, rfl⟩
  | cons v events ih =>
    cases hv : m v.id with
    | some r =>
      rcases ih hm with ⟨m', id', hm', hext, hdom, heq⟩
      refine ⟨m', id', hm', hext, ?_, ?_⟩
      · intro x
        rw [hdom, List.map_cons, List.mem_cons]
        constructor
        · exact fun hor => hor.imp_right Or.inr
        · rintro (hx | rfl | hx)
          · exact Or.inl hx
          · exact Or.inl (by rw [hv, Option.isSome_some])
          · exact Or.inr hx
      · simp only [Porcupine.renumberFrom, hv]
        rw [heq, List.map_cons, hext v.id r hv, Option.getD_some]
    | none =>
      rcases ih (hm.next hv) with ⟨m', id', hm', hext, hdom, heq⟩
      refine ⟨m', id', hm', ?_, ?_, ?_⟩
      · intro x r hx
        apply hext
        rw [if_neg, hx]
        intro hxv
        rw [hxv, hv] at hx
        cases hx
      · intro x
        rw [hdom, List.map_cons, List.mem_cons]
        by_cases hxv : x = v.id
        · simp [hxv]
        · simp [hxv]
      · simp only [Porcupine.renumberFrom, hv]
        rw [heq, List.map_cons, hext v.id id (if_pos rfl), Option.getD_some]

end

/-- Every operation has one call and one return, after its call. -/
structure EventsComplete (events : List (Event ι ο)) : Prop where
  calls : ((events.filter (·.value.isCall)).map Event.id).Nodup
  returns : ((events.filter fun v => !v.value.isCall).map Event.id).Perm
    ((events.filter (·.value.isCall)).map Event.id)
  order : events.Pairwise fun a b => a.id = b.id → a.value.isCall = true

/-- Operation `a` returned before operation `b` was called, by the order of the events. -/
def eventBefore (events : List (Event ι ο)) (a b : Int) : Prop :=
  ∃ (i j : ℕ) (v w : Event ι ο), i < j ∧ (events[i]? = some v ∧ v.value.isCall = false ∧ v.id = a) ∧
    events[j]? = some w ∧ w.value.isCall = true ∧ w.id = b

/-- The model, with the operations of a list of events. -/
def eventSpec [DecidableEq σ] (M : Model ι ο σ) (events : List (Event ι ο)) : SeqSpec σ Int where
  init := M.init
  step s id :=
    match (events.find? fun v => v.value.isCall && v.id == id).map Event.value,
      (events.find? fun v => !v.value.isCall && v.id == id).map Event.value with
    | some (.call input), some (.ret output) =>
      if (M.step s input output).1 then some (M.step s input output).2 else none
    | _, _ => none

def EventsLinearizable [DecidableEq σ] (M : Model ι ο σ) (events : List (Event ι ο)) : Prop :=
  Linearizable (eventSpec M events) (eventBefore events)
    ((events.filter (·.value.isCall)).map Event.id)

section

variable {events : List (Event ι ο)} {f : Int → ℕ}

/-- The entries of events whose ids are replaced. -/
def numberedEntries (f : Int → ℕ) (events : List (Event ι ο)) : List (Entry ι ο) :=
  convertEntries (events.map fun v => ⟨v.clientId, v.value, f v.id⟩)

theorem numberedEntries_getElem? (f : Int → ℕ) (events : List (Event ι ο)) (i : ℕ) :
    (numberedEntries f events)[i]? =
      events[i]?.map fun v => ⟨v.value, f v.id, i, v.clientId⟩ := by
  simp only [numberedEntries, convertEntries, List.getElem?_map, List.getElem?_zipIdx,
    Option.map_map]
  congr 1
  funext v
  simp

/-- But for their times and clients, the entries are those of the events. -/
theorem numberedEntries_map (f : Int → ℕ) (events : List (Event ι ο)) :
    (numberedEntries f events).map (fun e => (e.value, e.id)) =
      events.map fun v => (v.value, f v.id) := by
  apply List.ext_getElem?
  intro i
  rw [List.getElem?_map, numberedEntries_getElem?, List.getElem?_map, Option.map_map]
  rfl

theorem numberedEntries_filter_map (f : Int → ℕ) (events : List (Event ι ο))
    (p : Value ι ο → Bool) :
    ((numberedEntries f events).filter fun e => p e.value).map Entry.id =
      ((events.filter fun v => p v.value).map Event.id).map f := by
  have hmap := congrArg (fun l => (l.filter fun x => p x.1).map Prod.snd)
    (numberedEntries_map f events)
  simp only [List.filter_map, List.map_map] at hmap
  rw [List.map_map]
  exact hmap

/-- The ids of complete events, replaced by the numbers below their number. -/
theorem EventsComplete.numberedEntries (he : EventsComplete events)
    (hinj : ∀ a ∈ events.map Event.id, ∀ b ∈ events.map Event.id, f a = f b → a = b) {n : ℕ}
    (hrange : ∀ r, r < n ↔ ∃ a ∈ events.map Event.id, f a = r) :
    Complete (numberedEntries f events) ∧
      (((events.filter (·.value.isCall)).map Event.id).map f).Perm
        (List.range ((numberedEntries f events).length / 2)) := by
  have hcalled : ∀ a ∈ events.map Event.id, a ∈ (events.filter (·.value.isCall)).map Event.id := by
    intro a ha
    rcases List.mem_map.mp ha with ⟨v, hv, rfl⟩
    cases hcall : v.value.isCall with
    | true => exact List.mem_map_of_mem (List.mem_filter.mpr ⟨hv, hcall⟩)
    | false =>
      apply he.returns.subset
      exact List.mem_map_of_mem (List.mem_filter.mpr ⟨hv, by simp [hcall]⟩)
  have hsub : ∀ a ∈ (events.filter (·.value.isCall)).map Event.id, a ∈ events.map Event.id :=
    fun a ha => (List.filter_sublist.map Event.id).subset ha
  have hnodup : (((events.filter (·.value.isCall)).map Event.id).map f).Nodup :=
    he.calls.map_on fun a ha b hb => hinj a (hsub a ha) b (hsub b hb)
  have hperm : (((events.filter (·.value.isCall)).map Event.id).map f).Perm (List.range n) := by
    rw [List.perm_ext_iff_of_nodup hnodup List.nodup_range]
    intro r
    rw [List.mem_range, hrange, List.mem_map]
    constructor
    · rintro ⟨a, ha, rfl⟩
      exact ⟨a, hsub a ha, rfl⟩
    · rintro ⟨a, ha, rfl⟩
      exact ⟨a, hcalled a ha, rfl⟩
  -- half of the events are calls
  have hn : (Porcupine.numberedEntries f events).length / 2 = n := by
    have hlen := hperm.length_eq
    have hret := he.returns.length_eq
    have htotal : events.length = (events.filter (·.value.isCall)).length +
        (events.filter fun v => !v.value.isCall).length :=
      List.length_eq_length_filter_add _
    have hentries : (Porcupine.numberedEntries f events).length = events.length := by
      simp [Porcupine.numberedEntries, convertEntries]
    simp only [List.length_map, List.length_range] at hlen hret
    omega
  rw [hn]
  refine ⟨⟨?_, ?_, ?_⟩, hperm⟩
  · rw [hn]
    exact (numberedEntries_filter_map f events Value.isCall).symm ▸ hperm
  · rw [hn]
    exact (numberedEntries_filter_map f events fun v => !v.isCall).symm ▸
      ((he.returns.map f).trans hperm)
  · have hpair : (events.map fun v => (v.value, f v.id)).Pairwise fun x y =>
        x.2 = y.2 → x.1.isCall = true := by
      rw [List.pairwise_map]
      apply he.order.imp_of_mem
      intro v w hv hw horder hid
      exact horder (hinj v.id (List.mem_map_of_mem hv) w.id (List.mem_map_of_mem hw) hid)
    rw [← numberedEntries_map, List.pairwise_map] at hpair
    exact hpair

theorem exists_numbering (events : List (Event ι ο)) :
    ∃ f n, convertEntries (renumber events) = numberedEntries f events ∧
      (∀ a ∈ events.map Event.id, ∀ b ∈ events.map Event.id, f a = f b → a = b) ∧
      ∀ r, r < n ↔ ∃ a ∈ events.map Event.id, f a = r := by
  have hempty : Numbers (fun _ => none) 0 :=
    ⟨fun x y r hx => (by cases hx), fun x r hx => (by cases hx), fun r hr => (by omega)⟩
  rcases hempty.renumberFrom  with ⟨m, n, hm, -, hdom, heq⟩
  simp only [Option.isSome_none, Bool.false_eq_true, false_or] at hdom
  refine ⟨fun x => (m x).getD 0, n, by rw [renumber, heq, numberedEntries], ?_, ?_⟩
  · intro a ha b hb hf
    rcases Option.isSome_iff_exists.mp ((hdom a).mpr ha) with ⟨r, hr⟩
    rcases Option.isSome_iff_exists.mp ((hdom b).mpr hb) with ⟨r', hr'⟩
    simp only [hr, hr', Option.getD_some] at hf
    exact hm.injective a b r hr (hf ▸ hr')
  · intro r
    constructor
    · intro hr
      rcases hm.onto r hr with ⟨x, hx⟩
      exact ⟨x, (hdom x).mp (by rw [hx, Option.isSome_some]), by simp [hx]⟩
    · rintro ⟨a, ha, rfl⟩
      rcases Option.isSome_iff_exists.mp ((hdom a).mpr ha) with ⟨r, hr⟩
      simp only [hr, Option.getD_some]
      exact hm.lt a r hr

/-- An event that is found by its kind and id, if no other one has them. -/
theorem find?_eq_of_nodup {p : Value ι ο → Bool} {v : Event ι ο} (hv : v ∈ events)
    (hp : p v.value = true) (hn : ((events.filter fun v => p v.value).map Event.id).Nodup) :
    events.find? (fun w => p w.value && w.id == v.id) = some v := by
  have hsome : (events.find? fun w => p w.value && w.id == v.id).isSome := by
    rw [List.find?_isSome]
    exact ⟨v, hv, by simp [hp]⟩
  rcases Option.isSome_iff_exists.mp hsome with ⟨w, hw⟩
  have hwp := List.find?_some hw
  rw [Bool.and_eq_true, beq_iff_eq] at hwp
  have hmem : w ∈ events.filter fun v => p v.value :=
    List.mem_filter.mpr ⟨List.mem_of_find?_eq_some hw, hwp.1⟩
  rw [hw, List.inj_on_of_nodup_map hn hmem (List.mem_filter.mpr ⟨hv, hp⟩) hwp.2]

theorem EventsComplete.eventSpec_step [DecidableEq σ] {M : Model ι ο σ} (he : EventsComplete events)
    {v w : Event ι ο} {input : ι} {output : ο} (hv : v ∈ events) (hin : v.value = .call input)
    (hw : w ∈ events) (hout : w.value = .ret output) (hid : w.id = v.id) (s : σ) :
    (eventSpec M events).step s v.id =
      if (M.step s input output).1 then some (M.step s input output).2 else none := by
  have hcall := find?_eq_of_nodup hv (p := Value.isCall) (by rw [hin, Value.isCall]) he.calls
  have hret := find?_eq_of_nodup hw (p := fun x => !x.isCall) (by rw [hout]; rfl)
    (he.returns.nodup_iff.mpr he.calls)
  rw [hid] at hret
  simp only [eventSpec, hcall, hret, Option.map_some, hin, hout]

theorem before_numberedEntries
    (hinj : ∀ a ∈ events.map Event.id, ∀ b ∈ events.map Event.id, f a = f b → a = b) {a b : Int}
    (ha : a ∈ events.map Event.id) (hb : b ∈ events.map Event.id) :
    before (numberedEntries f events) (f a) (f b) ↔ eventBefore events a b := by
  constructor
  · rintro ⟨i, j, hij, ⟨r, hr, hret, hra⟩, c, hc, hcall, hcb⟩
    rw [numberedEntries_getElem?] at hr hc
    rcases Option.map_eq_some_iff.mp hr with ⟨v, hv, rfl⟩
    rcases Option.map_eq_some_iff.mp hc with ⟨w, hw, rfl⟩
    have hva := hinj v.id (List.mem_map_of_mem (List.mem_of_getElem? hv)) a ha hra
    have hwb := hinj w.id (List.mem_map_of_mem (List.mem_of_getElem? hw)) b hb hcb
    exact ⟨i, j, v, w, hij, ⟨hv, hret, hva⟩, hw, hcall, hwb⟩
  · rintro ⟨i, j, v, w, hij, ⟨hv, hret, rfl⟩, hw, hcall, rfl⟩
    refine ⟨i, j, hij, ⟨⟨v.value, f v.id, i, v.clientId⟩, ?_, hret, rfl⟩,
      ⟨w.value, f w.id, j, w.clientId⟩, ?_, hcall, rfl⟩
    · rw [numberedEntries_getElem?, hv, Option.map_some]
    · rw [numberedEntries_getElem?, hw, Option.map_some]

/-- The entries of events ask for an order of the operations of the events. -/
theorem explained_convertEntries [DecidableEq σ] {M : Model ι ο σ} (he : EventsComplete events) :
    Complete (convertEntries (renumber events)) ∧
      (Explained M (convertEntries (renumber events)) ↔ EventsLinearizable M events) := by
  rcases exists_numbering events with ⟨f, n, heq, hinj, hrange⟩
  rcases he.numberedEntries hinj hrange with ⟨hc, hperm⟩
  rw [heq]
  refine ⟨hc, ?_⟩
  rw [Explained, EventsLinearizable, ← linearizable_perm_iff hperm]
  have hsub : ∀ a ∈ (events.filter (·.value.isCall)).map Event.id, a ∈ events.map Event.id :=
    fun a ha => (List.filter_sublist.map Event.id).subset ha
  apply linearizable_map_iff f
  · rfl
  · intro s a ha
    have hreturned := he.returns.mem_iff.mpr ha
    rcases List.mem_map.mp ha with ⟨v, hv, rfl⟩
    rcases List.mem_map.mp hreturned with ⟨w, hw, hid⟩
    rcases List.mem_filter.mp hv with ⟨hv, hcall⟩
    rcases List.mem_filter.mp hw with ⟨hw, hret⟩
    rcases List.mem_iff_getElem?.mp hv with ⟨i, hi⟩
    rcases List.mem_iff_getElem?.mp hw with ⟨j, hj⟩
    cases hin : v.value with
    | ret output => simp [hin, Value.isCall] at hcall
    | call input =>
    cases hout : w.value with
    | call input => simp [hout, Value.isCall] at hret
    | ret output =>
    rw [he.eventSpec_step hv hin hw hout hid s]
    have hcallEntry : (⟨v.value, f v.id, i, v.clientId⟩ : Entry ι ο) ∈ numberedEntries f events :=
      List.mem_of_getElem? (by rw [numberedEntries_getElem?, hi, Option.map_some])
    have hretEntry : (⟨w.value, f w.id, j, w.clientId⟩ : Entry ι ο) ∈ numberedEntries f events :=
      List.mem_of_getElem? (by rw [numberedEntries_getElem?, hj, Option.map_some])
    exact hc.historySpec_step hcallEntry hin hretEntry hout (congrArg f hid) s
  · intro a ha b hb
    exact before_numberedEntries hinj (hsub a ha) (hsub b hb)

end

end DistStudy.Porcupine
