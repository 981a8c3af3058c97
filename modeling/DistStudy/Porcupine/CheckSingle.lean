import DistStudy.Porcupine.Bitset
import DistStudy.Porcupine.LinkedList

/-!
# The search of the linearizability checker

`checkSingle` of `porcupine/checker.go` looks for an order that explains one history. It keeps
the entries that are left in the linked list, the operations that it has linearized in a bit
set and on a stack, and every configuration that it has entered in a cache, which is found by
the hash of the bit set.

`Sim` relates its variables to a search of `problem`: each round of the loop is a step of it
(`Sim.round`). What the search library knows about those steps gives the results:

* `checkSingle_correct`: it ends without a panic, and says whether the history can be explained;
* `longest_maximal`: `longest` has the longest partial linearization with each operation.
-/

namespace DistStudy.Porcupine

variable {ι ο σ : Type}

structure CacheEntry (σ : Type) where
  linearized : Bitset
  state : σ

/-- A map from the hash of a bit set to the configurations with that hash. -/
abbrev Cache (σ : Type) : Type := BitVec 64 → List (CacheEntry σ)

def cacheContains [DecidableEq σ] (model : Model ι ο σ) (cache : Cache σ)
    (entry : CacheEntry σ) : Bool :=
  (cache entry.linearized.hash).any fun elem =>
    entry.linearized.equals elem.linearized && model.equal entry.state elem.state

structure CallsEntry (σ : Type) where
  entry : ℕ
  state : σ

/-- For each operation, the partial linearization that its pointer leads to; `none` is `nil`. -/
abbrev Longest : Type := List (Option (List ℕ))

/-- The variables of `checkSingle`. -/
structure Checking (ι ο σ : Type) where
  heap : Heap ι ο
  entry : Option ℕ
  linearized : Bitset
  cache : Cache σ
  /-- The newest one is the first. -/
  calls : List (CallsEntry σ)
  longest : Longest
  state : σ

/-- A round of the loop goes on or returns. -/
inductive Round (ι ο σ : Type) where
  | running (c : Checking ι ο σ)
  | returned (ok : Bool) (longest : Longest)

/-- The ids of the stack, the oldest first. -/
def callIds (heap : Heap ι ο) (calls : List (CallsEntry σ)) : List ℕ :=
  (calls.map fun v => (heap v.entry).id).reverse

/-- The sequence `seq` replaces the shorter ones of its operations. -/
def recordLongest (seq : List ℕ) (longest : Longest) : Option Longest :=
  seq.foldlM (fun longest id => longest[id]?.map fun old =>
    if old.all (seq.length > ·.length) then longest.set id (some seq) else longest) longest

/-- The part of `goBack` that is for `computePartial` only. -/
def recordPartial (computePartial : Bool) (seq : List ℕ) (longest : Longest) : Option Longest :=
  if computePartial then recordLongest seq longest else some longest

/-- The branch for a call whose return is `matching`; a panic is `none`. -/
def tryCall [DecidableEq σ] (model : Model ι ο σ) (head : ℕ) (c : Checking ι ο σ)
    (entry matching : ℕ) : Option (Checking ι ο σ) :=
  match (c.heap entry).value, (c.heap matching).value with
  | some (.call input), some (.ret output) =>
    let (ok, newState) := model.step c.state input output
    if ok then do
      let newLinearized ← c.linearized.set (c.heap entry).id
      let newCacheEntry : CacheEntry σ := ⟨newLinearized, newState⟩
      if !cacheContains model c.cache newCacheEntry then
        let hash := newLinearized.hash
        let cache := Function.update c.cache hash (c.cache hash ++ [newCacheEntry])
        let linearized ← c.linearized.set (c.heap entry).id
        let heap ← lift c.heap entry
        some { c with
          heap, entry := (heap head).next, linearized, cache,
          calls := ⟨entry, c.state⟩ :: c.calls, state := newState }
      else some { c with entry := (c.heap entry).next }
    else some { c with entry := (c.heap entry).next }
  | _, _ => none

/-- The branch for a return, where the search goes back. -/
def goBack (computePartial : Bool) (c : Checking ι ο σ) : Option (Round ι ο σ) :=
  match c.calls with
  | [] => some (.returned false c.longest)
  | callsTop :: calls => do
    let longest ← recordPartial computePartial (callIds c.heap c.calls) c.longest
    let linearized ← c.linearized.clear (c.heap callsTop.entry).id
    let heap ← unlift c.heap callsTop.entry
    some (.running
      { c with
        heap, entry := (heap callsTop.entry).next, linearized, calls, longest,
        state := callsTop.state })

/-- One round of the loop of `checkSingle`; `kill` is what it reads from the flag. -/
def round [DecidableEq σ] (model : Model ι ο σ) (computePartial : Bool) (head n : ℕ)
    (kill : Bool) (c : Checking ι ο σ) : Option (Round ι ο σ) :=
  if (c.heap head).next = none then
    -- the longest linearization is the complete one
    some (.returned true (List.replicate n (some (callIds c.heap c.calls))))
  else if kill then some (.returned false c.longest)
  else
    c.entry.bind fun entry =>
      match (c.heap entry).matching with
      | some matching => (tryCall model head c entry matching).map .running
      | none => goBack computePartial c

/-- How `checkSingle` ends; `unfinished` if it has made more rounds than we look at. -/
inductive Verdict where
  | unfinished
  | panicked
  | returned (ok : Bool) (longest : Longest)
deriving DecidableEq, Repr

/-- The loop. The flag may be set at any time: `kill k` is what round `k` reads. -/
def rounds [DecidableEq σ] (model : Model ι ο σ) (computePartial : Bool) (head n : ℕ)
    (kill : ℕ → Bool) : ℕ → ℕ → Checking ι ο σ → Verdict
  | 0, _, _ => .unfinished
  | fuel + 1, k, c =>
    match round model computePartial head n (kill k) c with
    | none => .panicked
    | some (.returned ok longest) => .returned ok longest
    | some (.running c) => rounds model computePartial head n kill fuel (k + 1) c

/-- The variables before the loop, and the number of operations. -/
def initialChecking [DecidableEq σ] (model : Model ι ο σ) (history : List (Entry ι ο)) :
    Checking ι ο σ × ℕ :=
  let (heap, entry) := makeLinkedEntries history
  let n := length heap history.length entry / 2
  let heap := insertBefore (Function.update heap history.length {}) history.length entry
  ({ heap, entry, linearized := newBitset n, cache := fun _ => [], calls := [],
     longest := List.replicate n none, state := model.init }, n)

def checkSingle [DecidableEq σ] (model : Model ι ο σ) (history : List (Entry ι ο))
    (computePartial : Bool) (kill : ℕ → Bool) (fuel : ℕ) : Verdict :=
  let (c, n) := initialChecking model history
  rounds model computePartial history.length n kill fuel 0 c

/-! ## The longest partial linearizations -/

/-- What `recordLongest` does to the sequence of an operation. -/
def longer (seq : List ℕ) (old : Option (List ℕ)) : Option (List ℕ) :=
  if old.all (seq.length > ·.length) then some seq else old

theorem longer_longer (seq : List ℕ) (old : Option (List ℕ)) :
    longer seq (longer seq old) = longer seq old := by
  by_cases hold : old.all (seq.length > ·.length) = true
  · simp [longer, hold]
  · simp [longer, hold]

theorem longer_spec (seq : List ℕ) (old : Option (List ℕ)) :
    ∃ l, longer seq old = some l ∧ seq.length ≤ l.length ∧ (l = seq ∨ old = some l) ∧
      ∀ l', old = some l' → l'.length ≤ l.length := by
  cases old with
  | none => exact ⟨seq, by simp [longer], le_refl _, Or.inl rfl, by simp⟩
  | some l =>
    by_cases hlen : l.length < seq.length
    · refine ⟨seq, by simp [longer, hlen], le_refl _, Or.inl rfl, ?_⟩
      rintro l' ⟨⟩
      exact hlen.le
    · refine ⟨l, by simp [longer, hlen], not_lt.mp hlen, Or.inr rfl, ?_⟩
      rintro l' ⟨⟩
      exact le_refl _

theorem recordLongest_eq {seq : List ℕ} {longest : Longest}
    (hmem : ∀ id ∈ seq, id < longest.length) :
    ∃ longest', recordLongest seq longest = some longest' ∧
      longest'.length = longest.length ∧
      ∀ id, longest'[id]? = if id ∈ seq then longest[id]?.map (longer seq) else longest[id]? := by
  -- the loop over any of the operations, with the sequence of them all
  have hloop : ∀ (ids : List ℕ) (longest : Longest), (∀ id ∈ ids, id < longest.length) →
      ∃ longest', ids.foldlM (fun longest id => longest[id]?.map fun old =>
          if old.all (seq.length > ·.length) then longest.set id (some seq) else longest) longest =
          some longest' ∧ longest'.length = longest.length ∧
        ∀ id, longest'[id]? = if id ∈ ids then longest[id]?.map (longer seq) else longest[id]? := by
    intro ids
    induction ids with
    | nil =>
      intro longest _
      exact ⟨longest, rfl, rfl, by simp⟩
    | cons a ids ih =>
      intro longest hmem
      have ha := hmem a List.mem_cons_self
      -- the body of the loop
      have hbody : ∃ longest₁ : Longest, (longest[a]?.map fun old =>
          if old.all (seq.length > ·.length) then longest.set a (some seq) else longest) =
            some longest₁ ∧ longest₁ = longest.set a (longer seq longest[a]) := by
        refine ⟨_, by rw [List.getElem?_eq_getElem ha, Option.map_some], ?_⟩
        by_cases hold : longest[a].all (seq.length > ·.length) = true
        · simp [longer, hold]
        · simp [longer, hold]
      rcases hbody with ⟨longest₁, hfirst, hset⟩
      have hlen : longest₁.length = longest.length := by rw [hset, List.length_set]
      rcases ih longest₁ fun id hid => hlen.symm ▸ hmem id (List.mem_cons_of_mem a hid) with
        ⟨longest', hfold, hlen', heq⟩
      refine ⟨longest', ?_, hlen'.trans hlen, ?_⟩
      · rw [List.foldlM_cons, hfirst]
        exact hfold
      · intro id
        rw [heq id, hset]
        by_cases hida : id = a
        · subst hida
          by_cases hin : id ∈ ids
          · simp [hin, ha, longer_longer]
          · simp [hin, ha]
        · simp [hida, Ne.symm hida]
  exact hloop seq longest hmem

/-- The sequences of these operations are at least as long as there are operations. -/
def Reached (longest : Longest) (S : Finset ℕ) : Prop :=
  ∀ id ∈ S, ∃ l, longest[id]? = some (some l) ∧ S.card ≤ l.length

/-- What `longest` holds during a search. A configuration is recorded when the search leaves it,
so those on the path are missing. -/
structure Records (P : SearchProblem (Finset ℕ × σ) ℕ) (n : ℕ) (computePartial : Bool)
    (longest : Longest) (a : Search (Finset ℕ × σ) ℕ) : Prop where
  length : longest.length = n
  valid : ∀ id l, longest[id]? = some (some l) → id ∈ l ∧ ∃ d, P.Walk P.init l d
  left : computePartial = true → ∀ x ∈ a.cache, x ∈ a.path ∨ Reached longest x.1

section

variable {P : SearchProblem (Finset ℕ × σ) ℕ} {n : ℕ} {computePartial : Bool} {longest : Longest}
  {c d : Finset ℕ × σ} {m : ℕ} {ms todo : List ℕ} {st : List (Frame (Finset ℕ × σ) ℕ)}
  {f : Frame (Finset ℕ × σ) ℕ} {cache : Set (Finset ℕ × σ)}

theorem Records.pass (h : Records P n computePartial longest ⟨c, m :: ms, st, cache⟩) :
    Records P n computePartial longest ⟨c, ms, st, cache⟩ :=
  ⟨h.length, h.valid, h.left⟩

theorem Records.enter (h : Records P n computePartial longest ⟨c, m :: ms, st, cache⟩) :
    Records P n computePartial longest ⟨d, todo, ⟨c, m, ms⟩ :: st, insert d cache⟩ where
  length := h.length
  valid := h.valid
  left := by
    intro hpartial x hx
    rcases hx with rfl | hx
    · exact Or.inl List.mem_cons_self
    · rcases h.left hpartial x hx with hmem | hreached
      · exact Or.inl (List.mem_cons_of_mem d hmem)
      · exact Or.inr hreached

/-- Without the sequences nothing is recorded. -/
theorem Records.leave_of_not (h : Records P n false longest ⟨c, [], f :: st, cache⟩) :
    Records P n false longest ⟨f.config, f.todo, st, cache⟩ :=
  ⟨h.length, h.valid, fun hpartial => by cases hpartial⟩

/-- The operations of the path are recorded as the search leaves their configuration. -/
theorem Records.leave {seq : List ℕ} {longest' : Longest}
    (h : Records P n true longest ⟨c, [], f :: st, cache⟩)
    (hwalk : P.Walk P.init seq c) (hset : ∀ id, id ∈ c.1 ↔ id ∈ seq) (hcard : c.1.card = seq.length)
    (hbound : ∀ id ∈ seq, id < n) (hlen : longest'.length = longest.length)
    (heq : ∀ id, longest'[id]? = if id ∈ seq then longest[id]?.map (longer seq) else longest[id]?) :
    Records P n true longest' ⟨f.config, f.todo, st, cache⟩ := by
  -- the sequence of an operation never gets shorter
  have hmono : ∀ (id : ℕ) (l : List ℕ), longest[id]? = some (some l) →
      ∃ l' : List ℕ, longest'[id]? = some (some l') ∧ l.length ≤ l'.length := by
    intro id l hl
    rw [heq id, hl]
    by_cases hid : id ∈ seq
    · rcases longer_spec seq (some l) with ⟨l', hl', -, -, hle⟩
      exact ⟨l', by rw [if_pos hid, Option.map_some, hl'], hle l rfl⟩
    · exact ⟨l, by rw [if_neg hid], le_refl _⟩
  constructor
  · exact hlen.trans h.length
  · intro id l hl
    rw [heq id] at hl
    by_cases hid : id ∈ seq
    · rw [if_pos hid] at hl
      rcases Option.map_eq_some_iff.mp hl with ⟨old, hold, hlonger⟩
      rcases longer_spec seq old with ⟨l', hl', -, hor, -⟩
      rw [hl', Option.some.injEq] at hlonger
      subst hlonger
      rcases hor with rfl | rfl
      · exact ⟨hid, c, hwalk⟩
      · exact h.valid id l' hold
    · rw [if_neg hid] at hl
      exact h.valid id l hl
  · intro _ x hx
    rcases h.left rfl x hx with hmem | hreached
    · rcases List.mem_cons.mp hmem with rfl | hmem
      · refine Or.inr fun id hid => ?_
        have hseq := (hset id).mp hid
        have hget : ∃ old, longest[id]? = some old := by
          have hid' : id < longest.length := h.length.symm ▸ hbound id hseq
          exact ⟨_, List.getElem?_eq_getElem hid'⟩
        rcases hget with ⟨old, hget⟩
        rcases longer_spec seq old with ⟨l, hl, hle, -, -⟩
        exact ⟨l, by rw [heq id, if_pos hseq, hget, Option.map_some, hl], hcard.symm ▸ hle⟩
      · exact Or.inl hmem
    · refine Or.inr fun id hid => ?_
      rcases hreached id hid with ⟨l, hl, hle⟩
      rcases hmono id l hl with ⟨l', hl', hle'⟩
      exact ⟨l', hl', hle.trans hle'⟩

end

/-! ## The cache -/

/-- The cache holds the configurations that have been entered, each at its hash. -/
structure Caches (n : ℕ) (cache : Cache σ) (entered : Set (Finset ℕ × σ)) : Prop where
  sound : ∀ k, ∀ x ∈ cache k, ∃ S, Holds n x.linearized S ∧ (S, x.state) ∈ entered
  complete : ∀ x ∈ entered, ∃ b, Holds n b x.1 ∧ ⟨b, x.2⟩ ∈ cache b.hash

section

variable {n : ℕ} {cache : Cache σ} {entered : Set (Finset ℕ × σ)} {b : Bitset} {S : Finset ℕ}
  {s : σ}

theorem Caches.insert (hs : Caches n cache entered) (hb : Holds n b S) (s : σ) :
    Caches n (Function.update cache b.hash (cache b.hash ++ [⟨b, s⟩]))
      (insert (S, s) entered) := by
  constructor
  · intro k x hx
    by_cases hk : k = b.hash
    · rw [hk, Function.update_self, List.mem_append, List.mem_singleton] at hx
      rcases hx with hx | rfl
      · rcases hs.sound _ x hx with ⟨S', hS', hmem⟩
        exact ⟨S', hS', Or.inr hmem⟩
      · exact ⟨S, hb, Or.inl rfl⟩
    · rw [Function.update_of_ne hk] at hx
      rcases hs.sound k x hx with ⟨S', hS', hmem⟩
      exact ⟨S', hS', Or.inr hmem⟩
  · intro x hx
    rcases hx with rfl | hx
    · refine ⟨b, hb, ?_⟩
      rw [Function.update_self]
      exact List.mem_append_right _ (List.mem_singleton.mpr rfl)
    · rcases hs.complete x hx with ⟨b', hb', hmem⟩
      refine ⟨b', hb', ?_⟩
      by_cases hk : b'.hash = b.hash
      · rw [hk, Function.update_self, ← hk]
        exact List.mem_append_left _ hmem
      · rwa [Function.update_of_ne hk]

/-- Other bit sets with the same hash do not count. -/
theorem Caches.contains_iff [DecidableEq σ] {M : Model ι ο σ} (hs : Caches n cache entered)
    (hb : Holds n b S) : cacheContains M cache ⟨b, s⟩ = true ↔
      ∃ x ∈ entered, S = x.1 ∧ M.equal s x.2 = true := by
  rw [cacheContains, List.any_eq_true]
  constructor
  · rintro ⟨elem, helem, hsame⟩
    rw [Bool.and_eq_true, Bitset.equals_iff] at hsame
    rcases hs.sound _ elem helem with ⟨S', hb', hmem⟩
    exact ⟨(S', elem.state), hmem, (hb.eq_iff hb').mp hsame.1, hsame.2⟩
  · rintro ⟨x, hx, hS, heq⟩
    rcases hs.complete x hx with ⟨b', hb', hmem⟩
    have hbb : b = b' := (hb.eq_iff hb').mpr hS
    rw [← hbb] at hmem
    exact ⟨⟨b, x.2⟩, hmem, by simp [Bitset.equals_iff, heq]⟩

end

/-! ## The simulation -/

/-- The operations that are tried from a position of the list on. -/
def movesFrom (h : List (Entry ι ο)) (rest : List ℕ) : List ℕ :=
  (rest.takeWhile (isCallAt h)).map (idAt h)

/-- The stack of the source and the frames of the search. To go back, `unlift` has to give the
memory of the configuration below. -/
inductive Frames (h : List (Entry ι ο)) :
    Heap ι ο → Finset ℕ → List (CallsEntry σ) → List (Frame (Finset ℕ × σ) ℕ) → Prop
  | nil {heap : Heap ι ο} {S : Finset ℕ} : Frames h heap S [] []
  | cons {heap heap' : Heap ι ο} {S : Finset ℕ} {e id : ℕ} {s : σ} {tried rest : List ℕ}
      {calls : List (CallsEntry σ)} {st : List (Frame (Finset ℕ × σ) ℕ)}
      (hshows : Shows h heap S) (hrem : remaining h S = tried ++ e :: rest) (hcall : CallAt h e id)
      (hback : unlift heap' e = some heap) (hframes : Frames h heap S calls st) :
      Frames h heap' (insert id S) (⟨e, s⟩ :: calls) (⟨(S, s), id, movesFrom h rest⟩ :: st)

/-- The search looks at the entry after `tried`; there is one as long as entries are left. -/
structure LooksAt (h : List (Entry ι ο)) (S : Finset ℕ) (entry : Option ℕ)
    (tried rest : List ℕ) : Prop where
  split : remaining h S = tried ++ rest
  entry_eq : entry = rest.head?
  nonempty : rest = [] → tried = []

/-- The variables of `checkSingle` and a state of the search. -/
structure Sim [DecidableEq σ] (M : Model ι ο σ) (h : List (Entry ι ο)) (computePartial : Bool)
    (c : Checking ι ο σ) (a : Search (Finset ℕ × σ) ℕ) : Prop where
  shows : Shows h c.heap a.current.1
  state : c.state = a.current.2
  bits : Holds (h.length / 2) c.linearized a.current.1
  entry : ∃ tried rest, LooksAt h a.current.1 c.entry tried rest ∧ a.todo = movesFrom h rest
  frames : Frames h c.heap a.current.1 c.calls a.stack
  cache : Caches (h.length / 2) c.cache a.cache
  records : Records (problem M h) (h.length / 2) computePartial c.longest a

section

variable {h : List (Entry ι ο)}

theorem Shows.head_next {heap : Heap ι ο} {S : Finset ℕ} (hs : Shows h heap S) :
    (heap h.length).next = (remaining h S).head? :=
  hs.linked.2.1

/-- After a call, the next node is in the list, as the return of the operation is still to
come. -/
theorem Shows.after (hc : Complete h) {heap : Heap ι ο} {S : Finset ℕ} {tried rest : List ℕ}
    {e id : ℕ} (hs : Shows h heap S) (hrem : remaining h S = tried ++ e :: rest)
    (hcall : CallAt h e id) : LooksAt h S (heap e).next (tried ++ [e]) rest := by
  have hlinked := hs.linked
  have hnodup := length_cons_remaining_nodup h S
  rw [hrem] at hlinked hnodup
  rcases hlinked.takeOut hnodup with ⟨-, -, -, hnext, -⟩
  refine ⟨by rw [hrem, List.append_assoc, List.singleton_append], hnext, ?_⟩
  intro hnil
  rcases hc.exists_return (hc.call_lt hcall) with ⟨r, hr⟩
  have hmem := hc.return_mem hrem hcall hr
  rw [hnil] at hmem
  cases hmem

theorem Frames.calls_eq_nil {heap : Heap ι ο} {S : Finset ℕ} {calls : List (CallsEntry σ)}
    (hf : Frames h heap S calls []) : calls = [] := by
  cases hf
  rfl

/-- The ids of the stack are the moves of the search, whatever has been lifted. -/
theorem Frames.map_id {heap heap' : Heap ι ο} {S S' : Finset ℕ} {calls : List (CallsEntry σ)}
    {st : List (Frame (Finset ℕ × σ) ℕ)} (hf : Frames h heap S calls st)
    (hs : Shows h heap' S') :
    calls.map (fun v => (heap' v.entry).id) = st.map Frame.move := by
  induction hf with
  | nil => rfl
  | cons _ _ hcall _ _ ih =>
    rcases hcall with ⟨e, he, -, rfl⟩
    rw [List.map_cons, List.map_cons, ih, (hs.node _ e he).2]

end

section

variable [DecidableEq σ] {M : Model ι ο σ} {h : List (Entry ι ο)} {computePartial : Bool}
  {c : Checking ι ο σ} {a : Search (Finset ℕ × σ) ℕ}

theorem Sim.callIds_eq (hs : Sim M h computePartial c a) : callIds c.heap c.calls = a.trail := by
  rw [callIds, Search.trail, hs.frames.map_id hs.shows]

/-- The search goes on with the next entry. -/
theorem Sim.pass (hc : Complete h) {S : Finset ℕ} {s : σ} {tried rest : List ℕ} {e id : ℕ}
    {st : List (Frame (Finset ℕ × σ) ℕ)} {cache : Set (Finset ℕ × σ)}
    (hs : Sim M h computePartial c ⟨(S, s), id :: movesFrom h rest, st, cache⟩)
    (hcall : CallAt h e id) (hrem : remaining h S = tried ++ e :: rest) :
    Sim M h computePartial { c with entry := (c.heap e).next }
      ⟨(S, s), movesFrom h rest, st, cache⟩ :=
  ⟨hs.shows, hs.state, hs.bits, ⟨_, rest, hs.shows.after hc hrem hcall, rfl⟩, hs.frames,
    hs.cache, hs.records.pass⟩

/-- The search enters a new configuration. -/
theorem Sim.enter {S : Finset ℕ} {s s' : σ} {tried rest : List ℕ} {e id : ℕ}
    {st : List (Frame (Finset ℕ × σ) ℕ)} {cache : Set (Finset ℕ × σ)} {b : Bitset}
    {heap' : Heap ι ο}
    (hs : Sim M h computePartial c ⟨(S, s), id :: movesFrom h rest, st, cache⟩)
    (hcall : CallAt h e id) (hrem : remaining h S = tried ++ e :: rest)
    (hb : Holds (h.length / 2) b (insert id S)) (hshows : Shows h heap' (insert id S))
    (hback : unlift heap' e = some c.heap) :
    Sim M h computePartial
      { c with
        heap := heap', entry := (heap' h.length).next, linearized := b,
        cache := Function.update c.cache b.hash (c.cache b.hash ++ [⟨b, s'⟩]),
        calls := ⟨e, s⟩ :: c.calls, state := s' }
      ⟨(insert id S, s'), (problem M h).moves (insert id S, s'),
        ⟨(S, s), id, movesFrom h rest⟩ :: st, insert (insert id S, s') cache⟩ where
  shows := hshows
  state := rfl
  bits := hb
  entry := ⟨[], remaining h (insert id S), ⟨rfl, hshows.head_next, fun _ => rfl⟩, rfl⟩
  frames := .cons hs.shows hrem hcall hback hs.frames
  cache := hs.cache.insert hb s'
  records := hs.records.enter

/-- What happens to `longest` when the search goes back. -/
theorem Sim.record (hc : Complete h) {d : Finset ℕ × σ} {f : Frame (Finset ℕ × σ) ℕ}
    {st : List (Frame (Finset ℕ × σ) ℕ)} {cache : Set (Finset ℕ × σ)}
    (hinv : (problem M h).Inv ⟨d, [], f :: st, cache⟩)
    (hs : Sim M h computePartial c ⟨d, [], f :: st, cache⟩) :
    ∃ longest, recordPartial computePartial (callIds c.heap c.calls) c.longest = some longest ∧
      Records (problem M h) (h.length / 2) computePartial longest
        ⟨f.config, f.todo, st, cache⟩ := by
  cases computePartial with
  | false => exact ⟨c.longest, rfl, hs.records.leave_of_not⟩
  | true =>
    rw [recordPartial, if_pos rfl, hs.callIds_eq]
    have hwalk := hinv.spine.walk
    rcases hc.walk_iff.mp hwalk with ⟨⟨⟨hnodup, hmem, -⟩, -⟩, -, hset⟩
    have hbound : ∀ id ∈ ((f :: st).map Frame.move).reverse, id < h.length / 2 :=
      fun id hid => (hmem id hid).1
    have hset' : d.1 = ((f :: st).map Frame.move).reverse.toFinset := by
      rw [hset]
      exact Finset.empty_union _
    have hin : ∀ id ∈ ((f :: st).map Frame.move).reverse, id < c.longest.length := by
      rw [hs.records.length]
      exact hbound
    rcases recordLongest_eq hin with ⟨longest, hrec, hlen, heq⟩
    refine ⟨longest, hrec, hs.records.leave hwalk ?_ ?_ hbound hlen heq⟩
    · intro id
      rw [hset', List.mem_toFinset]
    · rw [hset', List.toFinset_card_of_nodup hnodup]

/-- The search goes back: `unlift` and `clear` give the configuration below. -/
theorem Sim.leave (hc : Complete h) {d : Finset ℕ × σ} {f : Frame (Finset ℕ × σ) ℕ}
    {st : List (Frame (Finset ℕ × σ) ℕ)} {cache : Set (Finset ℕ × σ)}
    (hinv : (problem M h).Inv ⟨d, [], f :: st, cache⟩)
    (hs : Sim M h computePartial c ⟨d, [], f :: st, cache⟩) :
    ∃ c', goBack computePartial c = some (.running c') ∧
      Sim M h computePartial c' ⟨f.config, f.todo, st, cache⟩ := by
  rcases hs.record hc hinv with ⟨longest, hlongest, hrecords⟩
  rcases d with ⟨S', s'⟩
  have hframes : Frames h c.heap S' c.calls (f :: st) := hs.frames
  generalize hcalls : c.calls = calls at hframes
  cases hframes with
  | @cons heap heap' S e id s tried rest calls st hshows hrem hcall hback hframes =>
    have hid : id ∉ S := by
      have hmem : e ∈ remaining h S := hrem ▸ List.mem_append_right tried List.mem_cons_self
      exact hcall.idAt ▸ (mem_remaining.mp hmem).2
    have hnode : (c.heap e).id = id := by
      rcases hcall with ⟨entry, hentry, -, rfl⟩
      exact (hs.shows.node e entry hentry).2
    rcases hs.bits.clear (hc.call_lt hcall) with ⟨b, hb, hbits⟩
    have herase : (insert id S).erase id = S := Finset.erase_insert hid
    let c' : Checking ι ο σ :=
      { c with
        heap := heap, entry := (heap e).next, linearized := b, calls := calls,
        longest := longest, state := s }
    refine ⟨c', ?_, ?_⟩
    · rw [hcalls] at hlongest
      simp only [goBack, hcalls, hlongest, hnode, hb, hback, Option.bind_eq_bind, Option.bind_some,
        c']
    · exact ⟨hshows, rfl, herase ▸ hbits, ⟨_, rest, hshows.after hc hrem hcall, rfl⟩, hframes,
        hs.cache, hrecords⟩

/-- A call is tried: the operation is refused, leads to a configuration that is cached, or is
linearized. -/
theorem Sim.tryCall (hc : Complete h) {d : Finset ℕ × σ} {tried rest : List ℕ} {e id r : ℕ}
    {st : List (Frame (Finset ℕ × σ) ℕ)} {cache : Set (Finset ℕ × σ)}
    (hs : Sim M h computePartial c ⟨d, id :: movesFrom h rest, st, cache⟩)
    (hd : ¬ (problem M h).done d) (hcall : CallAt h e id) (hret : ReturnAt h r id)
    (hrem : remaining h d.1 = tried ++ e :: rest) :
    ∃ c' a', tryCall M h.length c e r = some c' ∧
      (problem M h).Step ⟨d, id :: movesFrom h rest, st, cache⟩ a' ∧
      Sim M h computePartial c' a' := by
  rcases d with ⟨S, s⟩
  have hstate : c.state = s := hs.state
  have hid : id ∉ S := by
    have hmem : e ∈ remaining h S := hrem ▸ List.mem_append_right tried List.mem_cons_self
    exact hcall.idAt ▸ (mem_remaining.mp hmem).2
  have hcall' := hcall
  rcases hcall' with ⟨entry, hentry, hiscall, rfl⟩
  rcases hret with ⟨matching, hmatching, hisret, hreturn⟩
  have hnode := hs.shows.node e entry hentry
  have hnode' := hs.shows.node r matching hmatching
  cases hv : entry.value with
  | ret output => simp [Entry.isCall, hv, Value.isCall] at hiscall
  | call input =>
  cases hw : matching.value with
  | call input => simp [Entry.isCall, hw, Value.isCall] at hisret
  | ret output =>
  have hstep := hc.historySpec_step (M := M) (List.mem_of_getElem? hentry) hv
    (List.mem_of_getElem? hmatching) hw hreturn s
  rw [hv] at hnode
  rw [hw] at hnode'
  by_cases hok : (M.step s input output).1 = true
  · have hnext : (problem M h).next (S, s) entry.id =
        some (insert entry.id S, (M.step s input output).2) := by
      simp only [problem, hstep, hok, if_true, Option.map_some]
    rcases hs.bits.set (hc.call_lt hcall) with ⟨b, hb, hbits⟩
    by_cases hcached : cacheContains M c.cache ⟨b, (M.step s input output).2⟩ = true
    · refine ⟨_, _, ?_, .cached hd hnext ((hs.cache.contains_iff hbits).mp hcached),
        hs.pass hc hcall hrem⟩
      simp [Porcupine.tryCall, hnode.1, hnode'.1, hnode.2, hstate, hok, hb, hcached]
    · rcases hs.shows.lift hc hcall hid with ⟨heap, hlift, hshows, hback⟩
      refine ⟨_, _, ?_, .enter hd hnext fun hx => hcached ((hs.cache.contains_iff hbits).mpr hx),
        hs.enter hcall hrem hbits hshows hback⟩
      simp [Porcupine.tryCall, hnode.1, hnode'.1, hnode.2, hstate, hok, hb, hcached, hlift]
  · have hnext : (problem M h).next (S, s) entry.id = none := by
      simp only [problem, hstep, hok, if_false, Option.map_none, Bool.false_eq_true]
    refine ⟨_, _, ?_, .refused hd hnext, hs.pass hc hcall hrem⟩
    simp [Porcupine.tryCall, hnode.1, hnode'.1, hstate, hok]

/-- A round of the loop is a step of the search, or ends it. -/
theorem Sim.round (hc : Complete h) (hinv : (problem M h).Inv a) (hs : Sim M h computePartial c a)
    (hd : ¬ (problem M h).done a.current) :
    (∃ c' a', round M computePartial h.length (h.length / 2) false c = some (.running c') ∧
      (problem M h).Step a a' ∧ Sim M h computePartial c' a') ∨
    (round M computePartial h.length (h.length / 2) false c = some (.returned false c.longest) ∧
      a.todo = [] ∧ a.stack = []) := by
  rcases a with ⟨d, todo, st, cache⟩
  rcases hs.entry with ⟨tried, rest, hlooks, htodo⟩
  simp only at hlooks htodo
  subst htodo
  cases rest with
  | nil =>
    have hnil := hlooks.split
    rw [hlooks.nonempty rfl, List.append_nil] at hnil
    exact absurd hnil hd
  | cons e rest =>
    have hrem := hlooks.split
    have hlen : e < h.length := by
      have hmem : e ∈ remaining h d.1 := hrem ▸ List.mem_append_right tried List.mem_cons_self
      exact (mem_remaining.mp hmem).1
    have hnext : (c.heap h.length).next ≠ none := by
      rw [hs.shows.head_next, Ne, List.head?_eq_none_iff]
      exact hd
    have hround : Porcupine.round M computePartial h.length (h.length / 2) false c =
        match (c.heap e).matching with
        | some matching => (Porcupine.tryCall M h.length c e matching).map .running
        | none => goBack computePartial c := by
      rw [Porcupine.round, if_neg hnext, hlooks.entry_eq]
      rfl
    rw [hround]
    rcases callAt_or_returnAt hlen with ⟨hcallAt, hat⟩ | ⟨hcallAt, hat⟩
    · rcases hs.shows.call e _ hat with ⟨r, hr, hmatch⟩
      have hmoves : movesFrom h (e :: rest) = idAt h e :: movesFrom h rest := by
        rw [movesFrom, List.takeWhile_cons_of_pos hcallAt, List.map_cons, movesFrom]
      rw [hmoves] at hs ⊢
      rcases hs.tryCall hc hd hat hr hrem with ⟨c', a', hstep, habs, hsim⟩
      exact Or.inl ⟨c', a', by simp only [hmatch, hstep, Option.map_some], habs, hsim⟩
    · have hmoves : movesFrom h (e :: rest) = [] := by
        rw [movesFrom, List.takeWhile_cons_of_neg (by simp [hcallAt]), List.map_nil]
      rw [hmoves] at hs hinv ⊢
      rw [hs.shows.ret e _ hat]
      cases st with
      | nil =>
        exact Or.inr ⟨by simp only [goBack, hs.frames.calls_eq_nil], rfl, rfl⟩
      | cons f st =>
        rcases hs.leave hc hinv with ⟨c', hback, hsim⟩
        exact Or.inl ⟨c', _, hback, .leave hd, hsim⟩

end

/-! ## What `checkSingle` answers -/

/-- What a returned answer means; `killed` says that the flag was set. -/
structure Answers [DecidableEq σ] (M : Model ι ο σ) (h : List (Entry ι ο)) (computePartial : Bool)
    (killed : Prop) (ok : Bool) (longest : Longest) : Prop where
  length : longest.length = h.length / 2
  valid : ∀ id l, longest[id]? = some (some l) →
    id ∈ l ∧ PartlyLinearizes (historySpec M h) (before h) (List.range (h.length / 2)) l
  found : ok = true → Explained M h ∧ ∀ id < h.length / 2, ∃ l, longest[id]? = some (some l) ∧
    Linearizes (historySpec M h) (before h) (List.range (h.length / 2)) l
  refuted : ok = false → killed ∨ ¬ Explained M h
  maximal : computePartial = true → ok = false → killed ∨
    ∀ l, PartlyLinearizes (historySpec M h) (before h) (List.range (h.length / 2)) l →
      ∀ id ∈ l, ∃ l', longest[id]? = some (some l') ∧ l.length ≤ l'.length

section

variable [DecidableEq σ] {M : Model ι ο σ} {h : List (Entry ι ο)} {computePartial : Bool}
  {c : Checking ι ο σ} {a : Search (Finset ℕ × σ) ℕ}

/-- Nothing is left: the search has found an order. -/
theorem Sim.answers_done (hc : Complete h) (hinv : (problem M h).Inv a)
    (hs : Sim M h computePartial c a) (hd : (problem M h).done a.current) (killed : Prop) :
    Answers M h computePartial killed true
      (List.replicate (h.length / 2) (some (callIds c.heap c.calls))) := by
  have hwalk := hinv.spine.walk
  have hlin := hc.linearizes_of_done hwalk hd
  have hpart := hc.walk_init_iff.mp ⟨_, hwalk⟩
  rw [hs.callIds_eq]
  constructor
  · exact List.length_replicate
  · intro id l hl
    rw [List.getElem?_replicate] at hl
    split_ifs at hl with hid
    rw [Option.some.injEq, Option.some.injEq] at hl
    rw [← hl]
    exact ⟨hlin.perm.mem_iff.mpr (List.mem_range.mpr hid), hpart⟩
  · intro _
    refine ⟨⟨_, hlin⟩, ?_⟩
    intro id hid
    exact ⟨a.trail, by rw [List.getElem?_replicate, if_pos hid], hlin⟩
  · intro hok
    cases hok
  · intro _ hok
    cases hok

/-- The flag is set: the answer says nothing. -/
theorem Sim.answers_killed (hc : Complete h) (hs : Sim M h computePartial c a) {killed : Prop}
    (hkilled : killed) : Answers M h computePartial killed false c.longest where
  length := hs.records.length
  valid id l hl := ⟨(hs.records.valid id l hl).1, hc.walk_init_iff.mp (hs.records.valid id l hl).2⟩
  found hok := by cases hok
  refuted _ := Or.inl hkilled
  maximal _ _ := Or.inl hkilled

/-- Everything has been tried: there is no order, and the longest parts of one are recorded. -/
theorem Sim.answers_failed (hM : M.Lawful) (hc : Complete h) (hinv : (problem M h).Inv a)
    (hs : Sim M h computePartial c a) (hd : ¬ (problem M h).done a.current) (htodo : a.todo = [])
    (hstack : a.stack = []) (killed : Prop) :
    Answers M h computePartial killed false c.longest := by
  have hinit : a.current = (problem M h).init := by
    have hspine := hinv.spine
    rw [hstack] at hspine
    exact hspine.eq_init
  constructor
  · exact hs.records.length
  · intro id l hl
    exact ⟨(hs.records.valid id l hl).1, hc.walk_init_iff.mp (hs.records.valid id l hl).2⟩
  · intro hok
    cases hok
  · intro _
    refine Or.inr fun hex => ?_
    rcases hc.solvable_iff.mpr hex with ⟨l, d, hwalk, hdone⟩
    exact hinv.not_done (problem_respects hM) htodo hstack hd hwalk hdone
  · intro hpartial _
    refine Or.inr fun l hl id hid => ?_
    rcases hc.walk_init_iff.mpr hl with ⟨d, hwalk⟩
    rcases hc.walk_iff.mp hwalk with ⟨⟨⟨hnodup, -, -⟩, -⟩, -, hset⟩
    rcases hinv.covers (problem_respects hM) htodo hstack hwalk with ⟨x, hx, hsame, -⟩
    -- the operations of the sequence are those of a configuration that was entered
    have hxset : x.1 = l.toFinset := by
      rw [← hsame, hset]
      exact Finset.empty_union _
    have hmem : id ∈ x.1 := by rwa [hxset, List.mem_toFinset]
    have hnotinit : x ≠ (problem M h).init := by
      intro heq
      rw [heq] at hmem
      exact absurd hmem (Finset.notMem_empty id)
    rcases hx with hx | hx
    · exact absurd hx hnotinit
    · rcases hs.records.left hpartial x hx with hpath | hreached
      · rw [Search.path, hstack, List.map_nil, List.mem_singleton] at hpath
        exact absurd (hpath.trans hinit) hnotinit
      · rcases hreached id hmem with ⟨l', hl', hle⟩
        refine ⟨l', hl', ?_⟩
        rwa [hxset, List.toFinset_card_of_nodup hnodup] at hle

/-- A state of the loop from which at most `m` rounds are left. -/
def InSearch (M : Model ι ο σ) (h : List (Entry ι ο)) (computePartial : Bool) (m : ℕ)
    (c : Checking ι ο σ) : Prop :=
  ∃ a, (problem M h).Inv a ∧ Sim M h computePartial c a ∧
    SearchProblem.potential (h.length + 2) (h.length / 2) a ≤ m

/-- One round, whatever the flag is: no panic, and a right answer or progress. -/
theorem InSearch.round (hM : M.Lawful) (hc : Complete h) {m : ℕ}
    (hs : InSearch M h computePartial m c) (kill : Bool) :
    (∃ c' m', m' < m ∧ InSearch M h computePartial m' c' ∧
      round M computePartial h.length (h.length / 2) kill c = some (.running c')) ∨
    ∃ ok longest, Answers M h computePartial (kill = true) ok longest ∧
      round M computePartial h.length (h.length / 2) kill c = some (.returned ok longest) := by
  rcases hs with ⟨a, hinv, hsim, hm⟩
  by_cases hd : (problem M h).done a.current
  · refine Or.inr ⟨true, _, hsim.answers_done hc hinv hd _, ?_⟩
    rw [Porcupine.round, if_pos]
    rw [hsim.shows.head_next, List.head?_eq_none_iff]
    exact hd
  · cases kill with
    | true =>
      refine Or.inr ⟨false, _, hsim.answers_killed hc rfl, ?_⟩
      rw [Porcupine.round, if_neg, if_pos rfl]
      rw [hsim.shows.head_next, List.head?_eq_none_iff]
      exact hd
    | false =>
      rcases hsim.round hc hinv hd with ⟨c', a', hround, hstep, hsim'⟩ | ⟨hround, htodo, hstack⟩
      · have hlt := hstep.potential_lt hc.bounded hinv
        refine Or.inl ⟨c', _, hlt.trans_le hm, ⟨a', ?_, hsim', le_refl _⟩, hround⟩
        exact hinv.step (problem_respects hM).refl hstep
      · exact Or.inr ⟨false, _, hsim.answers_failed hM hc hinv hd htodo hstack _, hround⟩

theorem Answers.mono {killed killed' : Prop} {ok : Bool} {longest : Longest}
    (h' : Answers M h computePartial killed ok longest) (himp : killed → killed') :
    Answers M h computePartial killed' ok longest :=
  ⟨h'.length, h'.valid, h'.found, fun hok => (h'.refuted hok).imp himp id,
    fun hpartial hok => (h'.maximal hpartial hok).imp himp id⟩

/-- The loop ends with a right answer. -/
theorem InSearch.rounds (hM : M.Lawful) (hc : Complete h) (kill : ℕ → Bool) {m fuel k : ℕ}
    (hs : InSearch M h computePartial m c) (hfuel : m < fuel) :
    ∃ ok longest, Answers M h computePartial (∃ k, kill k = true) ok longest ∧
      rounds M computePartial h.length (h.length / 2) kill fuel k c = .returned ok longest := by
  induction fuel generalizing m k c with
  | zero => exact absurd hfuel (Nat.not_lt_zero m)
  | succ fuel ih =>
    rcases hs.round hM hc (kill k) with ⟨c', m', hlt, hs', hround⟩ | ⟨ok, longest, hans, hround⟩
    · rcases ih (k := k + 1) hs' (by omega) with ⟨ok, longest, hans, hrounds⟩
      exact ⟨ok, longest, hans, by simp only [Porcupine.rounds, hround, hrounds]⟩
    · exact ⟨ok, longest, hans.mono fun hk => ⟨k, hk⟩, by simp only [Porcupine.rounds, hround]⟩

/-- The rounds that `checkSingle` makes at most. -/
def roundBound (h : List (Entry ι ο)) : ℕ := (h.length + 2) ^ (h.length / 2 + 1)

theorem Complete.initialChecking_eq (hc : Complete h) :
    (initialChecking M h).2 = h.length / 2 := by
  simp only [initialChecking, hc.length_makeLinkedEntries]

theorem Complete.inSearch_initial (hc : Complete h) (computePartial : Bool) :
    InSearch M h computePartial (roundBound h) (initialChecking M h).1 := by
  refine ⟨(problem M h).start, SearchProblem.inv_start, ?_, ?_⟩
  · have hshows := hc.shows_makeLinkedEntries
    have hlen := hc.length_makeLinkedEntries
    refine ⟨hshows, rfl, ?_, ⟨[], remaining h ∅, ⟨rfl, ?_, fun _ => rfl⟩, rfl⟩, .nil, ?_, ?_⟩
    · simp only [initialChecking, hlen]
      exact Holds.new _
    · have hl := hc.linkFrom 0
      rw [List.drop_zero] at hl
      rw [remaining_empty, List.range_eq_range']
      exact hl.root
    · exact ⟨fun k x hx => absurd hx List.not_mem_nil, fun x hx => absurd hx (Set.notMem_empty x)⟩
    · refine ⟨?_, ?_, fun _ x hx => absurd hx (Set.notMem_empty x)⟩
      · simp only [initialChecking, hlen, List.length_replicate]
      · intro id l hl
        simp only [initialChecking, List.getElem?_replicate] at hl
        split_ifs at hl
        rw [Option.some.injEq] at hl
        cases hl
  · have hmoves := (hc.bounded (M := M)).moves (problem M h).init
    simp only [SearchProblem.potential, SearchProblem.start, SearchProblem.stackPotential,
      List.length_nil, Nat.sub_zero, Nat.add_zero, roundBound, Nat.pow_succ']
    exact Nat.mul_le_mul_right _ hmoves.le

/-- Without the flag, no partial linearization is longer than the recorded ones. -/
theorem Answers.longest_maximal {killed : Prop} {ok : Bool} {longest : Longest}
    (h' : Answers M h true killed ok longest) (hkilled : ¬ killed) {l : List ℕ}
    (hl : PartlyLinearizes (historySpec M h) (before h) (List.range (h.length / 2)) l) {id : ℕ}
    (hid : id ∈ l) : ∃ l', longest[id]? = some (some l') ∧ l.length ≤ l'.length := by
  cases ok with
  | true =>
    -- the recorded order has all operations
    have hlt := List.mem_range.mp (hl.subperm.subset hid)
    rcases (h'.found rfl).2 id hlt with ⟨l', hl', hlin⟩
    exact ⟨l', hl', hlin.perm.length_eq ▸ hl.subperm.length_le⟩
  | false =>
    rcases h'.maximal rfl rfl with hk | hmax
    · exact absurd hk hkilled
    · exact hmax l hl id hid

theorem Complete.checkSingle_answers (hM : M.Lawful) (hc : Complete h) (computePartial : Bool)
    (kill : ℕ → Bool) {fuel : ℕ} (hfuel : roundBound h < fuel) :
    ∃ ok longest, Answers M h computePartial (∃ k, kill k = true) ok longest ∧
      checkSingle M h computePartial kill fuel = .returned ok longest := by
  rcases (hc.inSearch_initial (M := M) computePartial).rounds hM hc kill (k := 0) hfuel with ⟨ok, longest, hans, hrounds⟩
  refine ⟨ok, longest, hans, ?_⟩
  rw [← hrounds]
  simp only [checkSingle]
  rw [hc.initialChecking_eq]

/-- The search ends without a panic. It finds an order only if there is one; if it is not
killed, it finds one if there is one. -/
theorem checkSingle_correct (hM : M.Lawful) (hc : Complete h) (kill : ℕ → Bool) {fuel : ℕ}
    (hfuel : roundBound h < fuel) :
    ∃ ok longest, checkSingle M h computePartial kill fuel = .returned ok longest ∧
      (ok = true → Explained M h) ∧
      ((∀ k, kill k = false) → Explained M h → ok = true) := by
  rcases hc.checkSingle_answers hM computePartial kill hfuel with ⟨ok, longest, hans, hcheck⟩
  refine ⟨ok, longest, hcheck, fun hok => (hans.found hok).1, ?_⟩
  intro hkill hex
  cases ok with
  | true => rfl
  | false =>
    rcases hans.refuted rfl with ⟨k, hk⟩ | hnot
    · rw [hkill k] at hk
      cases hk
    · exact absurd hex hnot

/-- For each operation, the search that is not killed records a partial linearization that
contains it, and none is longer. -/
theorem checkSingle_longest (hM : M.Lawful) (hc : Complete h) {fuel : ℕ}
    (hfuel : roundBound h < fuel) :
    ∃ ok longest, checkSingle M h true (fun _ => false) fuel = .returned ok longest ∧
      (∀ id l, longest[id]? = some (some l) →
        id ∈ l ∧ PartlyLinearizes (historySpec M h) (before h) (List.range (h.length / 2)) l) ∧
      ∀ l, PartlyLinearizes (historySpec M h) (before h) (List.range (h.length / 2)) l →
        ∀ id ∈ l, ∃ l', longest[id]? = some (some l') ∧ l.length ≤ l'.length := by
  rcases hc.checkSingle_answers hM true (fun _ => false) hfuel with
    ⟨ok, longest, hans, hcheck⟩
  refine ⟨ok, longest, hcheck, hans.valid, ?_⟩
  intro l hl id hid
  apply hans.longest_maximal _ hl hid
  rintro ⟨k, hk⟩
  cases hk

end

/-- A register: an input is a value to write, or `none` to read; a write returns 0. -/
def register : Model (Option ℕ) ℕ ℕ where
  init := 0
  step s input output :=
    match input with
    | some v => (output = 0, v)
    | none => (output = s, s)

/-- A read that overlaps a write of 1 and sees it. -/
def overlapping : List (Entry (Option ℕ) ℕ) :=
  [⟨.call (some 1), 0, 0, 0⟩, ⟨.call none, 1, 1, 1⟩, ⟨.ret 1, 1, 2, 1⟩, ⟨.ret 0, 0, 3, 0⟩]

theorem overlapping_complete : Complete overlapping :=
  ⟨by decide, by decide, by decide⟩

theorem checkSingle_correct_overlapping :
    ∃ ok longest, checkSingle register overlapping false (fun _ => false) 217 =
        .returned ok longest ∧
      (ok = true → Explained register overlapping) ∧
      ((∀ k : ℕ, (fun _ => false) k = false) → Explained register overlapping → ok = true) :=
  checkSingle_correct (Model.lawful_of_shallowEqual rfl) overlapping_complete (fun _ => false)
    (by decide)

theorem checkSingle_longest_overlapping :
    ∃ ok longest, checkSingle register overlapping true (fun _ => false) 217 =
        .returned ok longest ∧
      (∀ id l, longest[id]? = some (some l) → id ∈ l ∧
        PartlyLinearizes (historySpec register overlapping) (before overlapping)
          (List.range (overlapping.length / 2)) l) ∧
      ∀ l, PartlyLinearizes (historySpec register overlapping) (before overlapping)
          (List.range (overlapping.length / 2)) l →
        ∀ id ∈ l, ∃ l', longest[id]? = some (some l') ∧ l.length ≤ l'.length :=
  checkSingle_longest (Model.lawful_of_shallowEqual rfl) overlapping_complete (by decide)

end DistStudy.Porcupine
