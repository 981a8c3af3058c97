import DistStudy.Porcupine.History
import Mathlib.Data.List.Sort

/-!
# The linked list of the entries

`makeLinkedEntries` of `porcupine/checker.go` links the entries of a history in both
directions, and every call to its return. `lift` takes the call and the return of an operation
out of the list, `unlift` puts them back; a node that was taken out keeps its own pointers, and
`unlift` relies on them.

`Shows` says that the list holds the entries of the operations that are left. `Shows.lift` is
the result: what `lift` leaves are the entries without those of the operation, and `unlift`
gives back the memory of before, exactly.
-/

namespace DistStudy.Porcupine

variable {ι ο : Type}

/-- A node, and the addresses of its neighbours; `none` is `nil`. The value of the head is
`nil`, too, and its id of -1, which is never read, is left out. -/
structure Node (ι ο : Type) where
  value : Option (Value ι ο) := none
  /-- `match`: the return of a call. A node without it counts as a return. -/
  matching : Option ℕ := none
  id : ℕ := 0
  next : Option ℕ := none
  prev : Option ℕ := none
deriving DecidableEq, Repr

/-- The memory. The node of the entry at position `i` of the history has the address `i`. -/
abbrev Heap (ι ο : Type) : Type := ℕ → Node ι ο

namespace Heap

def setNext (heap : Heap ι ο) (a : ℕ) (next : Option ℕ) : Heap ι ο :=
  Function.update heap a { heap a with next := next }

def setPrev (heap : Heap ι ο) (a : ℕ) (prev : Option ℕ) : Heap ι ο :=
  Function.update heap a { heap a with prev := prev }

end Heap

def insertBefore (heap : Heap ι ο) (n : ℕ) (mark : Option ℕ) : Heap ι ο :=
  match mark with
  | none => heap
  | some mark =>
    let beforeMark := (heap mark).prev
    let heap := heap.setPrev mark (some n)
    let heap := heap.setNext n (some mark)
    match beforeMark with
    | none => heap
    | some beforeMark =>
      let heap := heap.setPrev n (some beforeMark)
      heap.setNext beforeMark (some n)

/-- The loop of `length`, for a list of at most `fuel` nodes. -/
def length (heap : Heap ι ο) : ℕ → Option ℕ → ℕ
  | 0, _ => 0
  | _, none => 0
  | fuel + 1, some n => length heap fuel (heap n).next + 1

/-- The variables of `makeLinkedEntries`. -/
structure Linking (ι ο : Type) where
  heap : Heap ι ο
  root : Option ℕ
  /-- `match`: the return of each operation. -/
  returns : ℕ → Option ℕ

/-- The body of the loop of `makeLinkedEntries`. -/
def linkEntry (entry : Entry ι ο × ℕ) (l : Linking ι ο) : Linking ι ο :=
  let (elem, i) := entry
  match elem.value with
  | .ret _ =>
    let heap := Function.update l.heap i { value := some elem.value, id := elem.id }
    { heap := insertBefore heap i l.root, root := some i,
      returns := Function.update l.returns elem.id (some i) }
  | .call _ =>
    let heap := Function.update l.heap i
      { value := some elem.value, matching := l.returns elem.id, id := elem.id }
    { l with heap := insertBefore heap i l.root, root := some i }

/-- Link entries whose first is at position `k`, from the last one to the first. -/
def linkFrom (k : ℕ) (entries : List (Entry ι ο)) : Linking ι ο :=
  (entries.zipIdx k).foldr linkEntry { heap := fun _ => {}, root := none, returns := fun _ => none }

def makeLinkedEntries (entries : List (Entry ι ο)) : Heap ι ο × Option ℕ :=
  let l := linkFrom 0 entries
  (l.heap, l.root)

/-- `nil` is dereferenced where an operation is not linked as it should be. -/
def lift (heap : Heap ι ο) (entry : ℕ) : Option (Heap ι ο) := do
  let prev ← (heap entry).prev
  let heap := heap.setNext prev (heap entry).next
  let next ← (heap entry).next
  let heap := heap.setPrev next (heap entry).prev
  let matching ← (heap entry).matching
  let prev ← (heap matching).prev
  let heap := heap.setNext prev (heap matching).next
  match (heap matching).next with
  | none => some heap
  | some next => some (heap.setPrev next (heap matching).prev)

def unlift (heap : Heap ι ο) (entry : ℕ) : Option (Heap ι ο) := do
  let matching ← (heap entry).matching
  let prev ← (heap matching).prev
  let heap := heap.setNext prev (some matching)
  let heap :=
    match (heap matching).next with
    | none => heap
    | some next => heap.setPrev next (some matching)
  let prev ← (heap entry).prev
  let heap := heap.setNext prev (some entry)
  let next ← (heap entry).next
  some (heap.setPrev next (some entry))

/-! ## Doubly linked lists -/

section

variable {heap heap' : Heap ι ο} {a b e p : ℕ}

@[simp] theorem setNext_next_self (heap : Heap ι ο) (a : ℕ) (x : Option ℕ) :
    (heap.setNext a x a).next = x := by
  simp [Heap.setNext]

@[simp] theorem setPrev_prev_self (heap : Heap ι ο) (a : ℕ) (x : Option ℕ) :
    (heap.setPrev a x a).prev = x := by
  simp [Heap.setPrev]

theorem setNext_ne (heap : Heap ι ο) (x : Option ℕ) (h : b ≠ a) : heap.setNext a x b = heap b :=
  Function.update_of_ne h _ _

theorem setPrev_ne (heap : Heap ι ο) (x : Option ℕ) (h : b ≠ a) : heap.setPrev a x b = heap b :=
  Function.update_of_ne h _ _

@[simp] theorem setNext_prev (heap : Heap ι ο) (a b : ℕ) (x : Option ℕ) :
    (heap.setNext a x b).prev = (heap b).prev := by
  by_cases h : b = a <;> simp [Heap.setNext, Function.update, h]

@[simp] theorem setPrev_next (heap : Heap ι ο) (a b : ℕ) (x : Option ℕ) :
    (heap.setPrev a x b).next = (heap b).next := by
  by_cases h : b = a <;> simp [Heap.setPrev, Function.update, h]

/-- Two nodes with the same value, return and id; only the links may differ. -/
def Alike (n n' : Node ι ο) : Prop := n.value = n'.value ∧ n.matching = n'.matching ∧ n.id = n'.id

theorem setNext_alike (heap : Heap ι ο) (a b : ℕ) (x : Option ℕ) :
    Alike (heap.setNext a x b) (heap b) := by
  by_cases h : b = a <;> simp [Alike, Heap.setNext, Function.update, h]

theorem setPrev_alike (heap : Heap ι ο) (a b : ℕ) (x : Option ℕ) :
    Alike (heap.setPrev a x b) (heap b) := by
  by_cases h : b = a <;> simp [Alike, Heap.setPrev, Function.update, h]

theorem Alike.trans {n n' n'' : Node ι ο} (h : Alike n n') (h' : Alike n' n'') : Alike n n'' :=
  ⟨h.1.trans h'.1, h.2.1.trans h'.2.1, h.2.2.trans h'.2.2⟩

/-- The nodes of a list follow each other; the one before the first is `prev`. -/
def Linked (heap : Heap ι ο) : Option ℕ → List ℕ → Prop
  | _, [] => True
  | prev, a :: l => (heap a).prev = prev ∧ (heap a).next = l.head? ∧ Linked heap (some a) l

theorem Linked.congr {prev : Option ℕ} {l : List ℕ} (h : Linked heap prev l)
    (heq : ∀ a ∈ l, heap' a = heap a) : Linked heap' prev l := by
  induction l generalizing prev with
  | nil => trivial
  | cons a l ih =>
    rcases h with ⟨hprev, hnext, htail⟩
    refine ⟨?_, ?_, ih htail fun b hb => heq b (List.mem_cons_of_mem a hb)⟩
    · rw [heq a List.mem_cons_self, hprev]
    · rw [heq a List.mem_cons_self, hnext]

/-- The links around a node that has one before it. -/
theorem Linked.around {prev : Option ℕ} {l r : List ℕ} (h : Linked heap prev (l ++ p :: e :: r)) :
    (heap p).next = some e ∧ (heap e).prev = some p ∧ (heap e).next = r.head? ∧
      ∀ q, r.head? = some q → (heap q).prev = some e := by
  induction l generalizing prev with
  | nil =>
    rcases h with ⟨-, hp, he, hnext, hr⟩
    refine ⟨hp, he, hnext, ?_⟩
    intro q hq
    cases r with
    | nil => cases hq
    | cons q' r =>
      rw [List.head?_cons, Option.some.injEq] at hq
      rw [← hq]
      exact hr.1
  | cons a l ih => exact ih h.2.2

/-- Take a node out of the list. -/
def unlink (heap : Heap ι ο) (p e : ℕ) : Heap ι ο :=
  match (heap e).next with
  | none => heap.setNext p none
  | some q => (heap.setNext p (some q)).setPrev q (some p)

/-- Put a node back between the neighbours that it remembers. -/
def relink (heap : Heap ι ο) (p e : ℕ) : Heap ι ο :=
  match (heap e).next with
  | none => heap.setNext p (some e)
  | some q => (heap.setNext p (some e)).setPrev q (some e)

theorem unlink_alike (heap : Heap ι ο) (p e b : ℕ) : Alike (unlink heap p e b) (heap b) := by
  rw [unlink]
  cases (heap e).next with
  | none => exact setNext_alike heap p b none
  | some q => exact (setPrev_alike _ q b (some p)).trans (setNext_alike heap p b (some q))

/-- The other nodes are as before. -/
theorem unlink_ne (hp : b ≠ p) (hq : (heap e).next ≠ some b) : unlink heap p e b = heap b := by
  rw [unlink]
  cases hnext : (heap e).next with
  | none => exact setNext_ne heap none hp
  | some q =>
    have hne : b ≠ q := by
      intro h
      exact hq (by rw [hnext, h])
    exact (setPrev_ne _ _ hne).trans (setNext_ne _ _ hp)

theorem Linked.without {prev : Option ℕ} {l r : List ℕ} (h : Linked heap prev (l ++ p :: e :: r))
    (hnodup : (l ++ p :: e :: r).Nodup) :
    Linked (unlink heap p e) prev (l ++ p :: r) := by
  induction l generalizing prev with
  | nil =>
    rcases h with ⟨hprev, hp, he, hnext, hr⟩
    simp only [List.nil_append, List.nodup_cons, List.mem_cons, not_or] at hnodup
    rcases hnodup with ⟨⟨hpe, hpr⟩, her, hnodup⟩
    cases r with
    | nil =>
      rw [List.head?_nil] at hnext
      refine ⟨?_, ?_, trivial⟩
      · simp [unlink, hnext, hprev]
      · simp [unlink, hnext]
    | cons q r =>
      rw [List.head?_cons] at hnext
      simp only [List.mem_cons, not_or] at hpr her
      rcases List.nodup_cons.mp hnodup with ⟨hqr, hnodup⟩
      refine ⟨?_, ?_, ?_, ?_, ?_⟩
      · simp [unlink, hnext, setPrev_ne _ _ hpr.1, hprev]
      · simp [unlink, hnext]
      · simp [unlink, hnext]
      · simp [unlink, hnext, setNext_ne _ _ (Ne.symm hpr.1), hr.2.1]
      · apply hr.2.2.congr
        intro b hb
        apply unlink_ne
        · intro h
          exact hpr.2 (h ▸ hb)
        · intro h
          rw [hnext, Option.some.injEq] at h
          exact hqr (h ▸ hb)
  | cons a l ih =>
    rcases h with ⟨hprev, hnext, htail⟩
    have haround := htail.around
    simp only [List.cons_append, List.nodup_cons] at hnodup
    rcases hnodup with ⟨hnotin, hnodup⟩
    have hsame : unlink heap p e a = heap a := by
      apply unlink_ne
      · intro h
        exact hnotin (by simp [h])
      · intro h
        rw [haround.2.2.1] at h
        exact hnotin (by simp [List.mem_of_head? h])
    refine ⟨by rw [hsame, hprev], ?_, ih htail hnodup⟩
    rw [hsame, hnext]
    cases l <;> rfl

/-- A node that is taken out keeps its own links. -/
theorem Linked.unlink_self {prev : Option ℕ} {l r : List ℕ}
    (h : Linked heap prev (l ++ p :: e :: r)) (hnodup : (l ++ p :: e :: r).Nodup) :
    unlink heap p e e = heap e := by
  have hdistinct := hnodup.of_append_right
  simp only [List.nodup_cons, List.mem_cons, not_or] at hdistinct
  apply unlink_ne (Ne.symm hdistinct.1.1)
  intro hloop
  rw [h.around.2.2.1] at hloop
  exact hdistinct.2.1 (List.mem_of_head? hloop)

/-- A node that is put back at once is where it was. -/
theorem Linked.relink_unlink {prev : Option ℕ} {l r : List ℕ}
    (h : Linked heap prev (l ++ p :: e :: r)) (hnodup : (l ++ p :: e :: r).Nodup) :
    relink (unlink heap p e) p e = heap := by
  rcases h.around with ⟨hp, he, hnext, hq⟩
  have hdistinct := hnodup.of_append_right
  simp only [List.nodup_cons, List.mem_cons, not_or] at hdistinct
  rcases hdistinct with ⟨⟨-, hpr⟩, -, -⟩
  rw [relink, h.unlink_self hnodup]
  cases hn : (heap e).next with
  | none =>
    funext b
    by_cases hb : b = p
    · subst hb
      simp [unlink, hn, Heap.setNext, ← hp]
    · simp [unlink, hn, setNext_ne _ _ hb]
  | some q =>
    have hprev := hq q (by rw [← hnext, hn])
    have hpq : p ≠ q := by
      intro heq
      rw [hnext] at hn
      exact hpr (heq ▸ List.mem_of_head? hn)
    funext b
    by_cases hbq : b = q
    · subst hbq
      simp [unlink, hn, Heap.setNext, Heap.setPrev, Ne.symm hpq, ← hprev]
    · by_cases hbp : b = p
      · subst hbp
        simp [unlink, hn, Heap.setNext, Heap.setPrev, hpq, ← hp]
      · simp [unlink, hn, setNext_ne _ _ hbp, setPrev_ne _ _ hbq]

/-- A member of a list that is not the first has one before it. -/
theorem exists_pred (first e : ℕ) (l r : List ℕ) :
    ∃ l' p, first :: (l ++ e :: r) = l' ++ p :: e :: r ∧ first :: (l ++ r) = l' ++ p :: r := by
  rcases List.eq_nil_or_concat (first :: l) with hnil | ⟨l', p, hl⟩
  · cases hnil
  · rw [List.concat_eq_append] at hl
    refine ⟨l', p, ?_, ?_⟩
    · rw [← List.cons_append, hl, List.append_assoc, List.singleton_append]
    · rw [← List.cons_append, hl, List.append_assoc, List.singleton_append]

/-- Any node but the first can be taken out of a list, and put back. -/
theorem Linked.takeOut {first : ℕ} {l r : List ℕ} (h : Linked heap none (first :: (l ++ e :: r)))
    (hnodup : (first :: (l ++ e :: r)).Nodup) :
    ∃ p, (heap e).prev = some p ∧ p ≠ e ∧ (heap e).next = r.head? ∧
      unlink heap p e e = heap e ∧ Linked (unlink heap p e) none (first :: (l ++ r)) ∧
      relink (unlink heap p e) p e = heap := by
  rcases exists_pred first e l r with ⟨l', p, heq, heq'⟩
  rw [heq] at h hnodup
  have hne : p ≠ e := by
    have hdistinct := hnodup.of_append_right
    simp only [List.nodup_cons, List.mem_cons, not_or] at hdistinct
    exact hdistinct.1.1
  refine ⟨p, h.around.2.1, hne, h.around.2.2.1, h.unlink_self hnodup, ?_, h.relink_unlink hnodup⟩
  rw [heq']
  exact h.without hnodup

end

/-! ## Lifting operations -/

section

variable {heap : Heap ι ο} {e p q r p' : ℕ}

theorem lift_eq (hp : (heap e).prev = some p) (hne : p ≠ e) (hnext : (heap e).next = some q)
    (hmatch : (heap e).matching = some r) (hp' : (unlink heap p e r).prev = some p')
    (hne' : p' ≠ r) : lift heap e = some (unlink (unlink heap p e) p' r) := by
  have hself : heap.setNext p (some q) e = heap e := setNext_ne heap _ (Ne.symm hne)
  have hfirst : unlink heap p e = (heap.setNext p (some q)).setPrev q (some p) := by
    rw [unlink, hnext]
  have hmatch' : ((heap.setNext p (some q)).setPrev q (some p) e).matching = some r := by
    rw [← hfirst, (unlink_alike heap p e e).2.1, hmatch]
  rw [hfirst] at hp' ⊢
  simp only [lift, hp, hnext, hself, hmatch', hp', Option.bind_eq_bind, Option.bind_some]
  rw [setNext_ne _ _ (Ne.symm hne'), unlink]
  cases hn : ((heap.setNext p (some q)).setPrev q (some p) r).next with
  | none => rfl
  | some q' => rw [hp']

theorem unlift_eq (hmatch : (heap e).matching = some r) (hp' : (heap r).prev = some p')
    (hne' : p' ≠ r) (hp : (relink heap p' r e).prev = some p) (hne : p ≠ e)
    (hnext : (relink heap p' r e).next = some q) :
    unlift heap e = some (relink (relink heap p' r) p e) := by
  have hself : (heap.setNext p' (some r) r).next = (heap r).next := by
    rw [setNext_ne _ _ (Ne.symm hne')]
  have hsecond : relink (relink heap p' r) p e =
      ((relink heap p' r).setNext p (some e)).setPrev q (some e) := by
    rw [relink, hnext]
  have hfirst : (match (heap.setNext p' (some r) r).next with
      | none => heap.setNext p' (some r)
      | some next => (heap.setNext p' (some r)).setPrev next (some r)) = relink heap p' r := by
    rw [hself, relink]
  rw [hsecond]
  simp only [unlift, hmatch, hp', hfirst, hp, Option.bind_eq_bind, Option.bind_some]
  rw [setNext_ne _ _ (Ne.symm hne), hnext, Option.bind_some]

end

/-! ## The entries in the list -/

/-- The list holds the entries of the operations that are not in `S`, behind the head, whose
address is the length of the history; every call, in the list or not, knows its return. -/
structure Shows (h : List (Entry ι ο)) (heap : Heap ι ο) (S : Finset ℕ) : Prop where
  node : ∀ i e, h[i]? = some e → (heap i).value = some e.value ∧ (heap i).id = e.id
  call : ∀ i id, CallAt h i id → ∃ r, ReturnAt h r id ∧ (heap i).matching = some r
  ret : ∀ i id, ReturnAt h i id → (heap i).matching = none
  linked : Linked heap none (h.length :: remaining h S)

section

variable {h : List (Entry ι ο)} {heap heap' : Heap ι ο} {S : Finset ℕ} {i id : ℕ}

theorem length_cons_remaining_nodup (h : List (Entry ι ο)) (S : Finset ℕ) :
    (h.length :: remaining h S).Nodup := by
  refine List.nodup_cons.mpr ⟨?_, List.nodup_range.filter _⟩
  intro hmem
  exact absurd (mem_remaining.mp hmem).1 (Nat.lt_irrefl _)

theorem CallAt.lt_length (hi : CallAt h i id) : i < h.length := by
  rcases hi with ⟨e, he, -, -⟩
  exact (List.getElem?_eq_some_iff.mp he).1

theorem ReturnAt.lt_length (hi : ReturnAt h i id) : i < h.length := by
  rcases hi with ⟨e, he, -, -⟩
  exact (List.getElem?_eq_some_iff.mp he).1

/-- The return of an operation that is left comes later in the list than its call. -/
theorem Complete.return_mem (hc : Complete h) {r : ℕ} {tried rest : List ℕ}
    (hrem : remaining h S = tried ++ i :: rest) (hi : CallAt h i id) (hr : ReturnAt h r id) :
    r ∈ rest := by
  have himem : i ∈ remaining h S := hrem ▸ List.mem_append_right tried List.mem_cons_self
  have hrmem : r ∈ remaining h S := by
    rw [mem_remaining, hr.idAt, ← hi.idAt]
    exact ⟨hr.lt_length, (mem_remaining.mp himem).2⟩
  have hlt := hc.call_lt_return hi hr
  have hsorted := remaining_sorted h S
  rw [hrem, List.pairwise_append] at hsorted
  rw [hrem, List.mem_append, List.mem_cons] at hrmem
  rcases hrmem with hra | rfl | hrt
  · exact absurd (hsorted.2.2 r hra i List.mem_cons_self) (by omega)
  · exact absurd hlt (Nat.lt_irrefl _)
  · exact hrt

/-- An operation that is left has its call and, later, its return in the list; without them the
list is that of one operation less. -/
theorem Complete.remaining_split (hc : Complete h) {r : ℕ} (hi : CallAt h i id)
    (hr : ReturnAt h r id) (hid : id ∉ S) :
    ∃ a b c, remaining h S = a ++ i :: (b ++ r :: c) ∧
      remaining h (insert id S) = a ++ (b ++ c) := by
  have himem : i ∈ remaining h S := mem_remaining.mpr ⟨hi.lt_length, hi.idAt.symm ▸ hid⟩
  rcases List.append_of_mem himem with ⟨a, t, ht⟩
  have hrt : r ∈ t := hc.return_mem ht hi hr
  rcases List.append_of_mem hrt with ⟨b, c, hbc⟩
  refine ⟨a, b, c, by rw [ht, hbc], ?_⟩
  -- both lists are sorted, so they are equal if they have the same members
  have hsub : (a ++ (b ++ c)).Sublist (remaining h S) := by
    rw [ht, hbc]
    exact (((List.sublist_cons_self r c).append_left b).trans
      (List.sublist_cons_self i _)).append_left a
  apply (remaining_sorted h (insert id S)).eq_of_mem_iff ((remaining_sorted h S).sublist hsub)
  intro j
  have hnodup := (List.nodup_cons.mp (length_cons_remaining_nodup h S)).2
  have hmem : j ∈ a ++ (b ++ c) ↔ j ∈ remaining h S ∧ j ≠ i ∧ j ≠ r := by
    rw [ht, hbc] at hnodup ⊢
    simp only [List.nodup_append, List.nodup_cons, List.mem_append, List.mem_cons] at hnodup ⊢
    grind
  have hmine : j < h.length → (idAt h j = id ↔ j = i ∨ j = r) := by
    intro hj
    constructor
    · intro hjid
      rcases callAt_or_returnAt hj with ⟨-, hat⟩ | ⟨-, hat⟩
      · exact Or.inl (hc.call_unique (hjid ▸ hat) hi)
      · exact Or.inr (hc.return_unique (hjid ▸ hat) hr)
    · rintro (rfl | rfl)
      · exact hi.idAt
      · exact hr.idAt
  rw [hmem, mem_remaining, mem_remaining, Finset.mem_insert, not_or, and_assoc]
  apply and_congr_right
  intro hj
  rw [hmine hj, not_or, and_comm]

/-- What the list shows depends on the links only. -/
theorem Shows.relinked {S' : Finset ℕ} (hs : Shows h heap S)
    (halike : ∀ b, Alike (heap' b) (heap b))
    (hlinked : Linked heap' none (h.length :: remaining h S')) : Shows h heap' S' where
  node := by
    intro i e he
    rw [(halike i).1, (halike i).2.2]
    exact hs.node i e he
  call := by
    intro i id hi
    rw [(halike i).2.1]
    exact hs.call i id hi
  ret := by
    intro i id hi
    rw [(halike i).2.1]
    exact hs.ret i id hi
  linked := hlinked

/-- `lift` takes an operation out of the list, and `unlift` is its exact inverse. -/
theorem Shows.lift (hc : Complete h) (hs : Shows h heap S) (hi : CallAt h i id) (hid : id ∉ S) :
    ∃ heap', lift heap i = some heap' ∧ Shows h heap' (insert id S) ∧
      unlift heap' i = some heap := by
  rcases hs.call i id hi with ⟨r, hr, hmatch⟩
  rcases hc.remaining_split hi hr hid with ⟨a, b, c, hrem, hrem'⟩
  have hnodup := length_cons_remaining_nodup h S
  have hlinked := hs.linked
  rw [hrem] at hnodup hlinked
  rcases hlinked.takeOut hnodup with ⟨p, hp, hpi, hnext, hself, hlinked', hback⟩
  have hnodup' : (h.length :: ((a ++ b) ++ r :: c)).Nodup := by
    rw [List.append_assoc]
    exact hnodup.sublist (((List.sublist_cons_self i _).append_left a).cons_cons _)
  rw [← List.append_assoc] at hlinked'
  rcases hlinked'.takeOut hnodup' with ⟨p', hp', hpr, -, hself', hlinked'', hback'⟩
  -- the return comes later, so there is a node after the call
  have hq : ∃ q, (heap i).next = some q := by
    rw [hnext]
    cases b with
    | nil => exact ⟨r, rfl⟩
    | cons q b => exact ⟨q, rfl⟩
  rcases hq with ⟨q, hq⟩
  have halike : ∀ b, Alike (unlink (unlink heap p i) p' r b) (heap b) :=
    fun b => (unlink_alike _ p' r b).trans (unlink_alike heap p i b)
  refine ⟨unlink (unlink heap p i) p' r, lift_eq hp hpi hq hmatch hp' hpr, ?_, ?_⟩
  · apply hs.relinked halike
    rw [hrem', ← List.append_assoc]
    exact hlinked''
  · have hmatch' : (unlink (unlink heap p i) p' r i).matching = some r := by
      rw [(halike i).2.1, hmatch]
    have hback'' := unlift_eq hmatch' (hself'.symm ▸ hp') hpr (by rw [hback', hself, hp]) hpi
      (by rw [hback', hself, hq])
    rw [hback'', hback', hback]

end

/-! ## Linking a history -/

section

variable {heap : Heap ι ο} {a : ℕ} {l : List ℕ}

theorem insertBefore_alike (heap : Heap ι ο) (n : ℕ) (mark : Option ℕ) (b : ℕ) :
    Alike (insertBefore heap n mark b) (heap b) := by
  cases mark with
  | none => exact ⟨rfl, rfl, rfl⟩
  | some mark =>
    have hfirst : Alike ((heap.setPrev mark (some n)).setNext n (some mark) b) (heap b) :=
      (setNext_alike _ n b _).trans (setPrev_alike heap mark b _)
    rw [insertBefore]
    cases (heap mark).prev with
    | none => exact hfirst
    | some p => exact (setNext_alike _ p b _).trans ((setPrev_alike _ n b _).trans hfirst)

/-- A new node in front of a list. -/
theorem Linked.insertFront (h : Linked heap none l) (hnodup : (a :: l).Nodup)
    (hprev : (heap a).prev = none) (hnext : (heap a).next = none) :
    Linked (insertBefore heap a l.head?) none (a :: l) := by
  rcases List.nodup_cons.mp hnodup with ⟨ha, hnodup⟩
  cases l with
  | nil => exact ⟨hprev, hnext, trivial⟩
  | cons b l =>
    rcases h with ⟨hb, hbnext, htail⟩
    rw [List.mem_cons, not_or] at ha
    have hheap : insertBefore heap a (some b) =
        (heap.setPrev b (some a)).setNext a (some b) := by
      simp only [insertBefore, hb]
    rw [List.head?_cons, hheap]
    refine ⟨?_, ?_, ?_, ?_, ?_⟩
    · rw [setNext_prev, setPrev_ne _ _ ha.1, hprev]
    · rw [setNext_next_self, List.head?_cons]
    · rw [setNext_prev, setPrev_prev_self]
    · rw [setNext_ne _ _ (Ne.symm ha.1), setPrev_next, hbnext]
    · apply htail.congr
      intro c hc
      have hca : c ≠ a := fun heq => ha.2 (heq ▸ hc)
      have hcb : c ≠ b := fun heq => (List.nodup_cons.mp hnodup).1 (heq ▸ hc)
      rw [setNext_ne _ _ hca, setPrev_ne _ _ hcb]

/-- `length` counts the nodes of a list. -/
theorem Linked.length_eq {prev : Option ℕ} (h : Linked heap prev l) {fuel : ℕ}
    (hfuel : l.length ≤ fuel) : length heap fuel l.head? = l.length := by
  induction l generalizing prev fuel with
  | nil => cases fuel <;> rfl
  | cons a l ih =>
    cases fuel with
    | zero => cases hfuel
    | succ fuel =>
      rw [List.head?_cons, length, h.2.1, ih h.2.2 (Nat.le_of_succ_le_succ hfuel), List.length_cons]

end

/-- The entries from position `k` on have been linked. -/
structure LinkedFrom (h : List (Entry ι ο)) (k : ℕ) (l : Linking ι ο) : Prop where
  root : l.root = (List.range' k (h.length - k)).head?
  linked : Linked l.heap none (List.range' k (h.length - k))
  node : ∀ i e, k ≤ i → h[i]? = some e → (l.heap i).value = some e.value ∧ (l.heap i).id = e.id
  call : ∀ i id, k ≤ i → CallAt h i id → ∃ r, ReturnAt h r id ∧ (l.heap i).matching = some r
  ret : ∀ i id, k ≤ i → ReturnAt h i id → (l.heap i).matching = none
  returns : ∀ r id, k ≤ r → ReturnAt h r id → l.returns id = some r

section

variable {h : List (Entry ι ο)} {k : ℕ} {l : Linking ι ο}

/-- A new node for the entry at position `k`, in front of the others. -/
theorem LinkedFrom.front {e : Entry ι ο} (hl : LinkedFrom h (k + 1) l) (he : h[k]? = some e)
    {matching : Option ℕ} {returns : ℕ → Option ℕ}
    (hcall : e.isCall = true → ∃ r, ReturnAt h r e.id ∧ matching = some r)
    (hret : e.isCall = false → matching = none)
    (hreturns : ∀ r id, k ≤ r → ReturnAt h r id → returns id = some r) :
    LinkedFrom h k
      { heap := insertBefore (Function.update l.heap k
          { value := some e.value, matching := matching, id := e.id }) k l.root,
        root := some k, returns := returns } := by
  have hk : k < h.length := (List.getElem?_eq_some_iff.mp he).1
  have hrange : List.range' k (h.length - k) = k :: List.range' (k + 1) (h.length - (k + 1)) := by
    rw [← List.range'_succ]
    congr 1
    omega
  -- the nodes of the later entries are as before, but for their links
  have hold : ∀ i, k ≤ i → i ≠ k → ∀ node : Node ι ο, ∀ root,
      Alike (insertBefore (Function.update l.heap k node) k root i) (l.heap i) := by
    intro i _ hne node root
    have halike := insertBefore_alike (Function.update l.heap k node) k root i
    rwa [Function.update_of_ne hne] at halike
  have hnew : ∀ node : Node ι ο, ∀ root,
      Alike (insertBefore (Function.update l.heap k node) k root k) node := by
    intro node root
    have halike := insertBefore_alike (Function.update l.heap k node) k root k
    rwa [Function.update_self] at halike
  constructor
  · rw [hrange, List.head?_cons]
  · rw [hrange, hl.root]
    apply Linked.insertFront
    · apply hl.linked.congr
      intro i hi
      rw [List.mem_range'_1] at hi
      exact Function.update_of_ne (by omega) _ _
    · rw [← hrange]
      exact List.nodup_range'
    · rw [Function.update_self]
    · rw [Function.update_self]
  · intro i e' hi he'
    by_cases hik : i = k
    · rw [hik, he, Option.some.injEq] at he'
      rw [hik, (hnew _ _).1, (hnew _ _).2.2, he']
      exact ⟨rfl, rfl⟩
    · rw [(hold i hi hik _ _).1, (hold i hi hik _ _).2.2]
      exact hl.node i e' (by omega) he'
  · intro i id hi hat
    by_cases hik : i = k
    · rcases hat with ⟨e', he', hc, rfl⟩
      rw [hik, he, Option.some.injEq] at he'
      rw [hik, (hnew _ _).2.1, ← he']
      exact hcall (he' ▸ hc)
    · rw [(hold i hi hik _ _).2.1]
      exact hl.call i id (by omega) hat
  · intro i id hi hat
    by_cases hik : i = k
    · rcases hat with ⟨e', he', hc, rfl⟩
      rw [hik, he, Option.some.injEq] at he'
      rw [hik, (hnew _ _).2.1]
      exact hret (he' ▸ hc)
    · rw [(hold i hi hik _ _).2.1]
      exact hl.ret i id (by omega) hat
  · exact hreturns

/-- The body of the loop of `makeLinkedEntries`. -/
theorem LinkedFrom.linkEntry (hc : Complete h) {e : Entry ι ο} (hl : LinkedFrom h (k + 1) l)
    (he : h[k]? = some e) : LinkedFrom h k (linkEntry (e, k) l) := by
  cases hv : e.value with
  | ret output =>
    have hisret : e.isCall = false := by rw [Entry.isCall, hv, Value.isCall]
    have hat : ReturnAt h k e.id := ⟨e, he, hisret, rfl⟩
    simp only [Porcupine.linkEntry, hv]
    rw [← hv]
    refine hl.front he (fun hcall => ?_) (fun _ => rfl) ?_
    · rw [hisret] at hcall
      cases hcall
    · intro r id hr hat'
      by_cases hid : id = e.id
      · rw [hid] at hat' ⊢
        rw [Function.update_self, hc.return_unique hat' hat]
      · have hne : r ≠ k := by
          intro heq
          rw [heq] at hat'
          exact hid (hat'.idAt.symm.trans hat.idAt)
        rw [Function.update_of_ne hid]
        exact hl.returns r id (by omega) hat'
  | call input =>
    have hiscall : e.isCall = true := by rw [Entry.isCall, hv, Value.isCall]
    have hat : CallAt h k e.id := ⟨e, he, hiscall, rfl⟩
    simp only [Porcupine.linkEntry, hv]
    rw [← hv]
    refine hl.front he (fun _ => ?_) (fun hret => ?_) ?_
    · rcases hc.exists_return (hc.call_lt hat) with ⟨r, hr⟩
      exact ⟨r, hr, hl.returns r e.id (hc.call_lt_return hat hr) hr⟩
    · rw [hiscall] at hret
      cases hret
    · intro r id hr hat'
      have hne : r ≠ k := by
        intro heq
        rw [heq] at hat'
        have hfalse := hat'.isCallAt
        rw [hat.isCallAt] at hfalse
        cases hfalse
      exact hl.returns r id (by omega) hat'

/-- The whole loop, from the last entry to the one at position `k`. -/
theorem Complete.linkFrom (hc : Complete h) (k : ℕ) :
    LinkedFrom h k (linkFrom k (h.drop k)) := by
  by_cases hk : k < h.length
  · have hdrop : h.drop k = h[k] :: h.drop (k + 1) := List.drop_eq_getElem_cons hk
    rw [hdrop, Porcupine.linkFrom, List.zipIdx_cons, List.foldr_cons]
    exact (hc.linkFrom (k + 1)).linkEntry hc (List.getElem?_eq_getElem hk)
  · have hnone : ∀ i, k ≤ i → h[i]? = none := fun i hi => List.getElem?_eq_none (by omega)
    have hlen : h.length - k = 0 := by omega
    rw [List.drop_eq_nil_of_le (by omega)]
    constructor
    · rw [hlen]
      rfl
    · rw [hlen]
      trivial
    · intro i e hi he
      rw [hnone i hi] at he
      cases he
    · intro i id hi hat
      exact absurd hat.lt_length (by omega)
    · intro i id hi hat
      exact absurd hat.lt_length (by omega)
    · intro r id hr hat
      exact absurd hat.lt_length (by omega)
termination_by h.length - k

theorem remaining_empty (h : List (Entry ι ο)) : remaining h ∅ = List.range h.length := by
  rw [remaining, List.filter_eq_self]
  intro i hi
  rw [List.mem_range] at hi
  simp [List.getElem?_eq_getElem hi]

/-- The nodes of a history are counted right. -/
theorem Complete.length_makeLinkedEntries (hc : Complete h) :
    length (makeLinkedEntries h).1 h.length (makeLinkedEntries h).2 = h.length := by
  have hl := hc.linkFrom 0
  rw [List.drop_zero] at hl
  have hfuel : (List.range' 0 (h.length - 0)).length ≤ h.length := by simp
  have hlength := hl.linked.length_eq hfuel
  rw [← hl.root, List.length_range', Nat.sub_zero] at hlength
  exact hlength

/-- The list before the search, with its head. -/
theorem Complete.shows_makeLinkedEntries (hc : Complete h) :
    Shows h (insertBefore (Function.update (makeLinkedEntries h).1 h.length {}) h.length
      (makeLinkedEntries h).2) ∅ := by
  have hl := hc.linkFrom 0
  rw [List.drop_zero] at hl
  have halike : ∀ i, i < h.length → ∀ root, Alike (insertBefore (Function.update
      (makeLinkedEntries h).1 h.length {}) h.length root i) ((makeLinkedEntries h).1 i) := by
    intro i hi root
    have halike := insertBefore_alike (Function.update (makeLinkedEntries h).1 h.length {})
      h.length root i
    rwa [Function.update_of_ne (by omega)] at halike
  constructor
  · intro i e he
    have hi : i < h.length := (List.getElem?_eq_some_iff.mp he).1
    rw [(halike i hi _).1, (halike i hi _).2.2]
    exact hl.node i e (Nat.zero_le i) he
  · intro i id hat
    rw [(halike i hat.lt_length _).2.1]
    exact hl.call i id (Nat.zero_le i) hat
  · intro i id hat
    rw [(halike i hat.lt_length _).2.1]
    exact hl.ret i id (Nat.zero_le i) hat
  · have hrange : remaining h ∅ = List.range' 0 (h.length - 0) := by
      rw [remaining_empty, List.range_eq_range', Nat.sub_zero]
    have hnodup := length_cons_remaining_nodup h ∅
    rw [hrange] at hnodup ⊢
    have hroot : (makeLinkedEntries h).2 = (List.range' 0 (h.length - 0)).head? := hl.root
    rw [hroot]
    apply Linked.insertFront _ hnodup
    · rw [Function.update_self]
    · rw [Function.update_self]
    · apply hl.linked.congr
      intro i hi
      rw [List.mem_range'_1] at hi
      exact Function.update_of_ne (by omega) _ _

end

end DistStudy.Porcupine
