import DistStudy.Lib.Linearizability
import DistStudy.Lib.Search
import DistStudy.Porcupine.Model
import Mathlib.Data.Finset.Card
import Mathlib.Data.List.Nodup

/-!
# What it means that a history is linearizable

A history is a list of entries, in the order in which calls and returns happened. `before a b`
says that operation `a` returned before operation `b` was called, and `historySpec` is the
model as a sequential object whose operations are the ids of the history.

`problem` is the search for a linearization: a configuration is the set of the operations that
have been linearized and the state they lead to, and the next one may be any operation whose
call stands before the first return of the entries that are left. `solvable_iff` says that the
search looks for the right thing.
-/

namespace DistStudy.Porcupine

variable {ι ο σ : Type} [DecidableEq σ]

/-- Every operation is called once and returns once, after its call, and the ids number the
operations. -/
structure Complete (h : List (Entry ι ο)) : Prop where
  calls : ((h.filter Entry.isCall).map Entry.id).Perm (List.range (h.length / 2))
  returns : ((h.filter fun e => !e.isCall).map Entry.id).Perm (List.range (h.length / 2))
  /-- Of two entries of an operation the first is the call. -/
  order : h.Pairwise fun a b => a.id = b.id → a.isCall = true

/-- The entry at a position is the call of an operation. -/
def CallAt (h : List (Entry ι ο)) (i id : ℕ) : Prop :=
  ∃ e, h[i]? = some e ∧ e.isCall = true ∧ e.id = id

def ReturnAt (h : List (Entry ι ο)) (i id : ℕ) : Prop :=
  ∃ e, h[i]? = some e ∧ e.isCall = false ∧ e.id = id

/-- Operation `a` returned before operation `b` was called. -/
def before (h : List (Entry ι ο)) (a b : ℕ) : Prop :=
  ∃ i j, i < j ∧ ReturnAt h i a ∧ CallAt h j b

def input? (h : List (Entry ι ο)) (id : ℕ) : Option ι :=
  h.findSome? fun e =>
    match e.value with
    | .call input => if e.id = id then some input else none
    | .ret _ => none

def output? (h : List (Entry ι ο)) (id : ℕ) : Option ο :=
  h.findSome? fun e =>
    match e.value with
    | .call _ => none
    | .ret output => if e.id = id then some output else none

/-- The model, with the operations of a history. -/
def historySpec (M : Model ι ο σ) (h : List (Entry ι ο)) : SeqSpec σ ℕ where
  init := M.init
  step s id :=
    (input? h id).bind fun input => (output? h id).bind fun output =>
      if (M.step s input output).1 then some (M.step s input output).2 else none

/-- Some order of the operations explains the history. -/
def Explained (M : Model ι ο σ) (h : List (Entry ι ο)) : Prop :=
  Linearizable (historySpec M h) (before h) (List.range (h.length / 2))

/-! ## The entries of an operation -/

section

variable {h : List (Entry ι ο)} {i j id : ℕ}

/-- In a list, an element is determined by a value that no other one has. -/
theorem eq_of_nodup_filter_map {p : Entry ι ο → Bool} (hn : ((h.filter p).map Entry.id).Nodup)
    {a b : Entry ι ο} (ha : h[i]? = some a) (hb : h[j]? = some b) (hpa : p a = true)
    (hpb : p b = true) (hid : a.id = b.id) : i = j := by
  have hpair : h.Pairwise fun a b => p a = true → p b = true → a.id ≠ b.id := by
    rw [List.Nodup, List.pairwise_map, List.pairwise_filter] at hn
    exact hn
  rw [List.pairwise_iff_getElem] at hpair
  rcases List.getElem?_eq_some_iff.mp ha with ⟨hi, rfl⟩
  rcases List.getElem?_eq_some_iff.mp hb with ⟨hj, rfl⟩
  rcases Nat.lt_trichotomy i j with hlt | heq | hlt
  · exact absurd hid (hpair i j hi hj hlt hpa hpb)
  · exact heq
  · exact absurd hid.symm (hpair j i hj hi hlt hpb hpa)

namespace Complete

theorem call_unique (hc : Complete h) (hi : CallAt h i id) (hj : CallAt h j id) : i = j := by
  rcases hi with ⟨a, ha, hpa, rfl⟩
  rcases hj with ⟨b, hb, hpb, hid⟩
  exact eq_of_nodup_filter_map (hc.calls.nodup_iff.mpr List.nodup_range) ha hb hpa hpb hid.symm

theorem return_unique (hc : Complete h) (hi : ReturnAt h i id) (hj : ReturnAt h j id) : i = j := by
  rcases hi with ⟨a, ha, hpa, rfl⟩
  rcases hj with ⟨b, hb, hpb, hid⟩
  exact eq_of_nodup_filter_map (hc.returns.nodup_iff.mpr List.nodup_range) ha hb (by simp [hpa])
    (by simp [hpb]) hid.symm

theorem exists_call (hc : Complete h) (hid : id < h.length / 2) : ∃ i, CallAt h i id := by
  have hmem := hc.calls.mem_iff.mpr (List.mem_range.mpr hid)
  rcases List.mem_map.mp hmem with ⟨e, he, rfl⟩
  rcases List.mem_filter.mp he with ⟨he, hcall⟩
  rcases List.mem_iff_getElem?.mp he with ⟨i, hi⟩
  exact ⟨i, e, hi, hcall, rfl⟩

theorem exists_return (hc : Complete h) (hid : id < h.length / 2) : ∃ i, ReturnAt h i id := by
  have hmem := hc.returns.mem_iff.mpr (List.mem_range.mpr hid)
  rcases List.mem_map.mp hmem with ⟨e, he, rfl⟩
  rcases List.mem_filter.mp he with ⟨he, hret⟩
  rcases List.mem_iff_getElem?.mp he with ⟨i, hi⟩
  exact ⟨i, e, hi, by simpa using hret, rfl⟩

theorem call_lt (hc : Complete h) (hi : CallAt h i id) : id < h.length / 2 := by
  rcases hi with ⟨e, he, hcall, rfl⟩
  have hmem : e ∈ h.filter Entry.isCall :=
    List.mem_filter.mpr ⟨List.mem_of_getElem? he, hcall⟩
  exact List.mem_range.mp (hc.calls.mem_iff.mp (List.mem_map_of_mem hmem))

theorem return_lt (hc : Complete h) (hi : ReturnAt h i id) : id < h.length / 2 := by
  rcases hi with ⟨e, he, hret, rfl⟩
  have hmem : e ∈ h.filter fun e => !e.isCall :=
    List.mem_filter.mpr ⟨List.mem_of_getElem? he, by simp [hret]⟩
  exact List.mem_range.mp (hc.returns.mem_iff.mp (List.mem_map_of_mem hmem))

/-- An operation is called before it returns. -/
theorem call_lt_return (hc : Complete h) (hi : CallAt h i id) (hj : ReturnAt h j id) : i < j := by
  rcases hi with ⟨a, ha, hpa, rfl⟩
  rcases hj with ⟨b, hb, hpb, hid⟩
  rcases List.getElem?_eq_some_iff.mp ha with ⟨hi, rfl⟩
  rcases List.getElem?_eq_some_iff.mp hb with ⟨hj, rfl⟩
  rcases Nat.lt_trichotomy i j with hlt | heq | hlt
  · exact hlt
  · subst heq
    rw [hpa] at hpb
    cases hpb
  · have hcall := List.pairwise_iff_getElem.mp hc.order j i hj hi hlt hid
    rw [hpb] at hcall
    cases hcall

theorem not_before_self (hc : Complete h) (id : ℕ) : ¬ before h id id := by
  rintro ⟨i, j, hlt, hi, hj⟩
  exact absurd (hc.call_lt_return hj hi) (by omega)

end Complete

/-! ## The entries that are left -/

/-- The positions of the entries of the operations that are not in `S`. -/
def remaining (h : List (Entry ι ο)) (S : Finset ℕ) : List ℕ :=
  (List.range h.length).filter fun i => h[i]?.any fun e => e.id ∉ S

def isCallAt (h : List (Entry ι ο)) (i : ℕ) : Bool := h[i]?.any Entry.isCall

def idAt (h : List (Entry ι ο)) (i : ℕ) : ℕ := (h[i]?.map Entry.id).getD 0

/-- The calls before the first return. -/
def leading (h : List (Entry ι ο)) (S : Finset ℕ) : List ℕ :=
  (remaining h S).takeWhile (isCallAt h)

theorem CallAt.isCallAt (hi : CallAt h i id) : isCallAt h i = true := by
  rcases hi with ⟨e, he, hcall, -⟩
  simp [Porcupine.isCallAt, he, hcall]

theorem ReturnAt.isCallAt (hi : ReturnAt h i id) : isCallAt h i = false := by
  rcases hi with ⟨e, he, hret, -⟩
  simp [Porcupine.isCallAt, he, hret]

theorem CallAt.idAt (hi : CallAt h i id) : idAt h i = id := by
  rcases hi with ⟨e, he, -, rfl⟩
  simp [Porcupine.idAt, he]

theorem ReturnAt.idAt (hi : ReturnAt h i id) : idAt h i = id := by
  rcases hi with ⟨e, he, -, rfl⟩
  simp [Porcupine.idAt, he]

/-- An entry is a call or a return. -/
theorem callAt_or_returnAt (hi : i < h.length) :
    isCallAt h i = true ∧ CallAt h i (idAt h i) ∨ isCallAt h i = false ∧ ReturnAt h i (idAt h i) := by
  have he : h[i]? = some h[i] := List.getElem?_eq_getElem hi
  cases hcall : h[i].isCall with
  | true =>
    have hat : CallAt h i h[i].id := ⟨h[i], he, hcall, rfl⟩
    exact Or.inl ⟨hat.isCallAt, hat.idAt ▸ hat⟩
  | false =>
    have hat : ReturnAt h i h[i].id := ⟨h[i], he, hcall, rfl⟩
    exact Or.inr ⟨hat.isCallAt, hat.idAt ▸ hat⟩

theorem mem_remaining {S : Finset ℕ} : i ∈ remaining h S ↔ i < h.length ∧ idAt h i ∉ S := by
  rw [remaining, List.mem_filter, List.mem_range]
  constructor
  · rintro ⟨hi, hany⟩
    refine ⟨hi, ?_⟩
    simpa [idAt, List.getElem?_eq_getElem hi] using hany
  · rintro ⟨hi, hid⟩
    refine ⟨hi, ?_⟩
    simpa [idAt, List.getElem?_eq_getElem hi] using hid

theorem remaining_sorted (h : List (Entry ι ο)) (S : Finset ℕ) :
    (remaining h S).Pairwise (· < ·) :=
  List.pairwise_lt_range.filter _

/-- In a sorted list, an element comes before the first that fails a test if all up to it
pass. -/
theorem mem_takeWhile_sorted {l : List ℕ} (hl : l.Pairwise (· < ·)) {p : ℕ → Bool} {x : ℕ} :
    x ∈ l.takeWhile p ↔ x ∈ l ∧ ∀ y ∈ l, y ≤ x → p y = true := by
  induction l with
  | nil => simp
  | cons a l ih =>
    rcases List.pairwise_cons.mp hl with ⟨ha, hl⟩
    rw [List.takeWhile_cons]
    cases hp : p a with
    | false =>
      constructor
      · intro hx
        cases hx
      · rintro ⟨hx, hall⟩
        have hle : a ≤ x := by
          rcases List.mem_cons.mp hx with rfl | hx
          · exact le_refl x
          · exact (ha x hx).le
        have := hall a List.mem_cons_self hle
        rw [hp] at this
        cases this
    | true =>
      rw [if_pos rfl, List.mem_cons, ih hl, List.mem_cons]
      constructor
      · rintro (rfl | ⟨hx, hall⟩)
        · refine ⟨Or.inl rfl, ?_⟩
          intro y hy hle
          rcases List.mem_cons.mp hy with rfl | hy
          · exact hp
          · exact absurd (ha y hy) (by omega)
        · refine ⟨Or.inr hx, ?_⟩
          intro y hy hle
          rcases List.mem_cons.mp hy with rfl | hy
          · exact hp
          · exact hall y hy hle
      · rintro ⟨hx, hall⟩
        rcases hx with rfl | hx
        · exact Or.inl rfl
        · exact Or.inr ⟨hx, fun y hy => hall y (List.mem_cons_of_mem a hy)⟩

/-- The operations that may come next are those that no operation that is left precedes. -/
theorem Complete.mem_leading_iff (hc : Complete h) {S : Finset ℕ} :
    id ∈ (leading h S).map (idAt h) ↔
      id < h.length / 2 ∧ id ∉ S ∧ ∀ b < h.length / 2, b ∉ S → ¬ before h b id := by
  rw [List.mem_map]
  constructor
  · rintro ⟨i, hi, rfl⟩
    rcases (mem_takeWhile_sorted (remaining_sorted h S)).mp hi with ⟨hi, hall⟩
    rcases mem_remaining.mp hi with ⟨hlen, hnot⟩
    have hcall : CallAt h i (idAt h i) := by
      rcases callAt_or_returnAt hlen with ⟨-, hcall⟩ | ⟨hret, -⟩
      · exact hcall
      · rw [hall i hi (le_refl i)] at hret
        cases hret
    refine ⟨hc.call_lt hcall, hnot, ?_⟩
    rintro b - hb ⟨r, c, hlt, hr, hcall'⟩
    rw [hc.call_unique hcall' hcall] at hlt
    have hmem : r ∈ remaining h S := by
      rw [mem_remaining, hr.idAt]
      exact ⟨by omega, hb⟩
    have htrue := hall r hmem hlt.le
    rw [hr.isCallAt] at htrue
    cases htrue
  · rintro ⟨hid, hnot, hfree⟩
    rcases hc.exists_call hid with ⟨i, hi⟩
    have hlen : i < h.length := by
      rcases hi with ⟨e, he, -, -⟩
      exact (List.getElem?_eq_some_iff.mp he).1
    refine ⟨i, (mem_takeWhile_sorted (remaining_sorted h S)).mpr ⟨?_, ?_⟩, hi.idAt⟩
    · rw [mem_remaining, hi.idAt]
      exact ⟨hlen, hnot⟩
    · intro r hr hle
      rcases mem_remaining.mp hr with ⟨hrlen, hrS⟩
      rcases callAt_or_returnAt hrlen with ⟨hcall, -⟩ | ⟨hret, hr'⟩
      · exact hcall
      · -- a return before the call would be one of an operation that is left
        rcases Nat.lt_or_eq_of_le hle with hlt | rfl
        · exact absurd ⟨r, i, hlt, hr', hi⟩ (hfree _ (hc.return_lt hr') hrS)
        · exact hi.isCallAt

/-- Nothing is left just if all operations have been linearized. -/
theorem Complete.remaining_eq_nil_iff (hc : Complete h) {S : Finset ℕ} :
    remaining h S = [] ↔ ∀ id < h.length / 2, id ∈ S := by
  rw [List.eq_nil_iff_forall_not_mem]
  constructor
  · intro hnil id hid
    by_contra hnot
    rcases hc.exists_call hid with ⟨i, hi⟩
    have hlen : i < h.length := by
      rcases hi with ⟨e, he, -, -⟩
      exact (List.getElem?_eq_some_iff.mp he).1
    apply hnil i
    rw [mem_remaining, hi.idAt]
    exact ⟨hlen, hnot⟩
  · intro hall i hi
    rcases mem_remaining.mp hi with ⟨hlen, hnot⟩
    rcases callAt_or_returnAt hlen with ⟨-, hcall⟩ | ⟨-, hret⟩
    · exact hnot (hall _ (hc.call_lt hcall))
    · exact hnot (hall _ (hc.return_lt hret))

end

/-! ## The search problem -/

/-- The search for an order that explains a history. -/
def problem (M : Model ι ο σ) (h : List (Entry ι ο)) : SearchProblem (Finset ℕ × σ) ℕ where
  init := (∅, M.init)
  moves c := (leading h c.1).map (idAt h)
  next c id := ((historySpec M h).step c.2 id).map fun s => (insert id c.1, s)
  done c := remaining h c.1 = []
  same c d := c.1 = d.1 ∧ M.equal c.2 d.2 = true

/-- `Equal` is a reflexive and transitive relation between states that the steps of the model
do not tell apart. -/
structure Model.Lawful (M : Model ι ο σ) : Prop where
  refl : ∀ s, M.equal s s = true
  trans : ∀ s t u, M.equal s t = true → M.equal t u = true → M.equal s u = true
  step : ∀ s t input output, M.equal s t = true → (M.step s input output).1 = true →
    (M.step t input output).1 = true ∧
      M.equal (M.step s input output).2 (M.step t input output).2 = true

/-- Equality of states is lawful. -/
theorem Model.lawful_of_shallowEqual {M : Model ι ο σ} (h : M.equal = shallowEqual) : M.Lawful where
  refl s := by simp [h, shallowEqual]
  trans s t u := by
    simp only [h, shallowEqual, decide_eq_true_eq]
    exact Eq.trans
  step s t input output := by
    simp only [h, shallowEqual, decide_eq_true_eq]
    rintro rfl hok
    exact ⟨hok, rfl⟩

section

variable {M : Model ι ο σ} {h : List (Entry ι ο)}

/-- A value that is found in a history if no entry gives another one. -/
theorem findSome?_eq_of_unique {β : Type} {f : Entry ι ο → Option β} {e : Entry ι ο} {b : β}
    (he : e ∈ h) (hf : f e = some b) (hunique : ∀ e' ∈ h, ∀ b', f e' = some b' → b' = b) :
    h.findSome? f = some b := by
  have hsome : (h.findSome? f).isSome := by
    rw [List.findSome?_isSome_iff]
    exact ⟨e, he, by rw [hf, Option.isSome_some]⟩
  rcases Option.isSome_iff_exists.mp hsome with ⟨b', hb'⟩
  rcases List.exists_of_findSome?_eq_some hb' with ⟨e', he', hf'⟩
  rw [hb', hunique e' he' b' hf']

theorem Complete.input?_eq (hc : Complete h) {e : Entry ι ο} {input : ι} (he : e ∈ h)
    (hv : e.value = .call input) : input? h e.id = some input := by
  apply findSome?_eq_of_unique he
  · simp [hv]
  · intro e' he' input' hf
    rcases List.mem_iff_getElem?.mp he with ⟨i, hi⟩
    rcases List.mem_iff_getElem?.mp he' with ⟨i', hi'⟩
    cases hv' : e'.value with
    | ret output => simp [hv'] at hf
    | call input'' =>
      simp only [hv', Option.ite_none_right_eq_some, Option.some.injEq] at hf
      have hat : CallAt h i e.id := ⟨e, hi, by rw [Entry.isCall, hv, Value.isCall], rfl⟩
      have hat' : CallAt h i' e.id := ⟨e', hi', by rw [Entry.isCall, hv', Value.isCall], hf.1⟩
      rw [hc.call_unique hat' hat, hi, Option.some.injEq] at hi'
      rw [← hi', hv, Value.call.injEq] at hv'
      rw [← hf.2, hv']

theorem Complete.output?_eq (hc : Complete h) {e : Entry ι ο} {output : ο} (he : e ∈ h)
    (hv : e.value = .ret output) : output? h e.id = some output := by
  apply findSome?_eq_of_unique he
  · simp [hv]
  · intro e' he' output' hf
    rcases List.mem_iff_getElem?.mp he with ⟨i, hi⟩
    rcases List.mem_iff_getElem?.mp he' with ⟨i', hi'⟩
    cases hv' : e'.value with
    | call input => simp [hv'] at hf
    | ret output'' =>
      simp only [hv', Option.ite_none_right_eq_some, Option.some.injEq] at hf
      have hat : ReturnAt h i e.id := ⟨e, hi, by rw [Entry.isCall, hv, Value.isCall], rfl⟩
      have hat' : ReturnAt h i' e.id := ⟨e', hi', by rw [Entry.isCall, hv', Value.isCall], hf.1⟩
      rw [hc.return_unique hat' hat, hi, Option.some.injEq] at hi'
      rw [← hi', hv, Value.ret.injEq] at hv'
      rw [← hf.2, hv']

/-- A step of an operation is one of the model with its input and its output. -/
theorem Complete.historySpec_step (hc : Complete h) {e r : Entry ι ο} {input : ι} {output : ο}
    (he : e ∈ h) (hv : e.value = .call input) (hr : r ∈ h) (hw : r.value = .ret output)
    (hid : r.id = e.id) (s : σ) :
    (historySpec M h).step s e.id =
      if (M.step s input output).1 then some (M.step s input output).2 else none := by
  have hout := hc.output?_eq hr hw
  rw [hid] at hout
  simp only [historySpec, hc.input?_eq he hv, hout, Option.bind_some]

theorem historySpec_step_congr (hM : M.Lawful) {s t s' : σ} {id : ℕ} (heq : M.equal s t = true)
    (hs : (historySpec M h).step s id = some s') :
    ∃ t', (historySpec M h).step t id = some t' ∧ M.equal s' t' = true := by
  simp only [historySpec, Option.bind_eq_some_iff] at hs ⊢
  rcases hs with ⟨input, hin, output, hout, hstep⟩
  split_ifs at hstep with hok
  rcases hM.step s t input output heq hok with ⟨hok', heq'⟩
  refine ⟨(M.step t input output).2, ⟨input, hin, output, hout, by rw [if_pos hok']⟩, ?_⟩
  rw [Option.some.injEq] at hstep
  rwa [← hstep]

theorem problem_respects (hM : M.Lawful) : (problem M h).Respects where
  refl c := ⟨rfl, hM.refl c.2⟩
  trans c d e hcd hde := ⟨hcd.1.trans hde.1, hM.trans _ _ _ hcd.2 hde.2⟩
  moves c d hs := by
    simp only [problem]
    rw [hs.1]
  next c d id c' hs hn := by
    rcases Option.map_eq_some_iff.mp hn with ⟨s', hstep, rfl⟩
    rcases historySpec_step_congr hM hs.2 hstep with ⟨t', hstep', heq⟩
    refine ⟨(insert id d.1, t'), ?_, ?_, heq⟩
    · simp only [problem, hstep', Option.map_some]
    · rw [hs.1]
  done c d hs hd := by
    simp only [problem] at hd ⊢
    rwa [← hs.1]

/-- A walk from any configuration takes new operations, in an order that the model accepts and
that respects real time. -/
theorem Complete.walk_iff (hc : Complete h) {l : List ℕ} {c d : Finset ℕ × σ} :
    (problem M h).Walk c l d ↔
      ((l.Nodup ∧ (∀ a ∈ l, a < h.length / 2 ∧ a ∉ c.1) ∧ l.Pairwise fun a b => ¬ before h b a) ∧
        ∀ a ∈ l, ∀ b < h.length / 2, b ∉ c.1 → b ∉ l → ¬ before h b a) ∧
      (historySpec M h).run c.2 l = some d.2 ∧ d.1 = c.1 ∪ l.toFinset := by
  induction l generalizing c with
  | nil =>
    constructor
    · intro hw
      cases hw
      simp [SeqSpec.run]
    · rintro ⟨-, hrun, hS⟩
      rw [SeqSpec.run, Option.some.injEq] at hrun
      have heq : c = d := Prod.ext (by simpa using hS.symm) hrun
      rw [heq]
      exact .nil d
  | cons a l ih =>
    constructor
    · intro hw
      cases hw with
      | cons hm hn hw =>
        rcases Option.map_eq_some_iff.mp hn with ⟨s, hstep, rfl⟩
        rcases hc.mem_leading_iff.mp hm with ⟨ha, hnew, hfree⟩
        rcases ih.mp hw with ⟨⟨⟨hnodup, hmem, horder⟩, hclosed⟩, hrun, hS⟩
        simp only [Finset.mem_insert, not_or] at hmem hclosed
        refine ⟨⟨⟨?_, ?_, ?_⟩, ?_⟩, ?_, ?_⟩
        · exact List.nodup_cons.mpr ⟨fun hal => (hmem a hal).2.1 rfl, hnodup⟩
        · intro b hb
          rcases List.mem_cons.mp hb with rfl | hb
          · exact ⟨ha, hnew⟩
          · exact ⟨(hmem b hb).1, (hmem b hb).2.2⟩
        · refine List.Pairwise.cons ?_ horder
          intro b hb
          exact hfree b (hmem b hb).1 (hmem b hb).2.2
        · intro x hx b hb hbS hbl
          rw [List.mem_cons, not_or] at hbl
          rcases List.mem_cons.mp hx with rfl | hx
          · exact hfree b hb hbS
          · exact hclosed x hx b hb ⟨hbl.1, hbS⟩ hbl.2
        · rw [SeqSpec.run, hstep, Option.bind_some]
          exact hrun
        · rw [hS, List.toFinset_cons, Finset.insert_union, Finset.union_insert]
    · rintro ⟨⟨⟨hnodup, hmem, horder⟩, hclosed⟩, hrun, hS⟩
      rcases List.nodup_cons.mp hnodup with ⟨hal, hnodup⟩
      rcases List.pairwise_cons.mp horder with ⟨hfirst, horder⟩
      rcases Option.bind_eq_some_iff.mp hrun with ⟨s, hstep, hrun⟩
      have hnext : (problem M h).next c a = some (insert a c.1, s) := by
        simp only [problem, hstep, Option.map_some]
      refine .cons (d := (insert a c.1, s)) ?_ hnext (ih.mpr ⟨⟨⟨hnodup, ?_, horder⟩, ?_⟩, hrun, ?_⟩)
      · refine hc.mem_leading_iff.mpr ⟨(hmem a List.mem_cons_self).1, (hmem a List.mem_cons_self).2, ?_⟩
        intro b hb hbS
        by_cases hbl : b ∈ a :: l
        · rcases List.mem_cons.mp hbl with rfl | hbl
          · exact hc.not_before_self b
          · exact hfirst b hbl
        · exact hclosed a List.mem_cons_self b hb hbS hbl
      · intro b hb
        rcases hmem b (List.mem_cons_of_mem a hb) with ⟨hlt, hnot⟩
        refine ⟨hlt, ?_⟩
        rw [Finset.mem_insert, not_or]
        exact ⟨fun heq => hal (heq ▸ hb), hnot⟩
      · intro x hx b hb hbS hbl
        rw [Finset.mem_insert, not_or] at hbS
        apply hclosed x (List.mem_cons_of_mem a hx) b hb hbS.2
        rw [List.mem_cons, not_or]
        exact ⟨hbS.1, hbl⟩
      · rw [hS, List.toFinset_cons, Finset.insert_union, Finset.union_insert]

/-- The walks of the search are the partial linearizations. -/
theorem Complete.walk_init_iff (hc : Complete h) {l : List ℕ} :
    (∃ c, (problem M h).Walk (problem M h).init l c) ↔
      PartlyLinearizes (historySpec M h) (before h) (List.range (h.length / 2)) l := by
  constructor
  · rintro ⟨c, hw⟩
    rcases hc.walk_iff.mp hw with ⟨⟨⟨hnodup, hmem, horder⟩, hclosed⟩, hrun, -⟩
    refine ⟨?_, horder, ?_, ?_⟩
    · apply List.subperm_of_subset hnodup
      intro a ha
      exact List.mem_range.mpr (hmem a ha).1
    · intro a ha b hb hbl
      exact hclosed a ha b (List.mem_range.mp hb) (Finset.notMem_empty b) hbl
    · exact Option.isSome_iff_exists.mpr ⟨c.2, hrun⟩
  · rintro ⟨hsub, horder, hclosed, haccepted⟩
    rcases Option.isSome_iff_exists.mp haccepted with ⟨s, hrun⟩
    refine ⟨(∅ ∪ l.toFinset, s), hc.walk_iff.mpr ⟨⟨⟨?_, ?_, horder⟩, ?_⟩, hrun, rfl⟩⟩
    · rcases hsub with ⟨l', hperm, hsublist⟩
      exact hperm.nodup_iff.mp (hsublist.nodup List.nodup_range)
    · intro a ha
      exact ⟨List.mem_range.mp (hsub.subset ha), Finset.notMem_empty a⟩
    · intro a ha b hb _ hbl
      exact hclosed a ha b (List.mem_range.mpr hb) hbl

/-- A walk to a configuration without entries is an order that explains the history. -/
theorem Complete.linearizes_of_done (hc : Complete h) {l : List ℕ} {c : Finset ℕ × σ}
    (hw : (problem M h).Walk (problem M h).init l c) (hd : (problem M h).done c) :
    Linearizes (historySpec M h) (before h) (List.range (h.length / 2)) l := by
  rcases hc.walk_iff.mp hw with ⟨⟨⟨hnodup, hmem, horder⟩, -⟩, hrun, hS⟩
  refine ⟨?_, horder, Option.isSome_iff_exists.mpr ⟨c.2, hrun⟩⟩
  rw [List.perm_ext_iff_of_nodup hnodup List.nodup_range]
  intro a
  rw [List.mem_range]
  constructor
  · intro ha
    exact (hmem a ha).1
  · intro ha
    have hin := hc.remaining_eq_nil_iff.mp hd a ha
    rw [hS, Finset.mem_union, List.mem_toFinset] at hin
    rcases hin with hin | hin
    · exact absurd hin (Finset.notMem_empty a)
    · exact hin

/-- The search looks for the orders that explain the history. -/
theorem Complete.solvable_iff (hc : Complete h) :
    (∃ l c, (problem M h).Walk (problem M h).init l c ∧ (problem M h).done c) ↔ Explained M h := by
  constructor
  · rintro ⟨l, c, hw, hd⟩
    exact ⟨l, hc.linearizes_of_done hw hd⟩
  · rintro ⟨l, hperm, horder, haccepted⟩
    have hpart : PartlyLinearizes (historySpec M h) (before h) (List.range (h.length / 2)) l := by
      refine ⟨hperm.subperm, horder, ?_, haccepted⟩
      intro a _ b hb hbl
      exact absurd (hperm.mem_iff.mpr hb) hbl
    rcases hc.walk_init_iff.mpr hpart with ⟨c, hw⟩
    refine ⟨l, c, hw, hc.remaining_eq_nil_iff.mpr ?_⟩
    intro a ha
    rw [(hc.walk_iff.mp hw).2.2, Finset.mem_union, List.mem_toFinset]
    exact Or.inr (hperm.mem_iff.mpr (List.mem_range.mpr ha))

/-- A search through `n` operations has bounded depth and breadth. -/
theorem Complete.bounded (hc : Complete h) :
    (problem M h).Bounded (h.length + 2) (h.length / 2) where
  moves c := by
    simp only [problem, List.length_map]
    have hle : (leading h c.1).length ≤ h.length := by
      calc (leading h c.1).length ≤ (remaining h c.1).length := (List.takeWhile_sublist _).length_le
        _ ≤ (List.range h.length).length := List.length_filter_le _ _
        _ = h.length := List.length_range
    omega
  walks l c hw := by
    have hsub := (hc.walk_init_iff.mp ⟨c, hw⟩).subperm.length_le
    rwa [List.length_range] at hsub

end

end DistStudy.Porcupine
