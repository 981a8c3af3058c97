import Mathlib.Data.List.Dedup
import Mathlib.Data.List.Perm.Basic
import Mathlib.Logic.Function.Basic
import Mathlib.Order.Lattice
import Mathlib.Tactic.Common

/-!
# Linearizability

A sequential object takes operations one after the other and refuses some of them. A set of
operations that overlapped in time is linearizable if some order of them is accepted, in which
no operation stands after one that was called only after it had returned.

`linearizable_product_iff` is locality: operations on a family of independent objects are
linearizable if and only if those on each object are. The order for all of them is found by
giving each operation a point between its call and its return, the latest call up to it in the
order of its own object, and sorting by the points.
-/

namespace DistStudy

/-- A sequential object: an operation, which carries its result, is refused or leads to a new
state. -/
structure SeqSpec (σ ω : Type) where
  init : σ
  step : σ → ω → Option σ

namespace SeqSpec

variable {σ ω : Type} (S : SeqSpec σ ω)

def run : σ → List ω → Option σ
  | s, [] => some s
  | s, a :: l => (S.step s a).bind fun s' => run s' l

end SeqSpec

/-- An order of some operations that a sequential object accepts and that respects
`before`. -/
structure Linearizes {σ ω : Type} (S : SeqSpec σ ω) (before : ω → ω → Prop) (ops l : List ω) :
    Prop where
  perm : l.Perm ops
  order : l.Pairwise fun a b => ¬ before b a
  accepted : (S.run S.init l).isSome

/-- An order of some of the operations that may be the first part of a linearization: what is
left out was not called too early. -/
structure PartlyLinearizes {σ ω : Type} (S : SeqSpec σ ω) (before : ω → ω → Prop)
    (ops l : List ω) : Prop where
  subperm : l.Subperm ops
  order : l.Pairwise fun a b => ¬ before b a
  closed : ∀ a ∈ l, ∀ b ∈ ops, b ∉ l → ¬ before b a
  accepted : (S.run S.init l).isSome

def Linearizable {σ ω : Type} (S : SeqSpec σ ω) (before : ω → ω → Prop) (ops : List ω) : Prop :=
  ∃ l, Linearizes S before ops l

theorem linearizable_perm_iff {σ ω : Type} {S : SeqSpec σ ω} {before : ω → ω → Prop}
    {ops ops' : List ω} (hperm : ops.Perm ops') :
    Linearizable S before ops ↔ Linearizable S before ops' := by
  constructor
  · rintro ⟨l, hl⟩
    exact ⟨l, hl.perm.trans hperm, hl.order, hl.accepted⟩
  · rintro ⟨l, hl⟩
    exact ⟨l, hl.perm.trans hperm.symm, hl.order, hl.accepted⟩

/-- Other names for the operations. -/
theorem linearizable_map_iff {σ ω ω' : Type} {S : SeqSpec σ ω} {S' : SeqSpec σ ω'}
    {before : ω → ω → Prop} {before' : ω' → ω' → Prop} {ops : List ω} (f : ω → ω')
    (hinit : S'.init = S.init) (hstep : ∀ s, ∀ a ∈ ops, S'.step s (f a) = S.step s a)
    (hbefore : ∀ a ∈ ops, ∀ b ∈ ops, before' (f a) (f b) ↔ before a b) :
    Linearizable S' before' (ops.map f) ↔ Linearizable S before ops := by
  have hrun : ∀ l : List ω, (∀ a ∈ l, a ∈ ops) → ∀ s, S'.run s (l.map f) = S.run s l := by
    intro l
    induction l with
    | nil =>
      intro _ s
      rfl
    | cons a l ih =>
      intro hmem s
      rw [List.map_cons, SeqSpec.run, SeqSpec.run, hstep s a (hmem a List.mem_cons_self)]
      congr 1
      funext s'
      exact ih (fun b hb => hmem b (List.mem_cons_of_mem a hb)) s'
  have hlin : ∀ l : List ω, l.Perm ops →
      (Linearizes S' before' (ops.map f) (l.map f) ↔ Linearizes S before ops l) := by
    intro l hperm
    have horder : (l.map f).Pairwise (fun a b => ¬ before' b a) ↔
        l.Pairwise fun a b => ¬ before b a := by
      rw [List.pairwise_map]
      apply List.Pairwise.iff_of_mem
      intro a b ha hb
      rw [hbefore b (hperm.subset hb) a (hperm.subset ha)]
    have hrun' := hrun l (fun a ha => hperm.subset ha) S.init
    constructor
    · rintro ⟨-, hord, hacc⟩
      rw [hinit, hrun'] at hacc
      exact ⟨hperm, horder.mp hord, hacc⟩
    · rintro ⟨-, hord, hacc⟩
      refine ⟨hperm.map f, horder.mpr hord, ?_⟩
      rw [hinit, hrun']
      exact hacc
  constructor
  · rintro ⟨l', hl'⟩
    have hcomp : Relation.Comp (· = List.map f ·) List.Perm l' ops := by
      rw [List.eq_map_comp_perm]
      exact hl'.perm
    rcases hcomp with ⟨l, rfl, hperm⟩
    exact ⟨l, (hlin l hperm).mp hl'⟩
  · rintro ⟨l, hl⟩
    exact ⟨l.map f, (hlin l hl.perm).mpr hl⟩

/-- Only the steps and the order of the operations in question matter. -/
theorem linearizable_congr {σ ω : Type} {S S' : SeqSpec σ ω} {before before' : ω → ω → Prop}
    {ops : List ω} (hinit : S'.init = S.init) (hstep : ∀ s, ∀ a ∈ ops, S'.step s a = S.step s a)
    (hbefore : ∀ a ∈ ops, ∀ b ∈ ops, before' a b ↔ before a b) :
    Linearizable S' before' ops ↔ Linearizable S before ops := by
  have hmap := linearizable_map_iff id hinit hstep hbefore
  rwa [List.map_id] at hmap

/-- An object for every key; an operation is one of the object of its key. -/
def SeqSpec.product {σ ω κ : Type} [DecidableEq κ] (S : SeqSpec σ ω) (key : ω → κ) :
    SeqSpec (κ → σ) ω where
  init _ := S.init
  step f a := (S.step (f (key a)) a).map (Function.update f (key a))

section

variable {σ ω κ : Type} [DecidableEq κ] {S : SeqSpec σ ω} {key : ω → κ}

/-- The objects of a family do not see each other. -/
theorem product_run_iff {f g : κ → σ} {l : List ω} :
    (S.product key).run f l = some g ↔
      ∀ k, S.run (f k) (l.filter (key · = k)) = some (g k) := by
  induction l generalizing f with
  | nil =>
    simp only [SeqSpec.run, List.filter_nil, Option.some.injEq]
    exact funext_iff
  | cons a l ih =>
    have hother : ∀ k ≠ key a, (a :: l).filter (key · = k) = l.filter (key · = k) := by
      intro k hk
      exact List.filter_cons_of_neg (by simpa using hk.symm)
    have hself : (a :: l).filter (key · = key a) = a :: l.filter (key · = key a) :=
      List.filter_cons_of_pos (by simp)
    cases hstep : S.step (f (key a)) a with
    | none =>
      simp only [SeqSpec.run, SeqSpec.product, hstep, Option.map_none, Option.bind_none]
      constructor
      · intro h
        cases h
      · intro h
        have hk := h (key a)
        rw [hself, SeqSpec.run, hstep] at hk
        cases hk
    | some s =>
      have hrun : (S.product key).run f (a :: l) =
          (S.product key).run (Function.update f (key a) s) l := by
        simp only [SeqSpec.run, SeqSpec.product, hstep, Option.map_some, Option.bind_some]
      rw [hrun, ih]
      apply forall_congr'
      intro k
      by_cases hk : k = key a
      · rw [hk, hself, SeqSpec.run, hstep, Option.bind_some, Function.update_self]
      · rw [hother k hk, Function.update_of_ne hk]

theorem product_run_isSome {f : κ → σ} {l : List ω} :
    ((S.product key).run f l).isSome ↔
      ∀ k, (S.run (f k) (l.filter (key · = k))).isSome := by
  constructor
  · intro h k
    rcases Option.isSome_iff_exists.mp h with ⟨g, hg⟩
    rw [product_run_iff.mp hg k]
    exact Option.isSome_some
  · intro h
    have hg : ∀ k, ∃ s, S.run (f k) (l.filter (key · = k)) = some s :=
      fun k => Option.isSome_iff_exists.mp (h k)
    choose g hg using hg
    rw [product_run_iff.mpr hg]
    exact Option.isSome_some

end

/-! ## Points -/

section

variable {ω κ τ : Type} [LinearOrder τ] {call ret : ω → τ}

/-- Give each operation of a list a point, the latest call so far, from `m` on. -/
def pointed (call : ω → τ) : τ → List ω → List (τ × ω)
  | _, [] => []
  | m, a :: l => (max m (call a), a) :: pointed call (max m (call a)) l

theorem pointed_map_snd (m : τ) (l : List ω) : (pointed call m l).map Prod.snd = l := by
  induction l generalizing m with
  | nil => rfl
  | cons a l ih => rw [pointed, List.map_cons, ih]

theorem le_of_mem_pointed {m : τ} {l : List ω} {p : τ × ω} (hp : p ∈ pointed call m l) :
    m ≤ p.1 ∧ call p.2 ≤ p.1 := by
  induction l generalizing m with
  | nil => cases hp
  | cons a l ih =>
    rcases List.mem_cons.mp hp with rfl | hp
    · exact ⟨le_max_left m (call a), le_max_right m (call a)⟩
    · exact ⟨(le_max_left m (call a)).trans (ih hp).1, (ih hp).2⟩

theorem pointed_sorted (m : τ) (l : List ω) :
    (pointed call m l).Pairwise fun p q => p.1 ≤ q.1 := by
  induction l generalizing m with
  | nil => exact List.Pairwise.nil
  | cons a l ih =>
    apply List.Pairwise.cons
    · intro q hq
      exact (le_of_mem_pointed hq).1
    · exact ih _

/-- In an order that respects real time, no point is after the return of its operation. -/
theorem pointed_le_ret {m : τ} {l : List ω} (horder : l.Pairwise fun a b => ¬ ret b < call a)
    (hspan : ∀ a ∈ l, call a ≤ ret a) (hm : ∀ a ∈ l, m ≤ ret a) :
    ∀ p ∈ pointed call m l, p.1 ≤ ret p.2 := by
  induction l generalizing m with
  | nil =>
    intro p hp
    cases hp
  | cons a l ih =>
    rcases List.pairwise_cons.mp horder with ⟨ha, htail⟩
    intro p hp
    rcases List.mem_cons.mp hp with rfl | hp
    · exact max_le (hm a List.mem_cons_self) (hspan a List.mem_cons_self)
    · refine ih htail (fun b hb => hspan b (List.mem_cons_of_mem a hb)) ?_ p hp
      intro b hb
      exact max_le (hm b (List.mem_cons_of_mem a hb)) (not_lt.mp (ha b hb))

/-- The points of an order of operations. -/
def points (call : ω → τ) (l : List ω) : List (τ × ω) :=
  match l with
  | [] => []
  | a :: l => pointed call (call a) (a :: l)

theorem points_map_snd (l : List ω) : (points call l).map Prod.snd = l := by
  cases l with
  | nil => rfl
  | cons a l => exact pointed_map_snd (call a) (a :: l)

theorem points_sorted (l : List ω) : (points call l).Pairwise fun p q => p.1 ≤ q.1 := by
  cases l with
  | nil => exact List.Pairwise.nil
  | cons a l => exact pointed_sorted (call a) (a :: l)

/-- The point of an operation is between its call and its return. -/
theorem points_within {l : List ω} (horder : l.Pairwise fun a b => ¬ ret b < call a)
    (hspan : ∀ a ∈ l, call a ≤ ret a) :
    ∀ p ∈ points call l, call p.2 ≤ p.1 ∧ p.1 ≤ ret p.2 := by
  cases l with
  | nil =>
    intro p hp
    cases hp
  | cons a l =>
    intro p hp
    refine ⟨(le_of_mem_pointed hp).2, pointed_le_ret horder hspan ?_ p hp⟩
    intro b hb
    rcases List.mem_cons.mp hb with rfl | hb
    · exact hspan b List.mem_cons_self
    · exact not_lt.mp ((List.pairwise_cons.mp horder).1 b hb)

/-- The operations of a family of orders, sorted by their points. -/
def merged (call : ω → τ) (parts : κ → List ω) (keys : List κ) : List (τ × ω) :=
  (keys.flatMap fun k => points call (parts k)).mergeSort fun p q => p.1 ≤ q.1

theorem merged_perm (call : ω → τ) (parts : κ → List ω) (keys : List κ) :
    ((merged call parts keys).map Prod.snd).Perm (keys.flatMap parts) := by
  have hperm := (List.mergeSort_perm (keys.flatMap fun k => points call (parts k))
    fun p q => decide (p.1 ≤ q.1)).map Prod.snd
  have heq : (keys.flatMap fun k => points call (parts k)).map Prod.snd = keys.flatMap parts := by
    rw [List.map_flatMap]
    exact List.flatMap_congr fun k _ => points_map_snd (parts k)
  rwa [heq] at hperm

theorem point_le_trans (p q r : τ × ω) (hpq : decide (p.1 ≤ q.1) = true)
    (hqr : decide (q.1 ≤ r.1) = true) : decide (p.1 ≤ r.1) = true := by
  rw [decide_eq_true_eq] at hpq hqr ⊢
  exact hpq.trans hqr

theorem point_le_total (p q : τ × ω) : (decide (p.1 ≤ q.1) || decide (q.1 ≤ p.1)) = true := by
  rw [Bool.or_eq_true, decide_eq_true_eq, decide_eq_true_eq]
  exact le_total p.1 q.1

theorem merged_sorted (parts : κ → List ω) (keys : List κ) :
    (merged call parts keys).Pairwise fun p q => p.1 ≤ q.1 := by
  have hsorted := List.pairwise_mergeSort point_le_trans point_le_total
    (keys.flatMap fun k => points call (parts k))
  exact hsorted.imp of_decide_eq_true

theorem mem_merged {parts : κ → List ω} {keys : List κ} {p : τ × ω}
    (hp : p ∈ merged call parts keys) : ∃ k ∈ keys, p ∈ points call (parts k) :=
  List.mem_flatMap.mp ((List.mergeSort_perm _ _).mem_iff.mp hp)

/-- Sorting by the points keeps the order within each part. -/
theorem points_sublist_merged (call : ω → τ) (parts : κ → List ω) {keys : List κ} {k : κ}
    (hk : k ∈ keys) :
    (points call (parts k)).Sublist (merged call parts keys) := by
  apply List.sublist_mergeSort point_le_trans point_le_total
  · exact (points_sorted (parts k)).imp fun h => decide_eq_true h
  · rw [List.flatMap_def]
    exact List.sublist_flatten_of_mem (List.mem_map_of_mem hk)

end

/-! ## Locality -/

section

variable {σ ω κ τ : Type} [DecidableEq κ] [LinearOrder τ] {S : SeqSpec σ ω} {key : ω → κ}
  {call ret : ω → τ}

/-- Of all parts, only that of a key contributes to it. -/
theorem filter_flatMap_parts {parts : κ → List ω} {keys : List κ} (hnodup : keys.Nodup)
    (hkey : ∀ k, ∀ a ∈ parts k, key a = k) (k : κ) :
    (keys.flatMap parts).filter (key · = k) = if k ∈ keys then parts k else [] := by
  have hself : (parts k).filter (key · = k) = parts k :=
    List.filter_eq_self.mpr fun a ha => decide_eq_true (hkey k a ha)
  have hother : ∀ k' ≠ k, (parts k').filter (key · = k) = [] := by
    intro k' hk'
    apply List.filter_eq_nil_iff.mpr
    intro a ha hak
    exact hk' ((hkey k' a ha).symm.trans (of_decide_eq_true hak))
  rw [List.filter_flatMap]
  induction keys with
  | nil => simp
  | cons k' keys ih =>
    rcases List.nodup_cons.mp hnodup with ⟨hnotin, hnodup⟩
    rw [List.flatMap_cons, ih hnodup]
    by_cases hk : k' = k
    · subst hk
      simp [hself, hnotin]
    · simp [hother k' hk, Ne.symm hk]

/-- The merged order, restricted to one key, is the order of that key. -/
theorem merged_filter (call : ω → τ) {parts : κ → List ω} {keys : List κ} (hnodup : keys.Nodup)
    (hkey : ∀ k, ∀ a ∈ parts k, key a = k) (hkeys : ∀ k ∉ keys, parts k = []) (k : κ) :
    ((merged call parts keys).map Prod.snd).filter (key · = k) = parts k := by
  have hperm := (merged_perm call parts keys).filter (key · = k)
  rw [filter_flatMap_parts hnodup hkey] at hperm
  by_cases hk : k ∈ keys
  · rw [if_pos hk] at hperm
    have hsub := ((points_sublist_merged call parts hk).map Prod.snd).filter (key · = k)
    rw [points_map_snd, List.filter_eq_self.mpr fun a ha => decide_eq_true (hkey k a ha)] at hsub
    exact (hsub.eq_of_length hperm.length_eq.symm).symm
  · rw [if_neg hk] at hperm
    rw [hkeys k hk]
    exact hperm.eq_nil

theorem perm_of_filters (key : ω → κ) {l l' : List ω}
    (h : ∀ k, (l.filter (key · = k)).Perm (l'.filter (key · = k))) : l.Perm l' := by
  classical
  rw [List.perm_iff_count]
  intro a
  have hcount := (h (key a)).count_eq a
  rwa [List.count_filter (by simp), List.count_filter (by simp)] at hcount

/-- Locality: operations on independent objects are linearizable if and only if those on each
object are. -/
theorem linearizable_product_iff {ops : List ω} (hspan : ∀ a ∈ ops, call a ≤ ret a) :
    Linearizable (S.product key) (fun a b => ret a < call b) ops ↔
      ∀ k ∈ ops.map key, Linearizable S (fun a b => ret a < call b) (ops.filter (key · = k)) := by
  constructor
  · intro h k hk
    rcases h with ⟨l, hl⟩
    refine ⟨l.filter (key · = k), hl.perm.filter _, hl.order.filter _, ?_⟩
    exact product_run_isSome.mp hl.accepted k
  · intro h
    -- an order for every key, empty for the keys that do not occur
    have hparts : ∀ k, ∃ l, Linearizes S (fun a b => ret a < call b) (ops.filter (key · = k)) l ∧
        (k ∉ (ops.map key).dedup → l = []) := by
      intro k
      by_cases hk : k ∈ ops.map key
      · rcases h k hk with ⟨l, hl⟩
        exact ⟨l, hl, fun hn => absurd (List.mem_dedup.mpr hk) hn⟩
      · have hnil : ops.filter (key · = k) = [] := by
          apply List.filter_eq_nil_iff.mpr
          intro a ha hak
          exact hk (List.mem_map.mpr ⟨a, ha, of_decide_eq_true hak⟩)
        rw [hnil]
        exact ⟨[], ⟨.refl [], .nil, rfl⟩, fun _ => rfl⟩
    choose parts hparts hkeys using hparts
    have hmem : ∀ k, ∀ a ∈ parts k, a ∈ ops ∧ key a = k := by
      intro k a ha
      rcases List.mem_filter.mp ((hparts k).perm.mem_iff.mp ha) with ⟨hops, hkey⟩
      exact ⟨hops, of_decide_eq_true hkey⟩
    have hfilter := merged_filter call (List.nodup_dedup (ops.map key))
      (fun k a ha => (hmem k a ha).2) hkeys
    refine ⟨(merged call parts (ops.map key).dedup).map Prod.snd, ?_, ?_, ?_⟩
    · apply perm_of_filters key
      intro k
      rw [hfilter k]
      exact (hparts k).perm
    · have hwithin : ∀ p ∈ merged call parts (ops.map key).dedup,
          call p.2 ≤ p.1 ∧ p.1 ≤ ret p.2 := by
        intro p hp
        rcases mem_merged hp with ⟨k, -, hp⟩
        exact points_within (hparts k).order (fun a ha => hspan a (hmem k a ha).1) p hp
      rw [List.pairwise_map]
      refine (merged_sorted parts _).imp_of_mem ?_
      intro p q hp hq hpq
      exact not_lt.mpr ((hwithin p hp).1.trans (hpq.trans (hwithin q hq).2))
    · apply product_run_isSome.mpr
      intro k
      rw [hfilter k]
      exact (hparts k).accepted

end

end DistStudy
