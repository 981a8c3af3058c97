import Mathlib.Data.List.Dedup
import Mathlib.Data.List.Perm.Basic
import Mathlib.Data.List.Perm.Lattice
import Mathlib.Order.Basic

/-!
# Grouping the records of a sorted list by their keys

`groupRuns` walks over a list of records and hands every run of equal keys, with the
values of the run in their order, to a function. On a sorted list there is one run for
each key, so that the results are those of the distinct keys (`groupRuns_perm`).

If the function does not look at the order of the values, then sorting and grouping the
parts of a list that was split by a function of the key gives the same results as
sorting and grouping the whole of it (`groupRuns_buckets`).
-/

namespace DistStudy

variable {γ κ ν β : Type*}

/-- A list without duplicates, split by a function into `n` parts and put together. -/
theorem flatMap_filter_perm {D : List κ} (hD : D.Nodup) {b : κ → ℕ} {n : ℕ} (hb : ∀ k, b k < n) :
    ((List.range n).flatMap fun r => D.filter fun k => b k = r).Perm D := by
  rw [List.perm_ext_iff_of_nodup ?_ hD]
  · intro k
    simp [hb]
  · rw [List.nodup_flatMap]
    refine ⟨fun r _ => hD.filter _, List.nodup_range.imp fun {r r'} hne => ?_⟩
    intro k hk hk'
    simp only [List.mem_filter, decide_eq_true_eq] at hk hk'
    exact hne (hk.2.symm.trans hk'.2)

section

variable [DecidableEq κ] (key : γ → κ) (value : γ → ν) (f : κ → List ν → β)

/-- The rest of the walk, when the current run has the key `k` and the values `vs`. -/
def groupFrom : κ → List ν → List γ → List β
  | k, vs, [] => [f k vs]
  | k, vs, x :: rest =>
    if key x = k then groupFrom k (vs ++ [value x]) rest
    else f k vs :: groupFrom (key x) [value x] rest

def groupRuns : List γ → List β
  | [] => []
  | x :: rest => groupFrom key value f (key x) [value x] rest

/-- The values of a key, in the order of the list. -/
def valuesAt (k : κ) (l : List γ) : List ν := (l.filter fun x => key x = k).map value

end

section

variable [DecidableEq κ] {key : γ → κ} {value : γ → ν} {f : κ → List ν → β} {l l' : List γ} {k : κ}

theorem valuesAt_eq_nil (h : ∀ x ∈ l, key x ≠ k) : valuesAt key value k l = [] := by
  rw [valuesAt, List.filter_eq_nil_iff.mpr fun x hx => by simpa using h x hx]
  rfl

theorem valuesAt_filter {p : γ → Bool} (h : ∀ x ∈ l, key x = k → p x = true) :
    valuesAt key value k (l.filter p) = valuesAt key value k l := by
  unfold valuesAt
  rw [List.filter_filter]
  congr 1
  refine List.filter_congr fun x hx => ?_
  by_cases hk : key x = k
  · simp [hk, h x hx hk]
  · simp [hk]

theorem valuesAt_perm (h : l.Perm l') :
    (valuesAt key value k l).Perm (valuesAt key value k l') :=
  (h.filter _).map _

theorem valuesAt_flatMap {δ : Type*} (g : δ → List γ) (xs : List δ) :
    valuesAt key value k (xs.flatMap g) = xs.flatMap fun x => valuesAt key value k (g x) := by
  simp only [valuesAt, List.filter_flatMap, List.map_flatMap]

/-- The values of a list in which every occurrence of a key has the value `v`. -/
theorem valuesAt_map [BEq κ] [LawfulBEq κ] {mk : κ → γ} {v : ν} (hkey : ∀ k, key (mk k) = k)
    (hvalue : ∀ k, value (mk k) = v) (ks : List κ) :
    valuesAt key value k (ks.map mk) = List.replicate (ks.count k) v := by
  induction ks with
  | nil => rfl
  | cons k' ks ih =>
    unfold valuesAt at ih ⊢
    rw [List.map_cons, List.filter_cons, hkey]
    by_cases hk : k' = k
    · subst hk
      simp [ih, hvalue, List.replicate_succ]
    · simp [ih, hk]

theorem length_groupRuns_le (l : List γ) : (groupRuns key value f l).length ≤ l.length := by
  have hfrom : ∀ (l : List γ) (k : κ) (vs : List ν),
      (groupFrom key value f k vs l).length ≤ l.length + 1 := by
    intro l
    induction l with
    | nil => exact fun _ _ => Nat.le_refl 1
    | cons x rest ih =>
      intro k vs
      unfold groupFrom
      split_ifs
      · exact Nat.le_succ_of_le (ih k _)
      · exact Nat.succ_le_succ (ih _ _)
  cases l with
  | nil => exact Nat.le_refl 0
  | cons x rest => exact hfrom rest (key x) [value x]

theorem map_groupRuns {δ : Type*} (g : β → δ) (l : List γ) :
    (groupRuns key value f l).map g = groupRuns key value (fun k vs => g (f k vs)) l := by
  have hfrom : ∀ (l : List γ) (k : κ) (vs : List ν), (groupFrom key value f k vs l).map g =
      groupFrom key value (fun k vs => g (f k vs)) k vs l := by
    intro l
    induction l with
    | nil => exact fun _ _ => rfl
    | cons x rest ih =>
      intro k vs
      unfold groupFrom
      split_ifs
      · exact ih k _
      · rw [List.map_cons, ih]
  cases l with
  | nil => rfl
  | cons x rest => exact hfrom rest (key x) [value x]

/-- The runs put together, when a result gives back the records of its run. -/
theorem flatMap_groupRuns {mk : κ → ν → γ} (hmk : ∀ x, mk (key x) (value x) = x)
    {g : β → List γ} (hg : ∀ k vs, g (f k vs) = vs.map (mk k)) (l : List γ) :
    (groupRuns key value f l).flatMap g = l := by
  have hfrom : ∀ (l : List γ) (k : κ) (vs : List ν),
      (groupFrom key value f k vs l).flatMap g = vs.map (mk k) ++ l := by
    intro l
    induction l with
    | nil => simp [groupFrom, hg]
    | cons x rest ih =>
      intro k vs
      unfold groupFrom
      split_ifs with hk
      · rw [ih, ← hk]
        simp [hmk]
      · rw [List.flatMap_cons, ih, hg]
        simp [hmk]
  cases l with
  | nil => rfl
  | cons x rest => simpa [groupRuns, hmk] using hfrom rest (key x) [value x]

variable [PartialOrder κ]

/-- The keys do not go down. -/
def SortedBy (key : γ → κ) (l : List γ) : Prop := l.Pairwise fun x y => key x ≤ key y

instance [DecidableLE κ] : Decidable (SortedBy key l) :=
  inferInstanceAs (Decidable (l.Pairwise fun x y => key x ≤ key y))

/-- The current run takes all records of its key, and the walk goes on with the others. -/
theorem groupFrom_eq (vs : List ν) (hk : ∀ x ∈ l, k ≤ key x) (hs : SortedBy key l) :
    groupFrom key value f k vs l =
      f k (vs ++ valuesAt key value k l) ::
        groupRuns key value f (l.filter fun x => key x ≠ k) := by
  induction l generalizing vs with
  | nil => simp [groupFrom, groupRuns, valuesAt]
  | cons x rest ih =>
    obtain ⟨hx, hrest⟩ := List.pairwise_cons.mp hs
    by_cases heq : key x = k
    · have hrun := ih (vs ++ [value x]) (fun y hy => hk y (List.mem_cons_of_mem x hy)) hrest
      simp only [groupFrom, heq, if_true, hrun]
      simp [valuesAt, heq]
    · -- a greater key comes next, so that there is no more record of `k`
      have hlt : k < key x := lt_of_le_of_ne (hk x List.mem_cons_self) (Ne.symm heq)
      have hne : ∀ y ∈ x :: rest, key y ≠ k := by
        intro y hy
        rcases List.mem_cons.mp hy with rfl | hy
        · exact heq
        · exact (lt_of_lt_of_le hlt (hx y hy)).ne'
      have hall : (x :: rest).filter (fun y => key y ≠ k) = x :: rest := by
        rw [List.filter_eq_self]
        intro y hy
        simpa using hne y hy
      rw [hall, valuesAt_eq_nil hne, List.append_nil]
      simp only [groupFrom, heq, if_false, groupRuns]

/-- One result for each key of a sorted list. -/
theorem groupRuns_perm (hs : SortedBy key l) :
    (groupRuns key value f l).Perm
      ((l.map key).dedup.map fun k => f k (valuesAt key value k l)) := by
  -- the records of the first key are taken off, so the list gets shorter
  induction hn : l.length using Nat.strongRecOn generalizing l with
  | _ n ih =>
    cases l with
    | nil => simp [groupRuns]
    | cons x rest =>
      obtain ⟨hx, hrest⟩ := List.pairwise_cons.mp hs
      set others := rest.filter fun y => key y ≠ key x with hothers
      have hlen : others.length < n := by
        have hle : others.length ≤ rest.length := List.length_filter_le _ _
        simp only [List.length_cons] at hn
        omega
      have hrec := ih others.length hlen (hrest.filter _) rfl
      rw [groupRuns, groupFrom_eq [value x] hx hrest]
      have hkeys : ((x :: rest).map key).dedup.Perm (key x :: (others.map key).dedup) := by
        have hnot : key x ∉ (others.map key).dedup := by simp [hothers]
        rw [List.perm_ext_iff_of_nodup (List.nodup_dedup _)
          (List.nodup_cons.mpr ⟨hnot, List.nodup_dedup _⟩)]
        intro k
        by_cases hk : k = key x <;> simp [hothers, hk]
        constructor
        · rintro ⟨y, hy, rfl⟩
          exact ⟨y, ⟨hy, hk⟩, rfl⟩
        · rintro ⟨y, ⟨hy, -⟩, rfl⟩
          exact ⟨y, hy, rfl⟩
      refine List.Perm.trans ?_ (hkeys.map _).symm
      have hfirst : [value x] ++ valuesAt key value (key x) rest =
          valuesAt key value (key x) (x :: rest) := by simp [valuesAt]
      rw [hfirst, List.map_cons]
      refine List.Perm.cons _ (hrec.trans (List.Perm.of_eq ?_))
      -- the other keys have lost no value
      refine List.map_congr_left fun k hk => ?_
      have hne : k ≠ key x := by
        obtain ⟨y, hy, rfl⟩ := List.mem_map.mp (List.mem_dedup.mp hk)
        simpa using (List.mem_filter.mp hy).2
      have hvalues : valuesAt key value k others = valuesAt key value k (x :: rest) := by
        rw [hothers, valuesAt_filter fun y _ hy => by simp [hy, hne]]
        simp [valuesAt, Ne.symm hne]
      rw [hvalues]

/-- The keys of the results, when a result carries its key. -/
theorem map_groupRuns_perm {g : β → κ} (hg : ∀ k vs, g (f k vs) = k) (hs : SortedBy key l) :
    ((groupRuns key value f l).map g).Perm (l.map key).dedup := by
  refine ((groupRuns_perm hs).map g).trans (List.Perm.of_eq ?_)
  rw [List.map_map]
  exact (List.map_congr_left fun k _ => hg k _).trans (List.map_id' _)

/-- Sorting and grouping by parts. -/
theorem groupRuns_buckets (hf : ∀ k vs vs', vs.Perm vs' → f k vs = f k vs') {b : κ → ℕ} {n : ℕ}
    (hb : ∀ k, b k < n) {parts : ℕ → List γ}
    (hparts : ∀ r < n, SortedBy key (parts r) ∧ (parts r).Perm (l.filter fun x => b (key x) = r))
    (hl' : SortedBy key l') (hperm : l'.Perm l) :
    ((List.range n).flatMap fun r => groupRuns key value f (parts r)).Perm
      (groupRuns key value f l') := by
  let g : κ → β := fun k => f k (valuesAt key value k l)
  have hwhole : (groupRuns key value f l').Perm ((l.map key).dedup.map g) := by
    refine (groupRuns_perm hl').trans (List.Perm.trans (List.Perm.of_eq ?_)
      ((hperm.map key).dedup.map g))
    exact List.map_congr_left fun k _ => hf k _ _ (valuesAt_perm hperm)
  have hpart : ∀ r ∈ List.range n, (groupRuns key value f (parts r)).Perm
      (((l.map key).dedup.filter fun k => b k = r).map g) := by
    intro r hr
    obtain ⟨hsorted, hp⟩ := hparts r (List.mem_range.mp hr)
    refine (groupRuns_perm hsorted).trans ?_
    have hkeys : ((parts r).map key).dedup.Perm ((l.map key).dedup.filter fun k => b k = r) := by
      rw [List.perm_ext_iff_of_nodup (List.nodup_dedup _) ((List.nodup_dedup _).filter _)]
      intro k
      simp only [List.mem_dedup, List.mem_filter, List.mem_map, decide_eq_true_eq, hp.mem_iff]
      constructor
      · rintro ⟨x, ⟨hx, hbx⟩, rfl⟩
        exact ⟨⟨x, hx, rfl⟩, hbx⟩
      · rintro ⟨⟨x, hx, rfl⟩, hbx⟩
        exact ⟨x, ⟨hx, hbx⟩, rfl⟩
    refine List.Perm.trans (List.Perm.of_eq (List.map_congr_left fun k hk => ?_)) (hkeys.map g)
    -- all records of a key are in one part
    have hbk : b k = r := by simpa using (List.mem_filter.mp (hkeys.subset hk)).2
    refine hf k _ _ ((valuesAt_perm hp).trans (List.Perm.of_eq ?_))
    exact valuesAt_filter fun x _ hx => by simp [hx, hbk]
  refine List.Perm.trans ?_ hwhole.symm
  refine (List.Perm.flatMap_left (List.range n) hpart).trans ?_
  have hmap : ((List.range n).flatMap fun r =>
      ((l.map key).dedup.filter fun k => b k = r).map g) =
      ((List.range n).flatMap fun r => (l.map key).dedup.filter fun k => b k = r).map g := by
    rw [List.map_flatMap]
  rw [hmap]
  exact (flatMap_filter_perm (List.nodup_dedup _) hb).map g

end

end DistStudy
