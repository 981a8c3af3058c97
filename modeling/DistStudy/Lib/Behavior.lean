import Mathlib.Data.Nat.Init
import Mathlib.Logic.Relation
import Mathlib.Order.Basic
import Mathlib.Tactic.Common

/-!
# Runs of a labelled transition function

A system is an initial state and a partial transition function
`step : σ → ε → Option σ`. A run is an infinite behavior in which every step
is a transition or a stutter, so that a finite run is one that stutters
forever. `Runs init step C` restricts the transitions to those that meet a
condition `C` on the state before the step and the label.

* `Runs.invariant` is the induction rule, and `Runs.invariant_of` the same for an invariant
  that rests on others;
* `Runs.simulation` is the rule for an invariant with a history: a ghost that
  only grows and that relates two positions of one run;
* `play` executes a list of labels, `Runs.play` turns it into a run, and `Runs.lasso` a
  loop into a run that repeats it forever;
* `follow` executes a list of labels that are all enabled; a measure bounds its length
  (`follow_countP_le`), and chains of steps are such lists (`exists_follow`).
-/

namespace DistStudy

/-- An infinite behavior. -/
abbrev Behavior (σ : Type) : Type := ℕ → σ

section

variable {σ ε : Type} {init : σ} {step : σ → ε → Option σ} {C D : σ → ε → Prop}
  {e : Behavior σ}

/-- The behavior starts in `init` and every step of it is a stutter or a
transition that meets `C`. -/
structure Runs (init : σ) (step : σ → ε → Option σ) (C : σ → ε → Prop)
    (e : Behavior σ) : Prop where
  start : e 0 = init
  next : ∀ k, e (k + 1) = e k ∨ ∃ l, C (e k) l ∧ step (e k) l = some (e (k + 1))

/-- A weaker condition allows more runs. -/
theorem Runs.mono (h : Runs init step C e) (hCD : ∀ k l, C (e k) l → D (e k) l) :
    Runs init step D e := by
  refine ⟨h.start, fun k => ?_⟩
  rcases h.next k with hstut | ⟨l, hC, hstep⟩
  · exact Or.inl hstut
  · exact Or.inr ⟨l, hCD k l hC, hstep⟩

/-- Inductive invariance, relative to what is known of every state of the run. -/
theorem Runs.invariant_of (h : Runs init step C e) {known : σ → Prop}
    (hknown : ∀ k, known (e k)) (inv : σ → Prop) (hinit : inv init)
    (hstep : ∀ s l s', known s → inv s → C s l → step s l = some s' → inv s') :
    ∀ k, inv (e k) := by
  intro k
  induction k with
  | zero => rw [h.start]; exact hinit
  | succ k ih =>
      rcases h.next k with hstut | ⟨l, hC, hnext⟩
      · rw [hstut]; exact ih
      · exact hstep (e k) l (e (k + 1)) (hknown k) ih hC hnext

/-- Inductive invariance. -/
theorem Runs.invariant (h : Runs init step C e) (inv : σ → Prop) (hinit : inv init)
    (hstep : ∀ s l s', inv s → C s l → step s l = some s' → inv s') :
    ∀ k, inv (e k) := by
  have hknown : ∀ k, Function.const σ True (e k) := fun _ => trivial
  exact h.invariant_of hknown inv hinit fun s l s' _ => hstep s l s'

/-- From a state that a ghost is related to, the rest of the run is related to
ghosts above it. -/
theorem Runs.simulation_from {γ : Type*} [Preorder γ] (h : Runs init step C e)
    (R : γ → σ → Prop)
    (hstep : ∀ g s l s', R g s → C s l → step s l = some s' → ∃ g', g ≤ g' ∧ R g' s')
    {a b : ℕ} (hab : a ≤ b) {g : γ} (hg : R g (e a)) :
    ∃ g', g ≤ g' ∧ R g' (e b) := by
  induction b, hab using Nat.le_induction with
  | base => exact ⟨g, le_refl g, hg⟩
  | succ b hb ih =>
      rcases ih with ⟨g₁, hle, hR⟩
      rcases h.next b with hstut | ⟨l, hC, hnext⟩
      · exact ⟨g₁, hle, by rw [hstut]; exact hR⟩
      · rcases hstep g₁ (e b) l (e (b + 1)) hR hC hnext with ⟨g₂, hle₂, hR₂⟩
        exact ⟨g₂, le_trans hle hle₂, hR₂⟩

/-- Invariance with a history: every two positions of a run are related to
ghosts of which the later one extends the earlier one. -/
theorem Runs.simulation {γ : Type*} [Preorder γ] (h : Runs init step C e)
    (R : γ → σ → Prop) (hinit : ∃ g, R g init)
    (hstep : ∀ g s l s', R g s → C s l → step s l = some s' → ∃ g', g ≤ g' ∧ R g' s')
    {a b : ℕ} (hab : a ≤ b) :
    ∃ g g', g ≤ g' ∧ R g (e a) ∧ R g' (e b) := by
  rcases hinit with ⟨g₀, hg₀⟩
  rw [← h.start] at hg₀
  rcases h.simulation_from R hstep (Nat.zero_le a) hg₀ with ⟨g, -, hg⟩
  rcases h.simulation_from R hstep hab hg with ⟨g', hle, hg'⟩
  exact ⟨g, g', hle, hg, hg'⟩

/-! ## Executing a list of labels -/

/-- The state after a list of labels; a label that is not enabled stutters. -/
def play (step : σ → ε → Option σ) : σ → List ε → σ
  | s, [] => s
  | s, l :: ls => play step ((step s l).getD s) ls

/-- Every label of the list meets `C` in the state in which it is played. -/
def Plays (step : σ → ε → Option σ) (C : σ → ε → Prop) : σ → List ε → Prop
  | _, [] => True
  | s, l :: ls => C s l ∧ Plays step C ((step s l).getD s) ls

theorem Plays.of_forall (h : ∀ s l, C s l) (s : σ) (ls : List ε) : Plays step C s ls := by
  induction ls generalizing s with
  | nil => exact trivial
  | cons l ls ih => exact ⟨h s l, ih _⟩

instance Plays.decidable (step : σ → ε → Option σ) (C : σ → ε → Prop)
    [∀ s l, Decidable (C s l)] : ∀ (s : σ) (ls : List ε), Decidable (Plays step C s ls)
  | _, [] => inferInstanceAs (Decidable True)
  | s, l :: ls =>
    have := Plays.decidable step C ((step s l).getD s) ls
    inferInstanceAs (Decidable (C s l ∧ Plays step C ((step s l).getD s) ls))

theorem play_append (s : σ) (ls ls' : List ε) :
    play step s (ls ++ ls') = play step (play step s ls) ls' := by
  induction ls generalizing s with
  | nil => rfl
  | cons l ls ih => exact ih _

theorem Plays.append {s : σ} {ls ls' : List ε} (h : Plays step C s (ls ++ ls')) :
    Plays step C (play step s ls) ls' := by
  induction ls generalizing s with
  | nil => exact h
  | cons l ls ih => exact ih h.2

/-- One label of a list that is played. -/
theorem Plays.next {s : σ} {ls : List ε} (h : Plays step C s ls) {k : ℕ} (hk : k < ls.length) :
    play step s (ls.take (k + 1)) = play step s (ls.take k) ∨
      ∃ l, C (play step s (ls.take k)) l ∧
        step (play step s (ls.take k)) l = some (play step s (ls.take (k + 1))) := by
  -- the `k`-th label is played in the state after the labels before it
  have htake : ls.take (k + 1) = ls.take k ++ [ls[k]] := by simp
  have hdrop : ls = ls.take k ++ (ls[k] :: ls.drop (k + 1)) := by simp
  rw [hdrop] at h
  have hC := h.append.1
  rw [htake, play_append]
  cases hs : step (play step s (ls.take k)) ls[k] with
  | none => exact Or.inl (by simp [play, hs])
  | some s' => exact Or.inr ⟨ls[k], hC, by simp [play, hs]⟩

/-- Playing a list is a run. -/
theorem Runs.play {ls : List ε} (h : Plays step C init ls) :
    Runs init step C (fun k => play step init (ls.take k)) := by
  refine ⟨by simp [DistStudy.play], fun k => ?_⟩
  by_cases hk : k < ls.length
  · exact h.next hk
  · left
    rw [List.take_of_length_le (by omega), List.take_of_length_le (by omega)]

/-! ## Labels that are all enabled -/

/-- The state after a list of labels, each of which is enabled. -/
def follow (step : σ → ε → Option σ) : σ → List ε → Option σ
  | s, [] => some s
  | s, l :: ls => (step s l).bind fun s' => follow step s' ls

theorem follow_invariant_of_mem (inv : σ → Prop) {s s' : σ} {ls : List ε}
    (hstep : ∀ s, ∀ l ∈ ls, ∀ s', inv s → step s l = some s' → inv s')
    (h : follow step s ls = some s') (hs : inv s) : inv s' := by
  induction ls generalizing s with
  | nil =>
    rw [follow, Option.some.injEq] at h
    rwa [← h]
  | cons l ls ih =>
    rcases Option.bind_eq_some_iff.mp h with ⟨s₁, hl, h⟩
    have hrest : ∀ s, ∀ l ∈ ls, ∀ s', inv s → step s l = some s' → inv s' :=
      fun s l' hl' => hstep s l' (List.mem_cons_of_mem l hl')
    exact ih hrest h (hstep s l List.mem_cons_self s₁ hs hl)

theorem follow_invariant {inv : σ → Prop} (hstep : ∀ s l s', inv s → step s l = some s' → inv s')
    {s s' : σ} {ls : List ε} (h : follow step s ls = some s') (hs : inv s) : inv s' :=
  follow_invariant_of_mem inv (fun s l _ => hstep s l) h hs

/-- A number that the labels of one kind lower, and that each label of another kind raises by
`c` at most, bounds how many of the first kind there are. -/
theorem follow_countP_le (inv : σ → Prop) (hstep : ∀ s l s', inv s → step s l = some s' → inv s')
    {measure : σ → ℕ} {p q : ε → Bool} {c : ℕ}
    (hlt : ∀ s l s', inv s → step s l = some s' →
      (if p l then 1 else 0) + measure s' ≤ measure s + if q l then c else 0)
    {s s' : σ} {ls : List ε} (h : follow step s ls = some s') (hs : inv s) :
    ls.countP p + measure s' ≤ measure s + c * ls.countP q := by
  induction ls generalizing s with
  | nil =>
    rw [follow, Option.some.injEq] at h
    have heq := congrArg measure h
    rw [List.countP_nil, List.countP_nil]
    omega
  | cons l ls ih =>
    rcases Option.bind_eq_some_iff.mp h with ⟨s₁, hl, h⟩
    have hle := ih h (hstep s l s₁ hs hl)
    have hlt' := hlt s l s₁ hs hl
    have hc : c * (if q l then 1 else 0) = if q l then c else 0 := by split_ifs <;> simp
    rw [List.countP_cons, List.countP_cons, Nat.mul_add, hc]
    omega

/-- A number that every step lowers bounds the number of steps. -/
theorem follow_length_le {inv : σ → Prop} (hstep : ∀ s l s', inv s → step s l = some s' → inv s')
    {measure : σ → ℕ} (hlt : ∀ s l s', inv s → step s l = some s' → measure s' < measure s)
    {s s' : σ} {ls : List ε} (h : follow step s ls = some s') (hs : inv s) :
    ls.length + measure s' ≤ measure s := by
  have hle : ls.countP (fun _ => true) + measure s' ≤ measure s + 0 * ls.countP fun _ => true := by
    apply follow_countP_le inv hstep _ h hs
    intro s l s' hs hl
    have hlt' := hlt s l s' hs hl
    simp only [if_true]
    omega
  simpa using hle

theorem follow_append (s : σ) (ls ls' : List ε) :
    follow step s (ls ++ ls') = (follow step s ls).bind fun s' => follow step s' ls' := by
  induction ls generalizing s with
  | nil => rfl
  | cons l ls ih =>
    rw [List.cons_append, follow, follow, Option.bind_assoc]
    exact congrArg _ (funext ih)

/-- A chain of steps is a list of labels. -/
theorem exists_follow {s s' : σ}
    (h : Relation.ReflTransGen (fun s s' => ∃ l, step s l = some s') s s') :
    ∃ ls, follow step s ls = some s' := by
  induction h with
  | refl => exact ⟨[], rfl⟩
  | tail _ hstep ih =>
    rcases ih with ⟨ls, hls⟩
    rcases hstep with ⟨l, hl⟩
    refine ⟨ls ++ [l], ?_⟩
    rw [follow_append, hls, Option.bind_some, follow, hl]
    rfl

/-- The transitions that meet a condition. -/
def restrict (step : σ → ε → Option σ) (C : σ → ε → Prop) [∀ s l, Decidable (C s l)] (s : σ)
    (l : ε) : Option σ :=
  if C s l then step s l else none

theorem restrict_eq_some [∀ s l, Decidable (C s l)] {s s' : σ} {l : ε} :
    restrict step C s l = some s' ↔ C s l ∧ step s l = some s' := by
  unfold restrict
  split_ifs with hC
  · exact (and_iff_right hC).symm
  · simp [hC]

/-! ## Repeating a loop forever -/

/-- How much of `ls ++ loop` has been played at a position, if `loop` is repeated. -/
def lassoAt (ls loop : List ε) (k : ℕ) : ℕ :=
  if k < ls.length then k else ls.length + (k - ls.length) % loop.length

theorem lassoAt_succ (ls : List ε) {loop : List ε} (hne : loop ≠ []) (k : ℕ) :
    lassoAt ls loop (k + 1) = lassoAt ls loop k + 1 ∧
        lassoAt ls loop k < (ls ++ loop).length ∨
      lassoAt ls loop k + 1 = (ls ++ loop).length ∧ lassoAt ls loop (k + 1) = ls.length := by
  have hpos : 0 < loop.length := List.length_pos_iff.mpr hne
  unfold lassoAt
  rw [List.length_append]
  by_cases hk : k < ls.length
  · left
    rw [if_pos hk]
    refine ⟨?_, by omega⟩
    split_ifs with hk'
    · rfl
    · have hzero : k + 1 - ls.length = 0 := by omega
      rw [hzero, Nat.zero_mod]
      omega
  · have hk' : ¬ k + 1 < ls.length := by omega
    have hsub : k + 1 - ls.length = k - ls.length + 1 := by omega
    rw [if_neg hk, if_neg hk', hsub]
    generalize k - ls.length = m
    have hlt := Nat.mod_lt m hpos
    have hmod : (m + 1) % loop.length = (m % loop.length + 1) % loop.length := by simp
    rw [hmod]
    by_cases hend : m % loop.length + 1 = loop.length
    · right
      rw [hend, Nat.mod_self]
      omega
    · left
      rw [Nat.mod_eq_of_lt (by omega)]
      omega

/-- A loop that leads back to the state from which it is played can be repeated forever. -/
theorem Runs.lasso {ls loop : List ε} (h : Plays step C init (ls ++ loop)) (hne : loop ≠ [])
    (hback : DistStudy.play step init (ls ++ loop) = DistStudy.play step init ls) :
    Runs init step C
      (fun k => DistStudy.play step init ((ls ++ loop).take (lassoAt ls loop k))) := by
  refine ⟨?_, fun k => ?_⟩
  · have hzero : lassoAt ls loop 0 = 0 := by
      unfold lassoAt
      split_ifs with hk
      · rfl
      · rw [Nat.zero_sub, Nat.zero_mod]
        omega
    simp [hzero, DistStudy.play]
  · rcases lassoAt_succ ls hne k with ⟨hnext, hlt⟩ | ⟨hend, hstart⟩
    · simp only [hnext]
      exact h.next hlt
    · -- the last label of the loop leads back to its first state
      have hlast := h.next (k := lassoAt ls loop k) (by omega)
      have hloop : DistStudy.play step init ((ls ++ loop).take (lassoAt ls loop k + 1)) =
          DistStudy.play step init ((ls ++ loop).take (lassoAt ls loop (k + 1))) := by
        rw [hend, hstart, List.take_length, List.take_left, hback]
      rw [hloop] at hlast
      exact hlast

end

end DistStudy
