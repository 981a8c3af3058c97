import DistStudy.Lib.ReplicatedLogSafety
import Mathlib.Logic.Relation

/-!
# Sequences of actions of the replicated log

`Moves i s s'`: node `i` takes any number of actions. An implementation that
relates one event of a node to `Moves` gets from here

* the invariant and the history order along the moves,
* what the moves leave of the other nodes (`Moves.frame`, `Moves.lead_iff`),
* that committed prefixes stay in the log (`Moves.committed`): a prefix is
  `Settled` when it is part of a chosen one, and `Committed` by a node that has
  it in its log.
-/

namespace DistStudy.ReplicatedLog

open Function

variable {N T V : Type*}

/-! ## The initial state -/

/-- Nothing has happened in the term `t₀`. -/
@[simps] def State.init (t₀ : T) : State N T V where
  term _ := t₀
  vote _ _ := none
  bid _ _ := none
  log _ := []
  lead _ := none
  ack _ _ _ := False
  chosen _ _ := False

theorem inv_init [LinearOrder T] [Fintype N] (t₀ : T) : Inv (State.init t₀ : State N T V) where
  vote_le h := by cases h
  vote_bid h := by cases h
  bid_vote h := by cases h
  bid_lt h := by cases h
  lead_bid h := by cases h
  lead_won h := by cases h
  log_le v x hx := by cases hx
  log_rooted v := State.rooted_nil
  bid_rooted h := by cases h
  lead_rooted h := by cases h
  ack_le h := h.elim
  ack_lead h := h.elim
  ack_now h := h.elim
  ack_past {v t P} hp _ _ := by
    rcases hp with ⟨⟨c, L, hl, -⟩, -⟩
    cases hl
  ack_vote _ _ _ h _ := by cases h
  complete _ _ h := by cases h
  chosen_held h := h.elim

/-! ## Settled and committed prefixes -/

namespace State

variable (s : State N T V)

/-- `Q` is part of a prefix that was chosen in a term up to `t`. -/
def Settled [LE T] (t : T) (Q : List (Entry T V)) : Prop :=
  Q = [] ∨ ∃ t' P, s.chosen t' P ∧ t' ≤ t ∧ Q <+: P

/-- Node `v` has the settled prefix `Q` in its log. -/
def Committed [LE T] (v : N) (Q : List (Entry T V)) : Prop :=
  Q <+: s.log v ∧ s.Settled (s.term v) Q

end State

section

variable [LinearOrder T] {s s' : State N T V} {t t' : T} {Q Q' : List (Entry T V)}

theorem State.settled_nil : s.Settled t [] := Or.inl rfl

theorem State.Settled.mono (h : s.Settled t Q) (hle : s ≤ s') (ht : t ≤ t') :
    s'.Settled t' Q := by
  rcases h with h | ⟨t₀, P, hc, ht₀, hp⟩
  · exact Or.inl h
  · exact Or.inr ⟨t₀, P, hle.chosen hc, ht₀.trans ht, hp⟩

theorem State.Settled.of_isPrefix (h : s.Settled t Q) (hp : Q' <+: Q) : s.Settled t Q' := by
  rcases h with rfl | ⟨t₀, P, hc, ht₀, hQ⟩
  · exact Or.inl (List.prefix_nil.mp hp)
  · exact Or.inr ⟨t₀, P, hc, ht₀, hp.trans hQ⟩

theorem State.Committed.of_isPrefix {v : N} (h : s.Committed v Q) (hp : Q' <+: Q) :
    s.Committed v Q' :=
  ⟨hp.trans h.1, h.2.of_isPrefix hp⟩

end

section

variable [LinearOrder T] [Fintype N] {s s' : State N T V} {i : N}

/-- A settled prefix is in the log of every leader of its term and of later terms. -/
theorem Inv.settled_prefix (h : Inv s) {t t' : T} {c : N} {Q L : List (Entry T V)}
    (hq : s.Settled t Q) (ht : t ≤ t') (hl : s.lead t' = some (c, L)) : Q <+: L := by
  rcases hq with rfl | ⟨t₀, P, hc, ht₀, hQ⟩
  · exact List.nil_prefix
  · exact hQ.trans (h.chosen_prefix hc (ht₀.trans ht) hl)

variable [DecidableEq N]

/-- The lead of another node is not touched. -/
theorem Step.lead_iff (hs : Step s i s') {t : T} {c : N} {L : List (Entry T V)} (hc : c ≠ i) :
    s'.lead t = some (c, L) ↔ s.lead t = some (c, L) := by
  cases hs with
  | win hb hm hn =>
    by_cases ht : t = s.term i
    · subst ht
      simp [hn, hc.symm]
    · simp [ht]
  | extend x hl =>
    by_cases ht : t = s.term i
    · subst ht
      simp [hl, hc.symm]
    · simp [ht]
  | _ => exact Iff.rfl

theorem Step.vote_eq (hs : Step s i s') {v : N} (hv : v ≠ i) : s'.vote v = s.vote v := by
  funext t
  cases hs <;> simp [hv]

/-- Every node keeps what it has committed. -/
theorem Step.committed (h : Inv s) (hs : Step s i s') {v : N} {Q : List (Entry T V)}
    (hc : s.Committed v Q) : s'.Committed v Q := by
  have hle := hs.le h
  refine ⟨?_, hc.2.mono hle (hle.term v)⟩
  by_cases hv : v = i
  · subst hv
    cases hs with
    | extend x hl => simpa using hc.1.trans (List.prefix_append _ _)
    | adopt c L P hl hP hk =>
      -- the settled prefix is common to the log and the leader's
      have hQL : Q <+: L := h.settled_prefix hc.2 (le_refl _) hl
      simpa using hk Q hc.1 hQL
    | _ => exact hc.1
  · rw [(hs.frame hv).2]
    exact hc.1

/-! ## Moves -/

/-- Node `i` takes some actions. -/
abbrev Moves (i : N) : State N T V → State N T V → Prop :=
  Relation.ReflTransGen fun s s' => Step s i s'

namespace Moves

theorem inv (h : Inv s) (hm : Moves i s s') : Inv s' := by
  induction hm with
  | refl => exact h
  | tail hm hs ih => exact ih.step hs

theorem le (h : Inv s) (hm : Moves i s s') : s ≤ s' := by
  induction hm with
  | refl => exact le_refl s
  | tail hm hs ih => exact ih.trans (hs.le (inv h hm))

theorem frame (hm : Moves i s s') {v : N} (hv : v ≠ i) :
    s'.term v = s.term v ∧ s'.log v = s.log v ∧ s'.vote v = s.vote v := by
  induction hm with
  | refl => exact ⟨rfl, rfl, rfl⟩
  | tail hm hs ih =>
    obtain ⟨hterm, hlog⟩ := hs.frame hv
    exact ⟨hterm.trans ih.1, hlog.trans ih.2.1, (hs.vote_eq hv).trans ih.2.2⟩

theorem lead_iff (hm : Moves i s s') {t : T} {c : N} {L : List (Entry T V)} (hc : c ≠ i) :
    s'.lead t = some (c, L) ↔ s.lead t = some (c, L) := by
  induction hm with
  | refl => exact Iff.rfl
  | tail hm hs ih => exact (hs.lead_iff hc).trans ih

theorem committed (h : Inv s) (hm : Moves i s s') {v : N} {Q : List (Entry T V)}
    (hc : s.Committed v Q) : s'.Committed v Q := by
  induction hm with
  | refl => exact hc
  | tail hm hs ih => exact hs.committed (inv h hm) ih

end Moves

end

end DistStudy.ReplicatedLog
