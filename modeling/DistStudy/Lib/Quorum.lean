import Mathlib.Data.Fintype.Card
import Mathlib.Tactic.Common

/-!
# Majorities

A majority is a property that more than half of the nodes have. Two
majorities share a node; that is all the protocol proofs use.
-/

namespace DistStudy

variable {N : Type*} [Fintype N]

/-- More than half of the nodes satisfy `p`. -/
def Majority (p : N → Prop) : Prop :=
  ∃ Q : Finset N, Fintype.card N < 2 * Q.card ∧ ∀ v ∈ Q, p v

theorem Majority.mono {p q : N → Prop} (h : Majority p) (hpq : ∀ v, p v → q v) :
    Majority q := by
  rcases h with ⟨Q, hcard, hQ⟩
  exact ⟨Q, hcard, fun v hv => hpq v (hQ v hv)⟩

/-- Two majorities meet. -/
theorem Majority.inter {p q : N → Prop} (hp : Majority p) (hq : Majority q) :
    ∃ v, p v ∧ q v := by
  classical
  rcases hp with ⟨A, hA, hpA⟩
  rcases hq with ⟨B, hB, hqB⟩
  have hunion : (A ∪ B).card ≤ Fintype.card N := Finset.card_le_univ (A ∪ B)
  have hinter := Finset.card_union_add_card_inter A B
  have hpos : 0 < (A ∩ B).card := by omega
  obtain ⟨v, hv⟩ := Finset.card_pos.mp hpos
  obtain ⟨hvA, hvB⟩ := Finset.mem_inter.mp hv
  exact ⟨v, hpA v hvA, hqB v hvB⟩

end DistStudy
