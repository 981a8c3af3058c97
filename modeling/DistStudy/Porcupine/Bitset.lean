import Mathlib.Data.Finset.Basic
import Mathlib.Tactic.Common

/-!
# The bit sets of `porcupine/bitset.go`

The checker keeps the set of the operations that it has linearized as a bit set, and finds
configurations in its cache by the hash of the set. `Holds` says which set of numbers a bit
set stands for; the operations of the source are those of finite sets (`Holds.set`,
`Holds.clear`, `Holds.equals_iff`).
-/

namespace DistStudy.Porcupine

/-- `bitset`: bits 0-63 are in the first word, the next ones in the second, and so on. -/
structure Bitset where
  data : List (BitVec 64)
deriving DecidableEq, Repr

def newBitset (bits : ℕ) : Bitset :=
  let extra := if bits % 64 ≠ 0 then 1 else 0
  let chunks := bits / 64 + extra
  ⟨List.replicate chunks 0⟩

namespace Bitset

/-- The word of a position and the bit in the word. -/
def bitsetIndex (pos : ℕ) : ℕ × ℕ := (pos / 64, pos % 64)

/-- Replace the word of a position; out of range it panics. -/
def update (b : Bitset) (major : ℕ) (f : BitVec 64 → BitVec 64) : Option Bitset :=
  b.data[major]?.map fun v => ⟨b.data.set major (f v)⟩

def set (b : Bitset) (pos : ℕ) : Option Bitset :=
  let (major, minor) := bitsetIndex pos
  b.update major fun v => v ||| 1#64 <<< minor

def clear (b : Bitset) (pos : ℕ) : Option Bitset :=
  let (major, minor) := bitsetIndex pos
  b.update major fun v => v &&& ~~~ (1#64 <<< minor)

/-- `bits.OnesCount64` of each word. -/
def popcnt (b : Bitset) : ℕ := b.data.foldl (fun total v => total + v.cpop.toNat) 0

def hash (b : Bitset) : BitVec 64 := b.data.foldl (· ^^^ ·) (BitVec.ofNat 64 b.popcnt)

def equals (b b2 : Bitset) : Bool :=
  if b.data.length ≠ b2.data.length then false
  else (List.range b.data.length).all fun i => b.data[i]? = b2.data[i]?

theorem equals_iff {b b2 : Bitset} : b.equals b2 = true ↔ b = b2 := by
  rw [equals]
  split_ifs with hlen
  · constructor
    · intro h
      cases h
    · intro h
      exact absurd (congrArg (fun b => b.data.length) h) hlen
  · rw [List.all_eq_true]
    constructor
    · intro h
      rcases b with ⟨data⟩
      rcases b2 with ⟨data2⟩
      rw [mk.injEq]
      apply List.ext_getElem?
      intro i
      by_cases hi : i < data.length
      · exact of_decide_eq_true (h i (List.mem_range.mpr hi))
      · rw [List.getElem?_eq_none (by omega), List.getElem?_eq_none]
        rw [Decidable.not_not] at hlen
        exact hlen ▸ not_lt.mp hi
    · intro h i _
      rw [h]
      exact decide_eq_true rfl

/-- The bit at a position. -/
def bit (b : Bitset) (pos : ℕ) : Bool := (b.data.getD (pos / 64) 0).getLsbD (pos % 64)

/-- Two bit sets of the same length with the same bits are equal. -/
theorem ext_bit {b b2 : Bitset} (hlen : b.data.length = b2.data.length)
    (h : ∀ pos, b.bit pos = b2.bit pos) : b = b2 := by
  rcases b with ⟨data⟩
  rcases b2 with ⟨data2⟩
  rw [mk.injEq]
  apply List.ext_getElem hlen
  intro i hi hi2
  apply BitVec.eq_of_getLsbD_eq
  intro j hj
  have hbit := h (64 * i + j)
  have hdiv : (64 * i + j) / 64 = i := by omega
  have hmod : (64 * i + j) % 64 = j := by omega
  simpa [bit, hdiv, hmod, hi, hi2] using hbit

/-- A change of one word changes the bits of that word only. -/
theorem update_bit {b : Bitset} {pos : ℕ} {f : BitVec 64 → BitVec 64}
    (hpos : pos / 64 < b.data.length) {g : Bool → Bool}
    (hf : ∀ v j, j < 64 → (f v).getLsbD j = if j = pos % 64 then g (v.getLsbD j) else v.getLsbD j) :
    ∃ b', b.update (pos / 64) f = some b' ∧ b'.data.length = b.data.length ∧
      ∀ pos', b'.bit pos' = if pos' = pos then g (b.bit pos') else b.bit pos' := by
  refine ⟨_, by rw [update, List.getElem?_eq_getElem hpos, Option.map_some], by simp, ?_⟩
  intro pos'
  by_cases hmajor : pos' / 64 = pos / 64
  · have hminor : pos' = pos ↔ pos' % 64 = pos % 64 := by omega
    simp [bit, hmajor, hpos, hf _ _ (Nat.mod_lt pos' (by decide)), hminor]
  · have hne : pos' ≠ pos := fun h => hmajor (by rw [h])
    simp [bit, Ne.symm hmajor, hne]

end Bitset

/-- The bit set of size `n` stands for a set of numbers below `n`. -/
structure Holds (n : ℕ) (b : Bitset) (S : Finset ℕ) : Prop where
  length : b.data.length = (newBitset n).data.length
  bits : ∀ pos, b.bit pos = decide (pos ∈ S)

namespace Holds

variable {n : ℕ} {b b2 : Bitset} {S S2 : Finset ℕ}

theorem div_lt_length (h : Holds n b S) {pos : ℕ} (hpos : pos < n) : pos / 64 < b.data.length := by
  rw [h.length]
  simp only [newBitset, List.length_replicate]
  split_ifs <;> omega

theorem new (n : ℕ) : Holds n (newBitset n) ∅ where
  length := rfl
  bits := by
    intro pos
    simp only [Bitset.bit, newBitset, List.getD_eq_getElem?_getD, List.getElem?_replicate]
    split_ifs <;> simp

/-- `set` adds a number. -/
theorem set (h : Holds n b S) {pos : ℕ} (hpos : pos < n) :
    ∃ b', b.set pos = some b' ∧ Holds n b' (insert pos S) := by
  have hword : ∀ (v : BitVec 64) j, j < 64 → (v ||| 1#64 <<< (pos % 64)).getLsbD j =
      if j = pos % 64 then true else v.getLsbD j := by
    intro v j hj
    rw [BitVec.getLsbD_or, ← BitVec.twoPow_eq, BitVec.getLsbD_twoPow]
    by_cases hjm : j = pos % 64
    · simp [hjm, Nat.mod_lt pos (by decide : 64 > 0)]
    · simp [hjm, Ne.symm hjm]
  rcases Bitset.update_bit (g := fun _ => true) (h.div_lt_length hpos) hword with
    ⟨b', hb', hlen, hbits⟩
  refine ⟨b', hb', hlen.trans h.length, ?_⟩
  intro pos'
  rw [hbits, h.bits]
  by_cases hpos' : pos' = pos <;> simp [hpos']

/-- `clear` takes a number out. -/
theorem clear (h : Holds n b S) {pos : ℕ} (hpos : pos < n) :
    ∃ b', b.clear pos = some b' ∧ Holds n b' (S.erase pos) := by
  have hword : ∀ (v : BitVec 64) j, j < 64 → (v &&& ~~~ (1#64 <<< (pos % 64))).getLsbD j =
      if j = pos % 64 then false else v.getLsbD j := by
    intro v j hj
    rw [BitVec.getLsbD_and, BitVec.getLsbD_not, ← BitVec.twoPow_eq, BitVec.getLsbD_twoPow]
    by_cases hjm : j = pos % 64
    · simp [hjm, Nat.mod_lt pos (by decide : 64 > 0)]
    · simp [hjm, Ne.symm hjm, hj]
  rcases Bitset.update_bit (g := fun _ => false) (h.div_lt_length hpos) hword with
    ⟨b', hb', hlen, hbits⟩
  refine ⟨b', hb', hlen.trans h.length, ?_⟩
  intro pos'
  rw [hbits, h.bits]
  by_cases hpos' : pos' = pos <;> simp [hpos']

theorem eq_iff (h : Holds n b S) (h2 : Holds n b2 S2) : b = b2 ↔ S = S2 := by
  constructor
  · intro heq
    ext pos
    have hbit := h.bits pos
    rw [heq, h2.bits pos] at hbit
    exact (decide_eq_decide.mp hbit).symm
  · intro heq
    apply Bitset.ext_bit (h.length.trans h2.length.symm)
    intro pos
    rw [h.bits, h2.bits, heq]

end Holds

end DistStudy.Porcupine
