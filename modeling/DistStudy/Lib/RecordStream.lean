import Mathlib.Data.List.Basic
import Mathlib.Tactic.Common

/-!
# Streams of encoded records

A codec writes a record as a list of symbols and reads one record from the front of a
stream. A reader may stop before whatever separates its record from the next one, so a
record that was read back leaves a rest that reads like what was written after it.

`decodeAll` reads records until there is none to read, and says whether it stopped at the
end of the stream or at an error. `decodeAll_encodeAll_append` is the rule for a stream that
starts with encoded records: these are read, and what follows decides the rest.
-/

namespace DistStudy

/-- What a reader finds at the front of a stream. -/
inductive Reading (α σ : Type*) where
  | value (a : α) (rest : List σ)
  /-- There is no more record. -/
  | eof
  /-- The stream ends within a record, or goes on with something else. -/
  | error
  deriving DecidableEq

structure Codec (α σ : Type*) where
  encode : α → List σ
  decode : List σ → Reading α σ
  decode_nil : decode [] = .eof
  /-- Reading a record takes something off the stream. -/
  shortens : ∀ {s a rest}, decode s = .value a rest → rest.length < s.length
  /-- A record is read back, and the rest reads like what was written after it. -/
  decode_encode : ∀ a s, ∃ rest, decode (encode a ++ s) = .value a rest ∧ decode rest = decode s

/-- Why reading stopped. -/
inductive Ending where
  | eof
  | error
  deriving DecidableEq, Repr

/-- The records of a stream, up to the point where reading stopped. -/
structure Decoded (α : Type*) where
  records : List α
  ending : Ending
  deriving DecidableEq, Repr

namespace Codec

variable {α σ : Type*} (c : Codec α σ)

def encodeAll (as : List α) : List σ := as.flatMap c.encode

/-- Read records one after the other until there is none to read. -/
def decodeAll (s : List σ) : Decoded α :=
  match _h : c.decode s with
  | .value a rest => ⟨a :: (decodeAll rest).records, (decodeAll rest).ending⟩
  | .eof => ⟨[], .eof⟩
  | .error => ⟨[], .error⟩
  termination_by s.length
  decreasing_by all_goals exact c.shortens _h

variable {c} {s s' rest : List σ} {a : α}

theorem decodeAll_of_value (h : c.decode s = .value a rest) :
    c.decodeAll s = ⟨a :: (c.decodeAll rest).records, (c.decodeAll rest).ending⟩ := by
  rw [decodeAll]
  split <;> simp_all

theorem decodeAll_of_eof (h : c.decode s = .eof) : c.decodeAll s = ⟨[], .eof⟩ := by
  rw [decodeAll]
  split <;> simp_all

theorem decodeAll_of_error (h : c.decode s = .error) : c.decodeAll s = ⟨[], .error⟩ := by
  rw [decodeAll]
  split <;> simp_all

/-- Streams that read alike at the front read alike altogether. -/
theorem decodeAll_congr (h : c.decode s = c.decode s') : c.decodeAll s = c.decodeAll s' := by
  cases hs : c.decode s with
  | value a rest => rw [decodeAll_of_value hs, decodeAll_of_value (h.symm.trans hs)]
  | eof => rw [decodeAll_of_eof hs, decodeAll_of_eof (h.symm.trans hs)]
  | error => rw [decodeAll_of_error hs, decodeAll_of_error (h.symm.trans hs)]

/-- The records at the front of a stream are read, and then whatever follows them. -/
theorem decodeAll_encodeAll_append (as : List α) (s : List σ) :
    c.decodeAll (c.encodeAll as ++ s) =
      ⟨as ++ (c.decodeAll s).records, (c.decodeAll s).ending⟩ := by
  induction as with
  | nil => rfl
  | cons a as ih =>
    obtain ⟨rest, hvalue, hrest⟩ := c.decode_encode a (c.encodeAll as ++ s)
    have hfront : c.encodeAll (a :: as) ++ s = c.encode a ++ (c.encodeAll as ++ s) := by
      simp [encodeAll]
    rw [hfront, decodeAll_of_value hvalue, decodeAll_congr hrest, ih]
    rfl

theorem decodeAll_encodeAll (as : List α) : c.decodeAll (c.encodeAll as) = ⟨as, .eof⟩ := by
  have h := decodeAll_encodeAll_append (c := c) as []
  rw [decodeAll_of_eof c.decode_nil] at h
  simpa using h

end Codec

end DistStudy
