import Mathlib.Data.List.Basic
import Mathlib.Tactic.Common

/-!
# The data of `mr/rpc.go`, `mr/jobqueue.go` and `mr/worker.go`

A string is the list of its characters, a file the list of its bytes.

A job's identity in the table of running jobs is the concatenation of its type and
its key (`jobId`). The key of a bucket is again a concatenation, of the map number
and the reduce number, and does not determine the two: `bucketKey_inj` needs a reduce
number of one digit.
-/

namespace DistStudy.MapReduce

abbrev Text : Type := List Char

abbrev Bytes : Type := List UInt8

/-- The bytes of a string. -/
def utf8 (s : Text) : Bytes := s.flatMap String.utf8EncodeChar

structure KeyValue where
  key : Text
  value : Text
  deriving DecidableEq, Repr

/-! ## Numbers in keys and file names -/

/-- `strconv.Itoa`, of a number that is not negative. -/
def itoa (n : ℕ) : Text := Nat.toDigits 10 n

/-- `strconv.Atoi` with its error ignored, for strings without a sign. -/
def atoi (s : Text) : ℕ :=
  if s ≠ [] ∧ s.all Char.isDigit then Nat.ofDigitChars 10 s 0 else 0

/-- `fmt.Sprintf("%s%d", n, i)`, for the key `n` of a map task. -/
def bucketKey (n : Text) (i : ℕ) : Text := n ++ itoa i

/-- `fmt.Sprintf("mr-%s-%d", n, i)`. -/
def resultName (n : Text) (i : ℕ) : Text := ['m', 'r', '-'] ++ n ++ ['-'] ++ itoa i

/-- `fmt.Sprintf("mr-out-%s", key)`. -/
def outName (key : Text) : Text := ['m', 'r', '-', 'o', 'u', 't', '-'] ++ key

theorem isDigit_of_mem_itoa {n : ℕ} {c : Char} (h : c ∈ itoa n) : c.isDigit = true :=
  Nat.isDigit_of_mem_toDigits (by decide) (by decide) h

theorem itoa_ne_nil (n : ℕ) : itoa n ≠ [] := Nat.toDigits_ne_nil

@[simp]
theorem atoi_itoa (n : ℕ) : atoi (itoa n) = n := by
  have hdigits : (itoa n).all Char.isDigit = true :=
    List.all_eq_true.mpr fun c hc => isDigit_of_mem_itoa hc
  rw [atoi, if_pos ⟨itoa_ne_nil n, hdigits⟩]
  exact Nat.ofDigitChars_ten_toDigits

theorem itoa_injective : Function.Injective itoa := by
  intro m n h
  have heq := congrArg atoi h
  rwa [atoi_itoa, atoi_itoa] at heq

@[simp]
theorem itoa_inj {m n : ℕ} : itoa m = itoa n ↔ m = n := itoa_injective.eq_iff

theorem itoa_length_le_one {n : ℕ} : (itoa n).length ≤ 1 ↔ n < 10 :=
  Nat.length_toDigits_le_iff (by decide) (by decide)

/-- A number is not written with a zero before another one. -/
theorem itoa_ne_zero_cons (m n : ℕ) : itoa m ≠ '0' :: itoa n := by
  intro h
  have hvalue := congrArg (fun s => Nat.ofDigitChars 10 s 0) h
  have hzero : 10 * 0 + ('0'.toNat - '0'.toNat) = 0 := rfl
  simp only [itoa, Nat.ofDigitChars_cons, hzero, Nat.ofDigitChars_ten_toDigits] at hvalue
  have hlen := congrArg List.length h
  rw [hvalue, List.length_cons] at hlen
  omega

/-- The keys of two buckets, of which the second has at least as many digits in front, are
equal only if the numbers are, or if the first reduce number has two digits and the second
map number is past 10. -/
theorem eq_or_of_bucketKey_eq {m m' r r' : ℕ} (h : bucketKey (itoa m) r = bucketKey (itoa m') r')
    (hlen : (itoa m).length ≤ (itoa m').length) :
    m = m' ∧ r = r' ∨ 11 ≤ m' ∧ 10 ≤ r := by
  -- `m'` is `m` followed by `d`, and `r` is `d` followed by `r'`
  obtain ⟨d, hm, hr⟩ : ∃ d, itoa m' = itoa m ++ d ∧ itoa r = d ++ itoa r' := by
    rcases List.append_eq_append_iff.mp h with ⟨d, hm, hr⟩ | ⟨d, hm, hr⟩
    · exact ⟨d, hm, hr⟩
    · have hnil : d = [] := by
        have hl := congrArg List.length hm
        rw [List.length_append] at hl
        exact List.length_eq_zero_iff.mp (by omega)
      subst hnil
      exact ⟨[], by simpa using hm.symm, by simpa using hr.symm⟩
  cases d with
  | nil => exact Or.inl ⟨itoa_inj.mp (by simpa using hm.symm), itoa_inj.mp (by simpa using hr)⟩
  | cons c d =>
    right
    have hm₀ := List.length_pos_iff.mpr (itoa_ne_nil m)
    have hr₀ := List.length_pos_iff.mpr (itoa_ne_nil r')
    have hmlen := congrArg List.length hm
    have hrlen := congrArg List.length hr
    rw [List.length_append, List.length_cons] at hmlen hrlen
    have hm10 : 10 ≤ m' := by
      by_contra hlt
      have hle := itoa_length_le_one.mpr (Nat.lt_of_not_le hlt)
      omega
    have hr10 : 10 ≤ r := by
      by_contra hlt
      have hle := itoa_length_le_one.mpr (Nat.lt_of_not_le hlt)
      omega
    refine ⟨?_, hr10⟩
    -- the last digit of 10 would be the first one of `r`
    by_contra hlt
    obtain rfl : m' = 10 := by omega
    have hten : itoa 10 = ['1', '0'] := by decide
    rw [hten] at hm hmlen
    have hd : d = [] := List.length_eq_zero_iff.mp (by simp at hmlen; omega)
    subst hd
    have hc : c = '0' := by
      have hlast := congrArg List.getLast? hm
      simpa using hlast.symm
    subst hc
    exact itoa_ne_zero_cons r r' hr

/-- The keys of two buckets, in either order. -/
theorem eq_or_le_of_bucketKey_eq {m m' r r' : ℕ}
    (h : bucketKey (itoa m) r = bucketKey (itoa m') r') :
    m = m' ∧ r = r' ∨ 11 ≤ max m m' ∧ 10 ≤ max r r' := by
  rcases Nat.le_total (itoa m).length (itoa m').length with hlen | hlen
  · rcases eq_or_of_bucketKey_eq h hlen with heq | ⟨hm, hr⟩
    · exact Or.inl heq
    · exact Or.inr ⟨by omega, by omega⟩
  · rcases eq_or_of_bucketKey_eq h.symm hlen with ⟨hm, hr⟩ | ⟨hm, hr⟩
    · exact Or.inl ⟨hm.symm, hr.symm⟩
    · exact Or.inr ⟨by omega, by omega⟩

/-- The key of a bucket of a one-digit reduce number determines both numbers. -/
theorem bucketKey_inj {m m' r r' : ℕ} (hr : r < 10) (hr' : r' < 10) :
    bucketKey (itoa m) r = bucketKey (itoa m') r' ↔ m = m' ∧ r = r' := by
  constructor
  · intro h
    rcases eq_or_le_of_bucketKey_eq h with heq | ⟨-, hle⟩
    · exact heq
    · omega
  · rintro ⟨rfl, rfl⟩
    rfl

/-- Two bucket keys of two digits: map 1 and reduce 11, map 11 and reduce 1. -/
example : bucketKey (itoa 1) 11 = bucketKey (itoa 11) 1 := by decide

/-- The name of an intermediate file determines its map and its reduce number. -/
theorem resultName_inj {m m' r r' : ℕ} :
    resultName (itoa m) r = resultName (itoa m') r' ↔ m = m' ∧ r = r' := by
  constructor
  · intro h
    -- the first dash after the map number separates the two
    have hdash : ∀ k, '-' ∉ itoa k := by
      intro k hmem
      exact absurd (isDigit_of_mem_itoa hmem) (by decide)
    unfold resultName at h
    simp only [List.append_assoc, List.append_cancel_left_eq] at h
    rcases List.append_eq_append_iff.mp h with ⟨x, hx, hy⟩ | ⟨x, hx, hy⟩
    · cases x with
      | nil =>
        simp only [List.append_nil] at hx
        simp only [List.nil_append, List.cons_append, List.cons.injEq, true_and] at hy
        exact ⟨(itoa_inj.mp hx).symm, itoa_inj.mp hy⟩
      | cons c x =>
        simp only [List.cons_append, List.nil_append, List.cons.injEq] at hy
        exact absurd (hx ▸ List.mem_append_right _ (hy.1 ▸ List.mem_cons_self)) (hdash m')
    · cases x with
      | nil =>
        simp only [List.append_nil] at hx
        simp only [List.nil_append, List.cons_append, List.cons.injEq, true_and] at hy
        exact ⟨itoa_inj.mp hx, (itoa_inj.mp hy).symm⟩
      | cons c x =>
        simp only [List.cons_append, List.nil_append, List.cons.injEq] at hy
        exact absurd (hx ▸ List.mem_append_right _ (hy.1 ▸ List.mem_cons_self)) (hdash m)
  · rintro ⟨rfl, rfl⟩
    rfl

theorem resultName_ne_nil (n : Text) (i : ℕ) : resultName n i ≠ [] := by
  simp [resultName]

/-! ## Jobs -/

inductive JobType where
  | map
  | reduce
  | pseudo
  | done
  deriving DecidableEq, Repr

def JobType.name : JobType → Text
  | .map => ['m', 'a', 'p']
  | .reduce => ['r', 'e', 'd', 'u', 'c', 'e']
  | .pseudo => ['p', 's', 'e', 'u', 'd', 'o']
  | .done => ['d', 'o', 'n', 'e']

/-- The states of a `chan struct{}` that is only ever closed. -/
inductive DoneCh where
  | nil
  | opened
  | closed
  deriving DecidableEq, Repr

/-- The key of a job, or of a report, in the table of running jobs. -/
def jobId (jobtype : JobType) (key : Text) : Text := jobtype.name ++ key

/-- The types start with different letters, so an id determines type and key. -/
theorem jobId_inj {t t' : JobType} {key key' : Text} :
    jobId t key = jobId t' key' ↔ t = t' ∧ key = key' := by
  constructor
  · intro h
    cases t <;> cases t' <;> simp [jobId, JobType.name] at h ⊢ <;> exact h
  · rintro ⟨rfl, rfl⟩
    rfl

/-! ## Messages -/

structure TaskRequest where
  filenames : List Text
  tasktype : JobType
  key : Text
  nReduce : ℕ
  nMap : ℕ
  deriving DecidableEq, Repr

structure FailureReport where
  failingMapNumbers : List ℕ
  failingReduceNumber : ℕ
  deriving DecidableEq, Repr

structure SuccessReport where
  outputFilename : Text
  tasktype : JobType
  key : Text
  deriving DecidableEq, Repr

def SuccessReport.id (r : SuccessReport) : Text := jobId r.tasktype r.key

end DistStudy.MapReduce
