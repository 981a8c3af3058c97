import DistStudy.Lib.ReplicatedLogMoves
import DistStudy.Raft.LogShape

/-!
# Complete logs and what a peer stores of them

The abstract protocol speaks of complete logs, a peer stores the part after its
snapshot. `Stores F rf` relates the two: the entries of `rf.logs` are those of `F`
after the snapshot index, with their indexes, and the snapshot term is the term of
`F` there.

`Stores.merge` is what `handleAppendEntries` does to a complete log: it cuts it where
it leaves the leader's log and appends the rest.
-/

namespace DistStudy.Raft

open ReplicatedLog

variable {n : ℕ} {α : Type}

theorem getElem?_of_isPrefix {β : Type} {xs ys : List β} (hp : xs <+: ys) {k : ℕ} {x : β}
    (h : xs[k]? = some x) : ys[k]? = some x := by
  rcases hp with ⟨zs, rfl⟩
  rw [List.getElem?_append_left (List.getElem?_eq_some_iff.mp h).1]
  exact h

/-! ## Entries with indexes -/

/-- The entries of a complete log as the code stores them. -/
def indexed (F : List (Entry Int α)) : List (Log α) :=
  F.mapIdx fun k x => ⟨x.term, k + 1, x.value⟩

@[simp] theorem indexed_length (F : List (Entry Int α)) : (indexed F).length = F.length := by
  simp [indexed]

theorem indexed_getElem? (F : List (Entry Int α)) (k : ℕ) :
    (indexed F)[k]? = F[k]?.map fun x => ⟨x.term, k + 1, x.value⟩ := by
  simp [indexed]

theorem indexed_append (F G : List (Entry Int α)) :
    indexed (F ++ G) = indexed F ++ G.mapIdx fun k x => ⟨x.term, F.length + k + 1, x.value⟩ := by
  simp only [indexed, List.mapIdx_append]
  congr 1
  refine List.ext_getElem? fun k => ?_
  simp
  cases G[k]? <;> simp
  omega

theorem indexed_concat (F : List (Entry Int α)) (x : Entry Int α) :
    indexed (F ++ [x]) = indexed F ++ [⟨x.term, F.length + 1, x.value⟩] := by
  rw [indexed_append]
  simp

theorem indexed_take (F : List (Entry Int α)) (k : ℕ) :
    indexed (F.take k) = (indexed F).take k := by
  refine List.ext_getElem? fun j => ?_
  by_cases hj : j < k
  · simp [indexed_getElem?, hj]
  · simp [hj]

theorem indexed_contiguous (F : List (Entry Int α)) : Contiguous 0 (indexed F) := by
  intro k l hl
  rw [indexed_getElem?, Option.map_eq_some_iff] at hl
  rcases hl with ⟨x, -, rfl⟩
  simp only
  omega

theorem indexed_drop_contiguous (F : List (Entry Int α)) {s : ℕ} (hs : s ≤ F.length) :
    Contiguous s ((indexed F).drop s) := by
  have h := (indexed_contiguous F).drop (by simpa using hs : s ≤ (indexed F).length)
  simpa using h

theorem mem_indexed_drop {F : List (Entry Int α)} {s : ℕ} {l : Log α} :
    l ∈ (indexed F).drop s ↔ ∃ k x, s ≤ k ∧ F[k]? = some x ∧ l = ⟨x.term, k + 1, x.value⟩ := by
  rw [List.mem_iff_getElem?]
  simp only [List.getElem?_drop, indexed_getElem?, Option.map_eq_some_iff]
  constructor
  · rintro ⟨j, x, hx, rfl⟩
    exact ⟨s + j, x, by omega, hx, rfl⟩
  · rintro ⟨k, x, hk, hx, rfl⟩
    refine ⟨k - s, x, ?_, ?_⟩
    · rw [Nat.add_sub_cancel' hk]
      exact hx
    · rw [Nat.add_sub_cancel' hk]

/-- Stored entries determine the complete ones. -/
theorem indexed_drop_inj {F G : List (Entry Int α)} {s : ℕ}
    (h : (indexed F).drop s = (indexed G).drop s) : F.drop s = G.drop s := by
  refine List.ext_getElem? fun k => ?_
  have hk := congrArg (fun logs => logs[k]?) h
  simp only [List.getElem?_drop, indexed_getElem?] at hk ⊢
  cases hF : F[s + k]? with
  | none =>
    rw [hF] at hk
    cases hG : G[s + k]? with
    | none => rfl
    | some y => simp [hG] at hk
  | some x =>
    rw [hF] at hk
    cases hG : G[s + k]? with
    | none => simp [hG] at hk
    | some y =>
      simp only [hG, Option.map_some, Option.some.injEq, Log.mk.injEq] at hk
      obtain ⟨hterm, -, hvalue⟩ := hk
      cases x
      cases y
      simp_all

/-- The term of a log at an index; there is none, or one below all others, at 0. -/
def TermAt (F : List (Entry Int α)) (d : ℕ) (t : Int) : Prop :=
  if d = 0 then t ≤ 0 else F[d - 1]?.map Entry.term = some t

theorem TermAt.of_isPrefix {F G : List (Entry Int α)} {d : ℕ} {t : Int} (h : TermAt F d t)
    (hp : F <+: G) : TermAt G d t := by
  unfold TermAt at h ⊢
  split_ifs at h ⊢ with hd
  · exact h
  · rw [Option.map_eq_some_iff] at h ⊢
    rcases h with ⟨x, hx, ht⟩
    exact ⟨x, getElem?_of_isPrefix hp hx, ht⟩

theorem TermAt.take {F : List (Entry Int α)} {d : ℕ} {t : Int} (h : TermAt F d t) :
    TermAt (F.take d) d t := by
  unfold TermAt at h ⊢
  split_ifs at h ⊢ with hd
  · exact h
  · rw [List.getElem?_take_of_lt (by omega)]
    exact h

/-! ## Rooted logs that agree in terms -/

section

variable {a : State (Fin n) Int α} {F L : List (Entry Int α)}

/-- The entry that has the term at an index. -/
theorem TermAt.take_eq {d : ℕ} {t : Int} (h : TermAt F d t) (hd : d ≠ 0) :
    ∃ P x, F.take d = P ++ [x] ∧ P.length + 1 = d ∧ x.term = t := by
  unfold TermAt at h
  rw [if_neg hd, Option.map_eq_some_iff] at h
  rcases h with ⟨x, hx, hterm⟩
  obtain ⟨d, rfl⟩ := Nat.exists_eq_succ_of_ne_zero hd
  simp only [Nat.succ_eq_add_one, Nat.add_sub_cancel] at hx ⊢
  obtain ⟨hlt, hxe⟩ := List.getElem?_eq_some_iff.mp hx
  exact ⟨F.take d, x, by rw [List.take_succ_eq_append_getElem hlt, hxe], by simp; omega, hterm⟩

/-- Rooted logs with entries of one term are equal up to the earlier one. -/
theorem take_eq_of_le (hF : a.Rooted F) (hL : a.Rooted L) {d d' : ℕ} {t : Int} (hd : d ≠ 0)
    (hle : d ≤ d') (htF : TermAt F d t) (htL : TermAt L d' t) : F.take d = L.take d := by
  obtain ⟨P, x, hP, hlen, hx⟩ := htF.take_eq hd
  obtain ⟨P', x', hP', hlen', hx'⟩ := htL.take_eq (by omega)
  have hpre := hF.matching hL (hP ▸ List.take_prefix _ _) (hP' ▸ List.take_prefix _ _)
    (by omega) (hx.trans hx'.symm)
  rw [← hP, ← hP', List.prefix_iff_eq_take, List.take_take] at hpre
  have hmin : min (F.take d).length d' = d := by
    rw [hP, List.length_append, List.length_singleton]
    omega
  rwa [hmin] at hpre

/-- Rooted logs with the same term at an index are equal up to it. -/
theorem take_eq_of_termAt (hF : a.Rooted F) (hL : a.Rooted L) {d : ℕ} {t : Int}
    (hd : d ≠ 0) (htF : TermAt F d t) (htL : TermAt L d t) : F.take d = L.take d :=
  take_eq_of_le hF hL hd (le_refl d) htF htL

/-- Rooted logs that agree up to `m` and in their terms from `m` to `c` are equal up to
`c`. -/
theorem take_eq_of_terms (hF : a.Rooted F) (hL : a.Rooted L) {m c : ℕ}
    (hm : F.take m = L.take m) (hmc : m ≤ c) (hcF : c ≤ F.length) (hcL : c ≤ L.length)
    (hterms : ∀ k x y, m ≤ k → k < c → F[k]? = some x → L[k]? = some y → x.term = y.term) :
    F.take c = L.take c := by
  rcases Nat.eq_or_lt_of_le hmc with rfl | hlt
  · exact hm
  -- the last compared entries decide
  have hx : F[c - 1]? = some F[c - 1] := List.getElem?_eq_getElem (by omega)
  have hy : L[c - 1]? = some L[c - 1] := List.getElem?_eq_getElem (by omega)
  have hterm := hterms (c - 1) _ _ (by omega) (by omega) hx hy
  have hc : c ≠ 0 := by omega
  refine take_eq_of_termAt hF hL hc (t := (F[c - 1]).term) ?_ ?_
  · simp [TermAt, hc, hx]
  · simp [TermAt, hc, hy, hterm]

end

/-! ## What a peer stores -/

/-- The peer stores the complete log `F` from its snapshot on. -/
structure Stores (F : List (Entry Int α)) (rf : Raft n α) : Prop where
  nonneg : 0 ≤ rf.snapshotIndex
  le : rf.snapshotIndex ≤ F.length
  logs : rf.logs = (indexed F).drop rf.snapshotIndex.toNat
  term : TermAt F rf.snapshotIndex.toNat rf.snapshotTerm

namespace Stores

variable {F G : List (Entry Int α)} {rf rf' : Raft n α}

theorem congr (h : Stores F rf) (hi : rf'.snapshotIndex = rf.snapshotIndex)
    (ht : rf'.snapshotTerm = rf.snapshotTerm) (hl : rf'.logs = rf.logs) : Stores F rf' :=
  ⟨by rw [hi]; exact h.nonneg, by rw [hi]; exact h.le, by rw [hl, hi]; exact h.logs,
    by rw [hi, ht]; exact h.term⟩

theorem length (h : Stores F rf) : rf.snapshotIndex + rf.logs.length = F.length := by
  have hnonneg := h.nonneg
  have hle := h.le
  rw [h.logs, List.length_drop, indexed_length]
  omega

theorem aligned (h : Stores F rf) : Aligned rf := by
  refine ⟨h.nonneg, ?_⟩
  have hle := h.le
  have hnonneg := h.nonneg
  have hc := indexed_drop_contiguous F (by omega : rf.snapshotIndex.toNat ≤ F.length)
  rw [← h.logs, Int.toNat_of_nonneg h.nonneg] at hc
  exact hc

/-- The stored entry at a position of the complete log. -/
theorem index?_eq (h : Stores F rf) {d : ℕ} {x : Entry Int α} (hx : F[d]? = some x)
    (hd : rf.snapshotIndex ≤ d) :
    index? rf.logs (d - rf.snapshotIndex) = some ⟨x.term, d + 1, x.value⟩ := by
  have hnonneg := h.nonneg
  have hpos : (0 : Int) ≤ d - rf.snapshotIndex := by omega
  have hk : rf.snapshotIndex.toNat + (d - rf.snapshotIndex).toNat = d := by omega
  rw [index?, if_pos hpos, h.logs, List.getElem?_drop, hk, indexed_getElem?, hx]
  rfl

/-- What an index expression reads is an entry of the complete log. -/
theorem of_index? (h : Stores F rf) {i : Int} {l : Log α} (hl : index? rf.logs i = some l) :
    ∃ (d : ℕ) (x : Entry Int α), (d : Int) = rf.snapshotIndex + i ∧ F[d]? = some x ∧
      l = ⟨x.term, d + 1, x.value⟩ := by
  have hnonneg := h.nonneg
  unfold index? at hl
  split_ifs at hl with hi
  rw [h.logs, List.getElem?_drop, indexed_getElem?, Option.map_eq_some_iff] at hl
  rcases hl with ⟨x, hx, rfl⟩
  refine ⟨_, x, ?_, hx, rfl⟩
  omega

theorem lastLogIndex_eq (h : Stores F rf) : rf.lastLogIndex = F.length := by
  rw [h.aligned.lastLogIndex_eq, h.length]

theorem lastLogTerm_eq (h : Stores F rf) : TermAt F F.length rf.lastLogTerm := by
  have hlen := h.length
  unfold lastLogTerm
  split
  · rename_i hnone
    have hnil : rf.logs = [] := List.getLast?_eq_none_iff.mp hnone
    have hs : rf.snapshotIndex.toNat = F.length := by
      rw [hnil, List.length_nil] at hlen
      omega
    have hterm := h.term
    rwa [hs] at hterm
  · rename_i l hl
    have hne : rf.logs.length ≠ 0 := by
      intro h0
      rw [List.length_eq_zero_iff.mp h0] at hl
      cases hl
    have hidx : index? rf.logs ((rf.logs.length - 1 : ℕ) : Int) = some l := by
      rw [List.getLast?_eq_getElem?] at hl
      simpa [index?] using hl
    rcases h.of_index? hidx with ⟨d, x, hd, hx, rfl⟩
    have hnonneg := h.nonneg
    have hdeq : F.length - 1 = d := by omega
    have hF : F.length ≠ 0 := by omega
    simp [TermAt, hF, hdeq, hx]

/-- Another complete log with the same compacted part. -/
theorem replace (h : Stores F rf) (hi : rf'.snapshotIndex = rf.snapshotIndex)
    (ht : rf'.snapshotTerm = rf.snapshotTerm)
    (hl : rf'.logs = (indexed G).drop rf.snapshotIndex.toNat)
    (hG : F.take rf.snapshotIndex.toNat <+: G) : Stores G rf' := by
  have hle := h.le
  have hnonneg := h.nonneg
  have hlen := hG.length_le
  rw [List.length_take] at hlen
  refine ⟨by rw [hi]; exact h.nonneg, by rw [hi]; omega, by rw [hl, hi], ?_⟩
  rw [hi, ht]
  exact h.term.take.of_isPrefix hG

end Stores

/-- The entry at the index `d`, as the code reads it. -/
def entry? (rf : Raft n α) (d : Int) : Option (Log α) := index? rf.logs (d - 1 - rf.snapshotIndex)

/-- Peers that store logs with a common prefix have the same entries of it. -/
theorem Stores.entry?_eq {F G P : List (Entry Int α)} {rf rf' : Raft n α} (h : Stores F rf)
    (h' : Stores G rf') (hF : P <+: F) (hG : P <+: G) {d : Int} (hd : rf.snapshotIndex < d)
    (hd' : rf'.snapshotIndex < d) (hP : d ≤ P.length) :
    ∃ l, rf.entry? d = some l ∧ l.index = d ∧ rf'.entry? d = some l := by
  have h0 := h.nonneg
  have hlt : d.toNat - 1 < P.length := by omega
  have hx : P[d.toNat - 1]? = some P[d.toNat - 1] := List.getElem?_eq_getElem hlt
  have hread := h.index?_eq (getElem?_of_isPrefix hF hx) (by omega)
  have hread' := h'.index?_eq (getElem?_of_isPrefix hG hx) (by omega)
  have hcast : ((d.toNat - 1 : ℕ) : Int) = d - 1 := by omega
  rw [hcast] at hread hread'
  exact ⟨_, hread, by simp, hread'⟩

/-- The request carries the log `L` of its leader, after `prevLogIndex`. -/
structure Carries (args : AppendEntriesArgs α) (L : List (Entry Int α)) : Prop where
  nonneg : 0 ≤ args.prevLogIndex
  le : args.prevLogIndex ≤ L.length
  entries : args.entries = (indexed L).drop args.prevLogIndex.toNat
  term : TermAt L args.prevLogIndex.toNat args.prevLogTerm

theorem Carries.contiguous {args : AppendEntriesArgs α} {L : List (Entry Int α)}
    (h : Carries args L) : Contiguous args.prevLogIndex args.entries := by
  have hle := h.le
  have hnonneg := h.nonneg
  have hc := indexed_drop_contiguous L (by omega : args.prevLogIndex.toNat ≤ L.length)
  rw [← h.entries, Int.toNat_of_nonneg h.nonneg] at hc
  exact hc

theorem Carries.length {args : AppendEntriesArgs α} {L : List (Entry Int α)}
    (h : Carries args L) : args.prevLogIndex + args.entries.length = L.length := by
  have hle := h.le
  have hnonneg := h.nonneg
  rw [h.entries, List.length_drop, indexed_length]
  omega

/-! ## Merging -/

section

variable {a : State (Fin n) Int α} {F L M : List (Entry Int α)} {rf : Raft n α}
  {args : AppendEntriesArgs α}

/-- A log check that passes: the two logs agree up to `prevLogIndex`. -/
theorem Stores.agree_prev (hs : Stores F rf) (hc : Carries args L) (hF : a.Rooted F)
    (hL : a.Rooted L) (hsnap : F.take rf.snapshotIndex.toNat <+: M) (hLM : L <+: M)
    (hr : rf.rejects args = none) :
    args.prevLogIndex ≤ F.length ∧
      F.take args.prevLogIndex.toNat = L.take args.prevLogIndex.toNat := by
  have hlen := hs.length
  have hnonneg := hs.nonneg
  have hple := prevLogIndex_le_of_rejects hr
  have hpF : args.prevLogIndex ≤ F.length := by omega
  have hpL := hc.le
  have hp0 := hc.nonneg
  refine ⟨hpF, ?_⟩
  by_cases hgt : args.prevLogIndex > rf.snapshotIndex
  · -- the entry at `prevLogIndex` was compared
    unfold rejects at hr
    rw [if_neg (by omega), if_pos hgt] at hr
    have hlog : ∃ l, index? rf.logs (args.prevLogIndex - rf.snapshotIndex - 1) = some l :=
      index?_of_lt (by omega) (by omega)
    rcases hlog with ⟨l, hl⟩
    rw [hl] at hr
    have hterm : l.term = args.prevLogTerm := by
      by_contra hne
      simp [hne] at hr
    rcases hs.of_index? hl with ⟨d, x, hd, hx, rfl⟩
    have hp : args.prevLogIndex.toNat ≠ 0 := by omega
    have hdeq : args.prevLogIndex.toNat - 1 = d := by omega
    refine take_eq_of_termAt hF hL hp (t := args.prevLogTerm) ?_ hc.term
    simp only [TermAt, if_neg hp, hdeq, hx, Option.map_some]
    exact congrArg some hterm
  · -- the snapshot covers `prevLogIndex`
    have hFM : F.take args.prevLogIndex.toNat <+: M :=
      (List.take_prefix_take_left (by omega)).trans hsnap
    have hLM' : L.take args.prevLogIndex.toNat <+: M := (List.take_prefix _ _).trans hLM
    refine (List.prefix_of_prefix_length_le hFM hLM' ?_).eq_of_length ?_ <;>
      simp only [List.length_take] <;> omega

/-- What the two logs have in common after the log check: the whole request, or a part
that covers the snapshot and `prevLogIndex`. -/
theorem Stores.agree (hs : Stores F rf) (hc : Carries args L) (hF : a.Rooted F)
    (hL : a.Rooted L) (hsnap : F.take rf.snapshotIndex.toNat <+: M) (hLM : L <+: M)
    (hr : rf.rejects args = none) :
    L <+: F ∨ ∃ m, F.take m = L.take m ∧ m ≤ F.length ∧ m ≤ L.length ∧
      args.prevLogIndex ≤ m ∧ rf.snapshotIndex ≤ m ∧
      (m = args.prevLogIndex ∨ args.prevLogIndex < rf.snapshotIndex) := by
  obtain ⟨hpF, hp⟩ := hs.agree_prev hc hF hL hsnap hLM hr
  have hpL := hc.le
  have hp0 := hc.nonneg
  have hs0 := hs.nonneg
  have hsF := hs.le
  by_cases hsp : rf.snapshotIndex ≤ args.prevLogIndex
  · exact Or.inr ⟨_, hp, by omega, by omega, by omega, by omega, by omega⟩
  by_cases hle : L.length ≤ rf.snapshotIndex.toNat
  · -- the snapshot covers the whole request
    left
    have hlen : L.length ≤ (F.take rf.snapshotIndex.toNat).length := by
      rw [List.length_take]
      omega
    exact (List.prefix_of_prefix_length_le hLM hsnap hlen).trans (List.take_prefix _ _)
  · have hLs : L.take rf.snapshotIndex.toNat <+: M := (List.take_prefix _ _).trans hLM
    refine Or.inr ⟨rf.snapshotIndex.toNat, ?_, by omega, by omega, by omega, by omega, by omega⟩
    refine (List.prefix_of_prefix_length_le hsnap hLs ?_).eq_of_length ?_ <;>
      simp only [List.length_take] <;> omega

/-- The entries of the two logs at a position that neither the snapshot nor `prevLogIndex`
covers. -/
theorem Stores.mem_entries (hs : Stores F rf) (hc : Carries args L) {k : ℕ} {x y : Entry Int α}
    (hsk : rf.snapshotIndex ≤ k) (hpk : args.prevLogIndex ≤ k) (hx : F[k]? = some x)
    (hy : L[k]? = some y) :
    (⟨x.term, k + 1, x.value⟩ : Log α) ∈ rf.logs ∧
      (⟨y.term, k + 1, y.value⟩ : Log α) ∈ args.entries := by
  have hs0 := hs.nonneg
  have hp0 := hc.nonneg
  rw [hs.logs, hc.entries, mem_indexed_drop, mem_indexed_drop]
  exact ⟨⟨k, x, by omega, hx, rfl⟩, ⟨k, y, by omega, hy, rfl⟩⟩

/-- Without a conflict one log is a prefix of the other. -/
theorem Stores.comparable (hs : Stores F rf) (hc : Carries args L) (hF : a.Rooted F)
    (hL : a.Rooted L) (hsnap : F.take rf.snapshotIndex.toNat <+: M) (hLM : L <+: M)
    (hr : rf.rejects args = none) (hno : NoConflict rf.logs args.entries) :
    L <+: F ∨ F <+: L := by
  rcases hs.agree hc hF hL hsnap hLM hr with hLF | ⟨m, hm, hmF, hmL, hpm, hsm, -⟩
  · exact Or.inl hLF
  have htake := take_eq_of_terms hF hL (c := min F.length L.length) hm (by omega) (by omega)
    (by omega) fun k x y hk _ hx hy => by
      obtain ⟨hxmem, hymem⟩ := hs.mem_entries hc (by omega) (by omega) hx hy
      exact hno _ hymem _ hxmem rfl
  rcases Nat.le_total F.length L.length with hle | hle
  · right
    rw [Nat.min_eq_left hle, List.take_length] at htake
    rw [htake]
    exact List.take_prefix _ _
  · left
    rw [Nat.min_eq_right hle, List.take_length] at htake
    rw [← htake]
    exact List.take_prefix _ _

/-- The first conflict, at the position `c` of the complete logs. -/
theorem Stores.conflict_at (hs : Stores F rf) (hc : Carries args L) {i c : ℕ}
    (hfc : firstConflict rf.snapshotIndex rf.logs args.entries = some i)
    (hceq : c = rf.snapshotIndex.toNat + i) :
    ∃ x y, args.prevLogIndex ≤ c ∧ F[c]? = some x ∧ L[c]? = some y ∧ x ≠ y := by
  have hs0 := hs.nonneg
  have hp0 := hc.nonneg
  rcases firstConflict_some hfc with ⟨l, val, hl, hval, hvidx, hne⟩
  obtain ⟨x, hx, hxl⟩ : ∃ x, F[c]? = some x ∧ x.term = l.term := by
    rw [hs.logs, List.getElem?_drop, indexed_getElem?, Option.map_eq_some_iff] at hl
    rcases hl with ⟨x, hx, rfl⟩
    exact ⟨x, by rw [hceq]; exact hx, rfl⟩
  rw [hc.entries, mem_indexed_drop] at hval
  rcases hval with ⟨k, y, hk, hy, rfl⟩
  obtain rfl : k = c := by
    simp only at hvidx
    omega
  refine ⟨x, y, by omega, hx, hy, ?_⟩
  rintro rfl
  exact hne hxl.symm

/-- What two logs have in common ends before the first position where they differ. -/
theorem prefix_take_of_ne {Q : List (Entry Int α)} {c : ℕ} {x y : Entry Int α} (hQF : Q <+: F)
    (hQM : Q <+: M) (hx : F[c]? = some x) (hy : M[c]? = some y) (hxy : x ≠ y) :
    Q <+: F.take c := by
  have hcF : c < F.length := (List.getElem?_eq_some_iff.mp hx).1
  refine List.prefix_of_prefix_length_le hQF (List.take_prefix _ _) ?_
  rw [List.length_take, Nat.min_eq_left (by omega)]
  by_contra hlt
  have hq : Q[c]? = some Q[c] := List.getElem?_eq_getElem (by omega)
  have hFq := getElem?_of_isPrefix hQF hq
  have hMq := getElem?_of_isPrefix hQM hq
  rw [hx] at hFq
  rw [hy] at hMq
  exact hxy (Option.some.inj (hFq.trans hMq.symm))

/-- The log after the cut, in terms of complete logs: what the peer has in common with
the leader stays, and the rest of the request either is there or continues it. -/
theorem Stores.merge (hs : Stores F rf) (hc : Carries args L) (hF : a.Rooted F)
    (hL : a.Rooted L) (hsnap : F.take rf.snapshotIndex.toNat <+: M) (hLM : L <+: M)
    (hr : rf.rejects args = none)
    (hok : rf.snapshotIndex ≤ args.prevLogIndex ∨ NoConflict rf.logs args.entries) :
    ∃ C, rf.cut args.entries = (indexed C).drop rf.snapshotIndex.toNat ∧ C <+: F ∧
      F.take rf.snapshotIndex.toNat <+: C ∧ args.prevLogIndex ≤ C.length ∧
      (∀ Q, Q <+: F → Q <+: M → Q <+: C) ∧ (C = F ∧ L <+: F ∨ C <+: L) := by
  obtain ⟨hpF, hp⟩ := hs.agree_prev hc hF hL hsnap hLM hr
  have hs0 := hs.nonneg
  have hp0 := hc.nonneg
  unfold Raft.cut
  cases hfc : firstConflict rf.snapshotIndex rf.logs args.entries with
  | none =>
    refine ⟨F, hs.logs, List.prefix_refl _, List.take_prefix _ _, hpF, fun Q hQ _ => hQ, ?_⟩
    have hno : NoConflict rf.logs args.entries := by
      rcases hok with hok | hok
      · intro val hval l hl hidx
        exact firstConflict_before hs.aligned.contiguous hc.contiguous hok hval hl hidx
          (by simp [hfc])
      · exact hok
    exact (hs.comparable hc hF hL hsnap hLM hr hno).imp_left fun hLF => ⟨rfl, hLF⟩
  | some i =>
    obtain ⟨c, hceq⟩ : ∃ c : ℕ, c = rf.snapshotIndex.toNat + i := ⟨_, rfl⟩
    obtain ⟨x, y, hpc, hx, hy, hxy⟩ := hs.conflict_at hc hfc hceq
    have hcF : c < F.length := (List.getElem?_eq_some_iff.mp hx).1
    have hcL : c < L.length := (List.getElem?_eq_some_iff.mp hy).1
    have hsp : rf.snapshotIndex ≤ args.prevLogIndex := by
      rcases hok with hok | hok
      · exact hok
      · rcases firstConflict_some hfc with ⟨l, val, hl, hval, hvidx, hne⟩
        have hlidx := hs.aligned.contiguous i l hl
        exact absurd (hok val hval l (List.mem_of_getElem? hl) (by omega)) hne
    -- before the conflict the terms agree
    have htake : F.take c = L.take c := by
      refine take_eq_of_terms hF hL hp (by omega) (by omega) (by omega) fun k x y hk hkc hx hy => ?_
      obtain ⟨hxmem, hymem⟩ := hs.mem_entries hc (by omega) (by omega) hx hy
      refine firstConflict_before hs.aligned.contiguous hc.contiguous hsp hymem hxmem rfl ?_
      intro i' hi'
      obtain rfl : i = i' := Option.some.inj (hfc.symm.trans hi')
      simp only
      omega
    refine ⟨F.take c, ?_, List.take_prefix _ _, List.take_prefix_take_left (by omega), ?_, ?_, ?_⟩
    · show rf.logs.take i = _
      rw [hs.logs, indexed_take, hceq, List.take_drop, Nat.add_comm]
    · rw [List.length_take]
      omega
    · intro Q hQF hQM
      exact prefix_take_of_ne hQF hQM hx (getElem?_of_isPrefix hLM hy) hxy
    · right
      rw [htake]
      exact List.take_prefix _ _

end

end DistStudy.Raft
