import Mathlib.Data.Set.Insert
import Mathlib.Tactic.Common
import Mathlib.Tactic.Ring

/-!
# Depth-first search with a cache

A search problem has configurations, the moves that are tried in a configuration and what
each of them leads to. The search keeps the path from the initial configuration to the
current one, with the moves that are still to be tried at each, and a cache of the
configurations that it has entered. A move to a configuration that is the same as a cached
one is skipped, also if that one is still on the path.

* `Spine.walk`: the moves on the path are a walk of the problem.
* `Inv.covers`: a search that gives up has entered every configuration that can be reached,
  up to sameness. The invariant behind it is closure: what has been left, or tried and passed
  over, leads to cached configurations only.
* `Step.potential_lt`: every step lowers a number, so a search ends.
-/

namespace DistStudy

structure SearchProblem (γ μ : Type) where
  init : γ
  /-- The moves of a configuration, in the order in which they are tried. -/
  moves : γ → List μ
  next : γ → μ → Option γ
  done : γ → Prop
  same : γ → γ → Prop

/-- A configuration on the path below the current one, and the move that was made in it. -/
structure Frame (γ μ : Type) where
  config : γ
  move : μ
  /-- The moves that are tried when the search comes back. -/
  todo : List μ

structure Search (γ μ : Type) where
  current : γ
  todo : List μ
  /-- The newest frame is the first. -/
  stack : List (Frame γ μ)
  cache : Set γ

namespace SearchProblem

variable {γ μ : Type} (P : SearchProblem γ μ)

/-- A sequence of moves from one configuration to another. -/
inductive Walk : γ → List μ → γ → Prop
  | nil (c : γ) : Walk c [] c
  | cons {c d e : γ} {m : μ} {l : List μ} (hm : m ∈ P.moves c) (hn : P.next c m = some d)
      (h : Walk d l e) : Walk c (m :: l) e

variable {P} in
theorem Walk.append {c d e : γ} {l l' : List μ} (h : P.Walk c l d) (h' : P.Walk d l' e) :
    P.Walk c (l ++ l') e := by
  induction h with
  | nil c => exact h'
  | cons hm hn _ ih => exact .cons hm hn (ih h')

def start : Search γ μ := ⟨P.init, P.moves P.init, [], ∅⟩

/-- The steps of the search, as long as the current configuration is not what it looks for. -/
inductive Step : Search γ μ → Search γ μ → Prop
  | refused {c : γ} {m : μ} {ms : List μ} {st : List (Frame γ μ)} {cache : Set γ}
      (hd : ¬ P.done c) (hn : P.next c m = none) :
      Step ⟨c, m :: ms, st, cache⟩ ⟨c, ms, st, cache⟩
  | cached {c d : γ} {m : μ} {ms : List μ} {st : List (Frame γ μ)} {cache : Set γ}
      (hd : ¬ P.done c) (hn : P.next c m = some d) (hx : ∃ x ∈ cache, P.same d x) :
      Step ⟨c, m :: ms, st, cache⟩ ⟨c, ms, st, cache⟩
  | enter {c d : γ} {m : μ} {ms : List μ} {st : List (Frame γ μ)} {cache : Set γ}
      (hd : ¬ P.done c) (hn : P.next c m = some d) (hx : ¬ ∃ x ∈ cache, P.same d x) :
      Step ⟨c, m :: ms, st, cache⟩ ⟨d, P.moves d, ⟨c, m, ms⟩ :: st, insert d cache⟩
  | leave {c : γ} {f : Frame γ μ} {st : List (Frame γ μ)} {cache : Set γ} (hd : ¬ P.done c) :
      Step ⟨c, [], f :: st, cache⟩ ⟨f.config, f.todo, st, cache⟩

end SearchProblem

namespace Search

variable {γ μ : Type}

/-- The configurations from the current one down to the initial one. -/
def path (s : Search γ μ) : List γ := s.current :: s.stack.map Frame.config

/-- The moves that were made, the oldest first. -/
def trail (s : Search γ μ) : List μ := (s.stack.map Frame.move).reverse

end Search

namespace SearchProblem

variable {γ μ : Type} {P : SearchProblem γ μ} {s s' : Search γ μ}

/-! ## The path -/

/-- Each configuration of the path comes from the one below it by the move of its frame. -/
inductive Spine (P : SearchProblem γ μ) : List (Frame γ μ) → γ → Prop
  | root : Spine P [] P.init
  | above {f : Frame γ μ} {st : List (Frame γ μ)} {d : γ} (hm : f.move ∈ P.moves f.config)
      (hn : P.next f.config f.move = some d) (h : Spine P st f.config) : Spine P (f :: st) d

theorem Spine.eq_init {c : γ} (h : Spine P [] c) : c = P.init := by
  cases h
  rfl

theorem Spine.walk {st : List (Frame γ μ)} {c : γ} (h : Spine P st c) :
    P.Walk P.init (st.map Frame.move).reverse c := by
  induction h with
  | root => exact .nil P.init
  | above hm hn _ ih =>
    rw [List.map_cons, List.reverse_cons]
    exact ih.append (.cons hm hn (.nil _))

/-! ## Closure -/

/-- A configuration is the same as a cached one. -/
def Covered (P : SearchProblem γ μ) (cache : Set γ) (c : γ) : Prop := ∃ x ∈ cache, P.same c x

theorem Covered.mono {cache cache' : Set γ} {c : γ} (h : P.Covered cache c)
    (hsub : cache ⊆ cache') : P.Covered cache' c := by
  rcases h with ⟨x, hx, hs⟩
  exact ⟨x, hsub hx, hs⟩

/-- Some moves of a configuration lead to covered ones only. -/
def Closes (P : SearchProblem γ μ) (cache : Set γ) (c : γ) (ms : List μ) : Prop :=
  ∀ m ∈ ms, ∀ d, P.next c m = some d → P.Covered cache d

theorem Closes.mono {cache cache' : Set γ} {c : γ} {ms : List μ} (h : P.Closes cache c ms)
    (hsub : cache ⊆ cache') : P.Closes cache' c ms :=
  fun m hm d hd => (h m hm d hd).mono hsub

/-- The moves of `c` that are no longer to be tried are closed. -/
def Tried (P : SearchProblem γ μ) (cache : Set γ) (c : γ) (todo : List μ) : Prop :=
  ∃ tried, P.moves c = tried ++ todo ∧ P.Closes cache c tried

theorem Tried.mono {cache cache' : Set γ} {c : γ} {todo : List μ} (h : P.Tried cache c todo)
    (hsub : cache ⊆ cache') : P.Tried cache' c todo := by
  rcases h with ⟨tried, heq, hcl⟩
  exact ⟨tried, heq, hcl.mono hsub⟩

theorem Tried.closes {cache : Set γ} {c : γ} (h : P.Tried cache c []) :
    P.Closes cache c (P.moves c) := by
  rcases h with ⟨tried, heq, hcl⟩
  rwa [heq, List.append_nil]

/-- One more move has been tried. -/
theorem Tried.next {cache : Set γ} {c : γ} {m : μ} {ms : List μ}
    (h : P.Tried cache c (m :: ms)) (hm : ∀ d, P.next c m = some d → P.Covered cache d) :
    P.Tried cache c ms := by
  rcases h with ⟨tried, heq, hcl⟩
  refine ⟨tried ++ [m], by rw [heq, List.append_assoc, List.singleton_append], ?_⟩
  intro m' hm' d hd
  rcases List.mem_append.mp hm' with hmem | hmem
  · exact hcl m' hmem d hd
  · rw [List.mem_singleton.mp hmem] at hd
    exact hm d hd

structure Inv (P : SearchProblem γ μ) (s : Search γ μ) : Prop where
  spine : Spine P s.stack s.current
  /-- Every configuration of the path has been entered. -/
  entered : ∀ c ∈ s.path, c ∈ insert P.init s.cache
  tried : P.Tried s.cache s.current s.todo
  /-- The move of a frame has been tried, too. -/
  frames : ∀ f ∈ s.stack, P.Tried s.cache f.config f.todo
  closed : ∀ c ∈ insert P.init s.cache, c ∈ s.path ∨ P.Closes s.cache c (P.moves c)
  fails : ∀ c ∈ insert P.init s.cache, c = s.current ∨ ¬ P.done c

theorem inv_start : Inv P P.start where
  spine := .root
  entered := by
    intro c hc
    rw [Search.path, start, List.map_nil, List.mem_singleton] at hc
    exact Or.inl hc
  tried := ⟨[], rfl, fun m hm => absurd hm List.not_mem_nil⟩
  frames := fun f hf => absurd hf List.not_mem_nil
  closed := by
    intro c hc
    rcases hc with rfl | hc
    · exact Or.inl List.mem_cons_self
    · exact absurd hc (Set.notMem_empty c)
  fails := by
    intro c hc
    rcases hc with rfl | hc
    · exact Or.inl rfl
    · exact absurd hc (Set.notMem_empty c)

/-- A move was tried that leads nowhere new. -/
theorem Inv.pass {c : γ} {m : μ} {ms : List μ} {st : List (Frame γ μ)} {cache : Set γ}
    (h : Inv P ⟨c, m :: ms, st, cache⟩) (hm : ∀ d, P.next c m = some d → P.Covered cache d) :
    Inv P ⟨c, ms, st, cache⟩ :=
  { h with tried := h.tried.next hm }

/-- A new configuration is entered. It is cached at once, so the move that led to it counts as
tried from now on. -/
theorem Inv.enter {c d : γ} {m : μ} {ms : List μ} {st : List (Frame γ μ)} {cache : Set γ}
    (h : Inv P ⟨c, m :: ms, st, cache⟩) (hrefl : P.same d d) (hd : ¬ P.done c)
    (hn : P.next c m = some d) :
    Inv P ⟨d, P.moves d, ⟨c, m, ms⟩ :: st, insert d cache⟩ := by
  have hsub : cache ⊆ insert d cache := Set.subset_insert d cache
  have hcovers : ∀ d', P.next c m = some d' → P.Covered (insert d cache) d' := by
    intro d' hd'
    rw [hn, Option.some.injEq] at hd'
    rw [← hd']
    exact ⟨d, Set.mem_insert d cache, hrefl⟩
  constructor
  · rcases h.tried with ⟨tried, heq, -⟩
    have hmem : m ∈ P.moves c := by
      rw [heq]
      exact List.mem_append_right tried List.mem_cons_self
    exact .above hmem hn h.spine
  · intro x hx
    rcases List.mem_cons.mp hx with rfl | hx
    · exact Or.inr (Set.mem_insert x cache)
    · rcases h.entered x hx with rfl | hx
      · exact Or.inl rfl
      · exact Or.inr (hsub hx)
  · exact ⟨[], rfl, fun m hm => absurd hm List.not_mem_nil⟩
  · intro f hf
    rcases List.mem_cons.mp hf with rfl | hf
    · exact (h.tried.mono hsub).next hcovers
    · exact (h.frames f hf).mono hsub
  · intro x hx
    rcases hx with rfl | rfl | hx
    · rcases h.closed P.init (Or.inl rfl) with hmem | hcl
      · exact Or.inl (List.mem_cons_of_mem d hmem)
      · exact Or.inr (hcl.mono hsub)
    · exact Or.inl List.mem_cons_self
    · rcases h.closed x (Or.inr hx) with hmem | hcl
      · exact Or.inl (List.mem_cons_of_mem d hmem)
      · exact Or.inr (hcl.mono hsub)
  · have hold : ∀ x ∈ insert P.init cache, ¬ P.done x := by
      intro x hx
      rcases h.fails x hx with rfl | hx
      · exact hd
      · exact hx
    intro x hx
    rcases hx with rfl | rfl | hx
    · exact Or.inr (hold P.init (Or.inl rfl))
    · exact Or.inl rfl
    · exact Or.inr (hold x (Or.inr hx))

/-- The search goes back: all moves of the configuration that it leaves have been tried. -/
theorem Inv.leave {c : γ} {f : Frame γ μ} {st : List (Frame γ μ)} {cache : Set γ}
    (h : Inv P ⟨c, [], f :: st, cache⟩) (hd : ¬ P.done c) :
    Inv P ⟨f.config, f.todo, st, cache⟩ := by
  constructor
  · cases h.spine with
    | above hm hn hspine => exact hspine
  · intro x hx
    exact h.entered x (List.mem_cons_of_mem c hx)
  · exact h.frames f List.mem_cons_self
  · intro g hg
    exact h.frames g (List.mem_cons_of_mem f hg)
  · intro x hx
    rcases h.closed x hx with hmem | hcl
    · rcases List.mem_cons.mp hmem with rfl | hmem
      · exact Or.inr h.tried.closes
      · exact Or.inl hmem
    · exact Or.inr hcl
  · intro x hx
    rcases h.fails x hx with rfl | hx
    · exact Or.inr hd
    · exact Or.inr hx

theorem Inv.step (hrefl : ∀ c, P.same c c) (h : Inv P s) (hs : P.Step s s') : Inv P s' := by
  cases hs with
  | refused hd hn =>
    apply h.pass
    intro d hd'
    rw [hn] at hd'
    cases hd'
  | cached hd hn hx =>
    apply h.pass
    intro d hd'
    rw [hn, Option.some.injEq] at hd'
    rw [← hd']
    exact hx
  | enter hd hn hx => exact h.enter (hrefl _) hd hn
  | leave hd => exact h.leave hd

/-- Sameness is a simulation: the same configurations have the same moves, which lead to the
same configurations. -/
structure Respects (P : SearchProblem γ μ) : Prop where
  refl : ∀ c, P.same c c
  trans : ∀ c d e, P.same c d → P.same d e → P.same c e
  moves : ∀ c d, P.same c d → P.moves c = P.moves d
  next : ∀ c d m c', P.same c d → P.next c m = some c' → ∃ d', P.next d m = some d' ∧ P.same c' d'
  done : ∀ c d, P.same c d → P.done c → P.done d

/-- A search that gives up has entered everything that can be reached. -/
theorem Inv.covers (hP : Respects P) (h : Inv P s) (htodo : s.todo = []) (hstack : s.stack = [])
    {l : List μ} {c : γ} (hw : P.Walk P.init l c) : P.Covered (insert P.init s.cache) c := by
  have hclosed : ∀ x ∈ insert P.init s.cache, P.Closes s.cache x (P.moves x) := by
    intro x hx
    rcases h.closed x hx with hmem | hcl
    · rw [Search.path, hstack, List.map_nil, List.mem_singleton] at hmem
      have htried := h.tried
      rw [htodo, ← hmem] at htried
      exact htried.closes
    · exact hcl
  -- along the walk, from any configuration that is the same as an entered one
  have hwalk : ∀ {a l c}, P.Walk a l c → P.Covered (insert P.init s.cache) a →
      P.Covered (insert P.init s.cache) c := by
    intro a l c hw
    induction hw with
    | nil c => exact id
    | cons hm hn _ ih =>
      intro hcov
      apply ih
      rcases hcov with ⟨x, hx, hs⟩
      rcases hP.next _ x _ _ hs hn with ⟨d', hn', hs'⟩
      rw [hP.moves _ x hs] at hm
      rcases hclosed x hx _ hm d' hn' with ⟨y, hy, hs''⟩
      exact ⟨y, Or.inr hy, hP.trans _ _ _ hs' hs''⟩
  exact hwalk hw ⟨P.init, Or.inl rfl, hP.refl P.init⟩

/-- A search that gives up in a configuration that is not what it looks for has missed nothing. -/
theorem Inv.not_done (hP : Respects P) (h : Inv P s) (htodo : s.todo = []) (hstack : s.stack = [])
    (hd : ¬ P.done s.current) {l : List μ} {c : γ} (hw : P.Walk P.init l c) : ¬ P.done c := by
  intro hdone
  rcases h.covers hP htodo hstack hw with ⟨x, hx, hs⟩
  rcases h.fails x hx with rfl | hx'
  · exact hd (hP.done c _ hs hdone)
  · exact hx' (hP.done c x hs hdone)

/-! ## Termination -/

/-- The configurations have fewer than `B - 1` moves, and no walk is longer than `D`. -/
structure Bounded (P : SearchProblem γ μ) (B D : ℕ) : Prop where
  moves : ∀ c, (P.moves c).length + 1 < B
  walks : ∀ l c, P.Walk P.init l c → l.length ≤ D

/-- What is left to do in the frames of a stack. -/
def stackPotential (B D : ℕ) : List (Frame γ μ) → ℕ
  | [] => 0
  | f :: st => (f.todo.length + 1) * B ^ (D - st.length) + stackPotential B D st

def potential (B D : ℕ) (s : Search γ μ) : ℕ :=
  (s.todo.length + 1) * B ^ (D - s.stack.length) + stackPotential B D s.stack

theorem Step.potential_lt {B D : ℕ} (hb : Bounded P B D) (h : Inv P s) (hs : P.Step s s') :
    potential B D s' < potential B D s := by
  have hpos : ∀ k, 0 < B ^ k := by
    intro k
    have hB := hb.moves P.init
    exact Nat.pow_pos (by omega)
  cases hs with
  | @refused c m ms st cache hd hn =>
    have hone := hpos (D - st.length)
    simp only [potential, List.length_cons, Nat.add_mul]
    omega
  | @cached c d m ms st cache hd hn hx =>
    have hone := hpos (D - st.length)
    simp only [potential, List.length_cons, Nat.add_mul]
    omega
  | @enter c d m ms st cache hd hn hx =>
    have hmem : m ∈ P.moves c := by
      rcases h.tried with ⟨tried, heq, -⟩
      rw [heq]
      exact List.mem_append_right tried List.mem_cons_self
    have hlen : st.length + 1 ≤ D := by
      have hspine : Spine P (⟨c, m, ms⟩ :: st) d := .above hmem hn h.spine
      have hle := hb.walks _ _ hspine.walk
      rwa [List.length_reverse, List.length_map, List.length_cons] at hle
    have hpow : B ^ (D - st.length) = B * B ^ (D - (st.length + 1)) := by
      rw [← Nat.pow_succ']
      congr 1
      omega
    have hlt : ((P.moves d).length + 1) * B ^ (D - (st.length + 1)) < B ^ (D - st.length) := by
      rw [hpow]
      exact Nat.mul_lt_mul_of_pos_right (hb.moves d) (hpos _)
    simp only [potential, stackPotential, List.length_cons]
    have hsplit : (ms.length + 1 + 1) * B ^ (D - st.length) =
        (ms.length + 1) * B ^ (D - st.length) + B ^ (D - st.length) := by ring
    omega
  | @leave c f st cache hd =>
    have hone := hpos (D - (st.length + 1))
    simp only [potential, stackPotential, List.length_nil, List.length_cons]
    omega

end SearchProblem

end DistStudy
