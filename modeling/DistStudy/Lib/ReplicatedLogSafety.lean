import DistStudy.Lib.ReplicatedLog

/-!
# Safety of the replicated log

`Inv.step`: every action keeps the invariant, one lemma for each action. The
three consequences that a refinement uses are

* `State.Rooted.matching` — two rooted logs with entries of one term agree up to the
  earlier one of them;
* `Inv.chosen_prefix` — a chosen prefix is in the log of every later leader;
* `Inv.chosen_comparable` — any two chosen prefixes are comparable.
-/

namespace DistStudy.ReplicatedLog

open Function

variable {N T V : Type*}

/-! ## Rooted logs and the history order -/

namespace State

variable {s s' : State N T V} {l l' : List (Entry T V)}

theorem Rooted.of_isPrefix (h : s.Rooted l) (hp : l' <+: l) : s.Rooted l' :=
  fun P x hx => h P x (hx.trans hp)

theorem rooted_nil : s.Rooted ([] : List (Entry T V)) := by
  intro P x hx
  simp at hx

theorem lead_inj {t : T} {c c' : N} (hl : s.lead t = some (c, l)) (hl' : s.lead t = some (c', l')) :
    c = c' ∧ l = l' := by
  rw [hl] at hl'
  simpa using hl'

/-- Log matching: rooted logs that have entries of one term agree up to the earlier one of
the two entries. -/
theorem Rooted.matching {P P' : List (Entry T V)} {x x' : Entry T V}
    (hl : s.Rooted l) (hl' : s.Rooted l') (hp : P ++ [x] <+: l) (hp' : P' ++ [x'] <+: l')
    (hlen : P.length ≤ P'.length) (ht : x.term = x'.term) : P ++ [x] <+: P' ++ [x'] := by
  rcases hl P x hp with ⟨c, L, hL, hPL⟩
  rcases hl' P' x' hp' with ⟨c', L', hL', hPL'⟩
  rw [ht] at hL
  obtain ⟨-, rfl⟩ := lead_inj hL hL'
  exact List.prefix_of_prefix_length_le hPL hPL' (by simpa using hlen)

variable [LinearOrder T]

theorem Rooted.mono (hle : s ≤ s') (h : s.Rooted l) : s'.Rooted l := by
  intro P x hx
  rcases h P x hx with ⟨c, L, hl, hp⟩
  rcases hle.lead hl with ⟨L', hl', hLL⟩
  exact ⟨c, L', hl', hp.trans hLL⟩

theorem Proposal.mono (hle : s ≤ s') {t : T} {P : List (Entry T V)} (h : s.Proposal t P) :
    s'.Proposal t P := by
  rcases h with ⟨⟨c, L, hl, hp⟩, hlast⟩
  rcases hle.lead hl with ⟨L', hl', hLL⟩
  exact ⟨⟨c, L', hl', hp.trans hLL⟩, hlast⟩

theorem Holds.mono (hle : s ≤ s') {v : N} {t : T} {P : List (Entry T V)} (h : s.Holds v t P) :
    s'.Holds v t P := by
  rcases h with ⟨P', ha, hp⟩
  exact ⟨P', hle.ack ha, hp⟩

end State

open State

section

variable [LinearOrder T] [Fintype N] {s s' : State N T V} {i : N}

/-- What a table holds after one of its places was written. -/
theorem of_update {α β : Type*} [DecidableEq α] {f : α → Option β} {a a' : α} {b b' : β}
    (h : update f a (some b) a' = some b') : f a' = some b' ∨ a' = a ∧ b' = b := by
  by_cases ha : a' = a
  · subst ha
    rw [update_self] at h
    exact Or.inr ⟨rfl, (Option.some.inj h).symm⟩
  · rw [update_of_ne ha] at h
    exact Or.inl h

theorem of_update_update {α β γ : Type*} [DecidableEq α] [DecidableEq β]
    {f : α → β → Option γ} {a a' : α} {b b' : β} {c c' : γ}
    (h : update f a (update (f a) b (some c)) a' b' = some c') :
    f a' b' = some c' ∨ a' = a ∧ b' = b ∧ c' = c := by
  by_cases ha : a' = a
  · subst ha
    rw [update_self] at h
    exact (of_update h).imp_right fun hb => ⟨rfl, hb⟩
  · rw [update_of_ne ha] at h
    exact Or.inl h

namespace Inv

/-! ## Consequences of the invariant -/

/-- The entries of a leader's log are of its term or of earlier ones. -/
theorem lead_le (h : Inv s) {t : T} {c : N} {L : List (Entry T V)}
    (hl : s.lead t = some (c, L)) : ∀ x ∈ L, x.term ≤ t := by
  rcases h.lead_bid hl with ⟨l, es, hb, rfl, hes⟩
  intro x hx
  rcases List.mem_append.mp hx with hx | hx
  · exact le_of_lt (h.bid_lt hb x hx)
  · exact le_of_eq (hes x hx)

/-- Two leaders of one term are one. -/
theorem lead_unique (h : Inv s) {t : T} {c c' : N} {L : List (Entry T V)}
    (hl : s.lead t = some (c, L)) (hm : Majority fun v => s.vote v t = some c') : c = c' := by
  rcases (h.lead_won hl).inter hm with ⟨v, hv, hv'⟩
  rw [hv] at hv'
  exact Option.some.inj hv'

/-- What the leader's log of an acknowledged prefix is. -/
theorem holds_prefix (h : Inv s) {v : N} {t : T} {c : N} {P L : List (Entry T V)}
    (hh : s.Holds v t P) (hl : s.lead t = some (c, L)) : P <+: L := by
  rcases hh with ⟨P', ha, hp⟩
  rcases h.ack_lead ha with ⟨c', L', hl', hp'⟩
  obtain ⟨-, rfl⟩ := lead_inj hl hl'
  exact hp.trans hp'

/-- A chosen prefix is not dead. -/
theorem not_dead (h : Inv s) {t : T} {P : List (Entry T V)} (hc : s.chosen t P) :
    ¬ s.Dead t P := by
  intro hd
  rcases (h.chosen_held hc).2.inter hd with ⟨v, hv, -, hnv⟩
  exact hnv hv

/-- Leader completeness: a chosen prefix is in the log of every leader of its
term or a later one. -/
theorem chosen_prefix (h : Inv s) {t t' : T} {c : N} {P L : List (Entry T V)}
    (hc : s.chosen t P) (ht : t ≤ t') (hl : s.lead t' = some (c, L)) : P <+: L := by
  have hp := (h.chosen_held hc).1
  rcases lt_or_eq_of_le ht with hlt | rfl
  · rcases h.complete hp hlt hl with hpre | hd
    · exact hpre
    · exact absurd hd (h.not_dead hc)
  · rcases hp.1 with ⟨c', L', hl', hpre⟩
    obtain ⟨-, rfl⟩ := lead_inj hl hl'
    exact hpre

/-- The entries of a chosen prefix lie in the log that a later leader was
elected with. -/
theorem chosen_prefix_bid (h : Inv s) {t t' : T} {c : N} {P L l : List (Entry T V)}
    (hc : s.chosen t P) (ht : t < t') (hl : s.lead t' = some (c, L))
    (hb : s.bid t' c = some l) : P <+: l := by
  have hPL := h.chosen_prefix hc (le_of_lt ht) hl
  rcases (h.chosen_held hc).1 with ⟨-, Q, x, rfl, hx⟩
  rcases h.lead_bid hl with ⟨l', es, hb', rfl, hes⟩
  obtain rfl : l = l' := by rw [hb] at hb'; exact Option.some.inj hb'
  refine List.prefix_of_prefix_length_le hPL (List.prefix_append l es) ?_
  -- otherwise the last entry of the prefix is one that the later leader made
  by_contra hlen
  have hpre : l <+: Q ++ [x] :=
    List.prefix_of_prefix_length_le (List.prefix_append l es) hPL (by omega)
  rcases hPL with ⟨R, hR⟩
  rcases hpre with ⟨R', hR'⟩
  have hes' : es = R' ++ R := by
    rw [← hR', List.append_assoc] at hR
    exact (List.append_cancel_left hR).symm
  have hne : R' ≠ [] := by
    rintro rfl
    simp only [List.append_nil] at hR'
    simp [hR'] at hlen
  have hxmem : x ∈ R' := by
    have hlast := congrArg List.getLast? hR'
    rw [List.getLast?_append_of_ne_nil _ hne] at hlast
    simp only [List.getLast?_append, List.getLast?_singleton] at hlast
    exact List.mem_of_getLast? (by simpa using hlast)
  have hxt : x.term = t' := hes x (by rw [hes']; exact List.mem_append.mpr (Or.inl hxmem))
  rw [← hx, hxt] at ht
  exact lt_irrefl _ ht

/-- Two chosen prefixes are comparable. -/
theorem chosen_comparable (h : Inv s) {t t' : T} {P P' : List (Entry T V)}
    (hc : s.chosen t P) (hc' : s.chosen t' P') (ht : t ≤ t') :
    P <+: P' ∨ P' <+: P := by
  rcases (h.chosen_held hc').1.1 with ⟨c, L, hl, hp'⟩
  exact List.prefix_or_prefix_of_prefix (h.chosen_prefix hc ht hl) hp'

/-- A node has in its log what it has acknowledged, now or in a past term, unless
it is dead. -/
theorem held_past (h : Inv s) {v : N} {t : T} {P : List (Entry T V)} (hp : s.Proposal t P)
    (hh : s.Holds v t P) : P <+: s.log v ∨ s.Dead t P := by
  rcases hh with ⟨P', ha, hpre⟩
  rcases lt_or_eq_of_le (h.ack_le ha) with hlt | rfl
  · exact h.ack_past hp ⟨P', ha, hpre⟩ hlt
  · exact Or.inl (hpre.trans (h.ack_now ha))

/-- A chosen prefix stays in the logs of a majority. -/
theorem chosen_stored (h : Inv s) {t : T} {P : List (Entry T V)} (hc : s.chosen t P) :
    Majority fun v => P <+: s.log v := by
  rcases h.chosen_held hc with ⟨hp, hheld⟩
  refine hheld.mono fun v hv => ?_
  rcases h.held_past hp hv with hpre | hdead
  · exact hpre
  · exact absurd hdead (h.not_dead hc)

/-- A candidate that is at least as up to date as a log inherits what can still
be chosen of it. -/
theorem carries (h : Inv s) {t : T} {P l l' : List (Entry T V)} (hp : s.Proposal t P)
    (hl : s.Rooted l) (hl' : s.Rooted l') (hPl : P <+: l') (hu : AtLeast l l') :
    P <+: l ∨ s.Dead t P := by
  rcases hp with ⟨⟨c, L, hL, hPL⟩, P₀, z, rfl, hz⟩
  rcases hu with rfl | ⟨Q, x, R, y, rfl, rfl, hxy⟩
  · simp at hPl
  rcases hl' R y (List.prefix_refl _) with ⟨cy, Ly, hLy, hRy⟩
  have hty : t ≤ y.term := by
    rw [← hz]
    exact h.lead_le hLy z ((hPl.trans hRy).subset (by simp))
  rcases hl Q x (List.prefix_refl _) with ⟨cx, Lx, hLx, hQx⟩
  rcases hxy with hlt | ⟨heq, hlen⟩
  · -- the candidate's last entry is of a later leader, which has the prefix or
    -- buries it
    rcases h.complete ⟨⟨c, L, hL, hPL⟩, P₀, z, rfl, hz⟩ (lt_of_le_of_lt hty hlt) hLx with hpre | hd
    · left
      refine List.prefix_of_prefix_length_le hpre hQx ?_
      by_contra hlen
      have hQP : Q ++ [x] <+: P₀ ++ [z] := List.prefix_of_prefix_length_le hQx hpre (by omega)
      have hxt : x.term ≤ t := h.lead_le hL x ((hQP.trans hPL).subset (by simp))
      exact absurd (lt_of_lt_of_le (lt_of_le_of_lt hty hlt) hxt) (lt_irrefl _)
    · exact Or.inr hd
  · -- both logs end in the log of one leader, and the candidate's is not shorter
    rw [heq] at hLx
    obtain ⟨-, rfl⟩ := lead_inj hLy hLx
    exact Or.inl (hPl.trans (List.prefix_of_prefix_length_le hRy hQx hlen))

end Inv

/-! ## The actions keep the history -/

variable [DecidableEq N]

/-- The vote, bid and leader tables are only ever filled in. -/
theorem Step.le (h : Inv s) (hs : Step s i s') : s ≤ s' := by
  have htop : s ≤ s := le_refl s
  cases hs with
  | bump t ht =>
    refine { htop with term := fun v => ?_ }
    by_cases hv : v = i
    · subst hv; simpa using le_of_lt ht
    · simp [hv]
  | campaign t ht =>
    refine { htop with term := fun v => ?_, vote := fun {v t' c} hv => ?_, bid := fun {t' c l} hb => ?_ }
    · by_cases hv : v = i
      · subst hv; simpa using le_of_lt ht
      · simp [hv]
    · by_cases hvi : v = i
      · subst hvi
        have hne : t' ≠ t := fun h' => absurd (lt_of_lt_of_le ht (h' ▸ h.vote_le hv)) (lt_irrefl _)
        simpa [hne] using hv
      · simpa [hvi] using hv
    · by_cases htt : t' = t
      · subst htt
        have hne : c ≠ i := by
          rintro rfl
          exact absurd (lt_of_lt_of_le ht (h.vote_le (h.bid_vote hb))) (lt_irrefl _)
        simpa [hne] using hb
      · simpa [htt] using hb
  | grant c l hv hb hu =>
    refine { htop with vote := fun {v t' c'} hv' => ?_ }
    by_cases hvi : v = i
    · subst hvi
      have hne : t' ≠ s.term v := by
        rintro rfl
        rw [hv] at hv'
        exact absurd hv' (by simp)
      simpa [hne] using hv'
    · simpa [hvi] using hv'
  | win hb hm hn =>
    refine { htop with lead := fun {t c L} hl => ?_ }
    have hne : t ≠ s.term i := by
      rintro rfl
      rw [hn] at hl
      exact absurd hl (by simp)
    exact ⟨L, by simpa [hne] using hl, List.prefix_refl L⟩
  | extend x hl =>
    refine { htop with lead := fun {t c L} hl' => ?_ }
    by_cases htt : t = s.term i
    · subst htt
      rw [hl] at hl'
      obtain ⟨rfl, rfl⟩ : i = c ∧ s.log i = L := by simpa using hl'
      exact ⟨_, by simp; rfl, List.prefix_append _ _⟩
    · exact ⟨L, by simpa [htt] using hl', List.prefix_refl L⟩
  | adopt c L P hl hP hk => exact { htop with }
  | acknowledge c L P hl hP hlog => exact { htop with ack := fun ha => Or.inl ha }
  | choose P hp hm => exact { htop with chosen := fun hc => Or.inl hc }

/-- An action of `i` moves neither the term nor the log of another node. -/
theorem Step.frame (hs : Step s i s') {v : N} (hv : v ≠ i) :
    s'.term v = s.term v ∧ s'.log v = s.log v := by
  cases hs <;> simp [hv]

/-- Only an acknowledgement of the current term is new. -/
theorem Step.holds_of (hs : Step s i s') {v : N} {t : T} {P : List (Entry T V)}
    (hh : s'.Holds v t P) : s.Holds v t P ∨ v = i ∧ t = s.term i := by
  cases hs with
  | acknowledge c L P' hl hP hlog =>
    rcases hh with ⟨P₁, ha | ⟨hv, ht, -⟩, hp⟩
    · exact Or.inl ⟨P₁, ha, hp⟩
    · exact Or.inr ⟨hv, ht⟩
  | _ => exact Or.inl hh

/-- What is dead stays dead: the nodes of the majority are past the term. -/
theorem Step.dead (h : Inv s) (hs : Step s i s') {t : T} {P : List (Entry T V)}
    (hd : s.Dead t P) : s'.Dead t P := by
  refine Majority.mono hd fun v hv => ⟨lt_of_lt_of_le hv.1 ((hs.le h).term v), fun hh => ?_⟩
  rcases hs.holds_of hh with hh | ⟨rfl, rfl⟩
  · exact hv.2 hh
  · exact lt_irrefl _ hv.1

namespace Inv

/-! ## The actions keep the invariant -/

theorem bump (h : Inv s) {t : T} (ht : s.term i < t) :
    Inv (s.bump i t) := by
  have hs := Step.bump (s := s) t ht
  have hle := hs.le h
  refine { h with
    vote_le := fun hv => le_trans (h.vote_le hv) (hle.term _)
    log_le := fun v x hx => le_trans (h.log_le v x hx) (hle.term v)
    ack_le := fun ha => le_trans (h.ack_le ha) (hle.term _)
    ack_now := fun {v P} ha => ?_
    ack_past := fun {v t' P} hp hh hlt => ?_
    ack_vote := fun hp hh hlt hv hb => (h.ack_vote hp hh hlt hv hb).imp_right (hs.dead h)
    complete := fun hp hlt hl => (h.complete hp hlt hl).imp_right (hs.dead h) }
  · by_cases hv : v = i
    · subst hv
      have hle' : t ≤ s.term v := by simpa using h.ack_le ha
      exact absurd (lt_of_lt_of_le ht hle') (lt_irrefl _)
    · exact h.ack_now (by simpa [hv] using ha)
  · exact (h.held_past hp hh).imp_right (hs.dead h)

theorem campaign (h : Inv s) {t : T} (ht : s.term i < t) :
    Inv (s.campaign i t) := by
  have hs := Step.campaign (s := s) t ht
  have hle := hs.le h
  -- the only new vote is the candidate's own, and the only new bid is its log
  have hvote : ∀ {v t' c}, (s.campaign i t).vote v t' = some c →
      s.vote v t' = some c ∨ v = i ∧ t' = t ∧ c = i := fun hv => of_update_update hv
  have hbid : ∀ {t' c l}, (s.campaign i t).bid t' c = some l →
      s.bid t' c = some l ∨ t' = t ∧ c = i ∧ l = s.log i := fun hb => of_update_update hb
  have hownv : (s.campaign i t).vote i t = some i := by simp
  have hownb : (s.campaign i t).bid t i = some (s.log i) := by simp
  have hnew : ∀ {v c}, s.vote v t = some c → c ≠ i := by
    rintro v c hv rfl
    rcases h.vote_bid hv with ⟨l, hb⟩
    exact absurd (lt_of_lt_of_le ht (h.vote_le (h.bid_vote hb))) (lt_irrefl _)
  constructor
  case lead_rooted => exact h.lead_rooted
  case log_rooted => exact h.log_rooted
  case ack_lead => exact h.ack_lead
  case chosen_held => exact h.chosen_held
  case log_le => exact fun v x hx => le_trans (h.log_le v x hx) (hle.term v)
  case ack_le => exact fun ha => le_trans (h.ack_le ha) (hle.term _)
  case lead_won => exact fun hl => (h.lead_won hl).mono fun v hv => hle.vote hv
  case complete => exact fun hp hlt hl => (h.complete hp hlt hl).imp_right (hs.dead h)
  case ack_past => exact fun hp hh _ => (h.held_past hp hh).imp_right (hs.dead h)
  case vote_le =>
    intro v t' c hv
    rcases hvote hv with hv | ⟨rfl, rfl, rfl⟩
    · exact le_trans (h.vote_le hv) (hle.term v)
    · simp
  case vote_bid =>
    intro v t' c hv
    rcases hvote hv with hv | ⟨rfl, rfl, rfl⟩
    · rcases h.vote_bid hv with ⟨l, hb⟩
      exact ⟨l, hle.bid hb⟩
    · exact ⟨_, hownb⟩
  case bid_vote =>
    intro t' c l hb
    rcases hbid hb with hb | ⟨rfl, rfl, rfl⟩
    · exact hle.vote (h.bid_vote hb)
    · exact hownv
  case bid_lt =>
    intro t' c l hb x hx
    rcases hbid hb with hb | ⟨rfl, rfl, rfl⟩
    · exact h.bid_lt hb x hx
    · exact lt_of_le_of_lt (h.log_le _ x hx) ht
  case bid_rooted =>
    intro t' c l hb
    rcases hbid hb with hb | ⟨rfl, rfl, rfl⟩
    · exact h.bid_rooted hb
    · exact h.log_rooted _
  case lead_bid =>
    intro t' c L hl
    rcases h.lead_bid hl with ⟨l, es, hb, hL, hes⟩
    exact ⟨l, es, hle.bid hb, hL, hes⟩
  case ack_now =>
    intro v P ha
    by_cases hv : v = i
    · -- the candidate has acknowledged nothing in its new term
      subst hv
      have hack : s.ack v t P := by simpa using ha
      exact absurd (lt_of_lt_of_le ht (h.ack_le hack)) (lt_irrefl _)
    · rw [(hs.frame hv).1] at ha
      exact h.ack_now ha
  case ack_vote =>
    intro v t' t'' c l P hp hh hlt hv hb
    rcases hvote hv with hold | ⟨rfl, rfl, rfl⟩
    · rcases hbid hb with hb | ⟨rfl, rfl, rfl⟩
      · exact (h.ack_vote hp hh hlt hold hb).imp_right (hs.dead h)
      · exact absurd rfl (hnew hold)
    · rw [hownb] at hb
      obtain rfl : s.log c = l := Option.some.inj hb
      exact (h.held_past hp hh).imp_right (hs.dead h)

theorem grant (h : Inv s) {c : N} {l : List (Entry T V)} (hv : s.vote i (s.term i) = none)
    (hb : s.bid (s.term i) c = some l) (hu : AtLeast l (s.log i)) :
    Inv (s.grant i c) := by
  have hs := Step.grant (s := s) c l hv hb hu
  have hle := hs.le h
  have hvote : ∀ {v t' c'}, (s.grant i c).vote v t' = some c' →
      s.vote v t' = some c' ∨ v = i ∧ t' = s.term i ∧ c' = c := fun hv' => of_update_update hv'
  refine { h with
    vote_le := fun {v t' c'} hv' => ?_
    vote_bid := fun {v t' c'} hv' => ?_
    bid_vote := fun hb' => hle.vote (h.bid_vote hb')
    lead_won := fun hl => (h.lead_won hl).mono fun v hv' => hle.vote hv'
    ack_past := fun hp hh hlt => (h.ack_past hp hh hlt).imp_right (hs.dead h)
    ack_vote := fun {v t t' c' l' P} hp hh hlt hv' hb' => ?_
    complete := fun hp hlt hl => (h.complete hp hlt hl).imp_right (hs.dead h) }
  · rcases hvote hv' with hv' | ⟨rfl, rfl, rfl⟩
    · exact h.vote_le hv'
    · exact le_refl _
  · rcases hvote hv' with hv' | ⟨rfl, rfl, rfl⟩
    · exact h.vote_bid hv'
    · exact ⟨l, hb⟩
  · rcases hvote hv' with hv' | ⟨rfl, rfl, rfl⟩
    · exact (h.ack_vote hp hh hlt hv' hb').imp_right (hs.dead h)
    · obtain rfl : l = l' := by
        have : s.bid (s.term v) c' = some l' := hb'
        rw [hb] at this
        exact Option.some.inj this
      rcases h.ack_past hp hh hlt with hpre | hd
      · exact (h.carries hp (h.bid_rooted hb) (h.log_rooted v) hpre hu).imp_right (hs.dead h)
      · exact Or.inr (hs.dead h hd)

theorem win (h : Inv s) (hb : s.bid (s.term i) i = some (s.log i))
    (hm : Majority fun v => s.vote v (s.term i) = some i) (hn : s.lead (s.term i) = none) :
    Inv (s.win i) := by
  have hs := Step.win (s := s) hb hm hn
  have hle := hs.le h
  have hlead : ∀ {t c L}, (s.win i).lead t = some (c, L) →
      s.lead t = some (c, L) ∨ t = s.term i ∧ c = i ∧ L = s.log i :=
    fun hl => (of_update hl).imp_right fun hnew => ⟨hnew.1, Prod.mk.inj hnew.2⟩
  have hrooted : ∀ {l}, s.Rooted l → (s.win i).Rooted l := fun hr => hr.mono hle
  -- the new leader has made no entry yet, so it has no proposal
  have hprop : ∀ {t P}, (s.win i).Proposal t P → s.Proposal t P := by
    rintro t P ⟨⟨c, L, hl, hp⟩, Q, x, rfl, hx⟩
    rcases hlead hl with hl | ⟨rfl, rfl, rfl⟩
    · exact ⟨⟨c, L, hl, hp⟩, Q, x, rfl, hx⟩
    · exact absurd (hx ▸ h.bid_lt hb x (hp.subset (by simp))) (lt_irrefl _)
  constructor
  case vote_le => exact h.vote_le
  case vote_bid => exact h.vote_bid
  case bid_vote => exact h.bid_vote
  case bid_lt => exact h.bid_lt
  case log_le => exact h.log_le
  case ack_le => exact h.ack_le
  case ack_now => exact h.ack_now
  case log_rooted => exact fun v => hrooted (h.log_rooted v)
  case bid_rooted => exact fun hb' => hrooted (h.bid_rooted hb')
  case lead_bid =>
    intro t c L hl
    rcases hlead hl with hl | ⟨rfl, rfl, rfl⟩
    · exact h.lead_bid hl
    · exact ⟨s.log c, [], hb, by simp, by simp⟩
  case lead_won =>
    intro t c L hl
    rcases hlead hl with hl | ⟨rfl, rfl, rfl⟩
    · exact h.lead_won hl
    · exact hm
  case lead_rooted =>
    intro t c L hl
    rcases hlead hl with hl | ⟨rfl, rfl, rfl⟩
    · exact hrooted (h.lead_rooted hl)
    · exact hrooted (h.log_rooted c)
  case ack_lead =>
    intro v t P ha
    rcases h.ack_lead ha with ⟨c, L, hl, hp⟩
    rcases hle.lead hl with ⟨L', hl', hLL⟩
    exact ⟨c, L', hl', hp.trans hLL⟩
  case ack_past =>
    intro v t P hp hh hlt
    exact (h.ack_past (hprop hp) hh hlt).imp_right (hs.dead h)
  case ack_vote =>
    intro v t t' c l P hp hh hlt hv hb'
    exact (h.ack_vote (hprop hp) hh hlt hv hb').imp_right (hs.dead h)
  case complete =>
    intro t t' c L P hp hlt hl
    rcases hlead hl with hl | ⟨rfl, rfl, rfl⟩
    · exact (h.complete (hprop hp) hlt hl).imp_right (hs.dead h)
    · -- a voter that holds the prefix hands it on; if there is none, it is dead
      by_cases hex : ∃ v, s.vote v (s.term c) = some c ∧ s.Holds v t P
      · rcases hex with ⟨v, hv, hh⟩
        exact (h.ack_vote (hprop hp) hh hlt hv hb).imp_right (hs.dead h)
      · right
        refine hs.dead h (hm.mono fun v hv => ⟨lt_of_lt_of_le hlt (h.vote_le hv), fun hh => ?_⟩)
        exact hex ⟨v, hv, hh⟩
  case chosen_held =>
    intro t P hc
    exact ⟨(h.chosen_held hc).1.mono hle, (h.chosen_held hc).2⟩

/-- The log of a leader that has appended an entry: everything before the entry is as it
was. -/
theorem rooted_extend (h : Inv s) (x : V) (hl : s.lead (s.term i) = some (i, s.log i)) :
    (s.extend i x).Rooted (s.log i ++ [⟨s.term i, x⟩]) := by
  intro P y hP
  rcases List.prefix_concat_iff.mp hP with heq | hP
  · obtain ⟨rfl, rfl⟩ : P = s.log i ∧ y = ⟨s.term i, x⟩ := by simpa using heq
    exact ⟨i, s.log i ++ [⟨s.term i, x⟩], by simp, List.prefix_refl _⟩
  · exact (h.log_rooted i).mono ((Step.extend x hl).le h) P y hP

/-- After an append a proposal is an old one, or the whole new log, which nobody has
acknowledged. -/
theorem proposal_extend (h : Inv s) {x : V} (hl : s.lead (s.term i) = some (i, s.log i)) {t : T}
    {P : List (Entry T V)} (hp : (s.extend i x).Proposal t P) :
    s.Proposal t P ∨ t = s.term i ∧ ∀ v, ¬ s.Holds v t P := by
  rcases hp with ⟨⟨c, L, hl', hp⟩, Q, y, rfl, hy⟩
  rcases of_update hl' with hl' | ⟨rfl, heq⟩
  · exact Or.inl ⟨⟨c, L, hl', hp⟩, Q, y, rfl, hy⟩
  · obtain ⟨rfl, rfl⟩ := Prod.mk.inj heq
    rcases List.prefix_concat_iff.mp hp with heq | hp
    · refine Or.inr ⟨rfl, fun v hh => ?_⟩
      have hlen := (h.holds_prefix hh hl).length_le
      rw [heq, List.length_append, List.length_singleton] at hlen
      omega
    · exact Or.inl ⟨⟨c, _, hl, hp⟩, Q, y, rfl, hy⟩

theorem extend (h : Inv s) (x : V) (hl : s.lead (s.term i) = some (i, s.log i)) :
    Inv (s.extend i x) := by
  have hs := Step.extend (s := s) x hl
  have hle := hs.le h
  have hlead : ∀ {t c L}, (s.extend i x).lead t = some (c, L) → s.lead t = some (c, L) ∨
      t = s.term i ∧ c = i ∧ L = s.log i ++ [⟨s.term i, x⟩] :=
    fun hl' => (of_update hl').imp_right fun hnew => ⟨hnew.1, Prod.mk.inj hnew.2⟩
  have hlogi : (s.extend i x).log i = s.log i ++ [⟨s.term i, x⟩] := by simp
  have hlogpre : ∀ v, s.log v <+: (s.extend i x).log v := by
    intro v
    by_cases hv : v = i
    · subst hv
      rw [hlogi]
      exact List.prefix_append _ _
    · rw [(hs.frame hv).2]
  have hrooted : ∀ {l}, s.Rooted l → (s.extend i x).Rooted l := fun hr => hr.mono hle
  constructor
  case vote_le => exact h.vote_le
  case vote_bid => exact h.vote_bid
  case bid_vote => exact h.bid_vote
  case bid_lt => exact h.bid_lt
  case ack_le => exact h.ack_le
  case bid_rooted => exact fun hb => hrooted (h.bid_rooted hb)
  case ack_now => exact fun ha => (h.ack_now ha).trans (hlogpre _)
  case lead_bid =>
    intro t c L hl'
    rcases hlead hl' with hl' | ⟨rfl, rfl, rfl⟩
    · exact h.lead_bid hl'
    · rcases h.lead_bid hl with ⟨l, es, hb, hL, hes⟩
      refine ⟨l, es ++ [⟨s.term c, x⟩], hb, by rw [hL, List.append_assoc], ?_⟩
      intro y hy
      rcases List.mem_append.mp hy with hy | hy
      · exact hes y hy
      · rw [List.mem_singleton.mp hy]
  case lead_won =>
    intro t c L hl'
    rcases hlead hl' with hl' | ⟨rfl, rfl, rfl⟩
    · exact h.lead_won hl'
    · exact h.lead_won hl
  case log_le =>
    intro v y hy
    by_cases hv : v = i
    · subst hv
      rw [hlogi] at hy
      rcases List.mem_append.mp hy with hy | hy
      · exact h.log_le v y hy
      · rw [List.mem_singleton.mp hy]
        exact le_refl _
    · rw [(hs.frame hv).2] at hy
      exact h.log_le v y hy
  case log_rooted =>
    intro v
    by_cases hv : v = i
    · subst hv
      rw [hlogi]
      exact h.rooted_extend x hl
    · rw [(hs.frame hv).2]
      exact hrooted (h.log_rooted v)
  case lead_rooted =>
    intro t c L hl'
    rcases hlead hl' with hl' | ⟨rfl, rfl, rfl⟩
    · exact hrooted (h.lead_rooted hl')
    · exact h.rooted_extend x hl
  case ack_lead =>
    intro v t P ha
    rcases h.ack_lead ha with ⟨c, L, hl', hp⟩
    rcases hle.lead hl' with ⟨L', hl'', hLL⟩
    exact ⟨c, L', hl'', hp.trans hLL⟩
  case ack_past =>
    intro v t P hp hh hlt
    rcases h.proposal_extend hl hp with hp | ⟨-, hno⟩
    · exact (h.ack_past hp hh hlt).imp (fun hpre => hpre.trans (hlogpre v)) (hs.dead h)
    · exact absurd hh (hno v)
  case ack_vote =>
    intro v t t' c l P hp hh hlt hv hb
    rcases h.proposal_extend hl hp with hp | ⟨-, hno⟩
    · exact (h.ack_vote hp hh hlt hv hb).imp_right (hs.dead h)
    · exact absurd hh (hno v)
  case complete =>
    intro t t' c L P hp hlt hl'
    rcases h.proposal_extend hl hp with hold | ⟨rfl, hno⟩
    · rcases hlead hl' with hl' | ⟨rfl, rfl, rfl⟩
      · exact (h.complete hold hlt hl').imp_right (hs.dead h)
      · exact (h.complete hold hlt hl).imp (fun hpre => hpre.trans (List.prefix_append _ _))
          (hs.dead h)
    · -- the voters of a later leader are past this term
      rcases hlead hl' with hl' | ⟨rfl, -, -⟩
      · right
        refine hs.dead h ((h.lead_won hl').mono fun v hv => ⟨?_, hno v⟩)
        exact lt_of_lt_of_le hlt (h.vote_le hv)
      · exact absurd hlt (lt_irrefl _)
  case chosen_held =>
    intro t P hc
    exact ⟨(h.chosen_held hc).1.mono hle, (h.chosen_held hc).2.mono fun v hv => hv.mono hle⟩

theorem adopt (h : Inv s) {c : N} {L P : List (Entry T V)}
    (hl : s.lead (s.term i) = some (c, L)) (hP : P <+: L)
    (hk : ∀ Q, Q <+: s.log i → Q <+: L → Q <+: P) :
    Inv (s.adopt i P) := by
  have hs := Step.adopt (s := s) c L P hl hP hk
  refine { h with
    log_le := fun v x hx => ?_
    log_rooted := fun v => ?_
    ack_now := fun {v Q} ha => ?_
    ack_past := fun {v t Q} hp hh hlt => ?_
    ack_vote := fun hp hh hlt hv hb => (h.ack_vote hp hh hlt hv hb).imp_right (hs.dead h)
    complete := fun hp hlt hl' => (h.complete hp hlt hl').imp_right (hs.dead h) }
  · by_cases hv : v = i
    · subst hv
      exact h.lead_le hl x (hP.subset (by simpa using hx))
    · exact h.log_le v x (by simpa [hv] using hx)
  · have hrooted : s.Rooted (update s.log i P v) := by
      by_cases hv : v = i
      · subst hv
        simpa using (h.lead_rooted hl).of_isPrefix hP
      · simpa [hv] using h.log_rooted v
    exact hrooted
  · by_cases hv : v = i
    · subst hv
      have ha' : s.ack v (s.term v) Q := ha
      simpa using hk Q (h.ack_now ha') (h.holds_prefix ⟨Q, ha', List.prefix_refl Q⟩ hl)
    · simpa [hv] using h.ack_now ha
  · rcases h.ack_past hp hh hlt with hpre | hd
    · by_cases hv : v = i
      · subst hv
        rcases h.complete hp hlt hl with hpre' | hd
        · exact Or.inl (by simpa using hk Q hpre hpre')
        · exact Or.inr (hs.dead h hd)
      · exact Or.inl (by simpa [hv] using hpre)
    · exact Or.inr (hs.dead h hd)

theorem acknowledge (h : Inv s) {c : N} {L P : List (Entry T V)}
    (hl : s.lead (s.term i) = some (c, L)) (hP : P <+: L) (hlog : P <+: s.log i) :
    Inv (s.acknowledge i P) := by
  have hs := Step.acknowledge (s := s) c L P hl hP hlog
  have hle := hs.le h
  refine { h with
    ack_le := fun {v t Q} ha => ?_
    ack_lead := fun {v t Q} ha => ?_
    ack_now := fun {v Q} ha => ?_
    ack_past := fun {v t Q} hp hh hlt => ?_
    ack_vote := fun {v t t' c' l Q} hp hh hlt hv hb => ?_
    complete := fun hp hlt hl' => (h.complete hp hlt hl').imp_right (hs.dead h)
    chosen_held := fun hc =>
      ⟨(h.chosen_held hc).1, (h.chosen_held hc).2.mono fun v hv => hv.mono hle⟩ }
  · rcases ha with ha | ⟨rfl, rfl, -⟩
    · exact h.ack_le ha
    · exact le_refl _
  · rcases ha with ha | ⟨rfl, rfl, rfl⟩
    · exact h.ack_lead ha
    · exact ⟨c, L, hl, hP⟩
  · rcases ha with ha | ⟨rfl, -, rfl⟩
    · exact h.ack_now ha
    · exact hlog
  · rcases hs.holds_of hh with hh | ⟨rfl, rfl⟩
    · exact (h.ack_past hp hh hlt).imp_right (hs.dead h)
    · exact absurd hlt (lt_irrefl _)
  · rcases hs.holds_of hh with hh | ⟨rfl, rfl⟩
    · exact (h.ack_vote hp hh hlt hv hb).imp_right (hs.dead h)
    · exact absurd (lt_of_lt_of_le hlt (h.vote_le hv)) (lt_irrefl _)

omit [DecidableEq N] in
theorem choose (h : Inv s) {P : List (Entry T V)} (hp : s.Proposal (s.term i) P)
    (hm : Majority fun v => s.Holds v (s.term i) P) :
    Inv (s.choose i P) := by
  refine { h with chosen_held := fun {t Q} hc => ?_ }
  rcases hc with hc | ⟨rfl, rfl⟩
  · exact h.chosen_held hc
  · exact ⟨hp, hm⟩

/-- Every action keeps the invariant. -/
theorem step (h : Inv s) (hs : Step s i s') : Inv s' := by
  cases hs with
  | bump t ht => exact h.bump ht
  | campaign t ht => exact h.campaign ht
  | grant c l hv hb hu => exact h.grant hv hb hu
  | win hb hm hn => exact h.win hb hm hn
  | extend x hl => exact h.extend x hl
  | adopt c L P hl hP hk => exact h.adopt hl hP hk
  | acknowledge c L P hl hP hlog => exact h.acknowledge hl hP hlog
  | choose P hp hm => exact h.choose hp hm

end Inv

end

end DistStudy.ReplicatedLog
