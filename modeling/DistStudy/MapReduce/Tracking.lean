import DistStudy.MapReduce.BucketKeys
import DistStudy.MapReduce.Output

/-!
# Where an unfinished job is

The coordinator keeps no list of the jobs that are left to do. That a job which is not done
will be done some day rests on where it is found: with its goroutine, in the channel, or with
`watchJob`, whose timer submits it again. `Tracked` says so for every job of `initialize`, for
all interleavings with timeouts and crashes, as long as

* files that exist can be opened,
* no job is stored whose channel is closed already, or which a `Finish` is about to close,
* every report finds its job in the table, or taken out of it by another `Finish`, or done.

`InFlight` is the stronger fact that holds of a job as long as its worker does not crash: it
is on its way without help of the timer.
-/

namespace DistStudy.MapReduce

/-- The job of the `n`-th report is in the table, taken out of it by another `Finish`, or
done. -/
def World.FindsJob (cfg : Config) (w : World) (n : ℕ) : Prop :=
  ∀ s ∈ w.reports[n]?, ∀ p ∈ cfg.initialPtrs, (cfg.initialJob p).map Job.id = some s.report.id →
    w.jobs s.report.id = some p ∨ w.Finishes p ∨ w.IsDone p

instance (cfg : Config) (w : World) (n : ℕ) : Decidable (w.FindsJob cfg n) := by
  unfold World.FindsJob
  infer_instance

/-- Files that exist can be opened, no job is stored whose channel is closed or about to be, and
no report is lost. -/
def orderly (cfg : Config) (w : World) : Event → Prop
  | .openFiles x broken => opensFiles w (.openFiles x broken)
  | .store g => storesOpened w (.store g)
  | .finish n => w.FindsJob cfg n
  | _ => True

instance orderly.decidable (cfg : Config) (w : World) : ∀ event, Decidable (orderly cfg w event)
  | .openFiles x broken => inferInstanceAs (Decidable (opensFiles w (.openFiles x broken)))
  | .store g => inferInstanceAs (Decidable (storesOpened w (.store g)))
  | .finish n => inferInstanceAs (Decidable (w.FindsJob cfg n))
  | .getTask | .depsDone _ | .send _ | .receive | .close _ | .timeout _ | .unwatch _ | .rename _ _
  | .report _ | .reportFailure _ | .create _ _ | .write _ | .crash _ =>
    inferInstanceAs (Decidable True)

section

variable {cfg : Config} {w : World} {event : Event}

theorem orderly.opensFiles (h : orderly cfg w event) : MapReduce.opensFiles w event := by
  cases event with
  | openFiles x broken => exact h
  | _ => exact trivial

theorem orderly.storesOpened (h : orderly cfg w event) : MapReduce.storesOpened w event := by
  cases event with
  | store g => exact h
  | _ => exact trivial

end

/-! ## The jobs of `initialize` -/

section

variable {cfg : Config} {p : Ptr} {j : Job}

/-- Jobs that workers are sent, the done job included. -/
def Ptr.isTask : Ptr → Bool
  | .pseudo _ _ => false
  | .again _ => false
  | _ => true

theorem isTask_of_pseudo (hp : cfg.initialJob p = some j) (ht : j.jobtype = .pseudo) :
    p.isTask = false := by
  rcases initialJob_pseudo hp ht with ⟨m, -, r, -, rfl, -⟩
  rfl

end

/-! ## Lists that are changed at one position -/

section

variable {β : Type*} {l : List β} {i : ℕ} {x y : β}

theorem eq_or_mem_eraseIdx (hi : l[i]? = some y) (hx : x ∈ l) : x = y ∨ x ∈ l.eraseIdx i := by
  rcases List.getElem?_eq_some_iff.mp hi with ⟨hlt, rfl⟩
  exact List.mem_cons.mp ((List.getElem_cons_eraseIdx_perm hlt).mem_iff.mpr hx)

theorem eq_or_mem_set (hi : l[i]? = some y) (hx : x ∈ l) (z : β) : x = y ∨ x ∈ l.set i z := by
  have hlt := (List.getElem?_eq_some_iff.mp hi).1
  refine (eq_or_mem_eraseIdx hi hx).imp id fun hmem => ?_
  exact (List.set_perm_cons_eraseIdx hlt z).mem_iff.mpr (List.mem_cons_of_mem z hmem)

theorem mem_set_self (hi : l[i]? = some y) (z : β) : z ∈ l.set i z :=
  List.mem_set (List.getElem?_eq_some_iff.mp hi).1 z

end

/-! ## Places -/

namespace World

variable (w : World) (p : Ptr)

/-- A goroutine holds the job and has not sent it yet. -/
def Pending : Prop := ⟨p, .waiting⟩ ∈ w.goroutines ∨ ⟨p, .sending⟩ ∈ w.goroutines

/-- The job has been sent on the channel, or is about to be. -/
def Dispatched : Prop :=
  p ∈ w.jobCh ∨ p ∈ w.watching ∨ ∃ stage, stage ≠ .waiting ∧ ⟨p, stage⟩ ∈ w.goroutines

/-- The job was received: it is watched or done, and `doneCh` is closed if it was the done
job. -/
def Received : Prop :=
  if p = .done then w.doneCh = .closed else p ∈ w.watching ∨ w.IsDone p

end World

structure Tracked (cfg : Config) (w : World) : Prop where
  intact : Intact cfg w
  closable : Closable w
  queued : ∀ p, w.Dispatched p → ∀ j, w.heap p = some j → j.queued = true
  table : ∀ p j, cfg.initialJob p = some j → ¬ w.IsDone p →
    w.Scheduling p ∨ w.jobs j.id = some p ∨ w.Finishes p
  place : ∀ p ∈ cfg.initialPtrs, p.isTask = true → w.Pending p ∨ p ∈ w.jobCh ∨ w.Received p
  bucket : ∀ m r i renamed, ⟨cfg.mapRequest m, .mapping i renamed⟩ ∈ w.executions → r < i →
    r < cfg.nReduce → w.HasSent (cfg.bucketSent m r)
  map : ∀ s m r, w.HasSent s → s.report = mapReport (itoa m) → r < cfg.nReduce →
    w.HasSent (cfg.bucketSent m r)
  finished : ∀ s ∈ w.processed, ∀ p j, cfg.initialJob p = some j → j.id = s.report.id →
    w.Finishes p ∨ w.IsDone p

section

variable {cfg : Config} {w w' : World} {event : Event} {p : Ptr}

theorem Tracked.init (cfg : Config) : Tracked cfg (World.init cfg) where
  intact := Intact.init cfg
  closable := Closable.init cfg
  queued := by
    rintro p (hp | hp | ⟨stage, hstage, hp⟩)
    · cases hp
    · cases hp
    · rcases List.mem_map.mp hp with ⟨q, -, heq⟩
      exact absurd (Goroutine.mk.inj heq).2.symm hstage
  table := by
    intro p j hj _
    left
    have hp : p ∈ cfg.initialPtrs := mem_initialPtrs.mpr (by simp [hj])
    simpa [World.Scheduling, World.init] using hp
  place := by
    intro p hp _
    exact Or.inl (Or.inl (List.mem_map.mpr ⟨p, hp, rfl⟩))
  bucket := by simp [World.init]
  map := by simp [World.init, World.HasSent]
  finished := by simp [World.init]

/-- What a worker has sent stays sent. -/
theorem Steps.hasSent (hs : Steps cfg w event w') {s : Sent} (h : w.HasSent s) : w'.HasSent s := by
  have hsend : ∀ s', s ∈ w.reports ++ [s'] ∨ s ∈ w.finishing.map Finishing.sent ∨ s ∈ w.processed :=
    fun s' => h.imp_left (List.mem_append_left _)
  cases hs with
  | finishLost n s' hn hnone =>
    -- the report moves to the history
    rcases h with hmem | hmem | hmem
    · rcases eq_or_mem_eraseIdx hn hmem with rfl | hmem
      · exact Or.inr (Or.inr (by simp))
      · exact Or.inl hmem
    · exact Or.inr (Or.inl hmem)
    · exact Or.inr (Or.inr (List.mem_append_left _ hmem))
  | finishFound n s' q hn hq =>
    rcases h with hmem | hmem | hmem
    · rcases eq_or_mem_eraseIdx hn hmem with rfl | hmem
      · exact Or.inr (Or.inl (by simp))
      · exact Or.inl hmem
    · refine Or.inr (Or.inl ?_)
      rw [List.map_append]
      exact List.mem_append_left _ hmem
    · exact Or.inr (Or.inr hmem)
  | close n q s' j hn hj ho =>
    rcases h with hmem | hmem | hmem
    · exact Or.inl hmem
    · rcases List.mem_map.mp hmem with ⟨f, hf, rfl⟩
      rcases eq_or_mem_eraseIdx hn hf with rfl | hf
      · exact Or.inr (Or.inr (by simp))
      · exact Or.inr (Or.inl (List.mem_map.mpr ⟨f, hf, rfl⟩))
    · exact Or.inr (Or.inr (List.mem_append_left _ hmem))
  | reportBucket x task i renamed hx hi hb => exact hsend _
  | reportMap x task i renamed hx hi => exact hsend _
  | reportReduce x task offset hx => exact hsend _
  | _ => exact h

/-- `Finish` takes the job that it finds out of the table. -/
theorem Steps.finish_takes {n : ℕ} (hs : Steps cfg w (.finish n) w') {s : Sent}
    (hn : w.reports[n]? = some s) (hp : w.jobs s.report.id = some p) : w'.Finishes p := by
  cases hs with
  | finishLost _ s' hn' hnone =>
    rcases Option.some.inj (hn.symm.trans hn') with rfl
    rw [hp] at hnone
    cases hnone
  | finishFound _ s' q hn' hq =>
    rcases Option.some.inj (hn.symm.trans hn') with rfl
    rcases Option.some.inj (hp.symm.trans hq) with rfl
    simp [World.Finishes]

/-- A goroutine keeps its job until the job is stored. -/
theorem Steps.scheduling_or_stored (hf : Fresh w) (hs : Steps cfg w event w')
    (h : w.Scheduling p) :
    w'.Scheduling p ∨ ∃ j, w.heap p = some j ∧ w'.jobs j.id = some p := by
  have hset : ∀ {g : ℕ} {q : Ptr} {stage stage' : Stage}, w.goroutines[g]? = some ⟨q, stage⟩ →
      p ∈ (w.goroutines.set g ⟨q, stage'⟩).map Goroutine.job := by
    intro g q stage stage' hg
    rcases List.mem_map.mp h with ⟨x, hmem, rfl⟩
    rcases eq_or_mem_set hg hmem ⟨q, stage'⟩ with rfl | hmem
    · exact List.mem_map.mpr ⟨⟨q, stage'⟩, mem_set_self hg _, rfl⟩
    · exact List.mem_map.mpr ⟨x, hmem, rfl⟩
  cases hs with
  | depsDone g q j hg hj hd => exact Or.inl (hset hg)
  | send g q hg hroom => exact Or.inl (hset hg)
  | store g q j hg hj =>
    rcases List.mem_map.mp h with ⟨x, hmem, rfl⟩
    rcases eq_or_mem_eraseIdx hg hmem with rfl | hmem
    · exact Or.inr ⟨j, hj, Function.update_self _ _ _⟩
    · exact Or.inl (List.mem_map.mpr ⟨x, hmem, rfl⟩)
  | retry i q j hp hj hq =>
    rcases List.mem_map.mp h with ⟨x, hmem, rfl⟩
    exact Or.inl (List.mem_map.mpr ⟨x, List.mem_append_left _ hmem, rfl⟩)
  | reportFailure x task corrupt kvs hx =>
    left
    have hre := (resubmits (World.failedJobs ⟨corrupt, atoi task.key⟩) w hf).goroutines
    rcases List.mem_map.mp h with ⟨y, hy, rfl⟩
    exact List.mem_map.mpr ⟨y, hre ▸ List.mem_append_left _ hy, rfl⟩
  | _ => exact Or.inl h

namespace Tracked

/-- A job is one of `initialize`. -/
theorem initialJob (h : Tracked cfg w) {j : Job} (hj : w.heap p = some j) :
    ∃ j₀, cfg.initialJob p = some j₀ ∧ j₀.Le j := by
  refine h.intact.ordered.initial.initialJob hj ?_
  rintro k rfl
  rw [h.intact.heap_again k] at hj
  cases hj

theorem heap (h : Tracked cfg w) {j₀ : Job} (hp : cfg.initialJob p = some j₀) :
    ∃ j, w.heap p = some j ∧ j₀.Le j := h.intact.ordered.initial.heap p j₀ hp

/-- No reduce task fails to open its files. -/
theorem not_failing (h : Tracked cfg w) {x : ℕ} {task : TaskRequest} {corrupt : List ℕ}
    {kvs : List KeyValue} : w.executions[x]? ≠ some ⟨task, .failing corrupt kvs⟩ := by
  intro hx
  exact h.intact.unbroken _ (List.mem_of_getElem? hx) corrupt kvs rfl

theorem isDone_mono (h : Tracked cfg w) (hs : Steps cfg w event w') (hd : w.IsDone p) :
    w'.IsDone p := (hs.le h.intact.ordered.fresh).isDone hd

/-! ### Steps -/

theorem queued_step (h : Tracked cfg w) (hs : Steps cfg w event w') (hp : w'.Dispatched p)
    {j' : Job} (hj' : w'.heap p = some j') : j'.queued = true := by
  cases hs with
  | depsDone g q j hg hj hd =>
    rcases Steps.update_eq_some hj' with ⟨-, rfl⟩ | ⟨hne, hj'⟩
    · rfl
    · refine h.queued p (hp.imp_right (Or.imp_right ?_)) j' hj'
      rintro ⟨stage, hstage, hmem⟩
      rcases List.mem_or_eq_of_mem_set hmem with hmem | heq
      · exact ⟨stage, hstage, hmem⟩
      · exact absurd (Goroutine.mk.inj heq).1 hne
  | send g q hg hroom =>
    refine h.queued p ?_ j' hj'
    have hsending : ∃ stage, stage ≠ .waiting ∧ (⟨q, stage⟩ : Goroutine) ∈ w.goroutines :=
      ⟨.sending, by simp, List.mem_of_getElem? hg⟩
    rcases hp with hp | hp | ⟨stage, hstage, hmem⟩
    · rcases List.mem_append.mp hp with hp | hp
      · exact Or.inl hp
      · rw [List.mem_singleton.mp hp]
        exact Or.inr (Or.inr hsending)
    · exact Or.inr (Or.inl hp)
    · right
      right
      rcases List.mem_or_eq_of_mem_set hmem with hmem | heq
      · exact ⟨stage, hstage, hmem⟩
      · rw [(Goroutine.mk.inj heq).1]
        exact hsending
  | store g q j hg hj =>
    refine h.queued p (hp.imp_right (Or.imp_right ?_)) j' hj'
    rintro ⟨stage, hstage, hmem⟩
    exact ⟨stage, hstage, List.mem_of_mem_eraseIdx hmem⟩
  | dropPseudo q jobCh j hch hj ht =>
    refine h.queued p (hp.imp_left ?_) j' hj'
    intro hmem
    rw [hch]
    exact List.mem_cons_of_mem q hmem
  | hand q jobCh j task getters hget hch hj ht htask hdone =>
    refine h.queued p ?_ j' hj'
    rcases hp with hp | hp | hp
    · exact Or.inl (hch ▸ List.mem_cons_of_mem q hp)
    · rcases List.mem_append.mp hp with hp | hp
      · exact Or.inr (Or.inl hp)
      · rw [List.mem_singleton.mp hp, World.Dispatched, hch]
        exact Or.inl List.mem_cons_self
    · exact Or.inr (Or.inr hp)
  | close n q s j hn hj ho =>
    rcases Steps.update_eq_some hj' with ⟨rfl, rfl⟩ | ⟨-, hj'⟩
    · exact h.queued _ hp j hj
    · exact h.queued p hp j' hj'
  | retry i q j hq hj hqueued =>
    refine h.queued p ?_ j' hj'
    rcases hp with hp | hp | ⟨stage, hstage, hmem⟩
    · exact Or.inl hp
    · exact Or.inr (Or.inl (List.mem_of_mem_eraseIdx hp))
    · rcases List.mem_append.mp hmem with hmem | hmem
      · exact Or.inr (Or.inr ⟨stage, hstage, hmem⟩)
      · exact absurd (Goroutine.mk.inj (List.mem_singleton.mp hmem)).2 hstage
  | retryUnqueued i q j hq hj hqueued =>
    exact h.queued p (hp.imp_right (Or.imp_left List.mem_of_mem_eraseIdx)) j' hj'
  | unwatch i q hq hd =>
    exact h.queued p (hp.imp_right (Or.imp_left List.mem_of_mem_eraseIdx)) j' hj'
  | reportFailure x task corrupt kvs hx => exact absurd hx h.not_failing
  | _ => exact h.queued p hp j' hj'

theorem table_step (h : Tracked cfg w) (hcfg : cfg.nReduce ≤ 10) (hs : Steps cfg w event w')
    {j : Job} (hp : cfg.initialJob p = some j) (hd : ¬ w'.IsDone p) :
    w'.Scheduling p ∨ w'.jobs j.id = some p ∨ w'.Finishes p := by
  rcases h.heap hp with ⟨i, hi, hle⟩
  rcases h.table p j hp (fun hd' => hd (h.isDone_mono hs hd')) with hsched | htab | hfin
  · rcases hs.scheduling_or_stored h.intact.ordered.fresh hsched with hsched | ⟨j', hj', htab⟩
    · exact Or.inl hsched
    · rcases Option.some.inj (hi.symm.trans hj') with rfl
      exact Or.inr (Or.inl (hle.id_eq ▸ htab))
  · right
    cases hs with
    | store g q j' hg hj' =>
      left
      by_cases hid : j'.id = j.id
      · -- only this job has the id
        rcases h.initialJob hj' with ⟨j₁, hj₁, hle'⟩
        have hq : q = p := initialJob_id_inj (Or.inl hcfg) hj₁ hp (hle'.id_eq.symm.trans hid)
        rw [← hid, ← hq]
        exact Function.update_self _ _ _
      · exact (Function.update_of_ne (Ne.symm hid) _ _).trans htab
    | finishFound n s q hn hq =>
      by_cases hid : s.report.id = j.id
      · rw [hid, htab] at hq
        rcases Option.some.inj hq with rfl
        exact Or.inr (by simp [World.Finishes])
      · exact Or.inl ((Function.update_of_ne (Ne.symm hid) _ _).trans htab)
    | _ => exact Or.inl htab
  · rcases hs.finishes_kept hfin with hfin | hdone
    · exact Or.inr (Or.inr hfin)
    · exact absurd hdone hd

/-- A job that has been received stays so, or is submitted again by its timer. -/
theorem received_step (h : Tracked cfg w) (hs : Steps cfg w event w') (hp : w.Received p) :
    w'.Pending p ∨ w'.Received p := by
  by_cases hdone : p = .done
  · subst hdone
    right
    simp only [World.Received, if_true] at hp ⊢
    cases hs with
    | hand q jobCh j task getters hget hch hj ht htask hd =>
      show (if j.jobtype = .done then DoneCh.closed else w.doneCh) = .closed
      split_ifs
      · rfl
      · exact hp
    | _ => exact hp
  simp only [World.Received, if_neg hdone] at hp ⊢
  rcases hp with hp | hp
  · cases hs with
    | hand q jobCh j task getters hget hch hj ht htask hd =>
      exact Or.inr (Or.inl (List.mem_append_left _ hp))
    | retry i q j hq hj hqueued =>
      rcases eq_or_mem_eraseIdx hq hp with rfl | hp
      · exact Or.inl (Or.inl (by simp))
      · exact Or.inr (Or.inl hp)
    | retryUnqueued i q j hq hj hqueued =>
      -- a job that is watched has been sent
      rw [h.queued q (Or.inr (Or.inl (List.mem_of_getElem? hq))) j hj] at hqueued
      cases hqueued
    | unwatch i q hq hd =>
      rcases eq_or_mem_eraseIdx hq hp with rfl | hp
      · exact Or.inr (Or.inr hd)
      · exact Or.inr (Or.inl hp)
    | _ => exact Or.inr (Or.inl hp)
  · exact Or.inr (Or.inr (h.isDone_mono hs hp))

/-- A job that waits to be sent is sent. -/
theorem pending_step (h : Tracked cfg w) (hs : Steps cfg w event w') (hp : w.Pending p) :
    w'.Pending p ∨ p ∈ w'.jobCh := by
  cases hs with
  | depsDone g q j hg hj hd =>
    left
    have hmem : ∀ stage, (⟨p, stage⟩ : Goroutine) ∈ w.goroutines → stage ≠ .storing →
        ((w.setJob q { j with queued := true }).setStage g q .sending).Pending p := by
      intro stage hmem hstage
      rcases eq_or_mem_set hg hmem ⟨q, .sending⟩ with heq | hmem
      · rw [(Goroutine.mk.inj heq).1]
        exact Or.inr (mem_set_self hg _)
      · cases stage with
        | waiting => exact Or.inl hmem
        | sending => exact Or.inr hmem
        | storing => exact absurd rfl hstage
    rcases hp with hp | hp
    · exact hmem _ hp (by simp)
    · exact hmem _ hp (by simp)
  | send g q hg hroom =>
    by_cases hpq : p = q
    · exact Or.inr (List.mem_append_right _ (by simp [hpq]))
    · left
      have hmem : ∀ stage, (⟨p, stage⟩ : Goroutine) ∈ w.goroutines →
          ⟨p, stage⟩ ∈ w.goroutines.set g ⟨q, .storing⟩ := by
        intro stage hmem
        rcases eq_or_mem_set hg hmem ⟨q, .storing⟩ with heq | hmem
        · exact absurd (Goroutine.mk.inj heq).1 hpq
        · exact hmem
      exact hp.imp (hmem _) (hmem _)
  | store g q j hg hj =>
    left
    have hmem : ∀ stage, stage ≠ .storing → (⟨p, stage⟩ : Goroutine) ∈ w.goroutines →
        ⟨p, stage⟩ ∈ w.goroutines.eraseIdx g := by
      intro stage hstage hmem
      rcases eq_or_mem_eraseIdx hg hmem with heq | hmem
      · exact absurd (Goroutine.mk.inj heq).2 hstage
      · exact hmem
    exact hp.imp (hmem _ (by simp)) (hmem _ (by simp))
  | retry i q j hq hj hqueued =>
    exact Or.inl (hp.imp (List.mem_append_left _) (List.mem_append_left _))
  | reportFailure x task corrupt kvs hx => exact absurd hx h.not_failing
  | _ => exact Or.inl hp

/-- A job in the channel that workers are sent is received. -/
theorem jobCh_step (h : Tracked cfg w) (hs : Steps cfg w event w') (ht : p.isTask = true)
    (hp : p ∈ w.jobCh) : p ∈ w'.jobCh ∨ w'.Received p := by
  cases hs with
  | send g q hg hroom => exact Or.inl (List.mem_append_left _ hp)
  | dropPseudo q jobCh j hch hj htype =>
    left
    rw [hch] at hp
    rcases List.mem_cons.mp hp with rfl | hp
    · -- pseudo jobs are not sent to workers
      rcases h.initialJob hj with ⟨j₀, hj₀, hle⟩
      rw [isTask_of_pseudo hj₀ (hle.jobtype.symm.trans htype)] at ht
      cases ht
    · exact hp
  | hand q jobCh j task getters hget hch hj htype htask hd =>
    rw [hch] at hp
    rcases List.mem_cons.mp hp with rfl | hp
    · right
      by_cases hdone : p = .done
      · subst hdone
        rcases h.initialJob hj with ⟨j₀, hj₀, hle⟩
        rcases Option.some.inj hj₀ with rfl
        rw [World.Received, if_pos rfl]
        exact if_pos hle.jobtype
      · rw [World.Received, if_neg hdone]
        exact Or.inl (List.mem_append_right _ List.mem_cons_self)
    · exact Or.inl hp
  | _ => exact Or.inl hp

theorem place_step (h : Tracked cfg w) (hs : Steps cfg w event w') (hp : p ∈ cfg.initialPtrs)
    (ht : p.isTask = true) : w'.Pending p ∨ p ∈ w'.jobCh ∨ w'.Received p := by
  rcases h.place p hp ht with hpend | hch | hrec
  · exact (h.pending_step hs hpend).imp_right Or.inl
  · exact Or.inr (h.jobCh_step hs ht hch)
  · exact (h.received_step hs hrec).imp_right Or.inr

/-- A map task has sent the reports of the buckets before the one it is at. -/
theorem bucket_step (h : Tracked cfg w) (hs : Steps cfg w event w') {m r i : ℕ} {renamed : Bool}
    (hx : ⟨cfg.mapRequest m, .mapping i renamed⟩ ∈ w'.executions) (hi : r < i)
    (hr : r < cfg.nReduce) : w'.HasSent (cfg.bucketSent m r) := by
  have hold : ∀ {i : ℕ} {renamed : Bool},
      ⟨cfg.mapRequest m, .mapping i renamed⟩ ∈ w.executions → r < i →
      w'.HasSent (cfg.bucketSent m r) :=
    fun hx hi => hs.hasSent (h.bucket m r _ _ hx hi hr)
  -- an execution that goes on with something else
  have hset : ∀ {x : ℕ} {task : TaskRequest} {progress : Progress},
      ⟨cfg.mapRequest m, .mapping i renamed⟩ ∈ w.executions.set x ⟨task, progress⟩ →
      progress.isMapping = false → w'.HasSent (cfg.bucketSent m r) := by
    intro x task progress hmem hp
    rcases List.mem_or_eq_of_mem_set hmem with hmem | heq
    · exact hold hmem hi
    · rw [← (Execution.mk.inj heq).2] at hp
      cases hp
  cases hs with
  | hand q jobCh j task getters hget hch hj ht htask hd =>
    rcases List.mem_append.mp hx with hx | hx
    · exact hold hx hi
    · rcases start_cases hx with ⟨-, heq⟩ | ⟨-, heq⟩
      · rcases Progress.mapping.inj (Execution.mk.inj heq).2 with ⟨rfl, -⟩
        cases hi
      · cases (Execution.mk.inj heq).2
  | rename x task b kvs hb hlt hne hperm =>
    rcases List.mem_or_eq_of_mem_set hx with hx | heq
    · exact hold hx hi
    · rcases Execution.mk.inj heq with ⟨rfl, hprog⟩
      rcases Progress.mapping.inj hprog with ⟨rfl, -⟩
      exact hold (List.mem_of_getElem? hb) hi
  | reportBucket x task b renamed' hb hlt hne =>
    rcases List.mem_or_eq_of_mem_set hx with hx | heq
    · exact hold hx hi
    · rcases Execution.mk.inj heq with ⟨rfl, hprog⟩
      rcases Progress.mapping.inj hprog with ⟨rfl, -⟩
      rcases Nat.lt_succ_iff_lt_or_eq.mp hi with hi | rfl
      · exact hold (List.mem_of_getElem? hb) hi
      · exact Or.inl (List.mem_append_right _ List.mem_cons_self)
  | reportMap x task b renamed' hb hlt => exact hold (List.mem_of_mem_eraseIdx hx) hi
  | reportReduce x task offset hb => exact hold (List.mem_of_mem_eraseIdx hx) hi
  | openFiles x task broken hb =>
    refine hset hx ?_
    split_ifs <;> rfl
  | reportFailure x task corrupt kvs hb => exact absurd hb h.not_failing
  | create x task kvs sorted hb hsort => exact hset hx rfl
  | write x task line lines offset hb => exact hset hx rfl
  | crash x hlt => exact hold (List.mem_of_mem_eraseIdx hx) hi
  | _ => exact hold hx hi

/-- A map task reports its end after all its buckets. -/
theorem map_step (h : Tracked cfg w) (hs : Steps cfg w event w') {s : Sent} {m r : ℕ}
    (hsent : w'.HasSent s) (hrep : s.report = mapReport (itoa m)) (hr : r < cfg.nReduce) :
    w'.HasSent (cfg.bucketSent m r) := by
  apply hs.hasSent
  rcases hs.sent_effect hsent with hsent | ⟨n, progress, -, hx, hreports⟩
  · exact h.map s m r hsent hrep hr
  · rw [hrep] at hreports
    generalize hreport : mapReport (itoa m) = report at hreports
    cases hreports with
    | bucket i renamed hi hb => cases congrArg SuccessReport.tasktype hreport
    | map i renamed hi =>
      -- the task is that of map `m`, and it is past its last bucket
      have hmem := List.mem_of_getElem? hx
      rcases (h.intact.ordered.executions _ hmem).map rfl with ⟨m', -, htask⟩
      dsimp only at htask
      rw [htask] at hreport hi hmem
      rcases itoa_inj.mp (congrArg SuccessReport.key hreport) with rfl
      have hlen : cfg.nReduce ≤ i := Nat.not_lt.mp hi
      exact h.bucket m r i renamed hmem (by omega) hr
    | reduce offset => cases congrArg SuccessReport.tasktype hreport

/-- A job that a `Finish` has taken is done some day, and stays so. -/
theorem finished_mono (h : Tracked cfg w) (hs : Steps cfg w event w')
    (hp : w.Finishes p ∨ w.IsDone p) : w'.Finishes p ∨ w'.IsDone p := by
  rcases hp with hp | hp
  · exact hs.finishes_kept hp
  · exact Or.inr (h.isDone_mono hs hp)

/-- A job whose report was processed is done, or another `Finish` is about to close it. -/
theorem finished_step (h : Tracked cfg w) (hcfg : cfg.nReduce ≤ 10) (hC : orderly cfg w event)
    (hs : Steps cfg w event w') {s : Sent} (hmem : s ∈ w'.processed) {j : Job}
    (hp : cfg.initialJob p = some j) (hid : j.id = s.report.id) : w'.Finishes p ∨ w'.IsDone p := by
  rcases hs.processed_effect hmem with hmem | ⟨n, rfl, hn, hnone⟩ | ⟨n, q, rfl, hn, hd⟩
  · exact h.finished_mono hs (h.finished s hmem p j hp hid)
  · have hptr : p ∈ cfg.initialPtrs := mem_initialPtrs.mpr (by simp [hp])
    rcases hC s hn p hptr (by simp [hp, hid]) with htab | hfin
    · rw [hnone] at htab
      cases htab
    · exact h.finished_mono hs hfin
  · -- only one job has the id of the report
    rcases h.intact.ordered.finishing _ (List.mem_of_getElem? hn) with ⟨i, hi, hiid⟩
    rcases h.initialJob hi with ⟨i₀, hi₀, hle⟩
    have hq : q = p :=
      initialJob_id_inj (Or.inl hcfg) hi₀ hp (hle.id_eq.symm.trans (hiid.trans hid.symm))
    exact Or.inr (hq ▸ hd)

theorem step (h : Tracked cfg w) (hcfg : cfg.nReduce ≤ 10) (hC : orderly cfg w event)
    (hs : Steps cfg w event w') : Tracked cfg w' where
  intact := h.intact.step hcfg hC.opensFiles hs
  closable := h.closable.step hC.storesOpened hs
  queued := fun _ hp _ hj' => h.queued_step hs hp hj'
  table := fun _ _ hp hd => h.table_step hcfg hs hp hd
  place := fun _ hp ht => h.place_step hs hp ht
  bucket := fun _ _ _ _ hx hi hr => h.bucket_step hs hx hi hr
  map := fun _ _ _ hsent hrep hr => h.map_step hs hsent hrep hr
  finished := fun _ hmem _ _ hp hid => h.finished_step hcfg hC hs hmem hp hid

end Tracked

/-! ## Jobs on their way -/

/-- The job is on its way to be done: it waits to be sent, is in the channel, is executed, or
its report has not been processed yet. -/
def InFlight (cfg : Config) (w : World) (p : Ptr) : Prop :=
  w.Pending p ∨ p ∈ w.jobCh ∨
    (∃ x ∈ w.executions, cfg.handout p = some (x.task.tasktype, x.task.key)) ∨
    (∃ s ∈ w.reports, (cfg.initialJob p).map Job.id = some s.report.id) ∨
    w.Finishes p ∨ w.IsDone p

/-- A worker goes on with its task, or reports its end, or crashes. -/
theorem Steps.execution_continues (hs : Steps cfg w event w') (hcrash : ∀ n, event ≠ .crash n)
    {x : Execution} (hx : x ∈ w.executions) :
    (∃ y ∈ w'.executions, y.task = x.task) ∨
      ∃ s ∈ w'.reports, s.task = x.task ∧
        (x.progress.isMapping = true ∧ s.report = mapReport x.task.key ∨
          x.progress.isMapping = false ∧ s.report = reduceReport x.task.key) := by
  have hset : ∀ {n : ℕ} {task : TaskRequest} {progress : Progress},
      w.executions[n]? = some ⟨task, progress⟩ → ∀ progress',
      ∃ y ∈ w.executions.set n ⟨task, progress'⟩, y.task = x.task := by
    intro n task progress hn progress'
    rcases eq_or_mem_set hn hx ⟨task, progress'⟩ with rfl | hx
    · exact ⟨_, mem_set_self hn _, rfl⟩
    · exact ⟨x, hx, rfl⟩
  cases hs with
  | hand q jobCh j task getters hget hch hj ht htask hd =>
    exact Or.inl ⟨x, List.mem_append_left _ hx, rfl⟩
  | rename n task i kvs hn hlt hne hperm => exact Or.inl (hset hn _)
  | reportBucket n task i renamed hn hlt hne => exact Or.inl (hset hn _)
  | reportMap n task i renamed hn hlt =>
    rcases eq_or_mem_eraseIdx hn hx with rfl | hx
    · exact Or.inr ⟨_, List.mem_append_right _ List.mem_cons_self, rfl, Or.inl ⟨rfl, rfl⟩⟩
    · exact Or.inl ⟨x, hx, rfl⟩
  | reportReduce n task offset hn =>
    rcases eq_or_mem_eraseIdx hn hx with rfl | hx
    · exact Or.inr ⟨_, List.mem_append_right _ List.mem_cons_self, rfl, Or.inr ⟨rfl, rfl⟩⟩
    · exact Or.inl ⟨x, hx, rfl⟩
  | openFiles n task broken hn => exact Or.inl (hset hn _)
  | reportFailure n task corrupt kvs hn => exact Or.inl (hset hn _)
  | create n task kvs sorted hn hsort => exact Or.inl (hset hn _)
  | write n task line lines offset hn => exact Or.inl (hset hn _)
  | crash n hn => exact absurd rfl (hcrash n)
  | _ => exact Or.inl ⟨x, hx, rfl⟩

/-- The id of a job that is handed out is that of the task. -/
theorem initialJob_id_of_handout {task : JobType × Text} (h : cfg.handout p = some task) :
    (cfg.initialJob p).map Job.id = some (jobId task.1 task.2) := by
  unfold Config.handout at h
  rcases Option.bind_eq_some_iff.mp h with ⟨j, hj, h⟩
  split_ifs at h
  rw [hj, ← Option.some.inj h]
  rfl

namespace Tracked

/-- A job in the channel is executed when it is received. -/
theorem inFlight_jobCh (h : Tracked cfg w) (hs : Steps cfg w event w') (ht : p.isTask = true)
    (hdone : p ≠ .done) (hp : p ∈ w.jobCh) : InFlight cfg w' p := by
  cases hs with
  | send g q hg hroom => exact Or.inr (Or.inl (List.mem_append_left _ hp))
  | dropPseudo q jobCh j hch hj htype =>
    rw [hch] at hp
    rcases List.mem_cons.mp hp with rfl | hp
    · rcases h.initialJob hj with ⟨j₀, hj₀, hle⟩
      rw [isTask_of_pseudo hj₀ (hle.jobtype.symm.trans htype)] at ht
      cases ht
    · exact Or.inr (Or.inl hp)
  | hand q jobCh j task getters hget hch hj htype htask hd =>
    rw [hch] at hp
    rcases List.mem_cons.mp hp with rfl | hp
    · right
      right
      left
      rcases h.initialJob hj with ⟨j₀, hj₀, hle⟩
      have hreply := replies htask
      have hhand : cfg.handout p = some (task.tasktype, task.key) := by
        simp [Config.handout, hj₀, hreply.tasktype, hreply.key, hle.jobtype, hle.key,
          hle.jobtype ▸ htype]
      -- of the types, only the done job is not executed
      have hstart : ∃ x ∈ World.start task, x.task = task := by
        unfold World.start
        cases htask' : task.tasktype with
        | map => exact ⟨_, List.mem_cons_self, rfl⟩
        | reduce => exact ⟨_, List.mem_cons_self, rfl⟩
        | pseudo => exact absurd (hreply.tasktype.symm.trans htask') htype
        | done =>
          have hj₀done := hle.jobtype.symm.trans (hreply.tasktype.symm.trans htask')
          exact absurd (initialJob_done hj₀ hj₀done) hdone
      rcases hstart with ⟨x, hx, heq⟩
      exact ⟨x, List.mem_append_right _ hx, heq ▸ hhand⟩
    · exact Or.inr (Or.inl hp)
  | _ => exact Or.inr (Or.inl hp)

/-- As long as no worker crashes, a job stays on its way until it is done. -/
theorem inFlight_step (h : Tracked cfg w) (hC : orderly cfg w event) (hs : Steps cfg w event w')
    (hcrash : ∀ n, event ≠ .crash n) (hp : p ∈ cfg.initialPtrs) (ht : p.isTask = true)
    (hdone : p ≠ .done) (hf : InFlight cfg w p) : InFlight cfg w' p := by
  rcases hf with hpend | hch | ⟨x, hx, hhand⟩ | ⟨s, hmem, hid⟩ | hfin
  · exact (h.pending_step hs hpend).imp_right Or.inl
  · exact h.inFlight_jobCh hs ht hdone hch
  · rcases hs.execution_continues hcrash hx with ⟨y, hy, heq⟩ | ⟨s, hmem, -, hrep⟩
    · exact Or.inr (Or.inr (Or.inl ⟨y, hy, heq ▸ hhand⟩))
    · refine Or.inr (Or.inr (Or.inr (Or.inl ⟨s, hmem, ?_⟩)))
      rw [initialJob_id_of_handout hhand]
      have hfits := h.intact.ordered.executions x hx
      rcases hrep with ⟨hmap, hrep⟩ | ⟨hmap, hrep⟩
      · rw [hrep]
        unfold Fits at hfits
        rw [if_pos hmap] at hfits
        rcases hfits with ⟨m, -, htask⟩
        rw [htask]
        rfl
      · rcases hfits.reduce hmap with ⟨r, -, htype, -, -⟩
        rw [hrep, htype]
        rfl
  · by_cases hev : ∃ n, event = .finish n ∧ w.reports[n]? = some s
    · rcases hev with ⟨n, rfl, hn⟩
      refine Or.inr (Or.inr (Or.inr (Or.inr ?_)))
      rcases hC s hn p hp hid with htab | hfin
      · exact Or.inl (hs.finish_takes hn htab)
      · exact h.finished_mono hs hfin
    · refine Or.inr (Or.inr (Or.inr (Or.inl ⟨s, ?_, hid⟩)))
      cases hs with
      | finishLost n s' hn hnone =>
        rcases eq_or_mem_eraseIdx hn hmem with rfl | hmem
        · exact absurd ⟨n, rfl, hn⟩ hev
        · exact hmem
      | finishFound n s' q hn hq =>
        rcases eq_or_mem_eraseIdx hn hmem with rfl | hmem
        · exact absurd ⟨n, rfl, hn⟩ hev
        · exact hmem
      | reportBucket n task i renamed hn hlt hne => exact List.mem_append_left _ hmem
      | reportMap n task i renamed hn hlt => exact List.mem_append_left _ hmem
      | reportReduce n task offset hn => exact List.mem_append_left _ hmem
      | _ => exact hmem
  · exact Or.inr (Or.inr (Or.inr (Or.inr (h.finished_mono hs hfin))))

end Tracked

end

end DistStudy.MapReduce
