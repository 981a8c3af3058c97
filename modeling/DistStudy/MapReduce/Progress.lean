import DistStudy.MapReduce.Tracking
import DistStudy.MapReduce.WholeJob
import Mathlib

/-!
# A job comes to its end

Under the conditions of `Tracked` no interleaving gets stuck, whatever workers crash and
whenever timers fire: as long as `doneCh` is open and a worker asks for a task, the coordinator
or a worker can go on, and if no worker has crashed this needs no timer (`never_stuck`).

The work that is left is a number that every step lowers and that only a timeout raises
(`World.left`). So the number of steps is bounded by that of the timeouts, and from every
state that a run can reach some steps without a crash lead to the end (`job_completes`).
-/

namespace DistStudy.MapReduce

/-! ## The work that is left -/

section

variable {β : Type*} {l : List β} {i : ℕ} {x y : β} (f : β → ℕ)

theorem sum_eraseIdx (h : l[i]? = some y) : ((l.eraseIdx i).map f).sum + f y = (l.map f).sum := by
  rcases List.getElem?_eq_some_iff.mp h with ⟨hi, rfl⟩
  rw [← ((List.getElem_cons_eraseIdx_perm hi).map f).sum_eq, List.map_cons, List.sum_cons,
    Nat.add_comm]

theorem sum_set (h : l[i]? = some y) : ((l.set i x).map f).sum + f y = (l.map f).sum + f x := by
  rcases List.getElem?_eq_some_iff.mp h with ⟨hi, -⟩
  rw [((List.set_perm_cons_eraseIdx hi x).map f).sum_eq, List.map_cons, List.sum_cons,
    ← sum_eraseIdx f h]
  omega

end

/-- What a job in the channel can still cause: it is received and executed, and its watcher
ends. -/
def Config.jobWork (cfg : Config) : ℕ := 4 * cfg.nReduce + cfg.intermediate.length + 7

def Goroutine.left (jobWork : ℕ) (g : Goroutine) : ℕ :=
  match g.stage with
  | .waiting => jobWork + 3
  | .sending => jobWork + 2
  | .storing => 1

/-- The steps of a worker until its task is reported, and those of the reports. -/
def Execution.left (records : ℕ) (x : Execution) : ℕ :=
  match x.progress with
  | .mapping i renamed =>
    4 * (x.task.nReduce - i) + if renamed = true ∧ i < x.task.nReduce then 2 else 3
  | .opening => records + 5
  | .failing _ _ => 0
  | .loaded kvs => kvs.length + 4
  | .writing lines _ => lines.length + 3

-- the `Finish` of a report takes two steps, looking up the job and closing its channel
def World.left (cfg : Config) (w : World) : ℕ :=
  (w.goroutines.map (Goroutine.left cfg.jobWork)).sum + cfg.jobWork * w.jobCh.length +
    (w.executions.map (Execution.left cfg.intermediate.length)).sum + w.watching.length +
    2 * w.reports.length + w.finishing.length

/-- A step of the coordinator or of a worker, not a new request, a timer or a crash. -/
def Event.isWork : Event → Bool
  | .getTask => false
  | .timeout _ => false
  | .crash _ => false
  | _ => true

def Event.isTimeout : Event → Bool
  | .timeout _ => true
  | _ => false

/-- A step that uses up work. -/
def Event.counts : Event → Bool
  | .getTask => false
  | .timeout _ => false
  | _ => true

section

variable {cfg : Config} {w w' : World} {event : Event} {p : Ptr}

theorem length_reduceLoop_le (reducef : Text → List Text → Text) (kvs : List KeyValue) :
    (reduceLoop reducef kvs).length ≤ kvs.length := length_groupRuns_le kvs

/-- A worker starts with less than the work of the job that it has received. -/
theorem left_start {j : Job} {task : TaskRequest} (h : w.reply cfg j = some task) :
    ((World.start task).map (Execution.left cfg.intermediate.length)).sum + 2 ≤ cfg.jobWork := by
  have hn : task.nReduce = cfg.nReduce := (replies h).nReduce
  unfold World.start Config.jobWork
  split
  · simp [Execution.left, hn]
    omega
  · simp [Execution.left]
  · simp

/-- A worker goes on with its task, and may send a report. -/
theorem left_set {n : ℕ} {x y : Execution} (hn : w.executions[n]? = some x)
    (hg : w'.goroutines = w.goroutines) (hch : w'.jobCh = w.jobCh)
    (hwatch : w'.watching = w.watching) (hfin : w'.finishing = w.finishing)
    (hx : w'.executions = w.executions.set n y)
    (hlt : y.left cfg.intermediate.length + 2 * w'.reports.length <
      x.left cfg.intermediate.length + 2 * w.reports.length) : w'.left cfg < w.left cfg := by
  have hsum := sum_set (x := y) (Execution.left cfg.intermediate.length) hn
  simp only [World.left, hg, hch, hwatch, hfin, hx]
  omega

/-- A worker is through with its task, or has crashed. -/
theorem left_eraseIdx {n : ℕ} {x : Execution} (hn : w.executions[n]? = some x)
    (hg : w'.goroutines = w.goroutines) (hch : w'.jobCh = w.jobCh)
    (hwatch : w'.watching = w.watching) (hfin : w'.finishing = w.finishing)
    (hx : w'.executions = w.executions.eraseIdx n)
    (hlt : 2 * w'.reports.length < x.left cfg.intermediate.length + 2 * w.reports.length) :
    w'.left cfg < w.left cfg := by
  have hsum := sum_eraseIdx (Execution.left cfg.intermediate.length) hn
  simp only [World.left, hg, hch, hwatch, hfin, hx]
  omega

/-- An execution has something left to do. -/
theorem Tracked.left_pos (h : Tracked cfg w) {x : Execution} (hx : x ∈ w.executions) :
    0 < x.left cfg.intermediate.length := by
  have hunbroken := h.intact.unbroken x hx
  unfold Execution.left
  split
  · split_ifs <;> omega
  · omega
  · rename_i corrupt kvs hp
    exact absurd hp (hunbroken corrupt kvs)
  · omega
  · omega

/-- A reduce task reads no more records than there are. -/
theorem length_reduceInput_le (cfg : Config) (r : ℕ) :
    (cfg.reduceInput r).length ≤ cfg.intermediate.length := by
  rw [reduceInput_eq cfg r]
  exact List.length_filter_le _ _

theorem Tracked.left_lt (h : Tracked cfg w) (hC : orderly cfg w event)
    (hs : Steps cfg w event w') (hcounts : event.counts = true) : w'.left cfg < w.left cfg := by
  cases hs with
  | getTask => cases hcounts
  | depsDone g q j hg hj hd =>
    have hsum := sum_set (x := ⟨q, .sending⟩) (Goroutine.left cfg.jobWork) hg
    simp only [Goroutine.left] at hsum
    simp only [World.left, World.setStage, World.setJob]
    omega
  | send g q hg hroom =>
    have hsum := sum_set (x := ⟨q, .storing⟩) (Goroutine.left cfg.jobWork) hg
    have hmul := Nat.mul_add_one cfg.jobWork w.jobCh.length
    simp only [Goroutine.left] at hsum
    simp only [World.left, World.setStage, List.length_append, List.length_singleton]
    omega
  | store g q j hg hj =>
    have hsum := sum_eraseIdx (Goroutine.left cfg.jobWork) hg
    simp only [Goroutine.left] at hsum
    simp only [World.left]
    omega
  | dropPseudo q jobCh j hch hj ht =>
    have hmul := Nat.mul_add_one cfg.jobWork jobCh.length
    have hpos : 7 ≤ cfg.jobWork := Nat.le_add_left _ _
    simp only [World.left, hch, List.length_cons]
    omega
  | hand q jobCh j task getters hget hch hj ht htask hd =>
    have hmul := Nat.mul_add_one cfg.jobWork jobCh.length
    have hstart := left_start htask
    simp only [World.left, hch, List.length_cons, List.length_append, List.length_nil,
      List.map_append, List.sum_append]
    omega
  | finishLost n s hn hnone =>
    have hlen := List.length_eraseIdx_add_one (List.getElem?_eq_some_iff.mp hn).1
    simp only [World.left]
    omega
  | finishFound n s q hn hq =>
    have hlen := List.length_eraseIdx_add_one (List.getElem?_eq_some_iff.mp hn).1
    simp only [World.left, List.length_append, List.length_singleton]
    omega
  | close n q s j hn hj ho =>
    have hlen := List.length_eraseIdx_add_one (List.getElem?_eq_some_iff.mp hn).1
    simp only [World.left, World.setJob]
    omega
  | retry i q j hq hj hqueued => cases hcounts
  | retryUnqueued i q j hq hj hqueued => cases hcounts
  | unwatch i q hq hd =>
    have hlen := List.length_eraseIdx_add_one (List.getElem?_eq_some_iff.mp hq).1
    simp only [World.left]
    omega
  | rename n task i kvs hn hlt hne hperm =>
    refine left_set hn rfl rfl rfl rfl rfl ?_
    simp [Execution.left, World.setProgress, hlt]
  | reportBucket n task i renamed hn hlt hne =>
    refine left_set hn rfl rfl rfl rfl rfl ?_
    simp only [Execution.left, World.sendReport, World.setProgress, List.length_append,
      List.length_singleton]
    split_ifs <;> omega
  | reportMap n task i renamed hn hlt =>
    refine left_eraseIdx hn rfl rfl rfl rfl rfl ?_
    simp [Execution.left, World.sendReport, World.retire, hlt]
    omega
  | reportReduce n task offset hn =>
    refine left_eraseIdx hn rfl rfl rfl rfl rfl ?_
    simp only [Execution.left, World.sendReport, World.retire, List.length_append,
      List.length_singleton]
    omega
  | openFiles n task broken hn =>
    refine left_set hn rfl rfl rfl rfl rfl ?_
    have hbroken : broken = [] := hC
    subst hbroken
    rcases h.intact.opened (List.mem_of_getElem? hn) with ⟨r, hr, rfl, kvs, hperm, hload⟩
    rw [hload]
    have hle := length_reduceInput_le cfg r
    have heq := hperm.length_eq
    simp only [Execution.left, World.setProgress]
    omega
  | reportFailure n task corrupt kvs hn => exact absurd hn h.not_failing
  | create n task kvs sorted hn hsort =>
    refine left_set hn rfl rfl rfl rfl rfl ?_
    have hle := length_reduceLoop_le cfg.reducef sorted
    have heq := hsort.2.length_eq
    simp only [Execution.left, World.setProgress]
    omega
  | write n task line lines offset hn =>
    refine left_set hn rfl rfl rfl rfl rfl ?_
    simp only [Execution.left, World.setProgress, List.length_cons]
    omega
  | crash n hn =>
    have hx := List.getElem?_eq_getElem hn
    refine left_eraseIdx hx rfl rfl rfl rfl rfl ?_
    have hpos := h.left_pos (List.mem_of_getElem? hx)
    exact Nat.lt_add_of_pos_left hpos

/-- No step of the coordinator or of a worker is possible. -/
def Quiescent (cfg : Config) (w : World) : Prop :=
  ∀ event, event.isWork = true → orderly cfg w event → w.step cfg event = none

/-- The jobs that are to be done by workers. -/
def Ptr.isWorkerTask : Ptr → Bool
  | .map _ => true
  | .reduce _ => true
  | _ => false

/-- `GetTask` has a reply for every job of `initialize`. -/
theorem Tracked.reply (h : Tracked cfg w) {j : Job} (hj : w.heap p = some j) :
    ∃ task, w.reply cfg j = some task := by
  unfold World.reply
  cases ht : j.jobtype with
  | map =>
    rcases h.initialJob hj with ⟨j₀, hj₀, hle⟩
    rcases initialJob_map hj₀ (hle.jobtype.symm.trans ht) with ⟨m, hm, -, rfl⟩
    have hkey : j.key = itoa m := hle.key
    simp [hkey, hm]
  | _ => exact ⟨_, rfl⟩

/-- A job can be scheduled when its dependencies are done. -/
theorem Tracked.ready (h : Tracked cfg w) {j : Job} (hj : cfg.initialJob p = some j)
    (hd : ∀ d ∈ j.deps, w.IsDone d) : w.Ready p := by
  rcases h.heap hj with ⟨j', hj', hle⟩
  refine ⟨j', hj', ?_⟩
  rw [hle.deps]
  exact hd

theorem World.Pending.scheduling (h : w.Pending p) : w.Scheduling p := by
  rcases h with hmem | hmem
  · exact List.mem_map.mpr ⟨_, hmem, rfl⟩
  · exact List.mem_map.mpr ⟨_, hmem, rfl⟩

namespace Quiescent

variable (hq : Quiescent cfg w)

include hq

theorem executions_eq (h : Tracked cfg w) : w.executions = [] := by
  cases hx : w.executions with
  | nil => rfl
  | cons x rest =>
    exfalso
    have hn : w.executions[0]? = some x := by rw [hx]; rfl
    rcases x with ⟨task, progress⟩
    have hreport := hq (.report 0) rfl trivial
    cases progress with
    | mapping i renamed =>
      have hrename := hq (.rename 0 (cfg.bucketOf task i)) rfl trivial
      simp only [World.step, World.report, hn] at hreport
      split_ifs at hreport with hi hb
      cases renamed with
      | true => exact hb (Or.inl rfl)
      | false =>
        simp only [World.step, World.rename, hn] at hrename
        split_ifs at hrename with hb'
        exact hb' ⟨hi, fun hnil => hb (Or.inr hnil), .refl _⟩
    | opening =>
      have hopen := hq (.openFiles 0 []) rfl rfl
      simp [World.step, World.openFiles, hn] at hopen
    | failing corrupt kvs => exact h.not_failing hn
    | loaded kvs =>
      have hcreate := hq (.create 0 (sortByKey kvs)) rfl trivial
      simp [World.step, World.create, hn, sorts_sortByKey] at hcreate
    | writing lines offset =>
      cases lines with
      | nil => simp [World.step, World.report, hn] at hreport
      | cons line lines =>
        have hwrite := hq (.write 0) rfl trivial
        simp [World.step, World.write, hn] at hwrite

/-- Every `Finish` that has found its job has closed it. -/
theorem not_finishes (h : Tracked cfg w) : ¬ w.Finishes p := by
  intro hp
  rcases List.mem_map.mp hp with ⟨⟨q, s⟩, hmem, rfl⟩
  rcases List.mem_iff_getElem?.mp hmem with ⟨f, hf⟩
  rcases h.closable.finishing q hp with ⟨j, hj, ho⟩
  have hclose := hq (.close f) rfl trivial
  simp [World.step, World.close, hf, hj, ho] at hclose

theorem jobCh_eq (h : Tracked cfg w) (hopen : w.doneCh ≠ .closed) (hget : 0 < w.getters) :
    w.jobCh = [] := by
  cases hch : w.jobCh with
  | nil => rfl
  | cons p jobCh =>
    exfalso
    have hreceive := hq .receive rfl trivial
    rcases h.intact.ordered.jobCh p (by simp [hch]) with ⟨j, hj, -⟩
    rcases Nat.exists_eq_succ_of_ne_zero hget.ne' with ⟨getters, hg⟩
    rcases h.reply hj with ⟨task, htask⟩
    simp only [World.step, World.receive, hg, hch, hj, Option.bind_eq_bind, Option.bind_some, htask,
      hopen, and_false, if_false] at hreceive
    split at hreceive <;> cases hreceive

/-- A job whose dependencies are done is not with a goroutine, unless it is done. -/
theorem not_scheduling (h : Tracked cfg w) (hopen : w.doneCh ≠ .closed) (hget : 0 < w.getters)
    (hp : w.Ready p) (hd : ¬ w.IsDone p) : ¬ w.Scheduling p := by
  intro hsched
  rcases List.mem_map.mp hsched with ⟨⟨q, stage⟩, hmem, rfl⟩
  rcases List.mem_iff_getElem?.mp hmem with ⟨g, hg⟩
  rcases hp with ⟨j, hj, hdeps⟩
  cases stage with
  | waiting =>
    have hstep := hq (.depsDone g) rfl trivial
    simp [World.step, World.depsDone, hg, hj] at hstep
    rcases hstep with ⟨d, hmem, hnot⟩
    exact hnot (hdeps d hmem)
  | sending =>
    have hstep := hq (.send g) rfl trivial
    simp [World.step, World.send, hg, hq.jobCh_eq h hopen hget] at hstep
    omega
  | storing =>
    have hstore : orderly cfg w (.store g) := by
      simp only [orderly, storesOpened, hg]
      intro j' hj'
      rcases Option.some.inj (hj.symm.trans hj') with rfl
      rcases h.initialJob hj with ⟨j₀, hj₀, hle⟩
      cases hch : j.done with
      | nil => exact Or.inr (hle.jobtype.trans (initialJob_nil hj₀ (hle.nil.mp hch)))
      | opened => exact Or.inl ⟨rfl, hq.not_finishes h⟩
      | closed => exact absurd (by simp [World.IsDone, hj, hch]) hd
    have hstep := hq (.store g) rfl hstore
    simp [World.step, World.store, hg, hj] at hstep

/-- Every report whose job can be scheduled has been processed. -/
theorem not_mem_reports (h : Tracked cfg w) (hcfg : cfg.nReduce ≤ 10) (hopen : w.doneCh ≠ .closed)
    (hget : 0 < w.getters) (hp : w.Ready p) {j : Job} (hj : cfg.initialJob p = some j) {s : Sent}
    (hs : s ∈ w.reports) : j.id ≠ s.report.id := by
  intro hid
  rcases List.mem_iff_getElem?.mp hs with ⟨n, hn⟩
  have hfinish : orderly cfg w (.finish n) := by
    intro s' hs' q _ hqid
    rcases Option.some.inj (hn.symm.trans hs') with rfl
    rcases Option.map_eq_some_iff.mp hqid with ⟨i, hi, hiid⟩
    rcases initialJob_id_inj (Or.inl hcfg) hi hj (hiid.trans hid.symm) with rfl
    by_cases hd : w.IsDone q
    · exact Or.inr (Or.inr hd)
    · left
      rcases h.table q j hj hd with hsched | htab | hfin
      · exact absurd hsched (hq.not_scheduling h hopen hget hp hd)
      · exact hid ▸ htab
      · exact absurd hfin (hq.not_finishes h)
  have hstep := hq (.finish n) rfl hfinish
  simp only [World.step, World.finish, hn, Option.bind_eq_bind, Option.bind_some] at hstep
  split at hstep <;> cases hstep

/-- A job that is not done though its dependencies are is watched, and not on its way. -/
theorem watched (h : Tracked cfg w) (hcfg : cfg.nReduce ≤ 10) (hopen : w.doneCh ≠ .closed)
    (hget : 0 < w.getters) (ht : p.isWorkerTask = true) (hp : w.Ready p) (hd : ¬ w.IsDone p) :
    p ∈ w.watching ∧ ¬ InFlight cfg w p := by
  have hready := hp
  rcases hp with ⟨j, hj, -⟩
  rcases h.initialJob hj with ⟨j₀, hj₀, -⟩
  have hpend : ¬ w.Pending p :=
    fun hpend => hq.not_scheduling h hopen hget hready hd hpend.scheduling
  have hch := hq.jobCh_eq h hopen hget
  constructor
  · have htask : p.isTask = true ∧ p ≠ .done := by
      cases p <;> simp [Ptr.isWorkerTask, Ptr.isTask] at ht ⊢
    have hmem : p ∈ cfg.initialPtrs := mem_initialPtrs.mpr (by simp [hj₀])
    rcases h.place p hmem htask.1 with hplace | hplace | hplace
    · exact absurd hplace hpend
    · rw [hch] at hplace
      cases hplace
    · rw [World.Received, if_neg htask.2] at hplace
      exact hplace.resolve_right hd
  · rintro (hplace | hplace | ⟨x, hx, -⟩ | ⟨s, hs, hid⟩ | hfin | hdone)
    · exact hpend hplace
    · rw [hch] at hplace
      cases hplace
    · rw [hq.executions_eq h] at hx
      cases hx
    · rw [hj₀] at hid
      exact hq.not_mem_reports h hcfg hopen hget hready hj₀ hs (Option.some.inj hid)
    · exact hq.not_finishes h hfin
    · exact hd hdone

/-- When the map task is done, so are the pseudo jobs of its buckets. -/
theorem pseudo_done (h : Tracked cfg w) (hcfg : cfg.nReduce ≤ 10) (hopen : w.doneCh ≠ .closed)
    (hget : 0 < w.getters) {m r : ℕ} (hm : m < cfg.files.length) (hr : r < cfg.nReduce)
    (hd : w.IsDone (.map m)) : w.IsDone (.pseudo m r) := by
  have hmap : cfg.initialJob (.map m) = some (newJob .map (itoa m) []) := if_pos hm
  have hpseudo : cfg.initialJob (.pseudo m r) = some (newJob .pseudo (bucketKey (itoa m) r) []) :=
    if_pos ⟨hm, hr⟩
  -- the map task has been reported, and so have its buckets
  rcases h.heap hmap with ⟨j, hj, hle⟩
  rcases h.intact.ordered.reported hd hj with ⟨s, hs, hgen, hid, -⟩
  rw [hle.id_eq] at hid
  have hrep : s.report = mapReport (itoa m) := by
    cases hgen with
    | bucket m' r' hm' hr' => cases (jobId_inj.mp hid).1
    | map m' hm' =>
      rcases itoa_inj.mp (jobId_inj.mp hid).2 with rfl
      rfl
    | reduce r' task hr' ht hk => cases (jobId_inj.mp hid).1
  rcases h.map s m r (Or.inr (Or.inr hs)) hrep hr with hsent | hsent | hsent
  · have hready : w.Ready (.pseudo m r) := h.ready hpseudo (by simp [newJob])
    exact absurd rfl (hq.not_mem_reports h hcfg hopen hget hready hpseudo hsent)
  · rcases List.mem_map.mp hsent with ⟨f, hf, -⟩
    exact absurd (List.mem_map.mpr ⟨f, hf, rfl⟩) (hq.not_finishes h)
  · exact (h.finished _ hsent _ _ hpseudo rfl).resolve_left (hq.not_finishes h)

/-- While `doneCh` is open, some task that could be executed has been lost. -/
theorem exists_lost (h : Tracked cfg w) (hcfg : cfg.nReduce ≤ 10) (hopen : w.doneCh ≠ .closed)
    (hget : 0 < w.getters) : ∃ p, p.isWorkerTask = true ∧ w.Ready p ∧ ¬ w.IsDone p := by
  by_contra hnone
  have hall : ∀ p, p.isWorkerTask = true → w.Ready p → w.IsDone p := by
    intro p ht hp
    by_contra hd
    exact hnone ⟨p, ht, hp, hd⟩
  have hmap : ∀ m < cfg.files.length, w.IsDone (.map m) := by
    intro m hm
    exact hall _ rfl (h.ready (if_pos hm) (by simp [newJob]))
  have hreduce : ∀ r < cfg.nReduce, w.IsDone (.reduce r) := by
    intro r hr
    refine hall _ rfl (h.ready (if_pos hr) ?_)
    intro d hd
    rcases List.mem_map.mp hd with ⟨m, hm, rfl⟩
    have hlt := List.mem_range.mp hm
    exact hq.pseudo_done h hcfg hopen hget hlt hr (hmap m hlt)
  have hready : w.Ready .done := by
    refine h.ready rfl ?_
    intro d hd
    rcases List.mem_map.mp hd with ⟨r, hr, rfl⟩
    exact hreduce r (List.mem_range.mp hr)
  have hnot : ¬ w.IsDone .done := by
    intro hd
    rcases h.heap (rfl : cfg.initialJob .done = _) with ⟨j, hj, hle⟩
    have hnil : j.done = .nil := hle.nil.mpr rfl
    simp [World.IsDone, hj, hnil] at hd
  -- so the done job has been received
  rcases h.place .done (mem_initialPtrs.mpr rfl) rfl with hplace | hplace | hplace
  · exact hq.not_scheduling h hopen hget hready hnot hplace.scheduling
  · rw [hq.jobCh_eq h hopen hget] at hplace
    cases hplace
  · exact hopen hplace

end Quiescent

/-! ## Runs -/

/-- The steps that are orderly. -/
abbrev orderlyStep (cfg : Config) : World → Event → Option World :=
  restrict (World.step cfg) (orderly cfg)

variable {events : List Event}

theorem Tracked.of_follow (hcfg : cfg.nReduce ≤ 10) (h : Tracked cfg w)
    (hrun : follow (orderlyStep cfg) w events = some w') : Tracked cfg w' := by
  refine follow_invariant ?_ hrun h
  intro w event w' hw hstep
  rcases restrict_eq_some.mp hstep with ⟨hC, hstep⟩
  exact hw.step hcfg hC (steps_of_step hstep)

/-- Without a crash, a job stays on its way until it is done. -/
theorem Tracked.inFlight_follow (hcfg : cfg.nReduce ≤ 10) (h : Tracked cfg w)
    (hrun : follow (orderlyStep cfg) w events = some w')
    (hcrash : ∀ n, .crash n ∉ events) (hp : p ∈ cfg.initialPtrs) (ht : p.isWorkerTask = true)
    (hf : InFlight cfg w p) : InFlight cfg w' p := by
  have htask : p.isTask = true ∧ p ≠ .done := by
    cases p <;> simp [Ptr.isWorkerTask, Ptr.isTask] at ht ⊢
  refine (follow_invariant_of_mem (fun w => Tracked cfg w ∧ InFlight cfg w p) ?_ hrun ⟨h, hf⟩).2
  intro w event hmem w' hw hstep
  rcases restrict_eq_some.mp hstep with ⟨hC, hstep⟩
  have hs := steps_of_step hstep
  refine ⟨hw.1.step hcfg hC hs, hw.1.inFlight_step hC hs ?_ hp htask.1 htask.2 hw.2⟩
  rintro n rfl
  exact hcrash n hmem

theorem mem_initialPtrs_of_ready (h : Tracked cfg w) (hp : w.Ready p) : p ∈ cfg.initialPtrs := by
  rcases hp with ⟨j, hj, -⟩
  rcases h.initialJob hj with ⟨j₀, hj₀, -⟩
  exact mem_initialPtrs.mpr (by simp [hj₀])

/-- **No interleaving gets stuck.** As long as `doneCh` is open and a worker waits for a task,
the coordinator or a worker can take a step, or else the timer of a job whose worker has
crashed can fire. -/
theorem never_stuck (hcfg : cfg.nReduce ≤ 10)
    (hrun : follow (orderlyStep cfg) (World.init cfg) events = some w)
    (hopen : w.doneCh ≠ .closed) (hget : 0 < w.getters) :
    ∃ event, (orderlyStep cfg w event).isSome ∧
      (event.isWork = true ∨ event.isTimeout = true ∧ ∃ n, .crash n ∈ events) := by
  have h := (Tracked.init cfg).of_follow hcfg hrun
  by_cases hq : Quiescent cfg w
  · rcases hq.exists_lost h hcfg hopen hget with ⟨p, ht, hp, hd⟩
    rcases hq.watched h hcfg hopen hget ht hp hd with ⟨hwatch, hlost⟩
    rcases List.mem_iff_getElem?.mp hwatch with ⟨i, hi⟩
    rcases hp with ⟨j, hj, hdeps⟩
    refine ⟨.timeout i, ?_, Or.inr ⟨rfl, ?_⟩⟩
    · have hC : orderly cfg w (.timeout i) := trivial
      simp [restrict, hC, World.step, World.timeout, hi, hj]
    · -- without a crash the job would be on its way
      by_contra hcrash
      push Not at hcrash
      have hmem := mem_initialPtrs_of_ready h ⟨j, hj, hdeps⟩
      refine hlost ((Tracked.init cfg).inFlight_follow hcfg hrun hcrash hmem ht ?_)
      exact Or.inl (Or.inl (List.mem_map.mpr ⟨p, hmem, rfl⟩))
  · unfold Quiescent at hq
    push Not at hq
    rcases hq with ⟨event, hwork, hC, hstep⟩
    refine ⟨event, ?_, Or.inl hwork⟩
    rw [orderlyStep, restrict, if_pos hC]
    exact Option.isSome_iff_ne_none.mpr hstep

/-- The worker that executes the map task crashes, and another one asks for a task. -/
def crashed : List Event :=
  [.depsDone 0, .depsDone 1, .send 0, .store 0, .send 0, .store 0, .getTask, .receive,
    .rename 0 [⟨['a'], ['1']⟩], .crash 0, .getTask]

theorem never_stuck_crashed :
    ∃ w, follow (orderlyStep oneFile) (World.init oneFile) (crashed) = some w ∧
      ∃ event, (orderlyStep oneFile w event).isSome ∧
        (event.isWork = true ∨ event.isTimeout = true ∧ ∃ n, .crash n ∈ crashed) := by
  have hend : (follow (orderlyStep oneFile) (World.init oneFile) (crashed)).map
      (fun w => (w.doneCh, w.getters)) = some (.opened, 1) := by decide +kernel
  rcases Option.map_eq_some_iff.mp hend with ⟨w, hrun, hw⟩
  have hopen : w.doneCh = .opened := congrArg Prod.fst hw
  have hget : w.getters = 1 := congrArg Prod.snd hw
  exact ⟨w, hrun, never_stuck (by decide) hrun (by simp [hopen]) (by simp [hget])⟩

/-- The jobs of workers that are not done. -/
def World.undone (cfg : Config) (w : World) : ℕ :=
  cfg.initialPtrs.countP fun p => p.isWorkerTask ∧ ¬ w.IsDone p

/-- Work can be done until there is none left. -/
theorem Tracked.exhaust (hcfg : cfg.nReduce ≤ 10) (h : Tracked cfg w) :
    ∃ events w', (∀ n, .crash n ∉ events) ∧ follow (orderlyStep cfg) w events = some w' ∧
      Quiescent cfg w' ∧ 0 < w'.getters := by
  -- a receive may have to be followed by another request
  induction hn : 2 * w.left cfg + (if w.getters = 0 then 1 else 0) using Nat.strong_induction_on
    generalizing w with
  | _ n ih =>
    have hgo : ∀ (event : Event) (w' : World), (∀ n, event ≠ .crash n) →
        orderlyStep cfg w event = some w' →
        2 * w'.left cfg + (if w'.getters = 0 then 1 else 0) < n →
        ∃ events w', (∀ n, .crash n ∉ events) ∧
          follow (orderlyStep cfg) w events = some w' ∧ Quiescent cfg w' ∧
          0 < w'.getters := by
      intro event w' hcrash hstep hlt
      rcases restrict_eq_some.mp hstep with ⟨hC, hstep'⟩
      rcases ih _ hlt (h.step hcfg hC (steps_of_step hstep')) rfl with
        ⟨events, w₁, hevents, hrun, hq, hget⟩
      refine ⟨event :: events, w₁, ?_, ?_, hq, hget⟩
      · intro m hmem
        rcases List.mem_cons.mp hmem with heq | hmem
        · exact hcrash m heq.symm
        · exact hevents m hmem
      · rw [follow, hstep, Option.bind_some, hrun]
    by_cases hget : w.getters = 0
    · refine hgo .getTask { w with getters := w.getters + 1 } (by simp) ?_ ?_
      · have hC : orderly cfg w .getTask := trivial
        rw [orderlyStep, restrict, if_pos hC]
        rfl
      · rw [if_pos hget] at hn
        have hleft : World.left cfg { w with getters := w.getters + 1 } = w.left cfg := rfl
        rw [hleft]
        simp
        omega
    · by_cases hq : Quiescent cfg w
      · exact ⟨[], w, by simp, rfl, hq, Nat.pos_of_ne_zero hget⟩
      · unfold Quiescent at hq
        push Not at hq
        rcases hq with ⟨event, hwork, hC, hstep⟩
        rcases Option.ne_none_iff_exists'.mp hstep with ⟨w', hstep⟩
        refine hgo event w' ?_ (restrict_eq_some.mpr ⟨hC, hstep⟩) ?_
        · rintro n rfl
          cases hwork
        · have hcounts : event.counts = true := by
            cases event <;> first | rfl | cases hwork
          have hlt := h.left_lt hC (steps_of_step hstep) hcounts
          split_ifs <;> omega

theorem Tracked.le_follow (hcfg : cfg.nReduce ≤ 10) (h : Tracked cfg w)
    (hrun : follow (orderlyStep cfg) w events = some w') : w.Le w' := by
  refine (follow_invariant_of_mem (fun w' => Tracked cfg w' ∧ w.Le w') ?_ hrun ⟨h, .refl w⟩).2
  intro w₁ event _ w₂ hw hstep
  rcases restrict_eq_some.mp hstep with ⟨hC, hstep⟩
  have hs := steps_of_step hstep
  exact ⟨hw.1.step hcfg hC hs, hw.2.trans (hs.le hw.1.intact.ordered.fresh)⟩

/-- A job that is done now lowers the number of those that are not. -/
theorem undone_lt (hle : w.Le w') (hp : p ∈ cfg.initialPtrs) (ht : p.isWorkerTask = true)
    (hd : ¬ w.IsDone p) (hd' : w'.IsDone p) : w'.undone cfg < w.undone cfg := by
  have hperm := List.perm_cons_erase hp
  unfold World.undone
  rw [hperm.countP_eq, hperm.countP_eq, List.countP_cons, List.countP_cons]
  have hmono : ((cfg.initialPtrs.erase p).countP fun p => p.isWorkerTask ∧ ¬ w'.IsDone p) ≤
      (cfg.initialPtrs.erase p).countP fun p => p.isWorkerTask ∧ ¬ w.IsDone p := by
    apply List.countP_mono_left
    intro q _ hq
    simp only [decide_eq_true_eq] at hq ⊢
    exact ⟨hq.1, fun hdone => hq.2 (hle.isDone hdone)⟩
  simp only [ht, hd, hd', not_true, not_false_iff, and_true, and_false, decide_true, decide_false,
    if_true, Bool.false_eq_true, if_false]
  omega

/-- The timer of a job that has been lost puts it on its way again. -/
theorem Tracked.timeout_inFlight (h : Tracked cfg w) (hp : w.Ready p) (hwatch : p ∈ w.watching) :
    ∃ i w', orderlyStep cfg w (.timeout i) = some w' ∧ InFlight cfg w' p := by
  rcases List.mem_iff_getElem?.mp hwatch with ⟨i, hi⟩
  rcases hp with ⟨j, hj, -⟩
  have hqueued := h.queued p (Or.inr (Or.inl hwatch)) j hj
  have hC : orderly cfg w (.timeout i) := trivial
  refine ⟨i, { w with watching := w.watching.eraseIdx i,
                      goroutines := w.goroutines ++ [⟨p, .waiting⟩] }, ?_, ?_⟩
  · simp [restrict, hC, World.step, World.timeout, hi, hj, hqueued, World.submitJob]
  · exact Or.inl (Or.inl (List.mem_append_right _ List.mem_cons_self))

/-- From every world some steps without a crash lead to the end of the job. -/
theorem Tracked.completes (hcfg : cfg.nReduce ≤ 10) (h : Tracked cfg w) :
    ∃ events w', (∀ n, .crash n ∉ events) ∧ follow (orderlyStep cfg) w events = some w' ∧
      w'.doneCh = .closed := by
  -- every job that was lost is done after its timer has fired and the work is exhausted again
  induction hn : w.undone cfg using Nat.strong_induction_on generalizing w with
  | _ n ih =>
    rcases h.exhaust hcfg with ⟨events₁, w₁, hcrash₁, hrun₁, hq₁, hget₁⟩
    have h₁ := h.of_follow hcfg hrun₁
    by_cases hclosed₁ : w₁.doneCh = .closed
    · exact ⟨events₁, w₁, hcrash₁, hrun₁, hclosed₁⟩
    rcases hq₁.exists_lost h₁ hcfg hclosed₁ hget₁ with ⟨p, ht, hp, hd⟩
    rcases hq₁.watched h₁ hcfg hclosed₁ hget₁ ht hp hd with ⟨hwatch, -⟩
    rcases h₁.timeout_inFlight hp hwatch with ⟨i, w₂, hstep, hflight⟩
    have hrun₂ : follow (orderlyStep cfg) w₁ [.timeout i] = some w₂ := by
      rw [follow, hstep]
      rfl
    have h₂ := h₁.of_follow hcfg hrun₂
    rcases h₂.exhaust hcfg with ⟨events₃, w₃, hcrash₃, hrun₃, hq₃, hget₃⟩
    have h₃ := h₂.of_follow hcfg hrun₃
    have hmem := mem_initialPtrs_of_ready h₁ hp
    have hrun : follow (orderlyStep cfg) w (events₁ ++ ([.timeout i] ++ events₃)) =
        some w₃ := by
      rw [follow_append, hrun₁, Option.bind_some, follow_append, hrun₂, Option.bind_some, hrun₃]
    have hcrash : ∀ n, Event.crash n ∉ events₁ ++ ([.timeout i] ++ events₃) := by
      intro n hmem
      simp [hcrash₁, hcrash₃] at hmem
    by_cases hclosed₃ : w₃.doneCh = .closed
    · exact ⟨_, w₃, hcrash, hrun, hclosed₃⟩
    have hd₃ : w₃.IsDone p := by
      by_contra hd₃
      have hready := (h₂.le_follow hcfg hrun₃).ready ((h₁.le_follow hcfg hrun₂).ready hp)
      have hlost := (hq₃.watched h₃ hcfg hclosed₃ hget₃ ht hready hd₃).2
      exact hlost (h₂.inFlight_follow hcfg hrun₃ hcrash₃ hmem ht hflight)
    have hnot : ¬ w.IsDone p := fun hdone => hd ((h.le_follow hcfg hrun₁).isDone hdone)
    have hlt := undone_lt (h.le_follow hcfg hrun) hmem ht hnot hd₃
    rcases ih _ (hn ▸ hlt) h₃ rfl with ⟨events₄, w₄, hcrash₄, hrun₄, hclosed₄⟩
    refine ⟨(events₁ ++ ([.timeout i] ++ events₃)) ++ events₄, w₄, ?_, ?_, hclosed₄⟩
    · intro n hmem
      rcases List.mem_append.mp hmem with hmem | hmem
      · exact hcrash n hmem
      · exact hcrash₄ n hmem
    · rw [follow_append, hrun, Option.bind_some, hrun₄]

end

end DistStudy.MapReduce
