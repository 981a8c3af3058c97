import DistStudy.MapReduce.Effects
import DistStudy.MapReduce.Sequential
import Mathlib.Data.List.Count
import Mathlib.Data.List.Perm.Basic

/-!
# No job is lost and none is handed out twice

Nothing in the code records where a job is: it may be with the goroutine that schedules
it, in the channel, or with whoever received it. As long as no timer fires and no failure
is reported, the number of places in which a job is found never changes
(`Steps.places_eq`), so that every job of `initialize` stays in exactly one.
-/

namespace DistStudy.MapReduce

/-! ## Counting in lists that are changed at one position -/

section

variable {β : Type*} {l : List β} {i : ℕ} {x y : β}

theorem countP_eraseIdx (f : β → Bool) (h : l[i]? = some y) :
    (l.eraseIdx i).countP f + (if f y then 1 else 0) = l.countP f := by
  obtain ⟨hi, rfl⟩ := List.getElem?_eq_some_iff.mp h
  rw [← (List.getElem_cons_eraseIdx_perm hi).countP_eq f, List.countP_cons]

theorem countP_set (f : β → Bool) (h : l[i]? = some y) :
    (l.set i x).countP f + (if f y then 1 else 0) = l.countP f + if f x then 1 else 0 := by
  obtain ⟨hi, -⟩ := List.getElem?_eq_some_iff.mp h
  rw [(List.set_perm_cons_eraseIdx hi x).countP_eq f, List.countP_cons, ← countP_eraseIdx f h]
  omega

theorem notMem_eraseIdx (hl : l.Nodup) (h : l[i]? = some y) : y ∉ l.eraseIdx i := by
  rw [List.mem_eraseIdx_iff_getElem?]
  rintro ⟨k, hne, hk⟩
  rcases List.getElem?_eq_some_iff.mp hk with ⟨hlt, -⟩
  exact hne ((List.getElem?_inj hlt hl).mp (hk.trans h.symm))

variable [DecidableEq β] {a : β}

theorem count_eraseIdx (h : l[i]? = some y) :
    (l.eraseIdx i).count a + (if y = a then 1 else 0) = l.count a := by
  simpa [List.count] using countP_eraseIdx (· == a) h

theorem count_set (h : l[i]? = some y) :
    (l.set i x).count a + (if y = a then 1 else 0) = l.count a + if x = a then 1 else 0 := by
  simpa [List.count] using countP_set (x := x) (· == a) h

end

/-! ## The places of a job -/

namespace World

variable (w : World) (p : Ptr)

/-- The goroutines that hold the job and wait for its dependencies. -/
def waitingDeps : ℕ := w.goroutines.count ⟨p, .waiting⟩

/-- The goroutines that hold the job and wait to send it on the channel. -/
def waitingRoom : ℕ := w.goroutines.count ⟨p, .sending⟩

/-- The number of places in which the job is. -/
def places : ℕ := w.waitingDeps p + w.waitingRoom p + w.jobCh.count p + w.taken.count p

end World

/-- No timer fires and no failure is reported. -/
def Event.isQuiet : Event → Bool
  | .timeout _ => false
  | .reportFailure _ => false
  | _ => true

abbrev quiet (_ : World) (event : Event) : Prop := event.isQuiet = true

section

variable {cfg : Config} {w w' : World} {event : Event}

/-- A job that moves on leaves the place where it was. -/
theorem Steps.places_eq (hs : Steps cfg w event w') (hq : event.isQuiet = true) (p : Ptr) :
    w'.places p = w.places p := by
  cases hs with
  | depsDone g q j hg hj hd =>
    -- from the dependencies to the channel's end
    have hwait : (w.goroutines.set g ⟨q, .sending⟩).count ⟨p, .waiting⟩ +
        (if (⟨q, .waiting⟩ : Goroutine) = ⟨p, .waiting⟩ then 1 else 0) = _ := count_set hg
    have hroom : (w.goroutines.set g ⟨q, .sending⟩).count ⟨p, .sending⟩ +
        (if (⟨q, .waiting⟩ : Goroutine) = ⟨p, .sending⟩ then 1 else 0) = _ := count_set hg
    simp only [Goroutine.mk.injEq, and_true, and_false, if_false, reduceCtorEq] at hwait hroom
    simp only [World.places, World.waitingDeps, World.waitingRoom, World.setStage, World.setJob]
    omega
  | send g q hg hroom' =>
    -- into the channel
    have hwait : (w.goroutines.set g ⟨q, .storing⟩).count ⟨p, .waiting⟩ +
        (if (⟨q, .sending⟩ : Goroutine) = ⟨p, .waiting⟩ then 1 else 0) = _ := count_set hg
    have hroom : (w.goroutines.set g ⟨q, .storing⟩).count ⟨p, .sending⟩ +
        (if (⟨q, .sending⟩ : Goroutine) = ⟨p, .sending⟩ then 1 else 0) = _ := count_set hg
    simp only [Goroutine.mk.injEq, and_true, and_false, if_false, reduceCtorEq] at hwait hroom
    simp only [World.places, World.waitingDeps, World.waitingRoom, World.setStage,
      List.count_append, List.count_singleton, beq_iff_eq]
    omega
  | store g q j hg hj =>
    -- the goroutine ends, the job is already in the channel
    have hwait : (w.goroutines.eraseIdx g).count ⟨p, .waiting⟩ +
        (if (⟨q, .storing⟩ : Goroutine) = ⟨p, .waiting⟩ then 1 else 0) = _ := count_eraseIdx hg
    have hroom : (w.goroutines.eraseIdx g).count ⟨p, .sending⟩ +
        (if (⟨q, .storing⟩ : Goroutine) = ⟨p, .sending⟩ then 1 else 0) = _ := count_eraseIdx hg
    simp only [Goroutine.mk.injEq, and_false, if_false, reduceCtorEq] at hwait hroom
    simp only [World.places, World.waitingDeps, World.waitingRoom]
    omega
  | dropPseudo q jobCh j hch hj ht =>
    simp only [World.places, World.waitingDeps, World.waitingRoom, hch, List.count_append,
      List.count_cons, List.count_nil, beq_iff_eq]
    omega
  | hand q jobCh j task getters hget hch hj ht htask hdone =>
    simp only [World.places, World.waitingDeps, World.waitingRoom, hch, List.count_append,
      List.count_cons, List.count_nil, beq_iff_eq]
    omega
  | retry i q j hp hj hq' => cases hq
  | retryUnqueued i q j hp hj hq' => cases hq
  | reportFailure x task corrupt kvs hx => cases hq
  | _ => rfl

/-! ## The jobs of `initialize` -/

theorem initialPtrs_nodup (cfg : Config) : cfg.initialPtrs.Nodup := by
  have hinj : ∀ {f : ℕ → Ptr}, Function.Injective f → ∀ n, ((List.range n).map f).Nodup :=
    fun hf n => List.nodup_range.map hf
  have hpseudo : ((List.range cfg.nReduce).flatMap
      fun r => (List.range cfg.files.length).map (Ptr.pseudo · r)).Nodup := by
    rw [List.nodup_flatMap]
    constructor
    · intro r _
      exact hinj (fun m m' h => by simpa using h) _
    · refine List.nodup_range.imp fun {r r'} hne => ?_
      intro p hp hp'
      obtain ⟨m, -, rfl⟩ := List.mem_map.mp hp
      obtain ⟨m', -, heq⟩ := List.mem_map.mp hp'
      simp only [Ptr.pseudo.injEq] at heq
      exact hne heq.2.symm
  unfold Config.initialPtrs
  refine List.Nodup.append (List.Nodup.append (List.Nodup.append ?_ hpseudo ?_) ?_ ?_) (by simp) ?_
  · exact hinj (fun m m' h => by simpa using h) _
  · intro p hp hp'
    obtain ⟨m, -, rfl⟩ := List.mem_map.mp hp
    simp at hp'
  · exact hinj (fun m m' h => by simpa using h) _
  · intro p hp hp'
    obtain ⟨r, -, rfl⟩ := List.mem_map.mp hp'
    simp at hp
  · intro p hp hp'
    obtain rfl := List.mem_singleton.mp hp'
    simp at hp

theorem mem_initialPtrs {p : Ptr} : p ∈ cfg.initialPtrs ↔ (cfg.initialJob p).isSome := by
  cases p <;> simp [Config.initialPtrs, Config.initialJob, and_comm]

theorem again_notMem_initialPtrs (k : ℕ) : Ptr.again k ∉ cfg.initialPtrs := by
  rw [mem_initialPtrs]
  simp [Config.initialJob]

theorem places_init (p : Ptr) : (World.init cfg).places p = cfg.initialPtrs.count p := by
  have hwait : (cfg.initialPtrs.map (Goroutine.mk · .waiting)).count ⟨p, .waiting⟩ =
      cfg.initialPtrs.count p :=
    List.count_map_of_injective _ (Goroutine.mk · .waiting) (fun q q' h => by simpa using h) p
  have hroom : (cfg.initialPtrs.map (Goroutine.mk · .waiting)).count ⟨p, .sending⟩ = 0 := by
    rw [List.count_eq_zero]
    simp
  simp only [World.places, World.waitingDeps, World.waitingRoom, World.init, hwait, hroom,
    List.count_nil]
  omega

variable {e : Behavior World}

theorem Run.places_eq (h : Run cfg quiet e) (k : ℕ) (p : Ptr) :
    (e k).places p = cfg.initialPtrs.count p := by
  refine h.steps (fun w => w.places p = cfg.initialPtrs.count p) (places_init p) ?_ k
  intro w event w' hinv hq hs
  rw [hs.places_eq hq p, hinv]

/-- A job that is somewhere is one of `initialize`. -/
theorem Run.mem_initialPtrs (h : Run cfg quiet e) {k : ℕ} {p : Ptr} (hp : 0 < (e k).places p) :
    p ∈ cfg.initialPtrs := by
  rw [h.places_eq k p] at hp
  exact List.count_pos_iff.mp hp

/-- The type and the key of a job of `initialize` never change. -/
theorem Run.heap_initial {C : World → Event → Prop} (h : Run cfg C e) (k : ℕ) {p : Ptr}
    (hp : p ∈ cfg.initialPtrs) :
    ∃ j j₀, (e k).heap p = some j ∧ cfg.initialJob p = some j₀ ∧ j₀.Le j := by
  obtain ⟨j₀, hj₀⟩ := Option.isSome_iff_exists.mp (MapReduce.mem_initialPtrs.mp hp)
  obtain ⟨j, hj, hle⟩ := (h.since_init k).le.heap p j₀ hj₀
  exact ⟨j, j₀, hj, hj₀, hle⟩

/-! ## Tasks that are handed out -/

/-- What a worker gets for a job of `initialize`. -/
def Config.handout (cfg : Config) (p : Ptr) : Option (JobType × Text) :=
  (cfg.initialJob p).bind fun j => if j.jobtype = .pseudo then none else some (j.jobtype, j.key)

theorem handout_inj {p q : Ptr} {task : JobType × Text} (hp : task ∈ cfg.handout p)
    (hq : task ∈ cfg.handout q) : p = q := by
  cases p <;> cases q <;>
    simp [Config.handout, Config.initialJob, newJob] at hp hq <;> grind [itoa_inj]

/-- The tasks that were handed out are those of the jobs taken, pseudo jobs apart, and
`doneCh` is closed only when the done job is taken. -/
structure HandsOut (cfg : Config) (w : World) : Prop where
  handed : w.handed.map (fun t => (t.tasktype, t.key)) = w.taken.filterMap cfg.handout
  opened : w.doneCh ≠ .nil
  closed : w.doneCh = .closed → .done ∈ w.taken

/-- The jobs in the channel are those of `initialize`. -/
def SendsInitial (cfg : Config) (w : World) : Prop :=
  ∀ p ∈ w.jobCh, ∃ j j₀, w.heap p = some j ∧ cfg.initialJob p = some j₀ ∧ j₀.Le j

/-- The map jobs of `initialize`. -/
theorem initialJob_map {p : Ptr} {j : Job} (hj : cfg.initialJob p = some j)
    (ht : j.jobtype = .map) :
    ∃ m < cfg.files.length, p = .map m ∧ j = newJob .map (itoa m) [] := by
  cases p <;> simp [Config.initialJob, newJob] at hj <;> grind [newJob]

/-- The reduce jobs of `initialize`. -/
theorem initialJob_reduce {p : Ptr} {j : Job} (hj : cfg.initialJob p = some j)
    (ht : j.jobtype = .reduce) :
    ∃ r < cfg.nReduce, p = .reduce r ∧
      j = newJob .reduce (itoa r) ((List.range cfg.files.length).map (.pseudo · r)) := by
  cases p <;> simp [Config.initialJob, newJob] at hj <;> grind [newJob]

/-- Only one job has the type that closes `doneCh`. -/
theorem initialJob_done {p : Ptr} {j : Job} (h : cfg.initialJob p = some j)
    (ht : j.jobtype = .done) : p = .done := by
  cases p <;> simp [Config.initialJob, newJob] at h <;> grind

theorem Steps.handsOut {w w' : World} {event : Event} (hs : Steps cfg w event w')
    (hq : event.isQuiet = true) (hheap : SendsInitial cfg w)
    (hinv : HandsOut cfg w) : HandsOut cfg w' := by
  cases hs with
  | dropPseudo q jobCh j hch hj ht =>
    obtain ⟨i, j₀, hi, hj₀, hle⟩ := hheap q (by simp [hch])
    obtain rfl := Option.some.inj (hj.symm.trans hi)
    have hnone : cfg.handout q = none := by
      simp [Config.handout, hj₀, ← hle.jobtype, ht]
    refine ⟨?_, hinv.opened, fun hclosed => List.mem_append_left _ (hinv.closed hclosed)⟩
    rw [List.filterMap_append, ← hinv.handed]
    simp [hnone]
  | hand q jobCh j task getters hget hch hj ht htask hdone =>
    obtain ⟨i, j₀, hi, hj₀, hle⟩ := hheap q (by simp [hch])
    obtain rfl := Option.some.inj (hj.symm.trans hi)
    have hsome : cfg.handout q = some (task.tasktype, task.key) := by
      have hreply := replies htask
      simp [Config.handout, hj₀, hreply.tasktype, hreply.key, hle.jobtype, hle.key,
        hle.jobtype ▸ ht]
    constructor
    · rw [List.filterMap_append, ← hinv.handed]
      simp [hsome]
    · show (if j.jobtype = .done then DoneCh.closed else w.doneCh) ≠ .nil
      split_ifs
      · simp
      · exact hinv.opened
    · intro hclosed
      by_cases htd : j.jobtype = .done
      · have hq : q = .done := initialJob_done hj₀ (hle.jobtype ▸ htd)
        exact List.mem_append_right _ (by simp [hq])
      · refine List.mem_append_left _ (hinv.closed ?_)
        simpa [htd] using hclosed
  | reportFailure x task corrupt kvs hx => cases hq
  | _ => exact ⟨hinv.handed, hinv.opened, hinv.closed⟩

theorem Run.sendsInitial (h : Run cfg quiet e) (k : ℕ) : SendsInitial cfg (e k) := by
  intro p hp
  refine h.heap_initial k (h.mem_initialPtrs (k := k) ?_)
  have hcount := List.count_pos_iff.mpr hp
  unfold World.places
  omega

theorem Run.handsOut (h : Run cfg quiet e) (k : ℕ) : HandsOut cfg (e k) := by
  refine h.steps_of h.sendsInitial (HandsOut cfg) ?_ ?_ k
  · exact ⟨rfl, by simp [World.init], by simp [World.init]⟩
  · intro w event w' hheap hinv hq hs
    exact hs.handsOut hq hheap hinv

theorem Run.places_le_one (h : Run cfg quiet e) (k : ℕ) (p : Ptr) : (e k).places p ≤ 1 := by
  rw [h.places_eq k p]
  exact List.nodup_iff_count_le_one.mp (initialPtrs_nodup cfg) p

/-- As long as no timer fires and no failure is reported, every job of `initialize` waits
for its dependencies, waits for room in the channel, is in the channel or was received
once. So no task is handed out twice, and when the done job is received `doneCh` is still
open. -/
theorem jobs_conserved (h : Run cfg quiet e) (k : ℕ) :
    (∀ p ∈ cfg.initialPtrs, (e k).waitingDeps p + (e k).waitingRoom p + (e k).jobCh.count p +
      (e k).taken.count p = 1) ∧
    ((e k).handed.map fun task => (task.tasktype, task.key)).Nodup ∧
    (∀ p jobCh j, (e k).jobCh = p :: jobCh → (e k).heap p = some j → j.jobtype = .done →
      (e k).doneCh = .opened) := by
  refine ⟨fun p hp => ?_, ?_, fun p jobCh j hch hj ht => ?_⟩
  · have hcount : (e k).places p = 1 := by
      rw [h.places_eq k p]
      exact List.count_eq_one_of_mem (initialPtrs_nodup cfg) hp
    exact hcount
  · -- every job was taken at most once, and different jobs give different tasks
    have htaken : (e k).taken.Nodup := by
      rw [List.nodup_iff_count_le_one]
      intro p
      have hle := h.places_le_one k p
      unfold World.places at hle
      omega
    rw [(h.handsOut k).handed]
    exact htaken.filterMap fun p q task hp hq => handout_inj hp hq
  · -- the done job is in the channel, so it was not taken before
    obtain ⟨i, j₀, hi, hj₀, hle⟩ := h.sendsInitial k p (by simp [hch])
    obtain rfl := Option.some.inj (hj.symm.trans hi)
    obtain rfl := initialJob_done hj₀ (hle.jobtype ▸ ht)
    have hnot : Ptr.done ∉ (e k).taken := by
      intro hmem
      have hone := h.places_le_one k .done
      have htook := List.count_pos_iff.mpr hmem
      have hin : 0 < (e k).jobCh.count .done := List.count_pos_iff.mpr (by simp [hch])
      unfold World.places at hone
      omega
    cases hd : (e k).doneCh with
    | nil => exact absurd hd (h.handsOut k).opened
    | opened => rfl
    | closed => exact absurd ((h.handsOut k).closed hd) hnot

/-! ## No report is sent twice -/

/-- The number of reports under an id that were sent. -/
def World.sentCount (w : World) (id : Text) : ℕ :=
  w.reports.countP (fun s => s.report.id = id) +
    w.finishing.countP (fun f => f.sent.report.id = id) +
    w.processed.countP fun s => s.report.id = id

/-- The worker will send a report under the id, if it does not crash. -/
def Execution.Owes (id : Text) (x : Execution) : Prop :=
  match x.progress with
  | .mapping i _ =>
    (∃ r < x.task.nReduce, i ≤ r ∧ jobId .pseudo (bucketKey x.task.key r) = id) ∨
      jobId .map x.task.key = id
  | _ => jobId .reduce x.task.key = id

instance (id : Text) (x : Execution) : Decidable (x.Owes id) :=
  match x with
  | ⟨task, .mapping i _⟩ =>
    inferInstanceAs (Decidable ((∃ r < task.nReduce,
      i ≤ r ∧ jobId .pseudo (bucketKey task.key r) = id) ∨ jobId .map task.key = id))
  | ⟨task, .opening⟩ | ⟨task, .failing _ _⟩ | ⟨task, .loaded _⟩ | ⟨task, .writing _ _⟩ =>
    inferInstanceAs (Decidable (jobId .reduce task.key = id))

/-- The job whose execution reports the one at `p`. -/
def Ptr.reporter : Ptr → Ptr
  | .pseudo m _ => .map m
  | p => p

/-- The reports under an id that were sent, and those that are still owed. -/
def World.dues (w : World) (id : Text) : ℕ :=
  w.sentCount id + w.executions.countP fun x => x.Owes id

section

variable {cfg : Config} {w w' : World} {event : Event} {id : Text} {p q : Ptr}

/-- An execution that starts owes only the reports of its own job. -/
theorem reporter_eq_of_owes (hp : ∀ q, (cfg.initialJob q).map Job.id = some id → q = p)
    {j₀ : Job} (hq : cfg.initialJob q = some j₀) {task : TaskRequest}
    (htype : task.tasktype = j₀.jobtype) (hkey : task.key = j₀.key)
    (hn : task.nReduce = cfg.nReduce) {x : Execution} (hx : x ∈ World.start task)
    (howes : x.Owes id) : q = p.reporter := by
  rcases start_cases hx with ⟨ht, rfl⟩ | ⟨ht, rfl⟩
  · rw [htype] at ht
    rcases initialJob_map hq ht with ⟨m, hm, rfl, rfl⟩
    simp only [Execution.Owes, hkey, hn, newJob] at howes
    rcases howes with ⟨r, hr, -, hid⟩ | hid
    · have heq : Ptr.pseudo m r = p :=
        hp _ (by simp [Config.initialJob, hm, hr, newJob, Job.id, hid])
      rw [← heq]
      rfl
    · have heq : Ptr.map m = p := hp _ (by simp [Config.initialJob, hm, newJob, Job.id, hid])
      rw [← heq]
      rfl
  · rw [htype] at ht
    rcases initialJob_reduce hq ht with ⟨r, hr, rfl, rfl⟩
    simp only [Execution.Owes, hkey, newJob] at howes
    have heq : Ptr.reduce r = p := hp _ (by simp [Config.initialJob, hr, newJob, Job.id, howes])
    rw [← heq]
    rfl

/-- A worker that reports a bucket owes one report less, one that reports another bucket as
many as before. -/
theorem owes_report {task : TaskRequest} {i : ℕ} {renamed : Bool} (hi : i < task.nReduce) :
    (if jobId .pseudo (bucketKey task.key i) = id then 1 else 0) +
        (if (⟨task, .mapping (i + 1) false⟩ : Execution).Owes id then 1 else 0) ≤
      if (⟨task, .mapping i renamed⟩ : Execution).Owes id then 1 else 0 := by
  have hlater : (⟨task, .mapping (i + 1) false⟩ : Execution).Owes id →
      (⟨task, .mapping i renamed⟩ : Execution).Owes id ∧
        jobId .pseudo (bucketKey task.key i) ≠ id := by
    rintro (⟨r, hr, hle, hid⟩ | hid)
    · refine ⟨Or.inl ⟨r, hr, by omega, hid⟩, fun hid' => ?_⟩
      -- the keys of two buckets of one map task differ
      have hkey := (jobId_inj.mp (hid'.trans hid.symm)).2
      have heq : i = r := itoa_inj.mp (List.append_cancel_left hkey)
      omega
    · refine ⟨Or.inr hid, fun hid' => ?_⟩
      cases (jobId_inj.mp (hid'.trans hid.symm)).1
  have hnow : jobId .pseudo (bucketKey task.key i) = id →
      (⟨task, .mapping i renamed⟩ : Execution).Owes id :=
    fun hid => Or.inl ⟨i, hi, Nat.le_refl i, hid⟩
  by_cases howes : (⟨task, .mapping (i + 1) false⟩ : Execution).Owes id
  · rw [if_pos howes, if_pos (hlater howes).1, if_neg (hlater howes).2]
  · rw [if_neg howes]
    by_cases hid : jobId .pseudo (bucketKey task.key i) = id
    · rw [if_pos hid, if_pos (hnow hid)]
    · rw [if_neg hid]
      exact Nat.zero_le _

/-- A reduce task owes its own report, however far it is. -/
theorem owes_iff {x : Execution} (hx : x.progress.isMapping = false) :
    x.Owes id ↔ jobId .reduce x.task.key = id := by
  rcases x with ⟨task, progress⟩
  cases progress <;> first | exact Iff.rfl | cases hx

/-- A report that is owed. -/
theorem countP_report_le {P : Prop} [Decidable P] {s : Sent} (h : s.report.id = id → P) :
    [s].countP (fun s => s.report.id = id) ≤ if P then 1 else 0 := by
  rw [List.countP_singleton]
  by_cases hid : s.report.id = id
  · simp [hid, h hid]
  · simp [hid]

/-- A worker goes on with its task, and may send a report. -/
theorem dues_set {n : ℕ} {x y : Execution} {reports : List Sent}
    (hn : w.executions[n]? = some x) (hreports : w'.reports = w.reports ++ reports)
    (hfin : w'.finishing = w.finishing) (hproc : w'.processed = w.processed)
    (hx : w'.executions = w.executions.set n y)
    (hle : reports.countP (fun s => s.report.id = id) + (if y.Owes id then 1 else 0) ≤
      if x.Owes id then 1 else 0) : w'.dues id ≤ w.dues id := by
  have hcount := countP_set (x := y) (fun x => decide (x.Owes id)) hn
  simp only [decide_eq_true_eq] at hcount
  simp only [World.dues, World.sentCount, hreports, hfin, hproc, hx, List.countP_append]
  omega

/-- A worker is through with its task, or has crashed. -/
theorem dues_eraseIdx {n : ℕ} {x : Execution} {reports : List Sent}
    (hn : w.executions[n]? = some x) (hreports : w'.reports = w.reports ++ reports)
    (hfin : w'.finishing = w.finishing) (hproc : w'.processed = w.processed)
    (hx : w'.executions = w.executions.eraseIdx n)
    (hle : reports.countP (fun s => s.report.id = id) ≤ if x.Owes id then 1 else 0) :
    w'.dues id ≤ w.dues id := by
  have hcount := countP_eraseIdx (fun x => decide (x.Owes id)) hn
  simp only [decide_eq_true_eq] at hcount
  simp only [World.dues, World.sentCount, hreports, hfin, hproc, hx, List.countP_append]
  omega

/-- Only a job that is received adds to what was sent and is owed. -/
theorem Steps.dues_le (hs : Steps cfg w event w') (hheap : SendsInitial cfg w)
    (hp : ∀ q, (cfg.initialJob q).map Job.id = some id → q = p)
    (h : w.dues id ≤ w.taken.count p.reporter) : w'.dues id ≤ w'.taken.count p.reporter := by
  cases hs with
  | dropPseudo q jobCh j hch hj ht =>
    rw [List.count_append]
    exact h.trans (Nat.le_add_right _ _)
  | hand q jobCh j task getters hget hch hj ht htask hdone =>
    rcases hheap q (by simp [hch]) with ⟨i, j₀, hi, hj₀, hle⟩
    rcases Option.some.inj (hj.symm.trans hi) with rfl
    have hreply := replies htask
    have hstart : (World.start task).countP (fun x => x.Owes id) ≤ [q].count p.reporter := by
      by_cases hq : q = p.reporter
      · rw [hq, List.count_singleton_self]
        refine List.countP_le_length.trans ?_
        unfold World.start
        split <;> simp
      · rw [List.countP_eq_zero.mpr]
        · exact Nat.zero_le _
        · intro x hx howes
          exact hq (reporter_eq_of_owes hp hj₀ (hreply.tasktype.trans hle.jobtype)
            (hreply.key.trans hle.key) hreply.nReduce hx (of_decide_eq_true howes))
    simp only [World.dues, World.sentCount, List.countP_append, List.count_append] at h ⊢
    omega
  | finishLost r s hr hnone =>
    have hcount := countP_eraseIdx (fun s => decide (s.report.id = id)) hr
    simp only [World.dues, World.sentCount, List.countP_append, List.countP_singleton] at h ⊢
    omega
  | finishFound r s q hr hq =>
    have hcount := countP_eraseIdx (fun s => decide (s.report.id = id)) hr
    simp only [World.dues, World.sentCount, List.countP_append, List.countP_singleton] at h ⊢
    omega
  | close f q s j hf hj ho =>
    have hcount := countP_eraseIdx (fun f => decide (f.sent.report.id = id)) hf
    simp only [World.dues, World.sentCount, List.countP_append, List.countP_singleton,
      World.setJob] at h hcount ⊢
    omega
  | rename x task i kvs hx hi hne hb =>
    exact Nat.le_trans (dues_set hx (List.append_nil _).symm rfl rfl rfl (Nat.zero_add _).le) h
  | reportBucket x task i renamed hx hi hb =>
    refine Nat.le_trans (dues_set hx rfl rfl rfl rfl ?_) h
    refine Nat.le_trans (Nat.add_le_add_right (countP_report_le ?_) _) (owes_report hi)
    exact fun hid => hid
  | reportMap x task i renamed hx hi =>
    exact Nat.le_trans (dues_eraseIdx hx rfl rfl rfl rfl (countP_report_le Or.inr)) h
  | reportReduce x task offset hx =>
    exact Nat.le_trans (dues_eraseIdx hx rfl rfl rfl rfl (countP_report_le fun hid => hid)) h
  | openFiles x task broken hx =>
    refine Nat.le_trans (dues_set hx (List.append_nil _).symm rfl rfl rfl ?_) h
    rw [if_congr (owes_iff _) rfl rfl]
    · exact (Nat.zero_add _).le
    · dsimp only
      split_ifs <;> rfl
  | reportFailure x task corrupt kvs hx =>
    exact Nat.le_trans (dues_set hx (List.append_nil _).symm rfl rfl rfl (Nat.zero_add _).le) h
  | create x task kvs sorted hx hsort =>
    exact Nat.le_trans (dues_set hx (List.append_nil _).symm rfl rfl rfl (Nat.zero_add _).le) h
  | write x task line lines offset hx =>
    exact Nat.le_trans (dues_set hx (List.append_nil _).symm rfl rfl rfl (Nat.zero_add _).le) h
  | crash x hx =>
    exact Nat.le_trans (dues_eraseIdx (List.getElem?_eq_getElem hx) (List.append_nil _).symm rfl rfl
      rfl (Nat.zero_le _)) h
  | _ => exact h

/-- As long as no timer fires and no failure is reported, nothing is sent twice under the id
of a single job. -/
theorem Run.sentCount_le_one {e : Behavior World} (h : Run cfg quiet e) (k : ℕ)
    (hp : ∀ q, (cfg.initialJob q).map Job.id = some id → q = p) : (e k).sentCount id ≤ 1 := by
  have hdues : (e k).dues id ≤ (e k).taken.count p.reporter := by
    refine h.steps_of h.sendsInitial (fun w => w.dues id ≤ w.taken.count p.reporter)
      (by simp [World.dues, World.sentCount, World.init]) ?_ k
    intro w event w' hheap hinv _ hs
    exact hs.dues_le hheap hp hinv
  have hone := h.places_le_one k p.reporter
  unfold World.dues at hdues
  unfold World.places at hone
  omega

end

/-- One file and one reduce task. -/
def oneFile : Config where
  files := [['x']]
  contents _ := [97]
  mapf _ content := content.map fun b => ⟨[Char.ofNat b.toNat], ['1']⟩
  reducef _ values := itoa values.length
  nReduce := 1

/-- The map task and the reduce task are executed and the done job is received. -/
def throughout : List Event :=
  [.depsDone 0, .depsDone 1, .send 0, .store 0, .send 0, .store 0, .getTask, .receive,
    .rename 0 [⟨['a'], ['1']⟩], .report 0, .report 0, .finish 0, .close 0, .finish 0, .close 0,
    .getTask, .receive, .depsDone 0, .send 0, .store 0, .receive, .openFiles 0 [],
    .create 0 [⟨['a'], ['1']⟩], .write 0, .report 0, .finish 0, .close 0, .depsDone 0, .send 0,
    .store 0, .getTask, .receive]

theorem jobs_conserved_throughout :
    (play (World.step oneFile) (World.init oneFile) throughout).handed.length = 3 ∧
    ((play (World.step oneFile) (World.init oneFile) throughout).handed.map
      fun task => (task.tasktype, task.key)).Nodup ∧
    (play (World.step oneFile) (World.init oneFile) throughout).doneCh = .closed :=
  ⟨by decide +kernel, (jobs_conserved (Runs.play (by decide +kernel :
    Plays (World.step oneFile) quiet (World.init oneFile) throughout)) throughout.length).2.1,
    by decide +kernel⟩

end

end DistStudy.MapReduce
