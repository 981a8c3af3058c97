import DistStudy.MapReduce.Finish

/-!
# The keys of the buckets

The coordinator makes a pseudo job for every bucket `(m, r)` and names it by the map number
followed by the reduce number, without anything in between; a worker that executes map task
`m` reports bucket `r` under a key that it composes in the same way. `Finish` closes
whatever job it finds under the key.

`namesBuckets_iff` says for which sizes this is right: with up to 10 reduce tasks or up to
11 input files. Beyond that map 1 with bucket 10 and map 11 with bucket 0 have one key.
-/

namespace DistStudy.MapReduce

/-- What a worker that executes map task `m` sends for bucket `r`. -/
structure ReportsBucket (cfg : Config) (m r : ℕ) (s : Sent) : Prop where
  tasktype : s.task.tasktype = .map
  key : s.task.key = itoa m
  report : s.report = bucketReport s.task.key (cfg.bucketOf s.task r) r

/-- The reports of buckets name the right jobs. -/
structure NamesBuckets (cfg : Config) : Prop where
  /-- The ids of the jobs of `initialize` are pairwise distinct. -/
  ids : ∀ p q j j', cfg.initialJob p = some j → cfg.initialJob q = some j' → j.id = j'.id → p = q
  /-- The key of a report is that of the job for the bucket, and of no other one. -/
  keys : ∀ m < cfg.files.length, ∀ r < cfg.nReduce, ∀ s, ReportsBucket cfg m r s →
    ∀ m' r' j, cfg.initialJob (.pseudo m' r') = some j →
      (s.report.key = j.key ↔ m' = m ∧ r' = r)
  /-- In every run `Finish` completes no other job on the report. -/
  completes : ∀ e, Run cfg (fun _ _ => True) e → ∀ k, ∀ m < cfg.files.length,
    ∀ r < cfg.nReduce, ∀ i f w', (e k).finishing[i]? = some f → ReportsBucket cfg m r f.sent →
      (e k).step cfg (.close i) = some w' →
      ∀ p, w'.IsDone p → (e k).IsDone p ∨ p = .pseudo m r

section

variable {cfg : Config} {w w' : World} {event : Event}

theorem ReportsBucket.id_eq {m r : ℕ} {s : Sent} (h : ReportsBucket cfg m r s) :
    s.report.id = jobId .pseudo (bucketKey (itoa m) r) := by
  rw [SuccessReport.id, h.report, h.key]
  rfl

/-- The keys of the buckets of a small enough job are distinct. -/
theorem bucketKey_inj_of_size (hsize : cfg.nReduce ≤ 10 ∨ cfg.files.length ≤ 11)
    {m m' r r' : ℕ} (hm : m < cfg.files.length) (hm' : m' < cfg.files.length)
    (hr : r < cfg.nReduce) (hr' : r' < cfg.nReduce)
    (h : bucketKey (itoa m) r = bucketKey (itoa m') r') : m = m' ∧ r = r' := by
  rcases eq_or_le_of_bucketKey_eq h with heq | ⟨hmax, hmax'⟩
  · exact heq
  · omega

/-! ## The jobs of `initialize` -/

theorem initialJob_bucket {m r : ℕ} {j : Job} :
    cfg.initialJob (.pseudo m r) = some j ↔
      (m < cfg.files.length ∧ r < cfg.nReduce) ∧ newJob .pseudo (bucketKey (itoa m) r) [] = j := by
  simp only [Config.initialJob, Option.ite_none_right_eq_some, Option.some.injEq]

/-- The pseudo jobs of `initialize`. -/
theorem initialJob_pseudo {p : Ptr} {j : Job} (hj : cfg.initialJob p = some j)
    (ht : j.jobtype = .pseudo) :
    ∃ m < cfg.files.length, ∃ r < cfg.nReduce, p = .pseudo m r ∧ j.key = bucketKey (itoa m) r := by
  cases p with
  | pseudo m r =>
    obtain ⟨⟨hm, hr⟩, rfl⟩ := initialJob_bucket.mp hj
    exact ⟨m, hm, r, hr, rfl, rfl⟩
  | _ => simp [Config.initialJob, newJob] at hj <;> grind

/-- Where `initialize` makes the job of a type and a key, for the jobs of the other types. -/
def ptrOf (jobtype : JobType) (key : Text) : Ptr :=
  match jobtype with
  | .map => .map (atoi key)
  | .reduce => .reduce (atoi key)
  | _ => .done

/-- The keys of map and reduce jobs are single numbers. -/
theorem initialJob_ptrOf {p : Ptr} {j : Job} (hj : cfg.initialJob p = some j)
    (ht : j.jobtype ≠ .pseudo) : p = ptrOf j.jobtype j.key := by
  cases p with
  | map m =>
    simp only [Config.initialJob, Option.ite_none_right_eq_some, Option.some.injEq] at hj
    obtain ⟨-, rfl⟩ := hj
    exact congrArg Ptr.map (atoi_itoa m).symm
  | pseudo m r =>
    obtain ⟨-, rfl⟩ := initialJob_bucket.mp hj
    exact absurd rfl ht
  | reduce r =>
    simp only [Config.initialJob, Option.ite_none_right_eq_some, Option.some.injEq] at hj
    obtain ⟨-, rfl⟩ := hj
    exact congrArg Ptr.reduce (atoi_itoa r).symm
  | done =>
    obtain rfl := Option.some.inj hj
    rfl
  | again k => cases hj

/-- A job of `initialize` is determined by its id, in a small enough job. -/
theorem initialJob_id_inj (hsize : cfg.nReduce ≤ 10 ∨ cfg.files.length ≤ 11) {p q : Ptr}
    {j j' : Job} (hp : cfg.initialJob p = some j) (hq : cfg.initialJob q = some j')
    (hid : j.id = j'.id) : p = q := by
  obtain ⟨htype, hkey⟩ := jobId_inj.mp hid
  by_cases ht : j.jobtype = .pseudo
  · obtain ⟨m, hm, r, hr, rfl, hk⟩ := initialJob_pseudo hp ht
    obtain ⟨m', hm', r', hr', rfl, hk'⟩ := initialJob_pseudo hq (htype ▸ ht)
    rw [hk, hk'] at hkey
    obtain ⟨rfl, rfl⟩ := bucketKey_inj_of_size hsize hm hm' hr hr' hkey
    rfl
  · rw [initialJob_ptrOf hp ht, initialJob_ptrOf hq (htype ▸ ht), htype, hkey]

/-! ## Jobs that are found under the key of a bucket -/

/-- `ReportMapFailure` makes no pseudo job. -/
theorem Run.again_ne_pseudo {C : World → Event → Prop} {e : Behavior World} (h : Run cfg C e)
    (k : ℕ) : ∀ i j, (e k).heap (.again i) = some j → j.jobtype ≠ .pseudo := by
  refine h.steps_of h.since_init (fun w => ∀ i j, w.heap (.again i) = some j → j.jobtype ≠ .pseudo)
    (by simp [World.init, Config.initialJob]) ?_ k
  intro w event w' hw hinv _ hs i j' hj'
  cases hs.job_effect hw.fresh hj' with
  | same j hj hd ho hle =>
    rw [hle.jobtype]
    exact hinv i j hj
  | closed j s hj ho hf hs hle hd hout =>
    rw [hle.jobtype]
    exact hinv i j hj
  | again k' task corrupt kvs hp hnew hx hj =>
    rcases List.mem_append.mp hj with hmem | hmem
    · obtain ⟨v, -, rfl⟩ := List.mem_map.mp hmem
      simp
    · obtain rfl := List.mem_singleton.mp hmem
      simp

/-- A job under the id of a bucket is the pseudo job of the bucket. -/
theorem Run.eq_pseudo {C : World → Event → Prop} {e : Behavior World} (h : Run cfg C e) (k : ℕ)
    (hsize : cfg.nReduce ≤ 10 ∨ cfg.files.length ≤ 11) {m r : ℕ} (hm : m < cfg.files.length)
    (hr : r < cfg.nReduce) {p : Ptr} {j : Job} (hj : (e k).heap p = some j)
    (hid : j.id = jobId .pseudo (bucketKey (itoa m) r)) : p = .pseudo m r := by
  obtain ⟨ht, hkey⟩ := jobId_inj.mp hid
  have hagain : ∀ i, p ≠ .again i := by
    rintro i rfl
    exact h.again_ne_pseudo k i j hj ht
  obtain ⟨j₀, hj₀, hle⟩ := (h.since_init k).le.initialJob hj hagain
  obtain ⟨m', hm', r', hr', rfl, hk⟩ := initialJob_pseudo hj₀ (hle.jobtype ▸ ht)
  have hkeys : bucketKey (itoa m) r = bucketKey (itoa m') r' :=
    hkey.symm.trans (hle.key.trans hk)
  obtain ⟨rfl, rfl⟩ := bucketKey_inj_of_size hsize hm hm' hr hr' hkeys
  rfl

/-- `Finish` completes at most the job that it has found. -/
theorem Steps.close_isDone {i : ℕ} (hs : Steps cfg w (.close i) w') {f : Finishing}
    (hi : w.finishing[i]? = some f) {p : Ptr} (hd : w'.IsDone p) : w.IsDone p ∨ p = f.job := by
  cases hs with
  | close _ q s j hf hj ho =>
    obtain rfl := Option.some.inj (hi.symm.trans hf)
    by_cases hp : p = q
    · exact Or.inr hp
    · left
      have hheap : Function.update w.heap q
          (some { j with output := s.report.outputFilename, done := .closed }) p = w.heap p :=
        Function.update_of_ne hp _ _
      exact (congrArg (Option.map Job.done) hheap).symm.trans hd

end

/-! ## The sizes for which the keys are right -/

/-- The reports of buckets name the right jobs for up to 10 reduce tasks or up to 11 input
files, and for no other sizes. -/
theorem namesBuckets_iff (cfg : Config) :
    NamesBuckets cfg ↔ cfg.nReduce ≤ 10 ∨ cfg.files.length ≤ 11 := by
  constructor
  · intro h
    by_contra! hlarge
    -- both jobs exist, and both have the key 110
    have hone := initialJob_bucket.mpr ⟨⟨(by omega : 1 < cfg.files.length),
      (by omega : 10 < cfg.nReduce)⟩, rfl⟩
    have heleven := initialJob_bucket.mpr ⟨⟨(by omega : 11 < cfg.files.length),
      (by omega : 0 < cfg.nReduce)⟩, rfl⟩
    have heq : Ptr.pseudo 1 10 = .pseudo 11 0 := h.ids _ _ _ _ hone heleven (by decide)
    cases heq
  · intro hsize
    refine ⟨fun p q j j' => initialJob_id_inj hsize, ?_, ?_⟩
    · intro m hm r hr s hs m' r' j hj
      obtain ⟨⟨hm', hr'⟩, rfl⟩ := initialJob_bucket.mp hj
      have hreport : s.report.key = bucketKey (itoa m) r := (jobId_inj.mp hs.id_eq).2
      rw [hreport, newJob]
      constructor
      · intro heq
        obtain ⟨rfl, rfl⟩ := bucketKey_inj_of_size hsize hm hm' hr hr' heq
        exact ⟨rfl, rfl⟩
      · rintro ⟨rfl, rfl⟩
        rfl
    · intro e he k m hm r hr i f w' hi hf hstep p hd
      rcases (steps_of_step hstep).close_isDone hi hd with hd | rfl
      · exact Or.inl hd
      · -- the job has the id of the report
        obtain ⟨j, hj, hid⟩ := (he.tabled_ids k).2 f (List.mem_of_getElem? hi)
        exact Or.inr (he.eq_pseudo k hsize hm hr hj (hid.trans hf.id_eq))

/-- Twelve files and eleven reduce tasks. -/
def twelveFiles : Config where
  files := List.replicate 12 ['x']
  contents _ := []
  mapf _ _ := []
  reducef _ values := itoa values.length
  nReduce := 11

/-- Map job 1 and the jobs for its bucket 10 and for bucket 0 of map 11 are stored, the last
one under the key of the one before; then a worker executes map task 1 up to bucket 10. -/
def bucketTenReported : List Event :=
  [.depsDone 1, .send 1, .store 1, .depsDone 132, .send 132, .store 132, .depsDone 22,
    .send 22, .store 22, .getTask, .receive] ++ List.replicate 11 (.report 0)

/-- `Finish` on the report of bucket 10 of map 1 completes the job for bucket 0 of map 11,
on which reduce task 0 depends, and not the one for the bucket. -/
theorem bucket_report_misdirected :
    let w := play (World.step twelveFiles) (World.init twelveFiles) bucketTenReported
    let w' := play (World.step twelveFiles) (World.init twelveFiles)
      (bucketTenReported ++ [.finish 10, .close 0])
    (twelveFiles.initialJob (.pseudo 1 10)).map Job.id =
      (twelveFiles.initialJob (.pseudo 11 0)).map Job.id ∧
    (w.reports[10]?.map Sent.report = some (bucketReport (itoa 1) [] 10) ∧
      w.reports[10]?.map Sent.task = some (twelveFiles.mapRequest 1)) ∧
    ¬ w.IsDone (.pseudo 11 0) ∧ w'.IsDone (.pseudo 11 0) ∧ ¬ w'.IsDone (.pseudo 1 10) := by
  decide +kernel

end DistStudy.MapReduce
