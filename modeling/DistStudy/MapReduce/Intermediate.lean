import DistStudy.MapReduce.ReduceInputs

/-!
# The intermediate files

A map task renames each file before it reports the bucket, and a file that is written
again gets the same records, in whatever order. So as long as every file that exists can be
opened, a reduce task, which is handed out after all its buckets are reported, reads all its
records (`Intact.read`). No failure is reported then, and no job is made again.
-/

namespace DistStudy.MapReduce

/-- Files that exist can be opened. -/
def opensFiles (_ : World) : Event → Prop
  | .openFiles _ broken => broken = []
  | _ => True

instance (w : World) (event : Event) : Decidable (opensFiles w event) := by
  unfold opensFiles
  split <;> infer_instance

/-- The file of bucket `(m, r)` holds the records of the bucket, in some order. -/
def World.HoldsBucket (cfg : Config) (w : World) (m r : ℕ) : Prop :=
  ∃ kvs, w.files (resultName (itoa m) r) = some kvs ∧ kvs.Perm (cfg.bucket m r)

structure Intact (cfg : Config) (w : World) : Prop where
  ordered : Ordered cfg w
  made : w.made = 0
  request : ∀ x ∈ w.executions, x.progress.isMapping = false →
    ∃ r < cfg.nReduce, x.task = cfg.reduceRequest r
  unbroken : ∀ x ∈ w.executions, ∀ corrupt kvs, x.progress ≠ .failing corrupt kvs
  loaded : ∀ x ∈ w.executions, ∀ kvs, x.progress = .loaded kvs →
    ∃ r < cfg.nReduce, x.task = cfg.reduceRequest r ∧ kvs.Perm (cfg.reduceInput r)
  renamed : ∀ x ∈ w.executions, ∀ m i, x.task = cfg.mapRequest m → x.progress = .mapping i true →
    w.HoldsBucket cfg m i
  files : ∀ m r, w.HasSent (cfg.bucketSent m r) → cfg.bucket m r ≠ [] → w.HoldsBucket cfg m r

section

variable {cfg : Config} {w w' : World} {event : Event} {m r : ℕ}

/-- A file is only ever replaced by one with the same records. -/
theorem Ordered.file_kept (h : Ordered cfg w) (hs : Steps cfg w event w')
    (hf : w.HoldsBucket cfg m r) : w'.HoldsBucket cfg m r := by
  rcases hs.files_effect (resultName (itoa m) r) with hsame | ⟨task, i, kvs, hx, -, hname, hnew, hp⟩
  · unfold World.HoldsBucket
    rw [hsame]
    exact hf
  · obtain ⟨m', -, rfl⟩ := (h.executions _ hx).map rfl
    obtain ⟨rfl, rfl⟩ := resultName_inj.mp hname
    exact ⟨kvs, hnew, hp⟩

namespace Intact

/-- A reduce task whose buckets are reported can open all its files and reads all its
records. -/
theorem read (h : Intact cfg w) (hrel : w.Released cfg r) :
    corruptMapWorkers w.files [] (cfg.reduceRequest r).filenames = [] ∧
      (decoded w.files [] (cfg.reduceRequest r).filenames).Perm (cfg.reduceInput r) := by
  have hfiles : ∀ m < cfg.files.length, cfg.bucket m r ≠ [] → w.HoldsBucket cfg m r :=
    fun m hm hb => h.files m r (Or.inr (Or.inr (hrel m hm))) hb
  constructor
  · unfold corruptMapWorkers
    rw [List.map_eq_nil_iff, List.filter_eq_nil_iff]
    intro f hf hbad
    simp only [ne_eq, decide_eq_true_eq] at hbad
    obtain ⟨m, hm, hname⟩ := List.mem_map.mp (List.fst_mem_of_mem_zipIdx hf)
    rw [Config.bucketOutput_eq] at hname
    split_ifs at hname with hb
    · exact hbad.1 hname.symm
    · obtain ⟨kvs, hfile, -⟩ := hfiles m (List.mem_range.mp hm) hb
      exact hbad.2 ⟨List.not_mem_nil, by rw [← hname, hfile]; rfl⟩
  · exact decoded_perm hfiles

/-- No job is made again. -/
theorem heap_again (h : Intact cfg w) (k : ℕ) : w.heap (.again k) = none :=
  h.ordered.fresh k (h.made ▸ Nat.zero_le k)

theorem init (cfg : Config) : Intact cfg (World.init cfg) where
  ordered := Ordered.init cfg
  made := rfl
  request := by simp [World.init]
  unbroken := by simp [World.init]
  loaded := by simp [World.init]
  renamed := by simp [World.init]
  files := by simp [World.init, World.HasSent]

/-- A reduce task that is executed is one that `GetTask` makes of a job of `initialize`. -/
theorem request_step (h : Intact cfg w) (hcfg : cfg.nReduce ≤ 10) (hs : Steps cfg w event w')
    {x : Execution} (hx : x ∈ w'.executions) (hp : x.progress.isMapping = false) :
    ∃ r < cfg.nReduce, x.task = cfg.reduceRequest r := by
  rcases hs.task_effect hx with ⟨progress, hmem, heq⟩ | ⟨p, j, hmem, hj, hreply, hstart⟩
  · exact h.request ⟨x.task, progress⟩ hmem (heq.trans hp)
  · have ht : x.task.tasktype = .reduce := by
      rcases start_cases hstart with ⟨-, heq⟩ | ⟨ht, -⟩
      · rw [congrArg Execution.progress heq] at hp
        cases hp
      · exact ht
    refine h.ordered.request hcfg (h.ordered.jobCh p hmem) hj ?_ hreply (hreply.tasktype ▸ ht)
    rintro k rfl
    rw [h.heap_again k] at hj
    cases hj

/-- What a reduce task has after it has opened its files. -/
theorem opened (h : Intact cfg w) {task : TaskRequest} (hx : ⟨task, .opening⟩ ∈ w.executions) :
    ∃ r < cfg.nReduce, task = cfg.reduceRequest r ∧ ∃ kvs, kvs.Perm (cfg.reduceInput r) ∧
      (if corruptMapWorkers w.files [] task.filenames = [] then
          Progress.loaded (decoded w.files [] task.filenames)
        else .failing (corruptMapWorkers w.files [] task.filenames)
          (decoded w.files [] task.filenames)) = .loaded kvs := by
  obtain ⟨r, hr, rfl⟩ := h.request _ hx rfl
  obtain ⟨r', -, -, hk, hrel⟩ := (h.ordered.executions _ hx).reduce rfl
  obtain rfl : r = r' := itoa_inj.mp hk
  obtain ⟨hcorrupt, hkvs⟩ := h.read hrel
  exact ⟨r, hr, rfl, _, hkvs, if_pos hcorrupt⟩

/-- A reduce task never fails to open a file, and has loaded all its records. -/
theorem loaded_step (h : Intact cfg w) (hC : opensFiles w event) (hs : Steps cfg w event w')
    {x : Execution} (hx' : x ∈ w'.executions) :
    (∀ corrupt kvs, x.progress ≠ .failing corrupt kvs) ∧
      ∀ kvs, x.progress = .loaded kvs →
        ∃ r < cfg.nReduce, x.task = cfg.reduceRequest r ∧ kvs.Perm (cfg.reduceInput r) := by
  cases hs.execution_effect hx' with
  | kept _ hx => exact ⟨h.unbroken x hx, h.loaded x hx⟩
  | started _ p j hp hj hreply hx =>
    rcases start_cases hx with ⟨-, heq⟩ | ⟨-, heq⟩ <;>
      simp [congrArg Execution.progress heq]
  | opened n task broken hev hx =>
    rw [hev] at hC
    obtain rfl : broken = [] := hC
    obtain ⟨r, hr, htask, kvs, hperm, heq⟩ := h.opened hx
    dsimp only
    rw [heq]
    refine ⟨by simp, fun kvs' hkvs => ⟨r, hr, htask, ?_⟩⟩
    rwa [← Progress.loaded.inj hkvs]
  | failed task corrupt kvs hx => exact absurd rfl (h.unbroken _ hx corrupt kvs)
  | renamed | reported | created | written => simp

/-- A file has been renamed before the next step of its map task. -/
theorem renamed_step (h : Intact cfg w) (hs : Steps cfg w event w') {x : Execution}
    (hx' : x ∈ w'.executions) {i : ℕ} (ht : x.task = cfg.mapRequest m)
    (hp : x.progress = .mapping i true) : w'.HoldsBucket cfg m i := by
  cases hs.execution_effect hx' with
  | kept _ hx => exact h.ordered.file_kept hs (h.renamed x hx m i ht hp)
  | started _ p j hpj hj hreply hx =>
    rcases start_cases hx with ⟨-, heq⟩ | ⟨-, heq⟩ <;>
      · rw [congrArg Execution.progress heq] at hp
        cases hp
  | renamed task b kvs hx hfile hperm =>
    obtain rfl : task = cfg.mapRequest m := ht
    obtain ⟨rfl, -⟩ := Progress.mapping.inj hp
    exact ⟨kvs, hfile, hperm⟩
  | opened n task broken hev hx =>
    dsimp only at hp
    split_ifs at hp
  | reported | failed | created | written => cases hp

/-- A bucket with records is reported after its file is there. -/
theorem reported_file (h : Intact cfg w) (hs : Steps cfg w event w')
    (hsent : w'.HasSent (cfg.bucketSent m r)) (hb : cfg.bucket m r ≠ []) :
    w.HoldsBucket cfg m r := by
  rcases hs.sent_effect hsent with hsent | ⟨n, progress, -, hx, hrep⟩
  · exact h.files m r hsent hb
  · generalize hreport : (cfg.bucketSent m r).report = report at hrep
    cases hrep with
    | bucket i renamed hi hdone =>
      -- the keys agree in their map part, so the buckets are the same
      have hkey : bucketKey (itoa m) r = bucketKey (itoa m) i :=
        congrArg SuccessReport.key hreport
      obtain rfl : r = i := itoa_inj.mp (List.append_cancel_left hkey)
      rcases hdone with rfl | hempty
      · exact h.renamed _ (List.mem_of_getElem? hx) m r rfl rfl
      · exact absurd hempty hb
    | map i renamed hi => cases congrArg SuccessReport.tasktype hreport
    | reduce offset => cases congrArg SuccessReport.tasktype hreport

theorem step (h : Intact cfg w) (hcfg : cfg.nReduce ≤ 10) (hC : opensFiles w event)
    (hs : Steps cfg w event w') : Intact cfg w' where
  ordered := h.ordered.step hcfg hs
  made := by
    rw [← h.made]
    cases hs with
    | reportFailure x task corrupt kvs hx =>
      exact absurd rfl (h.unbroken _ (List.mem_of_getElem? hx) corrupt kvs)
    | _ => rfl
  request := fun _ hx hp => h.request_step hcfg hs hx hp
  unbroken := fun _ hx => (h.loaded_step hC hs hx).1
  loaded := fun _ hx => (h.loaded_step hC hs hx).2
  renamed := fun _ hx _ _ ht hp => h.renamed_step hs hx ht hp
  files := fun _ _ hsent hb => h.ordered.file_kept hs (h.reported_file hs hsent hb)

end Intact

theorem Run.intact {e : Behavior World} (hcfg : cfg.nReduce ≤ 10) (h : Run cfg opensFiles e)
    (k : ℕ) : Intact cfg (e k) :=
  h.steps (Intact cfg) (Intact.init cfg) (fun _ _ _ hinv hC hs => hinv.step hcfg hC hs) k

end

end DistStudy.MapReduce
