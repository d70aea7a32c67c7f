import DocClassifier.Watcher

/-!
# At-most-once ingestion

Within one process of the watcher a file gets at most one classify job: it is marked as seen with
the job, and a poll works on each of its files once. A restart empties `_seen`, and the object that
the next poll looks for has the id of a new batch in its key, so after a restart the file gets
another job.
-/

namespace DocClassifier
open ReadCommitted Transition BlobStorage Prog

/-- The job of the file `f`, in whichever batch. -/
def Job.isFor (f : String) (job : Job) : Bool := job.blobKey = originalKey job.batchId f

/-- A poll enqueues at most one job for a file. -/
theorem countP_enqueued_le {files : List String} {H : History} {f : String}
    (h : Along (contract (IngestMay .sftp files)) H) (hn : files.Nodup) :
    (enqueued H).countP (Job.isFor f) ≤ 1 := by
  cases hb : batchOf H with
  | none =>
    rw [enqueued_of_batchOf_none h hb]
    exact Nat.zero_le 1
  | some b =>
    have hjobs := batchId_of_enqueued h hb
    have hkeys : ((enqueued H).map (·.blobKey)).Nodup := by
      refine (hn.map ?_).sublist (enqueued_sublist h hjobs)
      exact fun f f' => originalKey_filename
    calc (enqueued H).countP (Job.isFor f)
        = (enqueued H).countP (fun job => job.blobKey = originalKey b f) := by
          refine List.countP_congr fun job hjob => ?_
          simp [Job.isFor, hjobs job hjob]
      _ = ((enqueued H).map (·.blobKey)).count (originalKey b f) := by
          rw [List.count, List.countP_map]
          rfl
      _ ≤ 1 := List.nodup_iff_count_le_one.mp hkeys _

/-- A poll enqueues no job for a file that it has marked. -/
theorem not_marked_of_enqueued {files : List String} {H D : History} {f : String} {job : Job}
    (h : Along (contract (IngestMay .sftp files)) (H ++ D)) (hjob : job ∈ enqueued D)
    (hf : job.isFor f) : f ∈ files ∧ f ∉ marks H := by
  obtain ⟨id, hd⟩ := mem_enqueued.mp hjob
  obtain ⟨D₁, D₂, rfl⟩ := List.append_of_mem hd
  obtain ⟨⟨b, f', hm⟩, -⟩ := h (H ++ D₁) _ D₂ (List.append_assoc _ _ _).symm
  have hkey : originalKey b f' = originalKey b f := by
    have hkey' : job.blobKey = originalKey job.batchId f := by simpa [Job.isFor] using hf
    rw [← hm.blobKey, hkey', hm.batchId]
  obtain rfl := originalKey_filename hkey
  constructor
  · have hmem := hm.order.subset (List.mem_append_right _ List.mem_cons_self)
    obtain ⟨f, hf, heq⟩ := List.mem_map.mp hmem
    exact originalKey_filename heq ▸ hf
  · intro hmark
    obtain ⟨r, hr⟩ := mem_marks.mp hmark
    exact hm.unseen rfl r (List.mem_append_left _ hr)

namespace Pipeline

/-- The number of jobs that have been enqueued for the file `f`. -/
def jobsFor (s : Pipeline) (f : String) : Nat := s.world.queue.countP (Job.isFor f)

/-- The watcher has seen `f`, or the poll in progress has enqueued a job for it. -/
def Taken (s : Pipeline) (f : String) : Prop :=
  f ∈ s.world.seen ∨ ∃ (i : Nat) (c : IngestCall), s.calls[i]? = some c ∧ c.polling = true ∧
    ∃ job ∈ enqueued c.thread.hist, job.isFor f

def Event.isUpload : Event → Bool
  | .upload .. => true
  | _ => false

def Event.isRestart : Event → Bool
  | .restart => true
  | _ => false

variable {C : Classifier} {s s' u v : Pipeline} {e : Event} {n : Nat} {f : String}

/-- There are only polls. -/
def AllPolls (s : Pipeline) : Prop :=
  ∀ (i : Nat) (c : IngestCall), s.calls[i]? = some c → c.source = .sftp

theorem AllPolls.addCall (H : s.AllPolls) {c : IngestCall} (hc : c.source = .sftp) :
    AllPolls { s with calls := s.calls ++ [c] } := by
  intro i c' hi
  rw [getElem?_addCall] at hi
  split at hi
  · cases hi
    exact hc
  · exact H i c' hi

theorem AllPolls.setCall (H : s.AllPolls) {world : World} {i : Nat} {c c' : IngestCall}
    (hc : s.calls[i]? = some c) (hc' : c'.source = c.source) :
    AllPolls { s with world, calls := s.calls.set i c' } := by
  intro j a hj
  rw [getElem?_setCall hc] at hj
  split at hj
  · cases hj
    exact hc'.trans (H i c hc)
  · exact H j a hj

theorem AllPolls.step (H : s.AllPolls) (h : s.step C e = some s') (he : e.isUpload = false) :
    s'.AllPolls := by
  cases step_cases h with
  | poll => exact H.addCall rfl
  | restart hi hc => exact H.setCall hc rfl
  | upload => cases he
  | cancel hc => exact H.setCall hc rfl
  | ingest hc => exact H.setCall hc rfl
  | drop | restartIdle | start | job | kill | retry => exact H

/-- Since there were `n` jobs for `f`, at most one has been enqueued, and then the watcher is done
with the file. -/
def Once (n : Nat) (f : String) (s : Pipeline) : Prop :=
  s.jobsFor f ≤ n ∨ (s.jobsFor f = n + 1 ∧ s.Taken f)

/-- A step of a poll. -/
theorem Once.ingest (H : s.Once n f) (W : s.Watch) (K : s.Kept) {i : Nat} {c : IngestCall}
    {tick : Tick} {world : World} {thread : Thread (Option UploadResponse)}
    (hc : s.calls[i]? = some c) (hsrc : c.source = .sftp)
    (ht : c.thread.step C (.ingest i) s.world tick = some (world, thread)) :
    Once n f { s with world, calls := s.calls.set i { c with thread } } := by
  obtain ⟨D, hD, hseen, hqueue⟩ := Thread.step_grows ht
  have hpoll : c.polling = true := (IngestCall.polling_iff (Thread.step_running ht)).mpr hsrc
  obtain ⟨hkept, hk⟩ := (K.calls i c hc).step ht
  have halong := hkept.along
  dsimp only at halong
  rw [hsrc, hD] at halong
  have hle := countP_enqueued_le (f := f) halong ((K.calls i c hc).nodup hsrc)
  rw [enqueued_append, List.countP_append] at hle
  have hcount : jobsFor { s with world, calls := s.calls.set i { c with thread } } f =
      s.jobsFor f + (enqueued D).countP (Job.isFor f) := by
    rw [jobsFor, hqueue, List.countP_append]
    rfl
  have hcall : (s.calls.set i { c with thread })[i]? = some { c with thread } := by
    rw [getElem?_setCall hc, if_pos rfl]
  -- A job that the poll has enqueued for `f` is still in progress, or the file has been marked.
  have htaken : ∀ job ∈ enqueued thread.hist, job.isFor f →
      Taken { s with world, calls := s.calls.set i { c with thread } } f := by
    intro job hjob hf
    cases hend : thread.ended with
    | false => exact .inr ⟨i, _, hcall, (IngestCall.polling_iff hend).mpr hsrc, job, hjob, hf⟩
    | true =>
      -- The poll ends with this step, so it has marked the file.
      left
      have hb := enqueued_batchOf (hD ▸ halong) job hjob
      obtain ⟨f', hkey, hmark⟩ := (hkept.ends hk hend hb).marked hsrc job hjob
      have hkey' : job.blobKey = originalKey job.batchId f := by simpa [Job.isFor] using hf
      obtain rfl := originalKey_filename (hkey'.symm.trans hkey)
      have hmem : f ∈ marks thread.hist := mem_marks.mpr ⟨_, hmark⟩
      dsimp only
      rw [hseen]
      rw [hD, marks_append] at hmem
      rcases List.mem_append.mp hmem with hmem | hmem
      · exact List.mem_append_left _ ((W.active i c hc hpoll f).1 hmem)
      · exact List.mem_append_right _ hmem
  have hown : ∀ job ∈ enqueued c.thread.hist, job ∈ enqueued thread.hist := by
    intro job hjob
    rw [hD, enqueued_append]
    exact List.mem_append_left _ hjob
  rcases Nat.eq_zero_or_pos ((enqueued D).countP (Job.isFor f)) with hzero | hpos
  · -- No job for `f` in this step.
    rw [Once, hcount, hzero, Nat.add_zero]
    refine H.imp_right fun ⟨hn, htake⟩ => ⟨hn, ?_⟩
    rcases htake with hs | ⟨j, a, hj, hap, job, hjob, hf⟩
    · refine .inl ?_
      dsimp only
      rw [hseen]
      exact List.mem_append_left _ hs
    · by_cases hji : j = i
      · subst j
        cases hc.symm.trans hj
        exact htaken job (hown job hjob) hf
      · exact .inr ⟨j, a, by rw [getElem?_setCall hc, if_neg hji, hj], hap, job, hjob, hf⟩
  · obtain ⟨job, hjob, hf⟩ := List.countP_pos_iff.mp hpos
    obtain ⟨hmem, hmark⟩ := not_marked_of_enqueued halong hjob hf
    have htake := htaken job (by rw [hD, enqueued_append]; exact List.mem_append_right _ hjob) hf
    rw [Once, hcount]
    rcases H with hn | ⟨-, hs | ⟨j, a, hj, hap, job', hjob', hf'⟩⟩
    · by_cases hle' : s.jobsFor f + (enqueued D).countP (Job.isFor f) ≤ n
      · exact .inl hle'
      · exact .inr ⟨by omega, htake⟩
    · exact (hmark ((W.active i c hc hpoll f).2 hmem hs)).elim
    · obtain rfl := W.one j i a c hj hc hap hpoll
      cases hc.symm.trans hj
      have hpos' := List.countP_pos_iff.mpr ⟨job', hjob', hf'⟩
      omega

theorem Once.step (H : s.Once n f) (A : s.AllPolls) (W : s.Watch) (K : s.Kept)
    (h : s.step C e = some s') (he : e.isUpload = false)
    (hr : e.isRestart = true → s.jobsFor f = n) : s'.Once n f := by
  cases step_cases h with
  | drop | start | kill | retry => exact H
  | poll =>
    refine H.imp_right fun ⟨hn, htake⟩ => ⟨hn, htake.imp_right ?_⟩
    rintro ⟨i, c, hi, hc⟩
    refine ⟨i, c, ?_, hc⟩
    rw [getElem?_addCall, if_neg, hi]
    have hlt := (List.getElem?_eq_some_iff.mp hi).1
    omega
  | restartIdle | restart => exact .inl (hr rfl).le
  | upload => cases he
  | @cancel i c hc hsrc =>
    rw [A i c hc] at hsrc
    cases hsrc
  | @ingest i tick c world thread hc ht => exact H.ingest W K hc (A i c hc) ht
  | @job m tick th th' world hs ht =>
    obtain ⟨hseen, hqueue⟩ := K.job_step hs ht
    have hcount : jobsFor ({ s with world }.setJob m (.next (s.jobs m).past th')) f =
        s.jobsFor f := congrArg (List.countP _) hqueue
    have htaken : Taken ({ s with world }.setJob m (.next (s.jobs m).past th')) f ↔ s.Taken f := by
      simp only [Taken, setJob, hseen]
    rw [Once, hcount, htaken]
    exact H

/-- The runs of the watcher and the workers, in which the watcher is restarted only as long as no
job has been enqueued for `f` since the state `u`: at most one job is enqueued for `f`. -/
theorem jobsFor_le {users : Table String UserORM (·.id)}
    {dropZone : Table String RemoteFile (·.filename)} {es es' : List Event}
    (h : Run (Meeting (fun _ e => e.isUpload = false) (Steps (Pipeline.step C)))
      (start users dropZone) es u)
    (h' : Run (Meeting (fun s e => e.isUpload = false ∧
      (e.isRestart = true → s.jobsFor f = u.jobsFor f)) (Steps (Pipeline.step C))) u es' v) :
    v.jobsFor f ≤ u.jobsFor f + 1 := by
  have hu : u.Sound ∧ u.Watch ∧ u.AllPolls := by
    refine h.inv (I := fun s => s.Sound ∧ s.Watch ∧ s.AllPolls) ?_
      ⟨.start users dropZone, .start users dropZone, fun i c hc => by cases hc⟩
    rintro s e t ⟨S, W, A⟩ ⟨hstep, he⟩
    exact ⟨S.step hstep, W.step S.kept hstep, A.step hstep he⟩
  have hv : v.Sound ∧ v.Watch ∧ v.AllPolls ∧ v.Once (u.jobsFor f) f := by
    refine h'.inv (I := fun s => s.Sound ∧ s.Watch ∧ s.AllPolls ∧ s.Once (u.jobsFor f) f) ?_
      ⟨hu.1, hu.2.1, hu.2.2, .inl le_rfl⟩
    rintro s e t ⟨S, W, A, H⟩ ⟨hstep, he, hr⟩
    exact ⟨S.step hstep, W.step S.kept hstep, A.step hstep he, H.step A W S.kept hstep he hr⟩
  rcases hv.2.2.2 with hle | ⟨heq, -⟩
  · exact hle.trans (Nat.le_succ _)
  · exact heq.le

set_option maxRecDepth 100000 in
theorem jobsFor_le_oneScan : ∃ es v,
    Run (Meeting (fun s e => e.isUpload = false ∧ (e.isRestart = true → s.jobsFor "a.tif" = 0))
      (Steps (Pipeline.step letters))) (start .empty oneScan) es v ∧ v.jobsFor "a.tif" ≤ 0 + 1 := by
  have h : (exec (fun s e => if e.isUpload = false ∧ (e.isRestart = true → s.jobsFor "a.tif" = 0)
      then Pipeline.step letters s e else none) (start .empty oneScan)
      (.restart :: .poll :: .replicate 13 (.ingest 0 (ok "b")))).isSome = true := by decide
  obtain ⟨v, hv⟩ := Option.isSome_iff_exists.mp h
  have hrun := run_of_exec hv
  exact ⟨_, v, hrun, jobsFor_le .nil hrun⟩

set_option maxRecDepth 100000 in
/-- After a restart the next poll enqueues a second job for the file, which has not left the drop
zone. -/
theorem two_jobs : ∃ es v, Run (Steps (Pipeline.step letters)) (start .empty oneScan) es v ∧
    (∀ e ∈ es, e.isUpload = false ∧ ∀ dropZone, e ≠ .drop dropZone) ∧ v.jobsFor "a.tif" = 2 := by
  have h : ((exec (Pipeline.step letters) (start .empty oneScan)
      (.poll :: .replicate 13 (.ingest 0 (ok "b")) ++
        .restart :: .poll :: .replicate 13 (.ingest 1 (ok "c")))).map (·.jobsFor "a.tif")) =
      some 2 := by decide
  obtain ⟨v, hv, hjobs⟩ := Option.map_eq_some_iff.mp h
  refine ⟨_, v, exec_eq_some.mp hv, fun e he => ?_, hjobs⟩
  simp only [List.cons_append, List.mem_cons, List.mem_append, List.mem_replicate] at he
  rcases he with rfl | ⟨-, rfl⟩ | rfl | rfl | ⟨-, rfl⟩ <;> exact ⟨rfl, nofun⟩

end Pipeline

end DocClassifier
