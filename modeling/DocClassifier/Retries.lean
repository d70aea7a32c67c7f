import DocClassifier.Statuses

/-!
# Retried jobs

An execution of a job saves at most one row. Nothing keeps a later execution from saving another
one: when an execution raises or is killed after its `save_prediction` has been committed, for
example at one of the cache deletes that follow, the next one saves a second row for the same file.
-/

namespace DocClassifier
open ReadCommitted Transition Prog

/-- An execution of a job saves its row before its `mark_done`, and only once. -/
theorem saves_length_le {job : Job} {H : History} (h : Along (contract (JobMay job)) H) :
    (saves H).length ≤ 1 := by
  have hinv : (saves H).length ≤ 1 ∧ (saves H ≠ [] → 2 ≤ (txs H).length) := by
    refine h.inv (P := fun H => (saves H).length ≤ 1 ∧ (saves H ≠ [] → 2 ≤ (txs H).length))
      ⟨Nat.zero_le 1, fun hn => (hn rfl).elim⟩ ?_
    intro H d ih hmay _
    have hone : (saves [d]).length ≤ 1 := List.length_filterMap_le _ _
    by_cases hd : saves [d] = []
    · rw [saves_append, hd, List.append_nil]
      refine ⟨ih.1, fun hn => (ih.2 hn).trans ?_⟩
      rw [txs_append, List.length_append]
      exact Nat.le_add_right _ _
    · -- The row is saved in the second transaction.
      obtain ⟨p, hp⟩ := List.exists_mem_of_ne_nil _ hd
      obtain ⟨b, data, cm, rfl, -⟩ := mem_saves_single hp
      have hnext : NextTx job (txs H) (.savePrediction b data) := hmay.1
      have htxs : (txs H).length = 1 := by
        generalize txs H = ts at hnext
        cases hnext
        rfl
      have hnil : saves H = [] := by
        by_contra hn
        have hlen := ih.2 hn
        omega
      rw [saves_append, hnil, List.nil_append, txs_append, List.length_append, htxs]
      exact ⟨hone, fun _ => le_rfl⟩
  exact hinv.1

/-- The earlier executions of the job have saved no row, or one and the job is not running. -/
def JobRun.SavedOnce (j : JobRun) : Prop :=
  saves j.past.flatten = [] ∨
    ((saves j.past.flatten).length ≤ 1 ∧ ∀ th, j.state ≠ .running th)

section
variable {past : List History} {H : History} {st : JobState} {job : Job}

theorem JobRun.SavedOnce.ended (hpast : saves past.flatten = []) (h : (saves H).length ≤ 1)
    (hst : ∀ th, st ≠ .running th) : JobRun.SavedOnce ⟨past ++ [H], st⟩ := by
  refine .inr ⟨?_, hst⟩
  rw [List.flatten_append, saves_append, hpast, List.nil_append, List.flatten_singleton]
  exact h

theorem JobRun.SavedOnce.next {th : Thread ClassifyResult} (hpast : saves past.flatten = [])
    (h : (saves th.hist).length ≤ 1) : (JobRun.next past th).SavedOnce := by
  unfold JobRun.next
  split
  · exact .ended hpast h nofun
  · exact .ended hpast h nofun
  · exact .inl hpast

theorem JobRun.SavedOnce.record {j : JobRun} (H : j.SavedOnce) (K : j.Kept job) :
    (saves j.record).length ≤ 1 := by
  rw [JobRun.record, saves_append]
  have hhist : (saves j.hist).length ≤ 1 := by
    cases hs : j.state with
    | running th =>
      rw [JobRun.hist, hs]
      exact saves_length_le (K.running th hs).1.along
    | queued | returned | failed =>
      rw [JobRun.hist, hs]
      exact Nat.zero_le 1
  rcases H with hnil | ⟨hle, hnot⟩
  · rw [hnil, List.nil_append]
    exact hhist
  · have hnil : j.hist = [] := by
      rw [JobRun.hist]
      split
      · rename_i hs
        exact (hnot _ hs).elim
      · rfl
    rw [hnil]
    exact (List.append_nil (saves j.past.flatten)).symm ▸ hle

end

namespace Pipeline

variable {C : Classifier} {s s' : Pipeline} {e : Event} {n : Nat}

/-- No execution of the job `n` starts after one of its executions has saved a row. -/
def StartsUnsaved (n : Nat) (s : Pipeline) : Event → Prop
  | .start m => m = n → saves (s.record (.job n)) = []
  | _ => True

instance (n : Nat) (s : Pipeline) (e : Event) : Decidable (StartsUnsaved n s e) :=
  match e with
  | .start m => inferInstanceAs (Decidable (m = n → saves (s.record (.job n)) = []))
  | .drop _ | .poll | .restart | .upload .. | .cancel _ | .ingest .. | .job .. | .kill _
  | .retry _ => .isTrue trivial

theorem savedOnce_step (S : s.Sound) (H : (s.jobs n).SavedOnce) (h : s.step C e = some s')
    (he : StartsUnsaved n s e) : (s'.jobs n).SavedOnce := by
  have hkept : ∀ th, (s.jobs n).state = .running th → ∃ job, (s.jobs n).Kept job := by
    intro th hs
    have hlt := S.kept.lt (n := n) fun heq => by simp [heq] at hs
    exact ⟨_, S.kept.jobs n _ (List.getElem?_eq_getElem hlt)⟩
  -- An execution is in progress only if no row has been saved before it.
  have hpast : ∀ th, (s.jobs n).state = .running th → saves (s.jobs n).past.flatten = [] :=
    fun th hs => H.resolve_right fun hr => hr.2 th hs
  cases jobMove h n with
  | idle heq => exact heq ▸ H
  | started hn hs heq =>
    rw [heq]
    have hrec := he rfl
    rw [record, JobRun.record, saves_append] at hrec
    exact .inl (List.append_eq_nil_iff.mp hrec).1
  | @stepped tick th th' _ hs ht heq =>
    rw [heq]
    obtain ⟨job, hjob⟩ := hkept th hs
    exact .next (hpast th hs) (saves_length_le ((hjob.running th hs).1.step ht).along)
  | @killed th _ hs heq =>
    rw [heq]
    obtain ⟨job, hjob⟩ := hkept th hs
    exact .ended (hpast th hs) (saves_length_le (hjob.running th hs).1.along)
      fun _ hr => by cases hr
  | retried _ heq =>
    rw [heq]
    exact H.imp_right fun hr => ⟨hr.1, fun _ hs => by cases hs⟩

/-- In a run in which no execution of the job starts after one has saved a row, there is at most one
row with the batch and the file name of the job, unless another job has the same. -/
theorem rows_le_one {users : Table String UserORM (·.id)}
    {dropZone : Table String RemoteFile (·.filename)} {es : List Event} {job : Job}
    (h : Run (Meeting (StartsUnsaved n) (Steps (step C))) (start users dropZone) es s)
    (hn : s.world.queue[n]? = some job)
    (honly : ∀ m job', s.world.queue[m]? = some job' → job'.batchId = job.batchId →
      rsplitLast job'.blobKey = rsplitLast job.blobKey → m = n) :
    s.world.server.db.predictions.rows.countP (fun p =>
      p.batchId = job.batchId ∧ p.filename = rsplitLast job.blobKey) ≤ 1 := by
  have hinv : s.Sound ∧ (s.jobs n).SavedOnce := by
    refine h.inv (I := fun s => s.Sound ∧ (s.jobs n).SavedOnce) ?_ ⟨.start users dropZone, .inl rfl⟩
    rintro s e t ⟨S, H⟩ ⟨hstep, he⟩
    exact ⟨S.step hstep, savedOnce_step S H hstep he⟩
  obtain ⟨S, H⟩ := hinv
  rw [S.saved.perm.countP_eq]
  have hother : ∀ m, m ≠ n → (saves (s.record (.job m))).countP (fun p =>
      p.batchId = job.batchId ∧ p.filename = rsplitLast job.blobKey) = 0 := by
    intro m hm
    refine List.countP_eq_zero.mpr fun p hp hrow => hm ?_
    have hlt : m < s.world.queue.length := by
      by_contra hge
      rw [S.kept.record_fresh (Nat.not_lt.mp hge)] at hp
      cases hp
    have hm' := List.getElem?_eq_getElem hlt
    have hof := S.saved.row m _ hm' p hp
    have hrow' : p.batchId = job.batchId ∧ p.filename = rsplitLast job.blobKey :=
      by simpa using hrow
    exact honly m _ hm' (hof.batchId.symm.trans hrow'.1) (hof.filename.symm.trans hrow'.2)
  calc ((List.range s.world.queue.length).flatMap fun m => saves (s.record (.job m))).countP _
      ≤ if n < s.world.queue.length then (saves (s.record (.job n))).countP _ else 0 :=
        countP_flatMap_range_le hother _
    _ ≤ (saves (s.record (.job n))).length := by
        split
        · exact List.countP_le_length
        · exact Nat.zero_le _
    _ ≤ 1 := H.record (S.kept.jobs n job hn)

set_option maxRecDepth 100000 in
/-- The first execution raises at its first step, and the second one saves the row. -/
theorem rows_le_one_retry : ∃ es s job,
    Run (Meeting (StartsUnsaved 0) (Steps (step letters))) (start .empty oneScan) es s ∧
    s.world.queue[0]? = some job ∧ s.world.server.db.predictions.rows.length = 1 ∧
    s.world.server.db.predictions.rows.countP (fun p =>
      p.batchId = job.batchId ∧ p.filename = rsplitLast job.blobKey) ≤ 1 := by
  have h : (exec (fun s e => if StartsUnsaved 0 s e then step letters s e else none)
      (start .empty oneScan) (ingestOne ++ .job 0 (.raise (.other "Vault sealed")) :: .retry 0 ::
        .start 0 :: .replicate 27 (.job 0 (ok "p")))).bind (fun s => s.world.queue[0]?.map fun _ =>
          (s.world.queue.length, s.world.server.db.predictions.rows.length)) = some (1, 1) := by
    decide
  obtain ⟨s, hs, h⟩ := Option.bind_eq_some_iff.mp h
  obtain ⟨job, hjob, h⟩ := Option.map_eq_some_iff.mp h
  rw [Prod.mk.injEq] at h
  have hrun := run_of_exec hs
  refine ⟨_, s, job, hrun, hjob, h.2, rows_le_one hrun hjob fun m job' hm _ _ => ?_⟩
  have hlt := (List.getElem?_eq_some_iff.mp hm).1
  omega

set_option maxRecDepth 100000 in
/-- An execution raises at the first cache delete after the commit of its `save_prediction`, and is
retried. -/
theorem two_rows : ∃ s job, Reachable letters s ∧ s.world.queue = [job] ∧
    s.world.server.db.predictions.rows.countP (fun p =>
      p.batchId = job.batchId ∧ p.filename = rsplitLast job.blobKey) = 2 := by
  have h : (exec (step letters) (start .empty oneScan)
      (ingestOne ++ .replicate 16 (.job 0 (ok "p")) ++
      .job 0 (.raise (.other "Redis timeout")) :: .job 0 (ok "p") :: .retry 0 :: .start 0 ::
        .replicate 12 (.job 0 (ok "q")))).bind (fun s => s.world.queue.head?.map fun job =>
          (s.world.queue.length, s.world.server.db.predictions.rows.countP fun p =>
            p.batchId = job.batchId ∧ p.filename = rsplitLast job.blobKey)) = some (1, 2) := by
    decide
  obtain ⟨s, hs, h⟩ := Option.bind_eq_some_iff.mp h
  obtain ⟨job, hjob, h⟩ := Option.map_eq_some_iff.mp h
  rw [Prod.mk.injEq] at h
  obtain ⟨hlen, htwo⟩ := h
  refine ⟨s, job, ⟨_, _, _, exec_eq_some.mp hs⟩, ?_, htwo⟩
  obtain ⟨job', hq⟩ := List.length_eq_one_iff.mp hlen
  rw [hq] at hjob ⊢
  cases hjob
  rfl

end Pipeline

end DocClassifier
