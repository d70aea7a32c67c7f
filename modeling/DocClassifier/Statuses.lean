import DocClassifier.Conservation
import DocClassifier.Marks

/-!
# The status of a batch

Every job makes the transitions of its batch, and a slow job can take the batch back from `done` to
`processing`. But a job that has made the batch `processing` has its `mark_done` still ahead of it
(`JobRun.Owes`). So when all jobs of a batch have returned, the batch is `done`; nothing makes it
`failed`.
-/

namespace DocClassifier
open ReadCommitted Transition Prog

/-- Some execution of the job has got past the call. -/
def JobRun.Skips (j : JobRun) (sc : ServiceCall) : Prop :=
  PassedIn sc j.past.flatten ∨ ∃ th, j.state = .running th ∧ th.Skips sc

/-- The job has not returned, and its `mark_done` is still ahead of it. -/
def JobRun.Owes (j : JobRun) (b : String) : Prop :=
  j.state ≠ .returned ∧ ∀ th, j.state = .running th → ¬ th.Skips (.markDone b)

section
variable {past : List History} {th : Thread ClassifyResult} {sc : ServiceCall} {b : String}
  {H : History} {job : Job}

theorem JobRun.skips_next (h : (JobRun.next past th).Skips sc) :
    PassedIn sc past.flatten ∨ th.Skips sc := by
  unfold JobRun.next at h
  split at h
  · rcases h with h | ⟨th', hth, -⟩
    · rw [List.flatten_append, passedIn_append, List.flatten_singleton] at h
      exact h
    · cases hth
  · rcases h with h | ⟨th', hth, -⟩
    · rw [List.flatten_append, passedIn_append, List.flatten_singleton] at h
      exact h
    · cases hth
  · rcases h with h | ⟨th', hth, h⟩
    · exact .inl h
    · cases hth
      exact .inr h

theorem Finished.passedIn (h : Finished job H) : PassedIn (.markProcessing job.batchId) H ∧
    PassedIn (.markDone job.batchId) H := by
  obtain ⟨r, r', data, cm, hr, -, hr', htxs⟩ := h
  have h1 : (⟨.tx (.markProcessing job.batchId), r⟩ : Done Op.Answer Exn) ∈ H :=
    mem_txs.mp (by rw [htxs]; exact List.mem_cons_self)
  have h2 : (⟨.tx (.markDone job.batchId), r'⟩ : Done Op.Answer Exn) ∈ H :=
    mem_txs.mp (by rw [htxs]; exact List.mem_of_getLast? rfl)
  exact ⟨⟨r, h1, hr⟩, ⟨r', h2, hr'⟩⟩

theorem JobRun.owes_next (hth : th.Keeps (JobMay job) (JobEnds job))
    (h : ¬ th.Skips (.markDone job.batchId)) : (JobRun.next past th).Owes job.batchId := by
  unfold JobRun.next
  split
  · exact (h (Finished.passedIn hth.2).2).elim
  · exact ⟨nofun, nofun⟩
  · refine ⟨nofun, fun th' hth' => ?_⟩
    cases hth'
    exact h

/-- A job owes `mark_done` as long as it has not made a transaction. -/
theorem not_skips_markDone (hth : th.Keeps (JobMay job) (JobEnds job)) (h : txs th.hist = []) :
    ¬ th.Skips (.markDone b) := by
  have hnot : ∀ H, txs H = [] → ¬ PassedIn (.markDone b) H := by
    rintro H hH ⟨r, hd, -⟩
    have hmem := mem_txs.mpr hd
    rw [hH] at hmem
    cases hmem
  cases th with
  | run H p => exact hnot H h
  | tx H s t k =>
    rintro (hs | ⟨rfl, -⟩)
    · exact hnot H h hs
    · have hmay : NextTx job (txs H) (.markDone b) := hth.2.1.1
      have hH : txs H = [] := h
      rw [hH] at hmay
      cases hmay

end

/-- What a commit does to the status of a batch. -/
theorem Commit.statusOf {db db' : Tables} {sc : ServiceCall} {cm : Committed sc.Result}
    (h : Commit db sc cm db') (b : String) : db'.statusOf b = db.statusOf b ∨
      (db.statusOf b = none ∧ db'.statusOf b = some .pending) ∨
        ∃ m, MarkCall sc m b ∧ db'.statusOf b = (db.statusOf b).map fun _ => m.newStatus := by
  cases h with
  | @createBatch _ _ cm _ _ hst _ hnone =>
    simp only [Tables.statusOf, Table.find?_insert hnone]
    by_cases hb : cm.result.id = b
    · subst hb
      exact .inr (.inl ⟨by rw [hnone]; rfl, by rw [if_pos rfl, Option.map_some, hst]⟩)
    · exact .inl (by rw [if_neg hb])
  | @markProcessing batchId =>
    by_cases hb : batchId = b
    · subst hb
      refine .inr (.inr ⟨_, .processing, ?_⟩)
      simp [Tables.statusOf, Table.find?_modify, Function.comp_def, Mark.newStatus]
    · exact .inl (by simp [Tables.statusOf, Table.find?_modify, hb])
  | @markDone batchId =>
    by_cases hb : batchId = b
    · subst hb
      refine .inr (.inr ⟨_, .done, ?_⟩)
      simp [Tables.statusOf, Table.find?_modify, Function.comp_def, Mark.newStatus]
    · exact .inl (by simp [Tables.statusOf, Table.find?_modify, hb])
  | savePrediction => exact .inl rfl

namespace Pipeline

variable {C : Classifier} {s s' : Pipeline} {e : Event} {n : Nat} {b : String}

/-- What a step does to the job `n`. -/
inductive JobMove (C : Classifier) (n : Nat) (s : Pipeline) : Event → Pipeline → Prop
  | idle {e : Event} {s' : Pipeline} : s'.jobs n = s.jobs n → JobMove C n s e s'
  | started {job : Job} {s' : Pipeline} : s.world.queue[n]? = some job →
      (s.jobs n).state = .queued →
      s'.jobs n = { s.jobs n with state := .running (.run [] (classify job)) } →
      JobMove C n s (.start n) s'
  | stepped {tick : Tick} {th th' : Thread ClassifyResult} {s' : Pipeline} :
      (s.jobs n).state = .running th →
      th.step C (.job n) s.world tick = some (s'.world, th') →
      s'.jobs n = .next (s.jobs n).past th' → JobMove C n s (.job n tick) s'
  | killed {th : Thread ClassifyResult} {s' : Pipeline} : (s.jobs n).state = .running th →
      s'.jobs n = ⟨(s.jobs n).past ++ [th.hist], .failed⟩ → JobMove C n s (.kill n) s'
  | retried {s' : Pipeline} : (s.jobs n).state = .failed →
      s'.jobs n = { s.jobs n with state := .queued } → JobMove C n s (.retry n) s'

theorem jobMove (h : s.step C e = some s') (n : Nat) : JobMove C n s e s' := by
  have hother : ∀ {s : Pipeline} {m : Nat} {j : JobRun}, n ≠ m → (s.setJob m j).jobs n = s.jobs n :=
    fun hne => Function.update_of_ne hne _ _
  have hown : ∀ {s : Pipeline} {j : JobRun}, (s.setJob n j).jobs n = j :=
    Function.update_self _ _ _
  cases step_cases h with
  | drop | poll | restartIdle | restart | upload | cancel | ingest => exact .idle rfl
  | @start m job hm hs =>
    by_cases hne : n = m
    · subst hne
      exact .started hm hs hown
    · exact .idle (hother hne)
  | @job m tick th th' world hs ht =>
    by_cases hne : n = m
    · subst hne
      exact .stepped hs ht hown
    · exact .idle (hother hne)
  | @kill m th hs =>
    by_cases hne : n = m
    · subst hne
      exact .killed hs hown
    · exact .idle (hother hne)
  | @retry m hs =>
    by_cases hne : n = m
    · subst hne
      exact .retried hs hown
    · exact .idle (hother hne)

theorem Sound.batch_of_job (S : s.Sound) {job : Job} (hn : s.world.queue[n]? = some job) :
    s.world.server.db.batches.find? job.batchId ≠ none := by
  obtain ⟨i, hi⟩ := S.queue.batch job (List.mem_of_getElem? hn)
  exact S.batches.find?_ne_none hi

/-- A job gets past `mark_processing` only when the batch is no longer pending. -/
theorem JobMove.skips (H : JobMove C n s e s') (S : s.Sound) {job : Job}
    (hn : s.world.queue[n]? = some job) (h : (s'.jobs n).Skips (.markProcessing job.batchId)) :
    (s.jobs n).Skips (.markProcessing job.batchId) ∨
      ∃ st, s'.world.server.db.statusOf job.batchId = some st ∧ st ≠ .pending := by
  cases H with
  | idle heq => exact .inl (heq ▸ h)
  | started _ hs heq =>
    rw [heq] at h
    rcases h with h | ⟨th, hth, h⟩
    · exact .inl (.inl h)
    · cases hth
      exact (not_passedIn_nil h).elim
  | @stepped tick th th' _ hs ht heq =>
    rw [heq] at h
    rcases JobRun.skips_next h with h | h
    · exact .inl (.inl h)
    · have hkeeps := ((S.kept.jobs n job hn).running th hs).1
      rcases hkeeps.skips_step .processing (S.batch_of_job hn) ht h with h | ⟨st, hst, hne⟩
      · exact .inl (.inr ⟨th, hs, h⟩)
      · exact .inr ⟨st, hst, fun hp => hne (by simp [hp, Mark.allowed])⟩
  | @killed th _ hs heq =>
    rw [heq] at h
    rcases h with h | ⟨th', hth, -⟩
    · rw [List.flatten_append, passedIn_append, List.flatten_singleton] at h
      rcases h with h | h
      · exact .inl (.inl h)
      · exact .inl (.inr ⟨th, hs, .of_passedIn h⟩)
    · cases hth
  | retried _ heq =>
    rw [heq] at h
    rcases h with h | ⟨th', hth, -⟩
    · exact .inl (.inl h)
    · cases hth

/-- As long as the batch is `processing`, a job that owes `mark_done` goes on owing it. -/
theorem JobMove.owes (H : JobMove C n s e s') (S : s.Sound) {job : Job}
    (hn : s.world.queue[n]? = some job) (h : (s.jobs n).Owes job.batchId)
    (hst : s'.world.server.db.statusOf job.batchId = some .processing) :
    (s'.jobs n).Owes job.batchId := by
  cases H with
  | idle heq => exact heq ▸ h
  | started _ hs heq =>
    rw [heq]
    refine ⟨nofun, fun th hth => ?_⟩
    cases hth
    exact not_passedIn_nil
  | @stepped tick th th' _ hs ht heq =>
    rw [heq]
    have hkeeps := ((S.kept.jobs n job hn).running th hs).1
    refine JobRun.owes_next (hkeeps.step ht) fun hskip => ?_
    rcases hkeeps.skips_step .done (S.batch_of_job hn) ht hskip with hskip | ⟨st, hst', hne⟩
    · exact h.2 th hs hskip
    · rw [hst] at hst'
      cases hst'
      exact hne (by decide)
  | killed _ heq | retried _ heq =>
    rw [heq]
    exact ⟨nofun, nofun⟩

/-- What a step does to the status of a batch. -/
inductive StatusMove (s s' : Pipeline) (b : String) : Prop
  | same : s'.world.server.db.statusOf b = s.world.server.db.statusOf b → StatusMove s s' b
  | created : s.world.server.db.statusOf b = none →
      s'.world.server.db.statusOf b = some .pending → StatusMove s s' b
  | marked {n : Nat} {job : Job} {sc : ServiceCall} {m : Mark} {th : Thread ClassifyResult}
      {cm : Committed sc.Result} : s.world.queue[n]? = some job → job.batchId = b →
      MarkCall sc m b → (s.jobs n).state = .running th → NextTx job (txs th.hist) sc →
      s'.record (.job n) = s.record (.job n) ++ [⟨.tx sc, .ok cm⟩] →
      s'.world.server.db.statusOf b = some m.newStatus → StatusMove s s' b

theorem NextTx.markCall {job : Job} {ts : List TxDone} {sc : ServiceCall} {m : Mark}
    (h : NextTx job ts sc) (hm : MarkCall sc m b) : job.batchId = b := by
  cases hm with
  | processing => cases h; rfl
  | done => cases h; rfl

theorem Sound.statusMove (S : s.Sound) (h : s.step C e = some s') (b : String) :
    StatusMove s s' b := by
  cases S.kept.moves h with
  | silent _ hdb => exact .same (by rw [hdb])
  | @answered pid d hrec hmay heff =>
    rcases heff.db_cases (S.locked pid).2 with hdb | ⟨sc, cm, rfl, hc⟩
    · exact .same (by rw [hdb])
    rcases hc.statusOf b with hsame | ⟨hnone, hnew⟩ | ⟨m, hm, hnew⟩
    · exact .same hsame
    · exact .created hnone hnew
    · cases pid with
      | ingest i =>
        obtain ⟨c, -, -, actor, rfl, -⟩ := hmay
        cases hm
      | job n =>
        obtain ⟨job, th, hn, hs, hnext, -⟩ := hmay
        have hb := NextTx.markCall hnext hm
        refine .marked hn hb hm hs hnext (by rw [hrec, Function.update_self]) ?_
        obtain ⟨row, hrow⟩ := Option.ne_none_iff_exists'.mp (S.batch_of_job hn)
        rw [hnew, Tables.statusOf, ← hb, hrow]
        rfl

/-- What the status of a batch says about its jobs. -/
structure Statuses (s : Pipeline) : Prop where
  notFailed : ∀ b, s.world.server.db.statusOf b ≠ some .failed
  left : ∀ n job, s.world.queue[n]? = some job → (s.jobs n).Skips (.markProcessing job.batchId) →
    ∃ st, s.world.server.db.statusOf job.batchId = some st ∧ st ≠ .pending
  owed : ∀ b, s.world.server.db.statusOf b = some .processing →
    ∃ n job, s.world.queue[n]? = some job ∧ job.batchId = b ∧ (s.jobs n).Owes b

theorem Statuses.start (users : Table String UserORM (·.id))
    (dropZone : Table String RemoteFile (·.filename)) : (start users dropZone).Statuses :=
  ⟨nofun, nofun, nofun⟩

theorem step_queue (h : s.step C e = some s') : s.world.queue <+: s'.world.queue := by
  cases step_cases h with
  | ingest _ ht | job _ ht => exact Thread.step_queue ht
  | _ => exact List.prefix_rfl

/-- A job that has done something was in the queue before. -/
theorem Sound.old_job (S : s.Sound) (h : s.step C e = some s') {job : Job}
    (hn : s'.world.queue[n]? = some job) (hj : s'.jobs n ≠ {}) : s.world.queue[n]? = some job := by
  have hlt : n < s.world.queue.length := by
    by_contra hge
    have hfresh := S.kept.fresh n (Nat.not_lt.mp hge)
    refine hj ?_
    cases jobMove h n with
    | idle heq => exact heq.trans hfresh
    | started hm =>
      rw [List.getElem?_eq_none (Nat.not_lt.mp hge)] at hm
      cases hm
    | stepped hs | killed hs | retried hs => simp [hfresh] at hs
  rw [← getElem?_extend (step_queue h) hlt]
  exact hn

theorem Statuses.step (H : s.Statuses) (S : s.Sound) (h : s.step C e = some s') : s'.Statuses := by
  refine ⟨fun b hb => ?_, fun n job hn hskip => ?_, fun b hb => ?_⟩
  · cases S.statusMove h b with
    | same heq => exact H.notFailed b (heq.symm.trans hb)
    | created _ hnew => cases hnew.symm.trans hb
    | marked _ _ hm _ _ _ hnew =>
      rw [hb] at hnew
      cases hm <;> cases hnew
  · have hold : s.world.queue[n]? = some job := by
      refine S.old_job h hn fun heq => ?_
      rw [heq] at hskip
      rcases hskip with hskip | ⟨th, hth, -⟩
      · exact not_passedIn_nil hskip
      · cases hth
    rcases (jobMove h n).skips S hold hskip with hskip | hleft
    swap
    · exact hleft
    obtain ⟨st, hst, hne⟩ := H.left n job hold hskip
    cases S.statusMove h job.batchId with
    | same heq => exact ⟨st, heq.trans hst, hne⟩
    | created hnone => cases hnone.symm.trans hst
    | marked _ _ hm _ _ _ hnew =>
      refine ⟨_, hnew, ?_⟩
      cases hm <;> exact nofun
  · -- The job that owes `mark_done`: the one from before, or the one that has just made the batch
    -- `processing`.
    have howes : ∃ n job, s.world.queue[n]? = some job ∧ job.batchId = b ∧ (s.jobs n).Owes b := by
      cases S.statusMove h b with
      | same heq => exact H.owed b (heq.symm.trans hb)
      | created _ hnew => cases hnew.symm.trans hb
      | @marked n job sc m th cm hn hjob hm hs hnext _ hnew =>
        refine ⟨n, job, hn, hjob, ?_⟩
        cases hm with
        | done => cases hnew.symm.trans hb
        | processing =>
          have htxs : txs th.hist = [] := by
            generalize txs th.hist = ts at hnext
            cases hnext
            rfl
          refine ⟨by simp [hs], fun th' hs' => ?_⟩
          cases hs.symm.trans hs'
          exact not_skips_markDone ((S.kept.jobs n job hn).running th hs).1 htxs
    obtain ⟨n, job, hn, rfl, howe⟩ := howes
    have hlt := (List.getElem?_eq_some_iff.mp hn).1
    exact ⟨n, job, (getElem?_extend (step_queue h) hlt).trans hn, rfl,
      (jobMove h n).owes S hn howe hb⟩

theorem Reachable.statuses (h : Reachable C s) : s.Statuses := by
  obtain ⟨users, dropZone, es, h⟩ := h
  have hinv : s.Sound ∧ s.Statuses := by
    refine h.inv (I := fun s => s.Sound ∧ s.Statuses) ?_
      ⟨.start users dropZone, .start users dropZone⟩
    rintro s e t ⟨hs, ht⟩ hstep
    exact ⟨hs.step hstep, ht.step hs hstep⟩
  exact hinv.2

/-- A batch all of whose jobs have returned is `done`. -/
theorem Statuses.done (H : s.Statuses) (S : s.Sound) (hjobs : 0 < s.jobsOf b)
    (hall : ∀ n job, s.world.queue[n]? = some job → job.batchId = b →
      (s.jobs n).state = .returned) : s.world.server.db.statusOf b = some .done := by
  obtain ⟨job, hjob, hb⟩ := List.countP_pos_iff.mp hjobs
  obtain ⟨n, hn⟩ := List.mem_iff_getElem?.mp hjob
  obtain rfl : job.batchId = b := by simpa using hb
  obtain ⟨H', hH', hfin⟩ := (S.kept.jobs n job hn).returned (hall n job hn rfl)
  have hpassed : PassedIn (.markProcessing job.batchId) (s.jobs n).past.flatten := by
    obtain ⟨r, hr, hp⟩ := hfin.passedIn.1
    exact ⟨r, List.mem_flatten.mpr ⟨H', hH', hr⟩, hp⟩
  obtain ⟨st, hst, hne⟩ := H.left n job hn (.inl hpassed)
  cases st with
  | pending => exact (hne rfl).elim
  | done => exact hst
  | failed => exact (H.notFailed _ hst).elim
  | processing =>
    obtain ⟨m, job', hm, hb', howe⟩ := H.owed _ hst
    exact (howe.1 (hall m job' hm hb')).elim

/-- The batch has settled to the status that its jobs call for. -/
structure RightStatus (s : Pipeline) (b : String) : Prop where
  done : (∀ n job, s.world.queue[n]? = some job → job.batchId = b →
    (s.jobs n).state = .returned) → s.world.server.db.statusOf b = some .done
  failed : (∃ n job, s.world.queue[n]? = some job ∧ job.batchId = b ∧
    (s.jobs n).state = .failed) → s.world.server.db.statusOf b = some .failed
  settled : s.world.server.db.statusOf b = some .done ∨ s.world.server.db.statusOf b = some .failed

/-- When no job of a batch is queued or running, the batch has the right status if and only if no
job of it has failed. -/
theorem rightStatus_iff (h : Reachable C s) (hjobs : 0 < s.jobsOf b)
    (hidle : ∀ n job, s.world.queue[n]? = some job → job.batchId = b →
      (s.jobs n).state = .returned ∨ (s.jobs n).state = .failed) :
    s.RightStatus b ↔
      ∀ n job, s.world.queue[n]? = some job → job.batchId = b → (s.jobs n).state ≠ .failed := by
  constructor
  · intro hright n job hn hb hs
    exact h.statuses.notFailed b (hright.failed ⟨n, job, hn, hb, hs⟩)
  · intro hnone
    have hdone : s.world.server.db.statusOf b = some .done := by
      refine h.statuses.done h.sound hjobs fun n job hn hb => ?_
      exact (hidle n job hn hb).resolve_right (hnone n job hn hb)
    refine ⟨fun _ => hdone, ?_, .inl hdone⟩
    rintro ⟨n, job, hn, hb, hs⟩
    exact (hnone n job hn hb hs).elim

/-- The poll of the one file of the drop zone, and the start of its job. -/
def ingestOne : List Event := .poll :: .replicate 13 (.ingest 0 (ok "b")) ++ [.start 0]

set_option maxRecDepth 100000 in
theorem rightStatus_oneScan : ∃ s, Reachable letters s ∧ 0 < s.jobsOf "b" ∧ s.RightStatus "b" := by
  have h : (exec (step letters) (start .empty oneScan)
      (ingestOne ++ .replicate 27 (.job 0 (ok "p")))).map (fun s =>
        (s.jobsOf "b", s.world.queue.length, (s.jobs 0).state.status)) =
      some (1, 1, .finished) := by decide
  obtain ⟨s, hs, h⟩ := Option.map_eq_some_iff.mp h
  simp only [Prod.mk.injEq] at h
  obtain ⟨hone, hlen, hret⟩ := h
  have hr : Reachable letters s := ⟨_, _, _, exec_eq_some.mp hs⟩
  have hstate : (s.jobs 0).state = .returned := JobState.eq_of_status hret (by decide)
  have hall : ∀ (n : Nat) (job : Job), s.world.queue[n]? = some job →
      (s.jobs n).state = .returned := by
    intro n job hn
    have hlt := (List.getElem?_eq_some_iff.mp hn).1
    obtain rfl : n = 0 := by omega
    exact hstate
  have hpos : 0 < s.jobsOf "b" := by omega
  refine ⟨s, hr, hpos, (rightStatus_iff hr hpos fun n job hn _ => .inl (hall n job hn)).mpr ?_⟩
  intro n job hn _
  rw [hall n job hn]
  exact nofun

set_option maxRecDepth 100000 in
/-- The model raises in the only job of a batch: the batch stays `pending`. -/
theorem failed_job_pending : ∃ s c, Reachable letters s ∧ s.calls[0]? = some c ∧
    batchOf c.thread.hist = some "b" ∧ c.thread.ended = true ∧ s.world.queue.length = 1 ∧
    s.jobsOf "b" = 1 ∧ (s.jobs 0).state = .failed ∧
    s.world.server.db.statusOf "b" = some .pending := by
  have h : (exec (step letters) (start .empty oneScan)
      (ingestOne ++ .replicate 3 (.job 0 (ok "p")) ++
        [.job 0 (.raise (.other "CUDA out of memory"))])).bind (fun s => s.calls[0]?.map fun c =>
          (batchOf c.thread.hist, c.thread.ended, s.world.queue.length, s.jobsOf "b",
            (s.jobs 0).state.status, s.world.server.db.statusOf "b")) =
      some (some "b", true, 1, 1, .failed, some .pending) := rfl
  obtain ⟨s, hs, h⟩ := Option.bind_eq_some_iff.mp h
  obtain ⟨c, hc, h⟩ := Option.map_eq_some_iff.mp h
  simp only [Prod.mk.injEq] at h
  obtain ⟨hb, hend, hlen, hone, hfail, hst⟩ := h
  have hfailed : (s.jobs 0).state = .failed := JobState.eq_of_status hfail (by decide)
  exact ⟨s, c, ⟨_, _, _, exec_eq_some.mp hs⟩, hc, hb, hend, hlen, hone, hfailed, hst⟩

end Pipeline

end DocClassifier
