import DocClassifier.Statuses

/-!
# What `done` promises

The first job of a batch that finishes makes the batch `done`, whatever the others do. With a
barrier in front of `mark_done`, where the jobs of a batch wait until all of its files are enqueued
and all of them have come this far, the batch has a prediction for each of its files when it is
`done` (`Pipeline.done_rows`).
-/

namespace DocClassifier
open ReadCommitted Transition Prog BlobStorage

def Op.isMarkDone : Op → Bool
  | .tx (.markDone _) => true
  | _ => false

/-- The thread has come to its call of `mark_done`: the call is its next operation, it is in the
transaction of the call, or the call has been answered. -/
def Thread.atMarkDone {α : Type} : Thread α → Bool
  | .run H (.op o _) => o.isMarkDone || H.any (·.1.isMarkDone)
  | .run H _ => H.any (·.1.isMarkDone)
  | .tx H s _ _ => (Op.tx s).isMarkDone || H.any (·.1.isMarkDone)

/-- The job is running and has come to its call of `mark_done`, or it has returned. -/
def JobRun.atMarkDone (j : JobRun) : Bool :=
  match j.state with
  | .running th => th.atMarkDone
  | .returned => true
  | .queued | .failed => false

section
variable {job : Job} {H : History}

/-- The job has saved its row when it may begin its `mark_done`. -/
theorem NextTx.saves_ne_nil {b : String} (h : NextTx job (txs H) (.markDone b)) :
    saves H ≠ [] := by
  generalize hts : txs H = ts at h
  cases h with
  | @markDone r data cm =>
    have hmem : (⟨.tx (.savePrediction job.batchId data), .ok cm⟩ : Done Op.Answer Exn) ∈ H :=
      mem_txs.mp (by rw [hts]; exact List.mem_of_getLast? rfl)
    exact List.ne_nil_of_mem (mem_saves.mpr ⟨_, _, _, hmem, rfl⟩)

theorem saves_of_isMarkDone {o : Op} (hmay : JobMay job H o)
    (h : o.isMarkDone = true) : saves H ≠ [] := by
  cases o with
  | io => cases h
  | tx s =>
    cases s with
    | markDone => exact NextTx.saves_ne_nil hmay.1
    | createBatch | markProcessing | savePrediction => cases h

theorem saves_of_any_isMarkDone (ha : Along (contract (JobMay job)) H)
    (h : H.any (·.1.isMarkDone) = true) : saves H ≠ [] := by
  obtain ⟨d, hd, hmark⟩ := List.any_eq_true.mp h
  obtain ⟨H₁, H₂, rfl⟩ := List.append_of_mem hd
  rw [saves_append]
  exact fun hnil => saves_of_isMarkDone (ha H₁ d H₂ rfl).1 hmark (List.append_eq_nil_iff.mp hnil).1

end

namespace Pipeline

/-- The job whose COMMIT of `mark_done` the event executes, with the batch. -/
def doneBy (s : Pipeline) : Event → Option (Nat × String)
  | .job n (.ok _) => match (s.jobs n).state with
    | .running (.tx _ (.markDone b) ⟨.ret _, _⟩ _) => some (n, b)
    | _ => none
  | _ => none

/-- All files of the batch are enqueued, and all its jobs but `n` have come to their `mark_done`. -/
def AtBarrier (s : Pipeline) (n : Nat) (b : String) : Prop :=
  (∃ row ∈ s.world.server.db.batches.rows, row.id = b ∧ s.jobsOf b = row.fileCount) ∧
    ∀ m < s.world.queue.length, m ≠ n → s.world.queue[m]?.map (·.batchId) = some b →
      (s.jobs m).atMarkDone = true

instance (s : Pipeline) (n : Nat) (b : String) : Decidable (s.AtBarrier n b) :=
  inferInstanceAs (Decidable (_ ∧ _))

/-- The event commits no `mark_done` but that of a job whose batch is at the barrier. -/
def BarrierHeld (s : Pipeline) (e : Event) : Prop := ∀ p ∈ s.doneBy e, s.AtBarrier p.1 p.2

instance (s : Pipeline) (e : Event) : Decidable (s.BarrierHeld e) :=
  inferInstanceAs (Decidable (∀ p ∈ s.doneBy e, s.AtBarrier p.1 p.2))

variable {C : Classifier} {s s' : Pipeline} {e : Event} {n : Nat} {b : String}

/-- A job that has come to its `mark_done` has saved its row. -/
theorem Kept.saves_of_atMarkDone (K : s.Kept) {job : Job} (hn : s.world.queue[n]? = some job)
    (h : (s.jobs n).atMarkDone = true) : saves (s.record (.job n)) ≠ [] := by
  have hjob := K.jobs n job hn
  rw [record, JobRun.record, saves_append]
  rw [JobRun.atMarkDone] at h
  split at h
  · rename_i th hth
    have hsaved : saves th.hist ≠ [] := by
      have H := (hjob.running th hth).1
      have ha := H.along
      cases th with
      | run H' p =>
        cases p with
        | op o k =>
          rcases Bool.or_eq_true_iff.mp h with h | h
          · exact saves_of_isMarkDone H.2.1 h
          · exact saves_of_any_isMarkDone ha h
        | ret | raise => exact saves_of_any_isMarkDone ha h
      | tx H' sc t k =>
        rcases Bool.or_eq_true_iff.mp h with h | h
        · exact saves_of_isMarkDone H.2.1 h
        · exact saves_of_any_isMarkDone ha h
    have hhist : (s.jobs n).hist = th.hist := by simp [JobRun.hist, hth]
    rw [hhist]
    exact fun hnil => hsaved (List.append_eq_nil_iff.mp hnil).2
  · rename_i hret
    obtain ⟨H, hH, r, r', data, cm, -, -, -, htxs⟩ := hjob.returned hret
    have hd : (⟨.tx (.savePrediction job.batchId data), .ok cm⟩ : Done Op.Answer Exn) ∈ H :=
      mem_txs.mp (by simp [htxs])
    have hmem := mem_saves.mpr ⟨_, _, _, List.mem_flatten.mpr ⟨H, hH, hd⟩, rfl⟩
    exact fun hnil => List.ne_nil_of_mem hmem (List.append_eq_nil_iff.mp hnil).1
  · cases h
  · cases h

/-- Every job of a batch that is `done` has saved a row, and there is one for each file. -/
def DoneSaved (s : Pipeline) : Prop :=
  ∀ b k, HasBatch s.world.server.db b k → s.world.server.db.statusOf b = some .done →
    s.jobsOf b = k ∧ ∀ n job, s.world.queue[n]? = some job → job.batchId = b →
      saves (s.record (.job n)) ≠ []

theorem HasBatch.unique {db : Tables} {k k' : Nat} (h : HasBatch db b k) (h' : HasBatch db b k') :
    k = k' := by
  obtain ⟨row, hrow, rfl⟩ := h
  obtain ⟨row', hrow', rfl⟩ := h'
  rw [hrow] at hrow'
  cases hrow'
  rfl

theorem Sound.jobsOf_le (S : s.Sound) {k : Nat} (h : HasBatch s.world.server.db b k) :
    s.jobsOf b ≤ k := by
  obtain ⟨row, hrow, rfl⟩ := h
  obtain ⟨i, c, hc, hb, hn⟩ := S.call_of_row hrow
  have hle := (S.keys_sublist hc hb).length_le
  rw [List.length_map, List.length_map] at hle
  rw [hn, S.jobsOf_eq hc hb]
  exact hle

theorem Kept.saves_mono (K : s.Kept) (h : s.step C e = some s')
    (hs : saves (s.record (.job n)) ≠ []) : saves (s'.record (.job n)) ≠ [] := by
  cases K.moves h with
  | silent hrec => rwa [hrec]
  | @answered pid d hrec =>
    rw [hrec, Function.update_apply]
    split
    · rename_i hp
      rw [← hp, saves_append]
      exact fun hnil => hs (List.append_eq_nil_iff.mp hnil).1
    · exact hs

theorem Sound.hasBatch_step (S : s.Sound) (h : s.step C e = some s') {k : Nat}
    (hb : HasBatch s.world.server.db b k) : HasBatch s'.world.server.db b k := by
  cases S.kept.moves h with
  | silent _ hdb => rwa [hdb]
  | @answered pid d _ _ heff => exact heff.hasBatch (S.locked pid).2 hb

theorem hasBatch_of_statusOf {db : Tables} {st : BatchStatus} (h : db.statusOf b = some st) :
    ∃ k, HasBatch db b k := by
  obtain ⟨row, hrow, -⟩ := Option.map_eq_some_iff.mp h
  exact ⟨_, row, hrow, rfl⟩

/-- An event that adds the commit of a `mark_done` to the record of a job executes that commit. -/
theorem doneBy_of_record (h : s.step C e = some s') {cm : Committed Batch}
    (hrec : s'.record (.job n) = s.record (.job n) ++ [⟨.tx (.markDone b), .ok cm⟩]) :
    s.doneBy e = some (n, b) := by
  have hnot : s'.record (.job n) ≠ s.record (.job n) := by
    rw [hrec]
    simp
  cases jobMove h n with
  | idle heq => exact (hnot (by rw [record, record, heq])).elim
  | started _ hs heq | retried hs heq =>
    refine (hnot ?_).elim
    rw [record, record, heq]
    simp [JobRun.record, JobRun.hist, hs, Thread.hist]
  | killed hs heq =>
    refine (hnot ?_).elim
    rw [record, record, heq]
    simp [JobRun.record, JobRun.hist, hs]
  | @stepped tick th th' _ hs ht heq =>
    have hhist : th'.hist = th.hist ++ [⟨.tx (.markDone b), .ok cm⟩] := by
      rw [record, record, heq, JobRun.record_next, JobRun.record] at hrec
      have hcur : (s.jobs n).hist = th.hist := by simp [JobRun.hist, hs]
      rw [hcur, List.append_assoc] at hrec
      exact List.append_cancel_left hrec
    obtain ⟨g, H, ws, k, rfl, rfl⟩ := Thread.step_commit ht hhist
    simp [doneBy, hs]

theorem DoneSaved.step (H : s.DoneSaved) (S : s.Sound) (h : s.step C e = some s')
    (hbarrier : s.BarrierHeld e) : s'.DoneSaved := by
  intro b k hb hdone
  have S' := S.step h
  -- The jobs that were there before have saved a row.
  have hold : s.jobsOf b = k ∧ ∀ n job, s.world.queue[n]? = some job → job.batchId = b →
      saves (s'.record (.job n)) ≠ [] := by
    cases S.statusMove h b with
    | same heq =>
      have hdone' := heq.symm.trans hdone
      obtain ⟨k', hb'⟩ := hasBatch_of_statusOf hdone'
      obtain rfl := HasBatch.unique (S.hasBatch_step h hb') hb
      obtain ⟨hcount, hsaved⟩ := H b k' hb' hdone'
      exact ⟨hcount, fun n job hn hjob => S.kept.saves_mono h (hsaved n job hn hjob)⟩
    | created _ hnew => cases hnew.symm.trans hdone
    | @marked n job sc m th cm hn hjob hm hs hnext hrec hnew =>
      cases hm with
      | processing => cases hnew.symm.trans hdone
      | done =>
        have hby := doneBy_of_record h hrec
        obtain ⟨⟨row, hrow, hid, hcount⟩, hothers⟩ := hbarrier _ hby
        have hb' : HasBatch s.world.server.db b row.fileCount :=
          ⟨row, Table.find?_eq_some.mpr ⟨hrow, hid⟩, rfl⟩
        obtain rfl := HasBatch.unique (S.hasBatch_step h hb') hb
        refine ⟨hcount, fun n' job' hn' hjob' => S.kept.saves_mono h ?_⟩
        by_cases hne : n' = n
        · -- The job that makes the batch `done` has saved its own row.
          subst hne
          have hhist : (s.jobs n').hist = th.hist := by simp [JobRun.hist, hs]
          rw [record, JobRun.record, hhist, saves_append]
          exact fun hnil => hnext.saves_ne_nil (List.append_eq_nil_iff.mp hnil).2
        · refine S.kept.saves_of_atMarkDone hn' ?_
          exact hothers n' (List.getElem?_eq_some_iff.mp hn').1 hne (by rw [hn', ← hjob']; rfl)
  obtain ⟨D, hD⟩ := step_queue h
  have hcount : s'.jobsOf b = s.jobsOf b + D.countP (·.batchId = b) := by
    rw [jobsOf, ← hD, List.countP_append]
    rfl
  have hle := S'.jobsOf_le hb
  refine ⟨by omega, fun n job hn hjob => ?_⟩
  rw [← hD, List.getElem?_append] at hn
  split at hn
  · exact hold.2 n job hn hjob
  · -- There is no room for another job of the batch.
    have hpos : 0 < D.countP (·.batchId = b) :=
      List.countP_pos_iff.mpr ⟨job, List.mem_of_getElem? hn, by simpa using hjob⟩
    omega

end Pipeline

namespace Pipeline

variable {C : Classifier} {s s' : Pipeline} {i : Nat} {c : IngestCall} {b : String}

/-- When every file has a job, the keys of the jobs are those of the files. -/
theorem Sound.keys_eq (S : s.Sound) (hc : s.calls[i]? = some c)
    (hb : batchOf c.thread.hist = some b) (h : s.jobsOf b = c.files.length) :
    (enqueued c.thread.hist).map (·.blobKey) = c.files.map (originalKey b) := by
  refine (S.keys_sublist hc hb).eq_of_length ?_
  rw [List.length_map, List.length_map, ← S.jobsOf_eq hc hb, h]

/-- In a run in which the jobs of a batch wait for each other before `mark_done`, a batch that is
`done` has a row for each file of the call that created it. -/
theorem done_rows {users : Table String UserORM (·.id)}
    {dropZone : Table String RemoteFile (·.filename)} {es : List Event} {row : Batch}
    (h : Run (Meeting BarrierHeld (Steps (step C))) (start users dropZone) es s)
    (hrow : s.world.server.db.batches.find? b = some row) (hdone : row.status = .done) :
    ∃ (i : Nat) (c : IngestCall), s.calls[i]? = some c ∧ batchOf c.thread.hist = some b ∧
      row.fileCount = c.files.length ∧ ∀ f,
        c.files.count f ≤ s.world.server.db.predictions.rows.countP fun p =>
          p.batchId = b ∧ p.blobKey = originalKey b f := by
  have hinv : s.Sound ∧ s.DoneSaved := by
    refine h.inv (I := fun s => s.Sound ∧ s.DoneSaved) ?_ ⟨.start users dropZone, nofun⟩
    rintro s e t ⟨hs, ht⟩ ⟨hstep, hbarrier⟩
    exact ⟨hs.step hstep, ht.step hs hstep hbarrier⟩
  obtain ⟨S, D⟩ := hinv
  obtain ⟨i, c, hc, hb, hn⟩ := S.call_of_row hrow
  obtain ⟨hcount, hsaved⟩ := D b c.files.length ⟨row, hrow, hn⟩
    (by simp [Tables.statusOf, hrow, hdone])
  refine ⟨i, c, hc, hb, hn, fun f => ?_⟩
  calc c.files.count f
      ≤ (c.files.map (originalKey b)).count (originalKey b f) := List.count_le_count_map
    _ = (enqueued c.thread.hist).countP (fun job => job.blobKey = originalKey b f) := by
        rw [← S.keys_eq hc hb hcount, List.count, List.countP_map]
        rfl
    _ = s.world.queue.countP (fun job => job.batchId = b ∧ job.blobKey = originalKey b f) := by
        rw [← record_call hc, ← S.queue.jobs i b (record_call hc ▸ hb), List.countP_filter]
        refine List.countP_congr fun job _ => ?_
        simp [and_comm]
    _ ≤ ((List.range s.world.queue.length).flatMap fun n => saves (s.record (.job n))).countP
          (fun p => p.batchId = b ∧ p.blobKey = originalKey b f) := by
        refine countP_le_flatMap fun n job hn hjob => ?_
        have hjob' : job.batchId = b ∧ job.blobKey = originalKey b f := by simpa using hjob
        obtain ⟨p, hp⟩ := List.exists_mem_of_ne_nil _ (hsaved n job hn hjob'.1)
        have hrow := S.saved.row n job hn p hp
        refine ⟨p, hp, ?_⟩
        simp [hrow.batchId, hrow.blobKey, hjob']
    _ = s.world.server.db.predictions.rows.countP _ := (S.saved.perm.countP_eq _).symm

set_option maxRecDepth 100000 in
/-- The second job waits in front of its `mark_done`, and so does the first one for the second. -/
theorem done_rows_twoScans : ∃ es s row,
    Run (Meeting BarrierHeld (Steps (step letters))) (start .empty twoScans) es s ∧
    s.world.server.db.batches.find? "b" = some row ∧ row.status = .done ∧ row.fileCount = 2 ∧
    ∃ (i : Nat) (c : IngestCall), s.calls[i]? = some c ∧ batchOf c.thread.hist = some "b" ∧
      row.fileCount = c.files.length ∧ ∀ f,
        c.files.count f ≤ s.world.server.db.predictions.rows.countP fun p =>
          p.batchId = "b" ∧ p.blobKey = originalKey "b" f := by
  have h : (exec (fun s e => if s.BarrierHeld e then step letters s e else none)
      (start .empty twoScans) (.poll :: .replicate 19 (.ingest 0 (ok "b")) ++
        .start 0 :: .start 1 :: .replicate 19 (.job 0 (ok "p")) ++
        .replicate 16 (.job 1 (ok "q")) ++
        .replicate 8 (.job 0 (ok "p")) ++ .replicate 3 (.job 1 (ok "q")))).bind (fun s =>
          (s.world.server.db.batches.find? "b").map fun row => (row.status, row.fileCount)) =
      some (.done, 2) := by decide
  obtain ⟨s, hs, h⟩ := Option.bind_eq_some_iff.mp h
  obtain ⟨row, hrow, h⟩ := Option.map_eq_some_iff.mp h
  obtain ⟨hdone, hcount⟩ := Prod.mk.inj h
  have hrun := run_of_exec hs
  exact ⟨_, s, row, hrun, hrow, hdone, hcount, done_rows hrun hrow hdone⟩

set_option maxRecDepth 100000 in
/-- The job of the first file makes the batch `done` before the job of the second has started. -/
theorem done_without_row : ∃ s c row, Reachable letters s ∧ s.calls[0]? = some c ∧
    batchOf c.thread.hist = some "b" ∧ s.world.server.db.batches.find? "b" = some row ∧
    row.status = .done ∧ row.fileCount = 2 ∧ "b.tif" ∈ c.files ∧
    ∀ p ∈ s.world.server.db.predictions.rows, p.filename ≠ "b.tif" := by
  have h : (exec (step letters) (start .empty twoScans)
      (.poll :: .replicate 19 (.ingest 0 (ok "b")) ++ .start 0 ::
        .replicate 24 (.job 0 (ok "p")))).bind (fun s => s.calls[0]?.bind fun c =>
          (s.world.server.db.batches.find? "b").map fun row =>
            (batchOf c.thread.hist, row.status, row.fileCount, c.files,
              s.world.server.db.predictions.rows.map (·.filename))) =
      some (some "b", .done, 2, ["a.tif", "b.tif"], ["a.tif"]) := rfl
  obtain ⟨s, hs, h⟩ := Option.bind_eq_some_iff.mp h
  obtain ⟨c, hc, h⟩ := Option.bind_eq_some_iff.mp h
  obtain ⟨row, hrow, h⟩ := Option.map_eq_some_iff.mp h
  simp only [Prod.mk.injEq] at h
  obtain ⟨hb, hdone, hn, hfiles, hrows⟩ := h
  refine ⟨s, c, row, ⟨_, _, _, exec_eq_some.mp hs⟩, hc, hb, hrow, hdone, hn, by simp [hfiles], ?_⟩
  intro p hp hname
  have hmem := List.mem_map_of_mem (f := (·.filename)) hp
  rw [hrows, hname] at hmem
  exact absurd hmem (by decide)

end Pipeline

end DocClassifier
