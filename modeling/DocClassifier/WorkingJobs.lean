import DocClassifier.FailureFree
import DocClassifier.Working

/-!
# A job alone

What a classify job does when it is alone in the world and all services work: it returns, whatever
the status of its batch is, as long as its document is there, the model can read it and the overlay
is not too large.
-/

namespace DocClassifier
open ReadCommitted BlobStorage Prog BatchService

section
variable {C : Classifier} {gens : Nat → Gen} {l : Live} {b : String}

/-- A transition that is allowed. -/
theorem mark_run {m : Mark} {g : Gen} {db : Tables} {row : Batch}
    (hrow : db.batches.find? b = some row)
    (hst : row.status ∈ m.allowed) : (m.block g b).run postgres db none [] =
      (.ok ⟨{ row with status := m.newStatus }, [batchKey b, BATCHES_LIST_KEY]⟩,
        { db with
          batches := db.batches.modify b (fun b => { b with status := m.newStatus }) fun _ => rfl
          auditLogs := db.auditLogs ++ [stateChange g b row.status m.newStatus] }) := by
  have hnew : (applyStmt (.updateStatus b m.newStatus) db).batches.find? b =
      some { row with status := m.newStatus } := by
    simp [applyStmt, Table.find?_modify, hrow]
  have hcheck : checkStmt (.insertAuditLog (stateChange g b row.status m.newStatus))
      (applyStmt (.updateStatus b m.newStatus) db) = none :=
    checkStmt_insertAuditLog.mpr (by simp [stateChange])
  rw [Mark.block_eq, transition_eq, Tx.run_select, Backend.view_nil, hrow]
  dsimp only
  rw [if_neg (not_not.mpr hst), transitionWrite, Tx.run_exec, List.nil_append, Backend.view_nil,
    Backend.view_cons, Backend.view_nil, postgres_apply, hnew]
  dsimp only [postgres_check, checkStmt]
  rw [Tx.run_exec, Backend.view_cons, Backend.view_nil, postgres_check, postgres_apply, hcheck]
  rfl

/-- A transition that is refused. -/
theorem mark_run_refused {m : Mark} {g : Gen} {db : Tables} {row : Batch}
    (hrow : db.batches.find? b = some row) (hst : row.status ∉ m.allowed) :
    ∃ msg, (m.block g b).run postgres db none [] = (.error (.invalidStateTransition msg), db) := by
  rw [Mark.block_eq, transition_eq, Tx.run_select, Backend.view_nil, hrow]
  dsimp only
  rw [if_pos hst]
  exact ⟨_, Tx.run_raise⟩

/-- The transition of a job changes neither the predictions nor the ids of the batches. -/
theorem returns_skip {s : ServiceCall} {m : Mark} (hm : MarkCall s m b)
    (hb : l.world.server.db.batches.find? b ≠ none) :
    Returns (working C gens) (skipInvalidStateTransition (service s)) l fun _ l' =>
      ∃ db, l'.world = l.world.withDb db ∧ db.predictions = l.world.server.db.predictions ∧
        db.batches.find? b ≠ none := by
  obtain ⟨row, hrow⟩ := Option.ne_none_iff_exists'.mp hb
  rw [skipInvalidStateTransition]
  by_cases hst : row.status ∈ m.allowed
  · have hrun := mark_run (g := gens l.next) hrow hst
    have hfind : (l.world.server.db.batches.modify b (fun b => { b with status := m.newStatus })
        fun _ => rfl).find? b ≠ none := by
      simp [Table.find?_modify, hrow]
    refine returns_bind.mpr (Returns.attempt ?_)
    cases hm with
    | processing | done =>
      exact returns_service hrun (returns_ret.mpr ⟨_, rfl, rfl, hfind⟩)
  · obtain ⟨msg, hrun⟩ := mark_run_refused (g := gens l.next) hrow hst
    have hinterp : (service s).interp (working C gens) l =
        (.error (.invalidStateTransition msg), ⟨l.world, l.next + 1⟩) := by
      cases hm with
      | processing | done =>
        have hblock : ((Mark.block _ (gens l.next) b).run postgres l.world.server.db none []) =
          (.error (.invalidStateTransition msg), l.world.server.db) := hrun
        rw [service, interp_bind, interp_call, working]
        dsimp only [ServiceCall.block, Mark.block] at hblock ⊢
        rw [hblock]
        rfl
    refine returns_bind.mpr (returns_attempt.mpr ?_)
    rw [hinterp]
    exact returns_ret.mpr ⟨l.world.server.db, rfl, rfl, hb⟩

theorem savePrediction_run {g : Gen} {data : PredictionCreate} {db : Tables}
    (hid : db.predictions.find? g.uuid = none) (hb : db.batches.find? b ≠ none) :
    (PredictionService.savePrediction g b data).run postgres db none [] =
      (.ok ⟨PredictionService.newPrediction g b data,
        [PREDICTIONS_RECENT_KEY, batchKey b, predictionsBatchKey b]⟩,
        { db with predictions :=
            db.predictions.insert (PredictionService.newPrediction g b data) }) := by
  have hcheck : checkStmt (.insertPrediction (PredictionService.newPrediction g b data))
      db = none :=
    checkStmt_insertPrediction.mpr ⟨hid, Option.isSome_iff_ne_none.mpr hb⟩
  rw [PredictionService.savePrediction_eq, Tx.run_exec, Backend.view_nil, postgres_check, hcheck]
  rfl

theorem returns_persistAsync {a : PersistArgs}
    (hid : ∀ n, l.world.server.db.predictions.find? (gens n).uuid = none)
    (hb : l.world.server.db.batches.find? a.batchId ≠ none) :
    Returns (working C gens) (persistAsync a) l fun _ l' => ∃ db, l'.world = l.world.withDb db := by
  refine Returns.andFinally (returns_bind.mpr
    ((returns_skip .processing hb).mono fun _ l1 h1 => ?_))
  obtain ⟨db1, hw1, hp1, hb1⟩ := h1
  have hid1 : l1.world.server.db.predictions.find? (gens l1.next).uuid = none := by
    rw [hw1]
    exact hp1 ▸ hid l1.next
  have hb1' : l1.world.server.db.batches.find? a.batchId ≠ none := by
    rw [hw1]
    exact hb1
  refine returns_bind.mpr (returns_service (savePrediction_run hid1 hb1') ?_)
  refine (returns_skip .done ?_).mono fun _ l3 h3 => ?_
  · exact hb1'
  obtain ⟨db3, hw3, -, -⟩ := h3
  refine returns_io (a := ()) rfl ⟨db3, ?_⟩
  rw [hw3, hw1]
  rfl

/-- A job that is alone returns; it puts its overlay and changes the tables, and nothing else. -/
theorem returns_classify {job : Job} {data : Bytes} (hget : l.world.blobs job.blobKey = some data)
    (hfits : C.Fits data) (hid : ∀ n, l.world.server.db.predictions.find? (gens n).uuid = none)
    (hb : l.world.server.db.batches.find? job.batchId ≠ none) :
    Returns (working C gens) (classify job) l fun _ l' => ∃ db overlayBytes,
      l'.world = { l.world.withDb db with
        blobs := Function.update l.world.blobs
          (overlayKey job.batchId (rsplitLast job.blobKey)) (some overlayBytes) } := by
  obtain ⟨label, confidence, overlayBytes, hpredict, hdraw, hle⟩ := hfits.predict
  rw [classify]
  refine returns_bind.mpr (returns_io (a := ()) rfl ?_)
  refine returns_bind.mpr (returns_io (a := ()) rfl ?_)
  have hdownload : (perform C l.world (gens (l.next + 1 + 1)) (.getObject job.blobKey)).1 =
      .ok data := by
    simp only [perform, hget]
  refine returns_bind.mpr (returns_bind.mpr (Returns.attempt (returns_io hdownload ?_)))
  refine returns_ret.mpr (returns_bind.mpr (returns_io (perform_predict.mpr hpredict) ?_))
  dsimp only [perform]
  refine returns_bind.mpr (returns_io (perform_drawOverlay.mpr hdraw) ?_)
  dsimp only [perform]
  refine returns_bind.mpr (returns_upload hle ?_)
  dsimp only
  refine returns_bind.mpr (Returns.mono (returns_persistAsync ?_ ?_) fun _ l' h => ?_)
  · exact hid
  · exact hb
  obtain ⟨db, hw⟩ := h
  exact returns_ret.mpr ⟨db, overlayBytes, hw⟩

end

end DocClassifier
