import DocClassifier.Restarts
import DocClassifier.Statuses

/-!
# Steps without a failure

When the services answer, new ids are new and the files are valid, a poll meets none of its exits
and a job meets no trouble. A transition of a job can still be refused, which the job gets over.
-/

namespace DocClassifier
open ReadCommitted Transition Prog BlobStorage BatchService

/-- The overlay that a job draws for an image. -/
def Classifier.overlay (C : Classifier) (imageBytes : Bytes) : Option Bytes := do
  let (label, confidence) ← C.predict imageBytes
  C.drawOverlay imageBytes label confidence

/-- The model classifies the image, and its overlay is not over the size cap of the objects. -/
def Classifier.Fits (C : Classifier) (imageBytes : Bytes) : Prop :=
  ∃ overlayBytes ∈ C.overlay imageBytes, overlayBytes.length ≤ MAX_FILE_BYTES

instance (C : Classifier) (imageBytes : Bytes) : Decidable (C.Fits imageBytes) :=
  inferInstanceAs (Decidable (∃ overlayBytes ∈ C.overlay imageBytes,
    overlayBytes.length ≤ MAX_FILE_BYTES))

theorem Classifier.Fits.predict {C : Classifier} {imageBytes : Bytes} (h : C.Fits imageBytes) :
    ∃ label confidence overlayBytes, C.predict imageBytes = some (label, confidence) ∧
      C.drawOverlay imageBytes label confidence = some overlayBytes ∧
      overlayBytes.length ≤ MAX_FILE_BYTES := by
  obtain ⟨overlayBytes, hoverlay, hle⟩ := h
  obtain ⟨⟨label, confidence⟩, hpredict, hdraw⟩ := Option.bind_eq_some_iff.mp hoverlay
  exact ⟨label, confidence, overlayBytes, hpredict, hdraw, hle⟩

/-- A file that the watcher accepts: not empty, at most 100 MB, and a TIFF by its name. -/
def ValidFile (file : RemoteFile) : Prop :=
  file.content ≠ [] ∧ file.content.length ≤ MAX_FILE_BYTES ∧ '/' ∉ file.filename.toList ∧
    lower (PurePosixPath.suffix file.filename) ∈ VALID_EXTENSIONS

instance (file : RemoteFile) : Decidable (ValidFile file) := instDecidableAnd

/-- The bytes are those of a file of the drop zone. -/
def Content (dropZone : Table String RemoteFile (·.filename)) (data : Bytes) : Prop :=
  ∃ file ∈ dropZone.rows, file.content = data

instance (w : Stmt) (t : Tables) : Decidable (FreshKey w t) :=
  match w with
  | .insertBatch b => decidable_of_iff _ (Option.isNone_iff_eq_none (o := t.batches.find? b.id))
  | .insertPrediction p =>
    decidable_of_iff _ (Option.isNone_iff_eq_none (o := t.predictions.find? p.id))
  | .insertUser _ | .updateRole .. | .deleteUser _ | .updateStatus .. | .relabel ..
  | .insertAuditLog _ => .isTrue trivial

namespace Thread

variable {α : Type}

/-- The next statement of the thread inserts no row under a key that is taken. -/
def KeyFree (db : Tables) : Thread α → Prop
  | .tx _ _ ⟨.exec w _, _⟩ _ => FreshKey w db
  | _ => True

instance (db : Tables) (th : Thread α) : Decidable (th.KeyFree db) :=
  match th with
  | .tx _ _ ⟨.exec w _, _⟩ _ => inferInstanceAs (Decidable (FreshKey w db))
  | .tx _ _ ⟨.ret _, _⟩ _ | .tx _ _ ⟨.raise _, _⟩ _ | .tx _ _ ⟨.select _, _⟩ _ | .run .. =>
    .isTrue trivial

/-- The thread raises in a transaction only when a transition is refused. -/
def Sane : Thread α → Prop
  | .run .. => True
  | .tx _ _ t _ => ∀ e, t.rest = .raise e → ∃ msg, e = .invalidStateTransition msg

/-- What a step without failure can do. -/
inductive OkStep (C : Classifier) (pid : Pid) (w : World) (g : Gen) :
    Thread α → World → Thread α → Prop
  | begin {H : History} {s : ServiceCall} {k : Except Exn (Committed s.Result) → Proc α} :
      OkStep C pid w g (.run H (.op (.tx s) k)) w (.tx H s ⟨s.block g, []⟩ k)
  | io {H : History} {i : Io} {k : Except Exn i.Answer → Proc α} :
      OkStep C pid w g (.run H (.op (.io i) k)) (perform C w g i).2
        (.run (H ++ [⟨.io i, (perform C w g i).1⟩]) (k (perform C w g i).1))
  | stmt {H : History} {s : ServiceCall} {t : Txn Tables Stmt Exn (Committed s.Result)}
      {k : Except Exn (Committed s.Result) → Proc α} {server : Server Tables Row Pid}
      {r : Reply Tables Stmt Exn (Committed s.Result)} :
      w.server.stmt postgres pid t = some (server, r) →
      OkStep C pid w g (.tx H s t k) { w with server } (ofReply H s k r)

theorem step_ok {C : Classifier} {pid : Pid} {w w' : World} {th th' : Thread α} {g : Gen}
    (h : th.step C pid w (.ok g) = some (w', th')) : OkStep C pid w g th w' th' := by
  cases th with
  | run H p =>
    cases p with
    | ret a => cases h
    | raise e => cases h
    | op o k => cases o <;> cases h <;> constructor
  | tx H s t k =>
    obtain ⟨⟨server, r⟩, hs, heq⟩ := Option.map_eq_some_iff.mp h
    cases heq
    exact .stmt hs

end Thread

/-! ## Jobs -/

/-- The answers of a job so far: no trouble, the bytes of files, the predictions of the model. -/
structure JobGood (C : Classifier) (dropZone : Table String RemoteFile (·.filename)) (H : History) :
    Prop where
  calm : ∀ d ∈ H, ¬ Trouble d
  read : ∀ key x, ⟨.io (.getObject key), .ok x⟩ ∈ H → Content dropZone x
  predicted : ∀ x r, ⟨.io (.predict x), .ok r⟩ ∈ H → C.predict x = some r

section
variable {C : Classifier} {dropZone : Table String RemoteFile (·.filename)} {H : History}
  {d : Done Op.Answer Exn} {g : Gen} {b : String} {s s' : Server Tables Row Pid}
  {pid : Pid} {e : Exn}

theorem JobGood.nil : JobGood C dropZone [] :=
  ⟨fun _ hd => (List.not_mem_nil hd).elim, fun _ _ hd => (List.not_mem_nil hd).elim,
    fun _ _ hd => (List.not_mem_nil hd).elim⟩

theorem JobGood.snoc (h : JobGood C dropZone H) (hd : ¬ Trouble d)
    (hr : ∀ key x, d = ⟨.io (.getObject key), .ok x⟩ → Content dropZone x)
    (hp : ∀ x r, d = ⟨.io (.predict x), .ok r⟩ → C.predict x = some r) :
    JobGood C dropZone (H ++ [d]) := by
  refine ⟨?_, fun key x hx => ?_, fun x r hx => ?_⟩
  · exact List.forall_mem_append.mpr ⟨h.calm, List.forall_mem_singleton.mpr hd⟩
  · rcases List.mem_append.mp hx with hx | hx
    · exact h.read key x hx
    · exact hr key x (List.mem_singleton.mp hx).symm
  · rcases List.mem_append.mp hx with hx | hx
    · exact h.predicted x r hx
    · exact hp x r (List.mem_singleton.mp hx).symm

theorem JobGood.tx (h : JobGood C dropZone H) {sc : ServiceCall}
    {r : Except Exn (Committed sc.Result)} (hr : ¬ Trouble ⟨.tx sc, r⟩) :
    JobGood C dropZone (H ++ [⟨.tx sc, r⟩]) :=
  h.snoc hr (by rintro _ _ ⟨⟩) (by rintro _ _ ⟨⟩)

/-- A `save_prediction` in progress: before its INSERT or before its COMMIT. -/
theorem save_inside {data : PredictionCreate} {t : Txn Tables Stmt Exn (Committed Prediction)}
    (h : Inside (PredictionService.savePrediction g b data) t) :
    t = ⟨PredictionService.savePrediction g b data, []⟩ ∨ ∃ c, t.rest = .ret c := by
  induction h with
  | start => exact .inl rfl
  | select _ _ ih =>
    rcases ih with heq | ⟨c, heq⟩
    · cases (Txn.mk.inj heq).1
    · cases heq
  | exec _ _ ih =>
    rcases ih with heq | ⟨c, heq⟩
    · obtain ⟨hk, rfl⟩ := Txn.mk.inj heq
      rw [PredictionService.savePrediction_eq] at hk
      obtain ⟨rfl, rfl⟩ := Tx.exec.inj hk
      exact .inr ⟨_, rfl⟩
    · cases heq

theorem save_not_aborted {data : PredictionCreate}
    {t : Txn Tables Stmt Exn (Committed Prediction)}
    (hi : Inside (PredictionService.savePrediction g b data) t) (hb : s.db.batches.find? b ≠ none)
    (hfree : ∀ w k, t.rest = .exec w k → FreshKey w s.db)
    (h : s.stmt postgres pid t = some (s', .aborted e)) : False := by
  rcases save_inside hi with rfl | ⟨c, hc⟩
  · rw [PredictionService.savePrediction_eq] at h hfree
    cases Server.stmt_cases h with
    | rollback hr => cases hr
    | violation hr hv =>
      obtain ⟨rfl, -⟩ := Tx.exec.inj hr
      have hnone : checkStmt (.insertPrediction (PredictionService.newPrediction g b data)) s.db =
          none := by
        rw [checkStmt_insertPrediction]
        exact ⟨hfree _ _ rfl, Option.isSome_iff_ne_none.mpr hb⟩
      cases hnone.symm.trans hv
  · cases Server.stmt_cases h with
    | rollback hr | violation hr => cases hc.symm.trans hr

end

section

variable {C : Classifier} {pid : Pid} {w w' : World} {g : Gen} {job : Job}
  {dropZone : Table String RemoteFile (·.filename)} {th th' : Thread ClassifyResult}

/-- The operations of a job succeed. -/
theorem JobGood.io {H : History} {i : Io} (hgood : JobGood C dropZone H)
    (hmay : JobMay job H (.io i)) (hblob : ∃ x, w.blobs job.blobKey = some x ∧ Content dropZone x)
    (hfit : ∀ x, Content dropZone x → C.Fits x) :
    JobGood C dropZone (H ++ [⟨.io i, (perform C w g i).1⟩]) := by
  cases i with
  | cacheDelete | cacheClose | getClient | putObject =>
    exact hgood.snoc (by rintro ⟨⟩) (by rintro _ _ ⟨⟩) (by rintro _ _ ⟨⟩)
  | getObject key =>
    obtain rfl : key = job.blobKey := hmay
    obtain ⟨x, hx, hcontent⟩ := hblob
    have hok : (perform C w g (.getObject job.blobKey)).1 = .ok x := by simp [perform, hx]
    rw [hok]
    refine hgood.snoc (by rintro ⟨⟩) ?_ (by rintro _ _ ⟨⟩)
    rintro _ _ ⟨⟩
    exact hcontent
  | predict x =>
    obtain ⟨label, confidence, -, hpredict, -⟩ := (hfit x (hgood.read _ x hmay)).predict
    rw [perform_predict.mpr hpredict]
    refine hgood.snoc (by rintro ⟨⟩) (by rintro _ _ ⟨⟩) ?_
    rintro _ _ ⟨⟩
    exact hpredict
  | drawOverlay x label confidence =>
    obtain ⟨hread, hpred⟩ := hmay
    obtain ⟨_, _, overlayBytes, hpredict, hdraw, hle⟩ := (hfit x (hgood.read _ x hread)).predict
    cases (hgood.predicted x _ hpred).symm.trans hpredict
    rw [perform_drawOverlay.mpr hdraw]
    refine hgood.snoc ?_ (by rintro _ _ ⟨⟩) (by rintro _ _ ⟨⟩)
    rintro (- | - | - | hlarge)
    exact absurd hle (Nat.not_le.mpr hlarge)
  | uuid4 | statObject | sftpStat | sftpRead | enqueue | addSeen => exact hmay.elim

/-- The statements of a job succeed, but for a refused transition. -/
theorem not_trouble_stmt {s : ServiceCall} {ts : List TxDone}
    {t : Txn Tables Stmt Exn (Committed s.Result)} {server : Server Tables Row Pid} {e : Exn}
    (hnext : NextTx job ts s) (hi : Inside (s.block g) t)
    (hsane : ∀ e, t.rest = .raise e → ∃ msg, e = .invalidStateTransition msg)
    (hb : w.server.db.batches.find? job.batchId ≠ none)
    (hfree : ∀ st k, t.rest = .exec st k → FreshKey st w.server.db)
    (h : w.server.stmt postgres pid t = some (server, .aborted e)) :
    ¬ Trouble ⟨.tx s, .error e⟩ := by
  cases hnext with
  | markProcessing =>
    obtain ⟨msg, rfl⟩ := hsane e (BatchTransitions.aborted_raise (m := .processing) hi h)
    rintro (- | hp)
    exact hp trivial
  | savePrediction => exact (save_not_aborted hi hb hfree h).elim
  | markDone =>
    obtain ⟨msg, rfl⟩ := hsane e (BatchTransitions.aborted_raise (m := .done) hi h)
    rintro (- | hp)
    exact hp trivial

theorem sane_stmt {s : ServiceCall} {ts : List TxDone}
    {t t' : Txn Tables Stmt Exn (Committed s.Result)} {server : Server Tables Row Pid} {e : Exn}
    (hnext : NextTx job ts s) (hi : Inside (s.block g) t)
    (hb : w.server.db.batches.find? job.batchId ≠ none)
    (h : w.server.stmt postgres pid t = some (server, .running t')) (hr : t'.rest = .raise e) :
    ∃ msg, e = .invalidStateTransition msg := by
  cases hnext with
  | markProcessing => exact (BatchTransitions.running_raise (m := .processing) hi hb h hr).1
  | savePrediction =>
    rcases save_inside (hi.stmt h) with rfl | ⟨c, hc⟩
    · cases hr
    · cases hc.symm.trans hr
  | markDone => exact (BatchTransitions.running_raise (m := .done) hi hb h hr).1

theorem JobGood.step {Q : History → Except Exn ClassifyResult → Prop}
    (hgood : JobGood C dropZone th.hist) (H : th.Keeps (JobMay job) Q) (hsane : th.Sane)
    (hb : w.server.db.batches.find? job.batchId ≠ none)
    (hblob : ∃ x, w.blobs job.blobKey = some x ∧ Content dropZone x)
    (hfit : ∀ x, Content dropZone x → C.Fits x)
    (hfree : th.KeyFree w.server.db) (h : th.step C pid w (.ok g) = some (w', th')) :
    JobGood C dropZone th'.hist ∧ th'.Sane := by
  cases Thread.step_ok h with
  | @begin H' s k =>
    have hnext : NextTx job (txs H') s := H.2.1.1
    refine ⟨hgood, fun e he => ?_⟩
    generalize txs H' = ts at hnext
    cases hnext <;> cases he
  | io => exact ⟨hgood.io H.2.1 hblob hfit, trivial⟩
  | @stmt H' s t k server r hs =>
    obtain ⟨-, ⟨hnext, -⟩, ⟨g', hi⟩, -⟩ := H
    cases r with
    | running t' => exact ⟨hgood, fun e he => sane_stmt hnext hi hb hs he⟩
    | committed cm =>
      refine ⟨hgood.tx ?_, trivial⟩
      rintro (- | hp)
      exact hp trivial
    | aborted e =>
      refine ⟨hgood.tx (not_trouble_stmt hnext hi hsane hb (fun st k hr => ?_) hs), trivial⟩
      obtain ⟨rest, ws⟩ := t
      dsimp only at hr
      subst hr
      exact hfree

end

/-! ## Polls -/

/-- The answers of a poll so far: none of its exits, and the bytes of files. -/
structure IngestGood (dropZone : Table String RemoteFile (·.filename)) (H : History) : Prop where
  calm : ∀ d ∈ H, ¬ Exit d
  read : ∀ f x, ⟨.io (.sftpRead f), .ok x⟩ ∈ H → Content dropZone x

section
variable {dropZone : Table String RemoteFile (·.filename)} {H : History} {d : Done Op.Answer Exn}
  {g : Gen} {s s' : Server Tables Row Pid} {pid : Pid} {e : Exn}

theorem IngestGood.nil : IngestGood dropZone [] :=
  ⟨fun _ hd => (List.not_mem_nil hd).elim, fun _ _ hd => (List.not_mem_nil hd).elim⟩

theorem IngestGood.snoc (h : IngestGood dropZone H) (hd : ¬ Exit d)
    (hr : ∀ f x, d = ⟨.io (.sftpRead f), .ok x⟩ → Content dropZone x) :
    IngestGood dropZone (H ++ [d]) := by
  refine ⟨?_, fun key x hx => ?_⟩
  · exact List.forall_mem_append.mpr ⟨h.calm, List.forall_mem_singleton.mpr hd⟩
  · rcases List.mem_append.mp hx with hx | hx
    · exact h.read key x hx
    · exact hr key x (List.mem_singleton.mp hx).symm

/-- A `create_batch` of a poll in progress: before one of its INSERTs or before its COMMIT. -/
theorem create_inside {data : Option BatchCreate} {t : Txn Tables Stmt Exn (Committed Batch)}
    (h : Inside (createBatch g data none) t) : t = ⟨createBatch g data none, []⟩ ∨
      (∃ c, t.rest = .exec (.insertAuditLog (batchCreated g (data.getD { id := g.uuid }) none))
        fun _ => .ret c) ∨ ∃ c, t.rest = .ret c := by
  induction h with
  | start => exact .inl rfl
  | select _ _ ih =>
    rcases ih with heq | ⟨c, heq⟩ | ⟨c, heq⟩
    · cases (Txn.mk.inj heq).1
    · cases heq
    · cases heq
  | exec _ _ ih =>
    rcases ih with heq | ⟨c, heq⟩ | ⟨c, heq⟩
    · obtain ⟨hk, rfl⟩ := Txn.mk.inj heq
      rw [createBatch_eq] at hk
      obtain ⟨rfl, rfl⟩ := Tx.exec.inj hk
      exact .inr (.inl ⟨_, rfl⟩)
    · obtain ⟨rfl, rfl⟩ := Tx.exec.inj heq
      exact .inr (.inr ⟨c, rfl⟩)
    · cases heq

theorem create_not_aborted {data : Option BatchCreate} {t : Txn Tables Stmt Exn (Committed Batch)}
    (hi : Inside (createBatch g data none) t) (hfree : ∀ w k, t.rest = .exec w k → FreshKey w s.db)
    (h : s.stmt postgres pid t = some (s', .aborted e)) : False := by
  rcases create_inside hi with rfl | ⟨c, hc⟩ | ⟨c, hc⟩
  · rw [createBatch_eq] at h hfree
    cases Server.stmt_cases h with
    | rollback hr => cases hr
    | violation hr hv =>
      obtain ⟨rfl, -⟩ := Tx.exec.inj hr
      have hnone := checkStmt_insertBatch.mpr (hfree _ _ rfl)
      cases hnone.symm.trans hv
  · cases Server.stmt_cases h with
    | rollback hr => cases hc.symm.trans hr
    | violation hr hv =>
      obtain ⟨rfl, -⟩ := Tx.exec.inj (hc.symm.trans hr)
      cases hv
  · cases Server.stmt_cases h with
    | rollback hr | violation hr => cases hc.symm.trans hr

end

section

variable {C : Classifier} {pid : Pid} {w w' : World} {g : Gen} {files : List String}
  {th th' : Thread (Option UploadResponse)}

/-- The operations of a poll succeed, when it finds none of its objects present. -/
theorem IngestGood.io {H : History} {i : Io} (hgood : IngestGood w.dropZone H)
    (hmay : IngestMay .sftp files H (.io i))
    (hfiles : ∀ f ∈ files, ∃ file, w.dropZone.find? f = some file ∧ ValidFile file)
    (hnone : ∀ key, ⟨.io (.statObject key), .ok ()⟩ ∉ H ++ [⟨.io i, (perform C w g i).1⟩]) :
    IngestGood w.dropZone (H ++ [⟨.io i, (perform C w g i).1⟩]) := by
  cases i with
  | cacheDelete | cacheClose | getClient | uuid4 | putObject | enqueue | addSeen =>
    exact hgood.snoc (by rintro ⟨⟩) (by rintro _ _ ⟨⟩)
  | statObject key =>
    refine hgood.snoc (fun hexit => ?_) (by rintro _ _ ⟨⟩)
    by_cases hblob : (w.blobs key).isSome = true
    · refine hnone key (List.mem_append_right _ (List.mem_singleton.mpr ?_))
      simp [perform, hblob]
    · have herr : (perform C w g (.statObject key)).1 = .error (.s3Error "NoSuchKey") := by
        simp [perform, hblob]
      rw [herr] at hexit
      cases hexit with
      | io hn => exact hn key rfl
      | statFailed hn => exact hn _ rfl
  | sftpStat f =>
    obtain ⟨file, hfile, hvalid⟩ := hfiles f hmay
    have hok : (perform C w g (.sftpStat f)).1 = .ok file.content.length := by
      simp [perform, hfile]
    rw [hok]
    refine hgood.snoc ?_ (by rintro _ _ ⟨⟩)
    rintro (- | - | - | - | hlarge)
    exact absurd hvalid.2.1 (Nat.not_le.mpr hlarge)
  | sftpRead f =>
    obtain ⟨file, hfile, hvalid⟩ := hfiles f hmay
    have hok : (perform C w g (.sftpRead f)).1 = .ok file.content := by simp [perform, hfile]
    obtain rfl := Table.find?_key hfile
    rw [hok]
    refine hgood.snoc ?_ ?_
    · rintro (- | - | - | - | - | hreject)
      rw [rejectReason_eq_none.mpr ⟨hvalid.1, hvalid.2.2.2, hvalid.2.1⟩] at hreject
      cases hreject
    · rintro _ _ ⟨⟩
      exact ⟨file, Table.find?_mem hfile, rfl⟩
  | getObject | predict | drawOverlay => exact hmay.elim

theorem IngestGood.step {Q : History → Except Exn (Option UploadResponse) → Prop}
    (hgood : IngestGood w.dropZone th.hist) (H : th.Keeps (IngestMay .sftp files) Q)
    (hfiles : ∀ f ∈ files, ∃ file, w.dropZone.find? f = some file ∧ ValidFile file)
    (hnone : ∀ key, ⟨.io (.statObject key), .ok ()⟩ ∉ th'.hist) (hfree : th.KeyFree w.server.db)
    (h : th.step C pid w (.ok g) = some (w', th')) : IngestGood w.dropZone th'.hist := by
  cases Thread.step_ok h with
  | begin => exact hgood
  | io => exact hgood.io H.2.1 hfiles hnone
  | @stmt H' s t k server r hs =>
    obtain ⟨-, ⟨-, actor, rfl, hactor⟩, ⟨g', hi⟩, -⟩ := H
    obtain rfl := hactor rfl
    cases r with
    | running => exact hgood
    | committed => exact hgood.snoc (by rintro ⟨⟩) (by rintro _ _ ⟨⟩)
    | aborted e =>
      refine (create_not_aborted hi (fun st k hr => ?_) hs).elim
      obtain ⟨rest, ws⟩ := t
      dsimp only at hr
      subst hr
      exact hfree

end

end DocClassifier
