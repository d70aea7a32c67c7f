import DocClassifier.Worker

/-!
# What the programs do

The contract of each program: which operations a job and an ingest call may perform after which
history, and what has happened when they end. The transactions of a history, with their answers,
are read off by `txs`.
-/

namespace DocClassifier
open BlobStorage Prog

/-- A service call whose transaction has been answered. -/
abbrev TxDone := (s : ServiceCall) × Except Exn (Committed s.Result)

/-- The transactions of a history. -/
def txs (H : History) : List TxDone :=
  H.filterMap fun
    | ⟨.tx s, r⟩ => some ⟨s, r⟩
    | ⟨.io _, _⟩ => none

/-- The answers of operations: only those that can raise do. -/
def Answers : Done Op.Answer Exn → Prop
  | ⟨.io i, .error _⟩ => i.fallible = true
  | _ => True

/-- The contract of a program that performs the operations it may. -/
abbrev contract (may : History → Op → Prop) : Contract Op.Answer Exn := ⟨Answers, may⟩

/-- A cache key has been deleted. -/
def IsDelete (d : Done Op.Answer Exn) : Prop := ∃ key, d = ⟨.io (.cacheDelete key), .ok ()⟩

section
variable {H D : History}

@[simp] theorem txs_nil : txs [] = [] := rfl

@[simp] theorem txs_append (H H' : History) : txs (H ++ H') = txs H ++ txs H' :=
  List.filterMap_append

@[simp] theorem txs_tx (s : ServiceCall) (r : Except Exn (Committed s.Result)) :
    txs (⟨.tx s, r⟩ :: D) = ⟨s, r⟩ :: txs D := rfl

@[simp] theorem txs_io (i : Io) (r : Except Exn i.Answer) : txs (⟨.io i, r⟩ :: D) = txs D := rfl

theorem txs_deletes (hD : ∀ d ∈ D, IsDelete d) : txs D = [] := by
  induction D with
  | nil => rfl
  | cons d D ih =>
    obtain ⟨key, rfl⟩ := hD d List.mem_cons_self
    rw [txs_io]
    exact ih fun d' hd' => hD d' (List.mem_cons_of_mem _ hd')

variable {c : Contract Op.Answer Exn} {α : Type}

theorem spec_io {i : Io} {Q : History → Except Exn i.Answer → Prop} :
    Spec c Q H (io i) ↔
      c.may H (.io i) ∧ ∀ r, c.answers ⟨.io i, r⟩ → Q (H ++ [⟨.io i, r⟩]) r := spec_call

/-- A service call performs its transaction and deletes cache keys, one of which may fail. -/
theorem spec_service {s : ServiceCall} {Q : History → Except Exn s.Result → Prop}
    (hmay : c.may H (.tx s)) (hdel : ∀ H key, c.may H (.io (.cacheDelete key)))
    (hok : ∀ cm D, (∀ d ∈ D, IsDelete d) → Q (H ++ ⟨.tx s, .ok cm⟩ :: D) (.ok cm.result))
    (hfail : ∀ cm D key e, (∀ d ∈ D, IsDelete d) →
      Q (H ++ ⟨.tx s, .ok cm⟩ :: (D ++ [⟨.io (.cacheDelete key), .error e⟩])) (.error e))
    (herr : ∀ e, Q (H ++ [⟨.tx s, .error e⟩]) (.error e)) : Spec c Q H (service s) := by
  rw [service, spec_bind, spec_call]
  refine ⟨hmay, fun r _ => ?_⟩
  cases r with
  | error e => exact herr e
  | ok cm =>
    dsimp only
    rw [spec_bind]
    refine spec_forEach (fun H' _ => ∃ D, (∀ d ∈ D, IsDelete d) ∧
      H' = H ++ ⟨.tx s, .ok cm⟩ :: D) ?_ ?_ ?_
    · rintro H' key keys ⟨D, hD, rfl⟩
      refine spec_io.mpr ⟨hdel _ _, fun r _ => ?_⟩
      rw [List.append_assoc, List.cons_append]
      cases r with
      | error e => exact hfail cm D key e hD
      | ok a =>
        refine ⟨D ++ [⟨.io (.cacheDelete key), .ok a⟩], ?_, rfl⟩
        exact List.forall_mem_append.mpr ⟨hD, List.forall_mem_singleton.mpr ⟨key, rfl⟩⟩
    · rintro H' ⟨D, hD, rfl⟩
      exact hok cm D hD
    · exact ⟨[], List.forall_mem_nil _, rfl⟩

theorem spec_skip {p : Proc α} {Q : History → Except Exn Unit → Prop} :
    Spec c Q H (skipInvalidStateTransition p) ↔ Spec c (fun H r => match r with
      | .ok _ => Q H (.ok ())
      | .error (.invalidStateTransition _) => Q H (.ok ())
      | .error e => Q H (.error e)) H p := by
  rw [skipInvalidStateTransition, spec_bind, spec_attempt]
  constructor
  · refine Spec.mono fun H r h => ?_
    rcases r with e | a
    · cases e <;> exact h
    · exact h
  · refine Spec.mono fun H r h => ?_
    rcases r with e | a
    · cases e <;> exact h
    · exact h

theorem spec_upload {key : String} {data : Bytes} {Q : History → Except Exn String → Prop}
    (hmay : c.may H (.io (.putObject key data)))
    (hlarge : ∀ e, data.length > MAX_FILE_BYTES → Q H (.error e))
    (hok : data.length ≤ MAX_FILE_BYTES → Q (H ++ [⟨.io (.putObject key data), .ok ()⟩]) (.ok key))
    (herr : ∀ e e', Q (H ++ [⟨.io (.putObject key data), .error e⟩]) (.error e')) :
    Spec c Q H (upload key data) := by
  rw [upload]
  split
  · rename_i h
    exact hlarge _ h
  · rename_i h
    rw [spec_bind, spec_attempt]
    refine spec_io.mpr ⟨hmay, fun r _ => ?_⟩
    rcases r with e | ⟨⟩
    · cases e <;> exact herr _ _
    · exact hok (by omega)

theorem spec_download {key : String} {Q : History → Except Exn Bytes → Prop}
    (hmay : c.may H (.io (.getObject key)))
    (hok : ∀ data, Q (H ++ [⟨.io (.getObject key), .ok data⟩]) (.ok data))
    (herr : ∀ e e', Q (H ++ [⟨.io (.getObject key), .error e⟩]) (.error e')) :
    Spec c Q H (download key) := by
  rw [download, spec_bind, spec_attempt]
  refine spec_io.mpr ⟨hmay, fun r _ => ?_⟩
  rcases r with e | data
  · cases e <;> exact herr _ _
  · exact hok data

end

/-! ## Classify jobs -/

/-- The answers after which a job goes on: a commit, or a transition that is refused because the
batch has left the status. -/
def Passed {α : Type} : Except Exn α → Prop
  | .ok _ => True
  | .error (.invalidStateTransition _) => True
  | .error _ => False

/-- The answers that a job does not get over. -/
inductive Trouble : Done Op.Answer Exn → Prop
  | io {i : Io} {e : Exn} : Trouble ⟨.io i, .error e⟩
  | tx {s : ServiceCall} {r : Except Exn (Committed s.Result)} : ¬ Passed r → Trouble ⟨.tx s, r⟩
  | save {batchId : String} {data : PredictionCreate} {e : Exn} :
      Trouble ⟨.tx (.savePrediction batchId data), .error e⟩
  | overlay {imageBytes data : Bytes} {label : String} {confidence : Rat} :
      data.length > MAX_FILE_BYTES →
      Trouble ⟨.io (.drawOverlay imageBytes label confidence), .ok data⟩

/-- The row that the job `job` saves. -/
structure SavedBy (job : Job) (data : PredictionCreate) : Prop where
  batchId : data.batchId = job.batchId
  filename : data.filename = rsplitLast job.blobKey
  blobKey : data.blobKey = job.blobKey
  overlayKey : data.overlayKey = overlayKey job.batchId (rsplitLast job.blobKey)

/-- The transaction that a job may begin after others. -/
inductive NextTx (job : Job) : List TxDone → ServiceCall → Prop
  | markProcessing : NextTx job [] (.markProcessing job.batchId)
  | savePrediction {r : Except Exn (Committed Batch)} {data : PredictionCreate} : Passed r →
      SavedBy job data → NextTx job [⟨.markProcessing job.batchId, r⟩]
        (.savePrediction job.batchId data)
  | markDone {r : Except Exn (Committed Batch)} {data : PredictionCreate}
      {cm : Committed Prediction} : Passed r → SavedBy job data →
      NextTx job [⟨.markProcessing job.batchId, r⟩, ⟨.savePrediction job.batchId data, .ok cm⟩]
        (.markDone job.batchId)

/-- What a job has done before it saves a row: it has got the document, has been told its class, and
has put the overlay that was drawn on it. -/
def LabelMay (job : Job) (H : History) : ServiceCall → Prop
  | .savePrediction _ data => ∃ imageBytes overlayBytes,
      ⟨.io (.getObject job.blobKey), .ok imageBytes⟩ ∈ H ∧
      ⟨.io (.predict imageBytes), .ok (data.predictedClass, data.confidence)⟩ ∈ H ∧
      ⟨.io (.drawOverlay imageBytes data.predictedClass data.confidence), .ok overlayBytes⟩ ∈ H ∧
      ⟨.io (.putObject data.overlayKey overlayBytes), .ok ()⟩ ∈ H
  | _ => True

/-- The operations that a job may perform. -/
def JobMay (job : Job) (H : History) : Op → Prop
  | .tx s => NextTx job (txs H) s ∧ LabelMay job H s
  | .io (.getObject key) => key = job.blobKey
  | .io (.predict imageBytes) => ⟨.io (.getObject job.blobKey), .ok imageBytes⟩ ∈ H
  | .io (.drawOverlay imageBytes label confidence) =>
    ⟨.io (.getObject job.blobKey), .ok imageBytes⟩ ∈ H ∧
      ⟨.io (.predict imageBytes), .ok (label, confidence)⟩ ∈ H
  | .io (.putObject key _) => key = overlayKey job.batchId (rsplitLast job.blobKey)
  | .io (.cacheDelete _) | .io .cacheClose | .io (.getClient _) => True
  | .io _ => False

/-- The transactions of a job that has returned. -/
def Finished (job : Job) (H : History) : Prop :=
  ∃ (r r' : Except Exn (Committed Batch)) (data : PredictionCreate) (cm : Committed Prediction),
    Passed r ∧ SavedBy job data ∧ Passed r' ∧
      txs H = [⟨.markProcessing job.batchId, r⟩, ⟨.savePrediction job.batchId data, .ok cm⟩,
        ⟨.markDone job.batchId, r'⟩]

/-- At the end of a job: it has done its work or met trouble. -/
def JobEnds (job : Job) {α : Type} (H : History) : Except Exn α → Prop
  | .ok _ => Finished job H
  | .error _ => ∃ d ∈ H, Trouble d

section
variable {job : Job} {H : History} {α : Type}

theorem jobEnds_error {D : History} {d : Done Op.Answer Exn} (hd : d ∈ D) (ht : Trouble d)
    (e : Exn) : JobEnds job (H ++ D) (.error e : Except Exn α) :=
  ⟨d, List.mem_append_right H hd, ht⟩

theorem LabelMay.mono {H' : History} {s : ServiceCall} (h : LabelMay job H s) (hsub : H ⊆ H') :
    LabelMay job H' s := by
  cases s with
  | savePrediction batchId data =>
    obtain ⟨imageBytes, overlayBytes, hget, hpredict, hdraw, hput⟩ := h
    exact ⟨imageBytes, overlayBytes, hsub hget, hsub hpredict, hsub hdraw, hsub hput⟩
  | createBatch | markProcessing | markDone => trivial

/-- The rule for a transition that a job skips when it is refused. -/
theorem spec_skip_mark {s : ServiceCall} {Q : History → Except Exn Unit → Prop}
    (hmay : NextTx job (txs H) s) (hlabel : LabelMay job H s)
    (hok : ∀ D r, Passed r → txs (H ++ D) = txs H ++ [⟨s, r⟩] → Q (H ++ D) (.ok ()))
    (herr : ∀ D d e, d ∈ D → Trouble d → Q (H ++ D) (.error e)) :
    Spec (contract (JobMay job)) Q H (skipInvalidStateTransition (service s)) := by
  refine spec_skip.mpr (spec_service ⟨hmay, hlabel⟩ (fun _ _ => trivial) (fun cm D hD => ?_)
    (fun cm D key e hD => ?_) fun e => ?_)
  · exact hok _ (.ok cm) trivial (by simp [txs_deletes hD])
  · cases e with
    | invalidStateTransition msg => exact hok _ (.ok cm) trivial (by simp [txs_deletes hD])
    | _ =>
      exact herr _ _ _ (List.mem_cons_of_mem _ (List.mem_append_right D List.mem_cons_self)) .io
  · cases e with
    | invalidStateTransition msg =>
      exact hok _ (.error (.invalidStateTransition msg)) trivial (by simp)
    | _ => exact herr _ _ _ List.mem_cons_self (.tx nofun)

theorem persistAsync_spec {a : PersistArgs} (hH : txs H = []) (hb : a.batchId = job.batchId)
    (hf : a.filename = rsplitLast job.blobKey) (hk : a.blobKey = job.blobKey)
    (ho : a.overlayKey = overlayKey job.batchId (rsplitLast job.blobKey))
    (hlabel : LabelMay job H (.savePrediction a.batchId
      { batchId := a.batchId, filename := a.filename, blobKey := a.blobKey,
        overlayKey := a.overlayKey, predictedClass := a.label, confidence := a.confidence })) :
    Spec (contract (JobMay job)) (JobEnds job) H (persistAsync a) := by
  obtain ⟨batchId, blobKey, overlayKey, filename, label, confidence, requestId⟩ := a
  dsimp only at hb hf hk ho
  subst hb hf hk ho
  rw [persistAsync, spec_andFinally]
  refine Spec.mono (Q := JobEnds job) (fun H r h => ?_) ?_
  · -- At the end of the block the cache is closed.
    refine spec_io.mpr ⟨trivial, fun r' _ => ?_⟩
    cases r' with
    | error e => exact jobEnds_error List.mem_cons_self .io e
    | ok =>
      cases r with
      | error e =>
        obtain ⟨d, hd, ht⟩ := h
        exact ⟨d, List.mem_append_left _ hd, ht⟩
      | ok =>
        obtain ⟨r1, r2, data, cm, h1, h2, h3, h4⟩ := h
        exact ⟨r1, r2, data, cm, h1, h2, h3, by simpa using h4⟩
  -- The transactions one after the other.
  rw [spec_bind]
  refine spec_skip_mark (hH ▸ .markProcessing) trivial (fun D1 r1 hr1 h1 => ?_)
    fun D d e hd ht => jobEnds_error hd ht e
  rw [hH, List.nil_append] at h1
  dsimp only
  rw [spec_bind]
  have hsaved : SavedBy job
      { batchId := job.batchId, filename := rsplitLast job.blobKey, blobKey := job.blobKey,
        overlayKey := BlobStorage.overlayKey job.batchId (rsplitLast job.blobKey),
        predictedClass := label, confidence } := ⟨rfl, rfl, rfl, rfl⟩
  refine spec_service ?_ (fun _ _ => trivial) (fun cm D hD => ?_) (fun cm D key e hD => ?_)
    fun e => jobEnds_error List.mem_cons_self .save e
  · refine ⟨?_, hlabel.mono (List.subset_append_left _ _)⟩
    rw [h1]
    exact .savePrediction hr1 hsaved
  · have h2 := txs_deletes hD
    refine spec_skip_mark ?_ trivial (fun D3 r3 hr3 h3 => ?_) fun D d e hd ht =>
      jobEnds_error hd ht e
    · rw [txs_append, txs_tx, h1, h2]
      exact .markDone hr1 hsaved
    · refine ⟨r1, r3, _, cm, hr1, hsaved, hr3, ?_⟩
      rw [h3, txs_append, txs_tx, h1, h2]
      rfl
  · exact jobEnds_error (List.mem_cons_of_mem _ (List.mem_append_right D List.mem_cons_self)) .io e

theorem classify_spec (job : Job) :
    Spec (contract (JobMay job)) (JobEnds job) [] (classify job) := by
  rw [classify, spec_bind]
  refine spec_io.mpr ⟨trivial, fun r _ => ?_⟩
  rcases r with e | ⟨⟩
  · exact jobEnds_error List.mem_cons_self .io e
  dsimp only
  rw [spec_bind]
  refine spec_io.mpr ⟨trivial, fun r _ => ?_⟩
  rcases r with e | ⟨⟩
  · exact jobEnds_error List.mem_cons_self .io e
  dsimp only
  rw [spec_bind]
  refine spec_download rfl (fun imageBytes => ?_) fun e e' =>
    jobEnds_error List.mem_cons_self .io e'
  dsimp only
  rw [spec_bind]
  refine spec_io.mpr ⟨List.mem_append_right _ List.mem_cons_self, fun r _ => ?_⟩
  rcases r with e | ⟨label, confidence⟩
  · exact jobEnds_error List.mem_cons_self .io e
  dsimp only
  rw [spec_bind]
  refine spec_io.mpr ⟨⟨List.mem_append_left _ (List.mem_append_right _ List.mem_cons_self),
    List.mem_append_right _ List.mem_cons_self⟩, fun r _ => ?_⟩
  rcases r with e | overlayBytes
  · exact jobEnds_error List.mem_cons_self .io e
  dsimp only
  rw [spec_bind]
  refine spec_upload rfl (fun e h => jobEnds_error List.mem_cons_self (.overlay h) e) (fun _ => ?_)
    fun e e' => jobEnds_error List.mem_cons_self .io e'
  dsimp only
  rw [spec_bind]
  refine Spec.mono (Q := JobEnds job) (fun H r h => ?_) (persistAsync_spec ?_ rfl rfl rfl rfl ?_)
  · cases r <;> exact h
  · simp
  · exact ⟨imageBytes, overlayBytes, by simp⟩

end

end DocClassifier
