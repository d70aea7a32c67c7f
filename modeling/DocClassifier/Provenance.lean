import DocClassifier.References

/-!
# Where the predictions come from

The class and the confidence of a row are what the classifier has said about a document that the
ingest call of the batch has stored under the key of the row, and the overlay under its other key
has been drawn on that document. Of a poll it is the document in the drop zone, as it was read and
accepted, and it is stored there still.
-/

namespace DocClassifier
open ReadCommitted Transition BlobStorage Prog

/-! ## Answers -/

/-- What an answer of the classifier says. -/
def Io.Tells (C : Classifier) : (i : Io) → i.Answer → Prop
  | .predict imageBytes, r => C.predict imageBytes = some r
  | .drawOverlay imageBytes label confidence, r =>
    C.drawOverlay imageBytes label confidence = some r
  | _, _ => True

section
variable {C : Classifier} {w w' : World} {ws : List Stmt}

theorem Effect.tells {i : Io} {a : i.Answer} (h : Effect C w ws ⟨.io i, .ok a⟩ w') :
    i.Tells C a := by
  cases h with
  | io hr =>
    cases i with
    | predict => exact perform_predict.mp hr
    | drawOverlay => exact perform_drawOverlay.mp hr
    | _ => trivial

/-- What is got is what was there. -/
theorem Effect.content {key : String} {data : Bytes}
    (h : Effect C w ws ⟨.io (.getObject key), .ok data⟩ w') : w.blobs key = some data := by
  cases h with
  | io hr =>
    cases hkey : w.blobs key with
    | none =>
      simp only [perform, hkey] at hr
      cases hr
    | some data' =>
      simp only [perform, hkey] at hr
      cases hr
      rfl

theorem Effect.saved_label {b : String} {data : PredictionCreate} {cm : Committed Prediction}
    (h : Effect C w ws ⟨.tx (.savePrediction b data), .ok cm⟩ w') :
    cm.result.overlayKey = data.overlayKey ∧ cm.result.predictedClass = data.predictedClass ∧
      cm.result.confidence = data.confidence := by
  cases h with
  | tx hc =>
    simp only [ServiceCall.block, PredictionService.savePrediction_eq, Tx.commits_exec,
      Tx.commits_ret] at hc
    obtain ⟨-, -, -, -, rfl⟩ := hc
    exact ⟨rfl, rfl, rfl⟩

end

namespace Pipeline

variable {C : Classifier} {s s' : Pipeline} {e : Event}

theorem Kept.record_subset (K : s.Kept) (h : s.step C e = some s') (pid : Pid) :
    s.record pid ⊆ s'.record pid := by
  cases K.moves h with
  | silent hrec => rw [hrec]; exact List.Subset.refl _
  | @answered p d hrec =>
    rw [hrec, Function.update_apply]
    split
    · subst p
      exact List.subset_append_left _ _
    · exact List.Subset.refl _

/-- The job is one of a file that its call has stored. -/
structure JobOf (s : Pipeline) (job : Job) (i : Nat) (c : IngestCall) (f : String) : Prop where
  call : s.calls[i]? = some c
  batch : batchOf c.thread.hist = some job.batchId
  mem : f ∈ c.files
  blobKey : job.blobKey = originalKey job.batchId f
  stored : ∃ data, ⟨.io (.putObject job.blobKey data), .ok ()⟩ ∈ c.thread.hist ∧
    (c.source = .sftp →
      ⟨.io (.sftpRead f), .ok data⟩ ∈ c.thread.hist ∧ rejectReason f data = none)

theorem Sound.jobOf (S : s.Sound) {job : Job} (hjob : job ∈ s.world.queue) :
    ∃ i c f, s.JobOf job i c f := by
  obtain ⟨i, hi⟩ := S.queue.batch job hjob
  obtain ⟨c, hc, hb⟩ := call_of_batchOf hi
  have hmem : job ∈ enqueued c.thread.hist := by
    rw [← record_call hc, ← S.queue.jobs i _ hi]
    exact List.mem_filter.mpr ⟨hjob, by simp⟩
  obtain ⟨id, hd⟩ := mem_enqueued.mp hmem
  obtain ⟨H1, H2, hH⟩ := List.append_of_mem hd
  obtain ⟨⟨b, f, hm⟩, -⟩ := (S.kept.calls i c hc).along H1 _ H2 hH
  have hsub : H1 ⊆ c.thread.hist := by
    rw [hH]
    exact List.subset_append_left _ _
  obtain ⟨data, hput, hread⟩ := hm.stored
  have hkey : job.blobKey = originalKey job.batchId f := by rw [hm.batchId, hm.blobKey]
  refine ⟨i, c, f, hc, hb, ?_, hkey, data, ?_, fun hsrc => ?_⟩
  · have hlast := hm.order.subset (List.mem_append_right _ List.mem_cons_self)
    obtain ⟨f', hf', heq⟩ := List.mem_map.mp hlast
    exact originalKey_filename heq ▸ hf'
  · rw [hm.blobKey]
    exact hsub hput
  · exact ⟨hsub (hread hsrc).1, (hread hsrc).2⟩

/-- The jobs have got what the calls of their batches have put, and save what they were told. -/
structure Truthful (C : Classifier) (s : Pipeline) : Prop where
  told : ∀ pid i a, ⟨.io i, .ok a⟩ ∈ s.record pid → i.Tells C a
  got : ∀ n job data, s.world.queue[n]? = some job →
    ⟨.io (.getObject job.blobKey), .ok data⟩ ∈ s.record (.job n) →
      ∃ i, batchOf (s.record (.ingest i)) = some job.batchId ∧
        ⟨.io (.putObject job.blobKey data), .ok ()⟩ ∈ s.record (.ingest i)
  saved : ∀ pid b data (cm : Committed Prediction),
    ⟨.tx (.savePrediction b data), .ok cm⟩ ∈ s.record pid →
      cm.result.overlayKey = data.overlayKey ∧ cm.result.predictedClass = data.predictedClass ∧
        cm.result.confidence = data.confidence

theorem Truthful.start (users : Table String UserORM (·.id))
    (dropZone : Table String RemoteFile (·.filename)) : (start users dropZone).Truthful C :=
  ⟨nofun, nofun, nofun⟩

theorem Truthful.step (H : s.Truthful C) (S : s.Sound) (h : s.step C e = some s') :
    s'.Truthful C := by
  -- What a job had got before the step.
  have hold : ∀ n job data, s'.world.queue[n]? = some job →
      ⟨.io (.getObject job.blobKey), .ok data⟩ ∈ s.record (.job n) →
        ∃ i, batchOf (s'.record (.ingest i)) = some job.batchId ∧
          ⟨.io (.putObject job.blobKey data), .ok ()⟩ ∈ s'.record (.ingest i) := by
    intro n job data hn hd
    have hlt : n < s.world.queue.length := by
      by_contra hge
      rw [S.kept.record_fresh (Nat.not_lt.mp hge)] at hd
      cases hd
    rw [getElem?_extend (step_queue h) hlt] at hn
    obtain ⟨i, hi, hput⟩ := H.got n job data hn hd
    refine ⟨i, ?_, S.kept.record_subset h _ hput⟩
    cases S.kept.moves h with
    | silent hrec => rwa [hrec]
    | answered hrec => exact batchOf_grows hrec hi
  cases S.kept.moves h with
  | silent hrec =>
    refine ⟨?_, fun n job data hn hd => hold n job data hn (hrec ▸ hd), ?_⟩
    · rw [hrec]
      exact H.told
    · rw [hrec]
      exact H.saved
  | @answered pid d hrec hmay heff =>
    refine ⟨fun p i a hd => ?_, fun n job data hn hd => ?_, fun p b data cm hd => ?_⟩
    · rcases mem_record hrec hd with hd | ⟨-, rfl⟩
      · exact H.told p i a hd
      · exact heff.tells
    · rcases mem_record hrec hd with hd | ⟨rfl, rfl⟩
      · exact hold n job data hn hd
      -- What is got now is what the call of the batch has put last.
      obtain ⟨job', -, hn', -⟩ := hmay
      rw [getElem?_extend (step_queue h) (List.getElem?_eq_some_iff.mp hn').1, hn'] at hn
      cases hn
      obtain ⟨i, c, f, hjob⟩ := S.jobOf (List.mem_of_getElem? hn')
      have hb : batchOf (s.record (.ingest i)) = some job.batchId :=
        record_call hjob.call ▸ hjob.batch
      have hstored := S.objects.own i _ f _ hb (.inl hjob.blobKey)
      rw [heff.content] at hstored
      exact ⟨i, batchOf_grows hrec hb, S.kept.record_subset h _ (mem_of_stored hstored.symm)⟩
    · rcases mem_record hrec hd with hd | ⟨-, rfl⟩
      · exact H.saved p b data cm hd
      · exact heff.saved_label

theorem Reachable.truthful (h : Reachable C s) : s.Truthful C := by
  obtain ⟨users, dropZone, es, hrun⟩ := h
  have hstart : (Pipeline.start users dropZone).Sound ∧
      (Pipeline.start users dropZone).Truthful C := ⟨.start users dropZone, .start users dropZone⟩
  exact (hrun.inv (I := fun s => s.Sound ∧ s.Truthful C)
    (fun _ _ _ H h => ⟨H.1.step h, H.2.step H.1 h⟩) hstart).2

/-! ## The rows -/

/-- The row says the truth about the document `data`, the file `f` of the call `i`. -/
structure Grounded (C : Classifier) (s : Pipeline) (p : Prediction) (i : Nat) (c : IngestCall)
    (f : String) (data : Bytes) : Prop where
  call : s.calls[i]? = some c
  batch : batchOf c.thread.hist = some p.batchId
  mem : f ∈ c.files
  blobKey : p.blobKey = originalKey p.batchId f
  stored : ⟨.io (.putObject p.blobKey data), .ok ()⟩ ∈ c.thread.hist
  label : C.predict data = some (p.predictedClass, p.confidence)
  overlay : ∃ n overlayBytes, C.drawOverlay data p.predictedClass p.confidence = some overlayBytes ∧
    ⟨.io (.putObject p.overlayKey overlayBytes), .ok ()⟩ ∈ s.record (.job n)
  scanned : c.source = .sftp → ⟨.io (.sftpRead f), .ok data⟩ ∈ c.thread.hist ∧
    rejectReason f data = none ∧ s.world.blobs p.blobKey = some data

theorem Truthful.row (H : s.Truthful C) (S : s.Sound) {p : Prediction}
    (hp : p ∈ s.world.server.db.predictions.rows) : ∃ i c f data, s.Grounded C p i c f data := by
  obtain ⟨n, hn, hsaved⟩ := List.mem_flatMap.mp (S.saved.perm.mem_iff.mp hp)
  have hlt : n < s.world.queue.length := List.mem_range.mp hn
  have hjob : s.world.queue[n]? = some s.world.queue[n] := List.getElem?_eq_getElem hlt
  generalize s.world.queue[n] = job at hjob
  have hrow := S.saved.row n job hjob p hsaved
  obtain ⟨b, data, cm, hd, rfl⟩ := mem_saves.mp hsaved
  obtain ⟨hoverlay, hclass, hconf⟩ := H.saved (.job n) _ _ _ hd
  obtain ⟨imageBytes, overlayBytes, hget, hpredict, hdraw, hput⟩ := S.kept.labeled hjob hd
  obtain ⟨i, hi, hstored⟩ := H.got n job imageBytes hjob hget
  obtain ⟨j, c, f, hof⟩ := S.jobOf (List.mem_of_getElem? hjob)
  obtain rfl := S.batches.unique i j _ hi (record_call hof.call ▸ hof.batch)
  rw [record_call hof.call] at hstored
  refine ⟨i, c, f, imageBytes, hof.call, ?_, hof.mem, ?_, ?_, ?_, ⟨n, overlayBytes, ?_, ?_⟩,
    fun hsrc => ?_⟩
  · rw [hrow.batchId]
    exact hof.batch
  · rw [hrow.batchId, hrow.blobKey]
    exact hof.blobKey
  · rw [hrow.blobKey]
    exact hstored
  · rw [hclass, hconf]
    exact H.told _ _ _ hpredict
  · rw [hclass, hconf]
    exact H.told _ _ _ hdraw
  · rw [hoverlay]
    exact hput
  · -- A poll puts an object once, so the document is the one that was read.
    have halong := (S.kept.calls i c hof.call).along
    rw [hsrc] at halong
    obtain ⟨data', hput', hread⟩ := hof.stored
    have heq := (stored_of_mem halong _ _ hstored).symm.trans (stored_of_mem halong _ _ hput')
    cases heq
    refine ⟨(hread hsrc).1, (hread hsrc).2, ?_⟩
    have hown := S.objects.own i _ f job.blobKey hi (.inl hof.blobKey)
    rw [hrow.blobKey, hown, record_call hof.call]
    exact stored_of_mem halong _ _ hstored

/-- In every reachable state each row is the classifier's answer for a document of its batch. -/
theorem predictions_truthful (h : Reachable C s) : ∀ p ∈ s.world.server.db.predictions.rows,
    ∃ i c f data, s.Grounded C p i c f data :=
  fun _ hp => h.truthful.row h.sound hp

set_option maxRecDepth 100000 in
theorem predictions_truthful_oneScan : ∃ s p i c f data, Reachable letters s ∧
    p ∈ s.world.server.db.predictions.rows ∧ p.predictedClass = "letter" ∧
    s.Grounded letters p i c f data := by
  have h : (exec (step letters) (start .empty oneScan)
      (ingestOne ++ .replicate 27 (.job 0 (ok "p")))).bind (fun s =>
        s.world.server.db.predictions.rows.head?.map (·.predictedClass)) = some "letter" := by
    decide
  obtain ⟨s, hs, h⟩ := Option.bind_eq_some_iff.mp h
  obtain ⟨p, hp, hclass⟩ := Option.map_eq_some_iff.mp h
  have hreach : Reachable letters s := ⟨.empty, oneScan, _, exec_eq_some.mp hs⟩
  have hmem := List.mem_of_mem_head? hp
  obtain ⟨i, c, f, data, hrow⟩ := predictions_truthful hreach p hmem
  exact ⟨s, p, i, c, f, data, hreach, hmem, hclass, hrow⟩

end Pipeline

end DocClassifier
