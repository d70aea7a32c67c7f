import DocClassifier.Statuses

/-!
# What the rows of predictions refer to

A row tells a batch, the key of the scanned document and the key of its overlay. The worker saves
the row after it has downloaded the one and uploaded the other (`LabelMay`), nothing removes an
object or a batch, and so no row ever refers to something that is missing.
-/

namespace DocClassifier
open ReadCommitted Transition BlobStorage Prog

/-- What a job has done, it has done in an execution by its contract. -/
theorem JobRun.Kept.record {j : JobRun} {job : Job} (h : j.Kept job) {d : Done Op.Answer Exn}
    (hd : d ∈ j.record) :
    ∃ H, Along (contract (JobMay job)) H ∧ d ∈ H ∧ H ⊆ j.record := by
  rcases List.mem_append.mp hd with hd | hd
  · obtain ⟨H, hH, hdH⟩ := List.mem_flatten.mp hd
    exact ⟨H, h.past H hH, hdH, fun x hx =>
      List.mem_append_left _ (List.mem_flatten.mpr ⟨H, hH, hx⟩)⟩
  · refine ⟨j.hist, ?_, hd, fun x hx => List.mem_append_right _ hx⟩
    unfold JobRun.hist
    split
    · exact (h.running _ ‹_›).1.along
    · exact along_nil

namespace Pipeline

/-- The job of a row that is saved has got its document, and so on. -/
theorem Kept.labeled {s : Pipeline} {n : Nat} {job : Job} {b : String} {data : PredictionCreate}
    {cm : Committed Prediction} (K : s.Kept) (hn : s.world.queue[n]? = some job)
    (hd : ⟨.tx (.savePrediction b data), .ok cm⟩ ∈ s.record (.job n)) :
    LabelMay job (s.record (.job n)) (.savePrediction b data) := by
  obtain ⟨hist, halong, hdH, hsub⟩ := (K.jobs n job hn).record hd
  obtain ⟨H1, H2, rfl⟩ := List.append_of_mem hdH
  exact (halong H1 _ H2 rfl).1.2.mono fun x hx => hsub (List.mem_append_left _ hx)

/-- What has been got or put is there, and the rows have the keys of their jobs. -/
structure Referenced (s : Pipeline) : Prop where
  got : ∀ pid key data, ⟨.io (.getObject key), .ok data⟩ ∈ s.record pid →
    s.world.blobs key ≠ none
  put : ∀ pid key data, ⟨.io (.putObject key data), .ok ()⟩ ∈ s.record pid →
    s.world.blobs key ≠ none
  keys : ∀ pid batchId data (cm : Committed Prediction),
    ⟨.tx (.savePrediction batchId data), .ok cm⟩ ∈ s.record pid →
      cm.result.batchId = batchId ∧ cm.result.blobKey = data.blobKey ∧
        cm.result.overlayKey = data.overlayKey

theorem Referenced.start (users : Table String UserORM (·.id))
    (dropZone : Table String RemoteFile (·.filename)) : (start users dropZone).Referenced :=
  ⟨nofun, nofun, nofun⟩

end Pipeline

section
variable {C : Classifier} {w w' : World} {ws : List Stmt} {key : String}

/-- Objects are never removed. -/
theorem Effect.keeps_blob {d : Done Op.Answer Exn} (h : Effect C w ws d w')
    (hkey : w.blobs key ≠ none) : w'.blobs key ≠ none := by
  rw [h.blobs]
  cases stored [d] key with
  | none => rwa [Option.none_or]
  | some data => nofun

theorem Effect.got {data : Bytes} (h : Effect C w ws ⟨.io (.getObject key), .ok data⟩ w') :
    w'.blobs key ≠ none := by
  cases h with
  | io hr =>
    intro hnone
    have hnone : w.blobs key = none := hnone
    simp only [perform, hnone] at hr
    cases hr

theorem Effect.put {data : Bytes} (h : Effect C w ws ⟨.io (.putObject key data), .ok ()⟩ w') :
    w'.blobs key ≠ none := by
  rw [h.blobs, stored_put, Option.some_or]
  nofun

theorem Effect.saved_keys {b : String} {data : PredictionCreate} {cm : Committed Prediction}
    (h : Effect C w ws ⟨.tx (.savePrediction b data), .ok cm⟩ w') :
    cm.result.batchId = b ∧ cm.result.blobKey = data.blobKey ∧
      cm.result.overlayKey = data.overlayKey := by
  cases h with
  | tx hc =>
    simp only [ServiceCall.block, PredictionService.savePrediction_eq, Tx.commits_exec,
      Tx.commits_ret] at hc
    obtain ⟨-, -, -, -, rfl⟩ := hc
    exact ⟨rfl, rfl, rfl⟩

end

namespace Pipeline

variable {C : Classifier} {s s' : Pipeline} {e : Event}

theorem Referenced.step (H : s.Referenced) (K : s.Kept) (h : s.step C e = some s') :
    s'.Referenced := by
  cases K.moves h with
  | silent hrec _ hblobs =>
    refine ⟨?_, ?_, ?_⟩
    · rw [hrec, hblobs]
      exact H.got
    · rw [hrec, hblobs]
      exact H.put
    · rw [hrec]
      exact H.keys
  | @answered pid d hrec hmay heff =>
    refine ⟨fun p key data hd => ?_, fun p key data hd => ?_, fun p b data cm hd => ?_⟩
    · rcases mem_record hrec hd with hd | ⟨-, rfl⟩
      · exact heff.keeps_blob (H.got p key data hd)
      · exact heff.got
    · rcases mem_record hrec hd with hd | ⟨-, rfl⟩
      · exact heff.keeps_blob (H.put p key data hd)
      · exact heff.put
    · rcases mem_record hrec hd with hd | ⟨-, rfl⟩
      · exact H.keys p b data cm hd
      · exact heff.saved_keys

theorem Reachable.referenced (h : Reachable C s) : s.Referenced := by
  obtain ⟨users, dropZone, es, hrun⟩ := h
  have hstart : (Pipeline.start users dropZone).Sound ∧
      (Pipeline.start users dropZone).Referenced := ⟨.start users dropZone, .start users dropZone⟩
  exact (hrun.inv (I := fun s => s.Sound ∧ s.Referenced)
    (fun _ _ _ H h => ⟨H.1.step h, H.2.step H.1.kept h⟩) hstart).2

/-- The execution that has saved a row had got the document and put the overlay. -/
theorem Referenced.row (H : s.Referenced) (S : s.Sound) {p : Prediction}
    (hp : p ∈ s.world.server.db.predictions.rows) :
    s.world.server.db.batches.find? p.batchId ≠ none ∧
      s.world.blobs p.blobKey ≠ none ∧ s.world.blobs p.overlayKey ≠ none := by
  obtain ⟨n, hn, hsaved⟩ := List.mem_flatMap.mp (S.saved.perm.mem_iff.mp hp)
  have hlt : n < s.world.queue.length := List.mem_range.mp hn
  have hjob : s.world.queue[n]? = some s.world.queue[n] := List.getElem?_eq_getElem hlt
  have hrow := S.saved.row n _ hjob p hsaved
  obtain ⟨b, data, cm, hd, rfl⟩ := mem_saves.mp hsaved
  obtain ⟨imageBytes, overlayBytes, hget, -, -, hput⟩ := S.kept.labeled hjob hd
  refine ⟨?_, ?_, ?_⟩
  · obtain ⟨i, hi⟩ := S.queue.batch _ (List.getElem_mem hlt)
    rw [hrow.batchId]
    exact S.batches.find?_ne_none hi
  · rw [hrow.blobKey]
    exact H.got (.job n) _ imageBytes hget
  · rw [(H.keys (.job n) _ _ _ hd).2.2]
    exact H.put (.job n) _ overlayBytes hput

/-- In every reachable state every row tells a batch and two objects that are there. -/
theorem predictions_refer (h : Reachable C s) : ∀ p ∈ s.world.server.db.predictions.rows,
    s.world.server.db.batches.find? p.batchId ≠ none ∧
      s.world.blobs p.blobKey ≠ none ∧ s.world.blobs p.overlayKey ≠ none :=
  fun _ hp => h.referenced.row h.sound hp

set_option maxRecDepth 100000 in
theorem predictions_refer_oneScan : ∃ s p, Reachable letters s ∧
    p ∈ s.world.server.db.predictions.rows ∧ p.overlayKey = "batches/b/overlay/a.png" ∧
    s.world.blobs p.overlayKey ≠ none := by
  have h : (exec (step letters) (start .empty oneScan)
      (ingestOne ++ .replicate 27 (.job 0 (ok "p")))).bind (fun s =>
        s.world.server.db.predictions.rows.head?.map (·.overlayKey)) =
      some "batches/b/overlay/a.png" := by decide
  obtain ⟨s, hs, h⟩ := Option.bind_eq_some_iff.mp h
  obtain ⟨p, hp, hkey⟩ := Option.map_eq_some_iff.mp h
  have hreach : Reachable letters s := ⟨.empty, oneScan, _, exec_eq_some.mp hs⟩
  have hmem := List.mem_of_mem_head? hp
  exact ⟨s, p, hreach, hmem, hkey, (predictions_refer hreach p hmem).2.2⟩

end Pipeline

end DocClassifier
