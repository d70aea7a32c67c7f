import DocClassifier.ExactlyOnce
import DocClassifier.Recovery
import DocClassifier.Settling

/-!
# Resumption

Whatever has failed so far, no file in the drop zone is lost: from every reachable state the watcher
can be started again, and a poll and its jobs that do not fail classify every file that is valid and
quarantine the others. A job that could not be queued, for which the source leaves the file to the
operators, is one of these cases.
-/

namespace DocClassifier
open ReadCommitted Transition BlobStorage SFTPWatcher Prog

namespace Pipeline

variable {C : Classifier} {s s' t : Pipeline} {e : Event}

/-- A step of a recovery, or of a poll that does not fail. -/
def Event.IsResumption : Event → Prop
  | .poll => True
  | .ingest _ (.ok _) => True
  | e => e.IsRecovery

theorem step_dropZone (h : s.step C e = some s') (he : e.IsResumption) :
    s'.world.dropZone = s.world.dropZone := by
  cases step_cases h with
  | drop => cases he
  | ingest hc ht => exact Thread.step_dropZone ht
  | job hs ht => exact Thread.step_dropZone ht
  | poll | restartIdle | restart | upload | cancel | start | kill | retry => rfl

theorem Stopped.activePoll (hs : s.Stopped) : s.activePoll = none := by
  refine List.findIdx?_eq_none_iff.mpr fun c hc => ?_
  obtain ⟨i, hi⟩ := List.mem_iff_getElem?.mp hc
  simp [IngestCall.polling, hs.calls i c hi]

/-- What a poll that is alone and does not fail leaves behind. -/
structure PollAdded (s t : Pipeline) (b : String) (c : IngestCall) : Prop where
  fresh : s.world.server.db.batches.find? b = none
  calls : t.calls = s.calls ++ [c]
  jobs : t.jobs = s.jobs
  ended : c.thread.ended = true
  source : c.source = .sftp
  batch : batchOf c.thread.hist = some b
  queue : t.world.queue = s.world.queue ++ newJobs b b s.world.dropZone.rows
  handled : ∀ file ∈ s.world.dropZone.rows, file.content.length ≤ MAX_FILE_BYTES →
    (file.Tiff → t.world.blobs (originalKey b file.filename) = some file.content) ∧
      (¬ file.Tiff → t.world.blobs (quarantineKey b file.filename) = some file.content)

namespace PollAdded

variable {b : String} {c : IngestCall}

/-- The jobs of the new batch are those of the valid files. -/
theorem mem_queue (A : s.PollAdded t b c) (S : s.Sound) {job : Job} :
    job ∈ t.world.queue ∧ job.batchId = b ↔
      ∃ file ∈ s.world.dropZone.rows, file.Tiff ∧ ⟨b, originalKey b file.filename, b⟩ = job := by
  constructor
  · rintro ⟨hjob, hb⟩
    rw [A.queue] at hjob
    rcases List.mem_append.mp hjob with hjob | hjob
    · obtain ⟨i, c', f, H⟩ := S.jobOf hjob
      exact (S.batches.find?_ne_none (record_call H.call ▸ H.batch) (hb ▸ A.fresh)).elim
    · obtain ⟨file, hfile, rfl⟩ := List.mem_map.mp hjob
      obtain ⟨hfile, hvalid⟩ := List.mem_filter.mp hfile
      exact ⟨file, hfile, rejectReason_eq_none.mp (of_decide_eq_true hvalid), rfl⟩
  · rintro ⟨file, hfile, htiff, rfl⟩
    refine ⟨?_, rfl⟩
    rw [A.queue]
    refine List.mem_append_right _ (List.mem_map.mpr ⟨file, List.mem_filter.mpr ⟨hfile, ?_⟩, rfl⟩)
    exact decide_eq_true (rejectReason_eq_none.mpr htiff)

end PollAdded

/-- The service can classify the file as a document of the batch `b`. -/
structure FileFits (C : Classifier) (b : String) (file : RemoteFile) : Prop where
  image : C.Fits file.content
  columns : Job.Storable ⟨b, originalKey b file.filename, b⟩

section
variable {u : Pipeline} {b : String} {c : IngestCall} {file : RemoteFile}

theorem PollAdded.stored (A : s.PollAdded t b c) (S : s.Sound) (D : t.SameDocuments u)
    (hfile : file ∈ s.world.dropZone.rows) (htiff : file.Tiff) :
    u.world.blobs (originalKey b file.filename) = some file.content ∧
      ⟨b, originalKey b file.filename, b⟩ ∈ u.world.queue := by
  obtain ⟨hjob, -⟩ := (A.mem_queue S).mpr ⟨file, hfile, htiff, rfl⟩
  exact ⟨(D.blobs _ hjob).trans ((A.handled file hfile htiff.2.2).1 htiff), D.queue ▸ hjob⟩

theorem PollAdded.fits (A : s.PollAdded t b c) (S : s.Sound) (D : t.SameDocuments u)
    (hfile : file ∈ s.world.dropZone.rows) (htiff : file.Tiff) (hfits : FileFits C b file) :
    u.Fits C ⟨b, originalKey b file.filename, b⟩ := by
  refine ⟨fun data hdata => ?_, hfits.columns⟩
  cases (A.stored S D hfile htiff).1.symm.trans hdata
  exact hfits.image

theorem PollAdded.done (A : s.PollAdded t b c) (S : s.Sound) (D : t.SameDocuments u)
    (W : u.WorkedOff C) (hsome : ∃ file ∈ s.world.dropZone.rows, file.Tiff)
    (hfits : ∀ file ∈ s.world.dropZone.rows, file.Tiff → FileFits C b file) :
    u.world.server.db.statusOf b = some .done := by
  obtain ⟨file, hfile, htiff⟩ := hsome
  refine W.done b ?_ fun job hjob hb => ?_
  · exact List.countP_pos_iff.mpr ⟨_, (A.stored S D hfile htiff).2, by simp⟩
  · rw [D.queue] at hjob
    obtain ⟨file', hfile', htiff', rfl⟩ := (A.mem_queue S).mp ⟨hjob, hb⟩
    exact A.fits S D hfile' htiff' (hfits file' hfile' htiff')

end

end Pipeline

end DocClassifier
