import DocClassifier.Recovery
import DocClassifier.UploadKeeps
import DocClassifier.Watcher

/-!
# Answered uploads

A client that has been answered can rely on the jobs that the response names: whatever has happened
since, they are still in the queue, and when the queue is worked off each of them has a prediction,
for a document that the request has sent under its name.
-/

namespace DocClassifier
open ReadCommitted Transition BlobStorage Prog

theorem Responded.blobKey {fileData : List (String × Bytes)} {H : History}
    {response : UploadResponse} {job : UploadedJob} (h : Responded fileData H response)
    (hjob : job ∈ response.jobs) : job.blobKey = originalKey response.batchId job.filename := by
  have hmem : (job.filename, job.blobKey) ∈
      response.jobs.map fun job => (job.filename, job.blobKey) := List.mem_map_of_mem hjob
  rw [h.jobs] at hmem
  obtain ⟨p, -, hp⟩ := List.mem_map.mp hmem
  obtain ⟨hname, hkey⟩ := Prod.mk.inj hp
  rw [← hkey, hname]

namespace Pipeline

variable {C : Classifier} {s s' : Pipeline} {e : Event} {i : Nat} {c : IngestCall}

/-- The service can classify what the request has sent under the name of the job. -/
structure SentFits (C : Classifier) (files : List UploadFile) (response : UploadResponse)
    (job : UploadedJob) : Prop where
  image : ∀ file ∈ files, file.filename.getD "" = job.filename → C.Fits file.content
  columns : Job.Storable ⟨response.batchId, job.blobKey, response.requestId⟩

/-- The call `i` has kept what the response to the files promises. -/
def Answered (s : Pipeline) (i : Nat) (files : List UploadFile) (response : UploadResponse) :
    Prop :=
  Responded (files.map fun f => (f.filename.getD "", f.content)) (s.record (.ingest i)) response

section
variable {files : List UploadFile} {response : UploadResponse} {job : UploadedJob}

theorem Answered.filenames (A : s.Answered i files response) :
    response.jobs.map (·.filename) = files.map (·.filename.getD "") := by
  have h := congrArg (List.map Prod.fst) A.jobs
  simpa [Function.comp_def] using h

/-- The jobs of the batch are those that the response names. -/
theorem Answered.queue_eq (A : s.Answered i files response) (S : s.Sound) :
    s.world.queue.filter (·.batchId = response.batchId) =
      response.jobs.map fun job => ⟨response.batchId, job.blobKey, response.requestId⟩ := by
  rw [← A.queued]
  exact S.queue.jobs _ _ A.batch

theorem Answered.mem_queue (A : s.Answered i files response) (S : s.Sound)
    (hjob : job ∈ response.jobs) :
    ⟨response.batchId, job.blobKey, response.requestId⟩ ∈ s.world.queue :=
  List.mem_of_mem_filter (A.queue_eq S ▸ List.mem_map_of_mem hjob)

/-- The document of a job that the response names is one of the request. -/
theorem Answered.fits (A : s.Answered i files response) (S : s.Sound) (hjob : job ∈ response.jobs)
    (hsent : SentFits C files response job) :
    s.Fits C ⟨response.batchId, job.blobKey, response.requestId⟩ := by
  refine ⟨fun data hdata => ?_, hsent.columns⟩
  dsimp only at hdata
  rw [A.blobKey hjob, S.objects.own i _ job.filename _ A.batch (.inl rfl), A.stored] at hdata
  obtain ⟨file, hfile, heq⟩ := List.mem_map.mp (mem_of_written hdata)
  obtain ⟨hname, rfl⟩ := Prod.mk.inj heq
  exact hsent.image file hfile hname

/-- When the queue is worked off, the batch of a request all of whose files can be classified is
`done`. -/
theorem Answered.done (A : s.Answered i files response) (S : s.Sound) (W : s.WorkedOff C)
    (hne : files ≠ []) (hsent : ∀ job ∈ response.jobs, SentFits C files response job) :
    s.world.server.db.statusOf response.batchId = some .done := by
  have hjobs : response.jobs ≠ [] := by
    intro h
    have hnames := A.filenames
    rw [h] at hnames
    exact hne (List.map_eq_nil_iff.mp hnames.symm)
  refine W.done _ ?_ fun job hjob hb => ?_
  · rw [jobsOf, List.countP_eq_length_filter, A.queue_eq S, List.length_map]
    exact List.length_pos_iff.mpr hjobs
  · have hmem : job ∈ s.world.queue.filter (·.batchId = response.batchId) :=
      List.mem_filter.mpr ⟨hjob, by simpa using hb⟩
    rw [A.queue_eq S] at hmem
    obtain ⟨job', hjob', rfl⟩ := List.mem_map.mp hmem
    exact A.fits S hjob' (hsent job' hjob')

end

end Pipeline

end DocClassifier
