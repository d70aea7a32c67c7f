import DocClassifier.Lib.LastWrite
import DocClassifier.Conservation
import DocClassifier.FileNames

/-!
# The documents of an upload request

A request that has ended with a response has stored, under the key of each name, the content of the
last of its files with that name. Two files of one name with different contents are both answered
with the same key, and one of them is lost.
-/

namespace DocClassifier
open ReadCommitted Transition BlobStorage Prog

/-- The stored documents are those of the files, in order. -/
def KeepsDocuments (w : World) (response : UploadResponse) (files : List UploadFile) : Prop :=
  List.Forall₂ (fun (job : UploadedJob) (f : UploadFile) =>
    job.filename = f.filename.getD "" ∧ w.blobs job.blobKey = some f.content) response.jobs files

/-- No two files of one name differ in their contents. -/
def NamesAgree (files : List UploadFile) : Prop :=
  ∀ f ∈ files, ∀ f' ∈ files, f.filename.getD "" = f'.filename.getD "" → f.content = f'.content

/-! ## One request -/

/-- What a request has done for the files `fileData` when its response is `response`. -/
structure Responded (fileData : List (String × Bytes)) (H : History) (response : UploadResponse) :
    Prop where
  batch : batchOf H = some response.batchId
  jobs : response.jobs.map (fun job => (job.filename, job.blobKey)) =
    fileData.map fun p => (p.1, originalKey response.batchId p.1)
  stored : ∀ f, stored H (originalKey response.batchId f) = written fileData f
  put : ∀ key data r, ⟨.io (.putObject key data), r⟩ ∈ H →
    ∃ f, (f, data) ∈ fileData ∧ key = originalKey response.batchId f
  queued : enqueued H =
    response.jobs.map fun job => ⟨response.batchId, job.blobKey, response.requestId⟩

section
variable {actor : User} {fileData : List (String × Bytes)} {H : History}
  {response : UploadResponse}

/-- Before its first file a request has put nothing and queued nothing. -/
theorem Responded.nil (hb : batchOf H = some response.batchId) (hjobs : response.jobs = [])
    (hput : ∀ key data r, ⟨.io (.putObject key data), r⟩ ∉ H) (hqueued : enqueued H = []) :
    Responded [] H response := by
  refine ⟨hb, by rw [hjobs]; rfl, fun f => stored_eq_none fun data => hput _ data _, ?_, ?_⟩
  · exact fun key data r h => (hput key data r h).elim
  · rw [hjobs]
    exact hqueued

/-- The next file is put and its job is queued. -/
theorem Responded.next (h : Responded fileData H response) (filename : String) (content : Bytes)
    (jobId : String) : Responded (fileData ++ [(filename, content)])
      (H ++ [⟨.io (.putObject (originalKey response.batchId filename) content), .ok ()⟩] ++
        [⟨.io (.enqueue ⟨response.batchId, originalKey response.batchId filename,
          response.requestId⟩), .ok jobId⟩])
      { response with jobs := response.jobs ++
        [⟨filename, originalKey response.batchId filename, jobId⟩] } where
  batch := batchOf_append (batchOf_append h.batch)
  jobs := by simp [h.jobs]
  stored f := by
    rw [stored_append, stored_none (by rintro _ ⟨⟩), Option.none_or, stored_append, written_snoc,
      Function.update_apply, h.stored]
    by_cases hf : f = filename
    · rw [hf, stored_put, Option.some_or, if_pos rfl]
    · rw [stored_put_of_ne fun h => hf (originalKey_filename h).symm, Option.none_or, if_neg hf]
  put key data r hput := by
    simp only [List.append_assoc, List.cons_append, List.nil_append, List.mem_append, List.mem_cons,
      List.not_mem_nil, or_false] at hput
    rcases hput with hput | hput | hput
    · obtain ⟨f, hf, rfl⟩ := h.put key data r hput
      exact ⟨f, List.mem_append_left _ hf, rfl⟩
    · cases hput
      exact ⟨filename, List.mem_append_right _ (List.mem_singleton_self _), rfl⟩
    · cases hput
  queued := by
    rw [enqueued_append, enqueued_append, h.queued]
    simp [enqueued]

theorem uploadDocuments_responds : Spec (contract fun _ _ => True) (fun H r =>
      ∀ response, r = .ok response → Responded fileData H response) []
    (uploadDocuments actor fileData) := by
  have hraise : ∀ (H : History) (e : Exn) (response : UploadResponse),
      (.error e : Except Exn UploadResponse) = .ok response → Responded fileData H response := by
    intro H e response h
    cases h
  rw [uploadDocuments, spec_bind]
  refine spec_service trivial (fun _ _ => trivial) (fun cm D hD => ?_)
    (fun _ _ _ e _ => hraise _ e) fun e => hraise _ e
  dsimp only
  rw [spec_bind]
  refine spec_io.mpr ⟨trivial, fun r _ => ?_⟩
  rcases r with e | requestId
  · exact hraise _ e
  dsimp only
  rw [spec_bind]
  refine spec_io.mpr ⟨trivial, fun r _ => ?_⟩
  rcases r with e | ⟨⟩
  · exact hraise _ e
  dsimp only
  rw [spec_bind]
  refine spec_io.mpr ⟨trivial, fun r _ => ?_⟩
  rcases r with e | ⟨⟩
  · exact hraise _ e
  dsimp only
  rw [spec_bind]
  -- The response for the files before.
  refine spec_foldEach (fun H jobs rest => ∃ before, fileData = before ++ rest ∧
    Responded before H ⟨cm.result.id, fileData.length, requestId, jobs⟩) ?_ ?_ ?_
  · intro H jobs p rest h
    obtain ⟨filename, content⟩ := p
    obtain ⟨before, hfiles, hresponded⟩ := h
    dsimp only
    rw [spec_bind]
    refine spec_upload trivial (fun e _ => hraise _ e) (fun _ => ?_) fun _ e => hraise _ e
    dsimp only
    rw [spec_bind]
    refine spec_io.mpr ⟨trivial, fun r _ => ?_⟩
    rcases r with e | jobId
    · exact hraise _ e
    exact ⟨before ++ [(filename, content)], by simp [hfiles],
      hresponded.next filename content jobId⟩
  · intro H jobs h response hr
    obtain ⟨before, hfiles, hresponded⟩ := h
    cases hr
    rw [List.append_nil] at hfiles
    exact hfiles ▸ hresponded
  · refine ⟨[], rfl, .nil rfl rfl (fun key data r hput => ?_) ?_⟩
    · simp only [List.nil_append, List.append_assoc, List.cons_append, List.mem_cons,
        List.mem_append, List.not_mem_nil, or_false] at hput
      rcases hput with hput | hput | hput | hput | hput
      · cases hput
      · obtain ⟨key, hkey⟩ := hD _ hput
        cases hkey
      · cases hput
      · cases hput
      · cases hput
    · refine enqueued_eq_nil fun d hd job hjob => ?_
      simp only [List.nil_append, List.append_assoc, List.cons_append, List.mem_cons,
        List.mem_append, List.not_mem_nil, or_false] at hd
      rcases hd with rfl | hd | rfl | rfl | rfl
      · cases hjob
      · obtain ⟨key, rfl⟩ := hD _ hd
        cases hjob
      · cases hjob
      · cases hjob
      · cases hjob

/-- The thread of a request, whatever ends it. -/
theorem uploadCall_responds : (Pipeline.uploadCall actor fileData).thread.Keeps (fun _ _ => True)
    fun H r => ∀ response, r = .ok (some response) → Responded fileData H response := by
  refine ⟨along_nil, spec_bind.mpr (uploadDocuments_responds.mono fun H r hr => ?_)⟩
  cases r with
  | ok response =>
    intro response' h
    cases h
    exact hr response rfl
  | error e => exact nofun

end

/-! ## Runs -/

/-- A killed thread keeps what it promises of its responses. -/
theorem Thread.Keeps.kill {α : Type} {th : Thread α} {may : History → Op → Prop}
    {Q : History → Except Exn α → Prop} (h : th.Keeps may Q) (hQ : ∀ H e, Q H (.error e)) :
    th.kill.Keeps may Q := ⟨h.along, hQ _ _⟩

namespace Pipeline

variable {C : Classifier} {s s' : Pipeline} {e : Event} {i : Nat}
  {Q : History → Except Exn (Option UploadResponse) → Prop}

/-- The call `i` has been received, and it keeps its promise `Q`. -/
def CallKeeps (i : Nat) (Q : History → Except Exn (Option UploadResponse) → Prop) (s : Pipeline) :
    Prop := ∃ c, s.calls[i]? = some c ∧ c.thread.Keeps (fun _ _ => True) Q

theorem CallKeeps.killCall (h : s.CallKeeps i Q) (hQ : ∀ H e, Q H (.error e)) {j : Nat}
    {c : IngestCall} (hc : s.calls[j]? = some c) : (s.killCall j c).CallKeeps i Q := by
  obtain ⟨a, ha, hkeeps⟩ := h
  by_cases hij : i = j
  · subst hij
    cases hc.symm.trans ha
    exact ⟨_, (getElem?_setCall hc i).trans (if_pos rfl), hkeeps.kill hQ⟩
  · exact ⟨a, (getElem?_setCall hc i).trans ((if_neg hij).trans ha), hkeeps⟩

theorem CallKeeps.step (h : s.CallKeeps i Q) (hQ : ∀ H e, Q H (.error e))
    (hs : s.step C e = some s') : s'.CallKeeps i Q := by
  have hadd : ∀ c, ({ s with calls := s.calls ++ [c] } : Pipeline).CallKeeps i Q := by
    intro c
    obtain ⟨a, ha, hkeeps⟩ := h
    have hlt := (List.getElem?_eq_some_iff.mp ha).1
    exact ⟨a, (getElem?_addCall i).trans ((if_neg hlt.ne).trans ha), hkeeps⟩
  cases step_cases hs with
  | drop | restartIdle | start | job | kill | retry => exact h
  | poll | upload => exact hadd _
  | restart _ hc => exact h.killCall hQ hc
  | cancel hc => exact h.killCall hQ hc
  | @ingest j tick c world thread hc ht =>
    obtain ⟨a, ha, hkeeps⟩ := h
    by_cases hij : i = j
    · subst hij
      cases hc.symm.trans ha
      exact ⟨_, (getElem?_setCall hc i).trans (if_pos rfl), hkeeps.step ht⟩
    · exact ⟨a, (getElem?_setCall hc i).trans ((if_neg hij).trans ha), hkeeps⟩

/-- What is stored when the request has ended with a response. -/
theorem responded_blobs {s₁ s₂ : Pipeline} {actor : User} {uuid : String}
    {files : List UploadFile} {es : List Event} {c : IngestCall} {H : History}
    {response : UploadResponse} (hr : Reachable C s₁)
    (hupload : s₁.step C (.upload actor uuid files) = some s₂)
    (hrun : Run (Steps (step C)) s₂ es s) (hc : s.calls[s₁.calls.length]? = some c)
    (hend : c.thread = .run H (.ret (some response))) :
    ∃ b, response.jobs.map (fun job => (job.filename, job.blobKey)) =
        files.map (fun f => (f.filename.getD "", originalKey b (f.filename.getD ""))) ∧
      ∀ f, s.world.blobs (originalKey b f) =
        written (files.map fun f => (f.filename.getD "", f.content)) f := by
  have hsound : s.Sound := (hr.sound.step hupload).run hrun
  cases step_cases hupload with
  | @upload _ _ _ fileData hvalid =>
    have hdata := validateUpload_data hvalid
    have hkeeps : s.CallKeeps s₁.calls.length fun H r =>
        ∀ response, r = .ok (some response) → Responded fileData H response := by
      refine hrun.inv (fun _ _ _ h hs => h.step (fun _ _ => nofun) hs)
        ⟨uploadCall actor fileData, ?_,
        uploadCall_responds⟩
      exact (getElem?_addCall _).trans (if_pos rfl)
    obtain ⟨c', hc', hkeeps⟩ := hkeeps
    cases hc.symm.trans hc'
    rw [hend] at hkeeps
    have hresponded := hkeeps.2 response rfl
    refine ⟨response.batchId, ?_, fun f => ?_⟩
    · rw [hresponded.jobs, hdata, List.map_map]
      rfl
    · have hb : batchOf (s.record (.ingest s₁.calls.length)) = some response.batchId := by
        rw [record_call hc, hend]
        exact hresponded.batch
      rw [hsound.objects.own _ _ f _ hb (.inl rfl), record_call hc, hend, ← hdata]
      exact hresponded.stored f

/-- An upload request that has ended with a response has kept every document if and only if the
files of one name have the same content. -/
theorem keepsDocuments_iff {s₁ s₂ : Pipeline} {actor : User} {uuid : String}
    {files : List UploadFile} {es : List Event} {c : IngestCall} {H : History}
    {response : UploadResponse} (hr : Reachable C s₁)
    (hupload : s₁.step C (.upload actor uuid files) = some s₂)
    (hrun : Run (Steps (step C)) s₂ es s) (hc : s.calls[s₁.calls.length]? = some c)
    (hend : c.thread = .run H (.ret (some response))) :
    KeepsDocuments s.world response files ↔ NamesAgree files := by
  obtain ⟨b, hjobs, hblobs⟩ := responded_blobs hr hupload hrun hc hend
  have hfiles : KeepsDocuments s.world response files ↔ ∀ f ∈ files,
      written (files.map fun f => (f.filename.getD "", f.content)) (f.filename.getD "") =
        some f.content := by
    refine (forall₂_of_map_eq (P := fun (x : String × String) (f : UploadFile) =>
      x.1 = f.filename.getD "" ∧ s.world.blobs x.2 = some f.content) hjobs).trans ?_
    refine forall₂_congr fun f _ => ?_
    rw [hblobs]
    exact ⟨And.right, fun h => ⟨rfl, h⟩⟩
  have hagree : (∀ p ∈ files.map fun f => (f.filename.getD "", f.content),
      written (files.map fun f => (f.filename.getD "", f.content)) p.1 = some p.2) ↔ _ :=
    written_eq_iff
  simp only [List.forall_mem_map] at hagree
  exact hfiles.trans hagree

/-- The response of a thread that has returned one. -/
def responseOf (th : Thread (Option UploadResponse)) : Option UploadResponse :=
  match th with
  | .run _ (.ret (some response)) => some response
  | _ => none

theorem responseOf_eq {th : Thread (Option UploadResponse)} {response : UploadResponse}
    (h : responseOf th = some response) : ∃ H, th = .run H (.ret (some response)) := by
  unfold responseOf at h
  split at h
  · cases h
    exact ⟨_, rfl⟩
  · cases h

/-- The state and the response at the end of a request that ends with one. -/
theorem exec_response {users : Table String UserORM (·.id)} {e : Event} {es : List Event}
    {α : Type} {a : α} {f : Pipeline → UploadResponse → α}
    (h : ((exec (step C) (start users .empty) (e :: es)).bind fun s => s.calls[0]?.bind fun c =>
      (responseOf c.thread).map (f s)) = some a) :
    ∃ s₂ s c H response, (start users .empty).step C e = some s₂ ∧ Run (Steps (step C)) s₂ es s ∧
      s.calls[0]? = some c ∧ c.thread = .run H (.ret (some response)) ∧ f s response = a := by
  obtain ⟨s, hs, h⟩ := Option.bind_eq_some_iff.mp h
  obtain ⟨c, hc, h⟩ := Option.bind_eq_some_iff.mp h
  obtain ⟨response, hresponse, h⟩ := Option.map_eq_some_iff.mp h
  obtain ⟨s₂, hstep, hrun⟩ := Run.cons_iff.mp (exec_eq_some.mp hs)
  obtain ⟨H, hend⟩ := responseOf_eq hresponse
  exact ⟨s₂, s, c, H, response, hstep, hrun, hc, hend, h⟩

set_option maxRecDepth 100000 in
theorem keepsDocuments_iff_twoNames : ∃ s₂ s c H response,
    (start uploaders .empty).step letters
      (.upload uploader "u" [⟨some "a.tif", [73]⟩, ⟨some "b.tif", [77]⟩]) = some s₂ ∧
    Run (Steps (step letters)) s₂ (.replicate 12 (.ingest 0 (ok "b"))) s ∧ s.calls[0]? = some c ∧
    c.thread = .run H (.ret (some response)) ∧
    KeepsDocuments s.world response [⟨some "a.tif", [73]⟩, ⟨some "b.tif", [77]⟩] := by
  have h : ((exec (step letters) (start uploaders .empty)
      (.upload uploader "u" [⟨some "a.tif", [73]⟩, ⟨some "b.tif", [77]⟩] ::
        .replicate 12 (.ingest 0 (ok "b")))).bind fun s => s.calls[0]?.bind fun c =>
          (responseOf c.thread).map fun _ => ()) = some () := by
    decide
  obtain ⟨s₂, s, c, H, response, hstep, hrun, hc, hend, -⟩ := exec_response h
  refine ⟨s₂, s, c, H, response, hstep, hrun, hc, hend,
    (keepsDocuments_iff ⟨_, _, [], .nil⟩ hstep hrun hc hend).mpr ?_⟩
  simp [NamesAgree]

set_option maxRecDepth 100000 in
/-- Of two files of one name the second is stored in the place of the first. -/
theorem not_keepsDocuments_oneName : ∃ s₂ s c H response,
    (start uploaders .empty).step letters
      (.upload uploader "u" [⟨some "a.tif", [73]⟩, ⟨some "a.tif", [77]⟩]) = some s₂ ∧
    Run (Steps (step letters)) s₂ (.replicate 12 (.ingest 0 (ok "b"))) s ∧ s.calls[0]? = some c ∧
    c.thread = .run H (.ret (some response)) ∧
    ¬ KeepsDocuments s.world response [⟨some "a.tif", [73]⟩, ⟨some "a.tif", [77]⟩] := by
  have h : ((exec (step letters) (start uploaders .empty)
      (.upload uploader "u" [⟨some "a.tif", [73]⟩, ⟨some "a.tif", [77]⟩] ::
        .replicate 12 (.ingest 0 (ok "b")))).bind fun s => s.calls[0]?.bind fun c =>
          (responseOf c.thread).map fun response =>
            (response.jobs.map (·.blobKey), s.world.blobs "batches/b/original/a.tif")) =
      some (["batches/b/original/a.tif", "batches/b/original/a.tif"], some [77]) := by
    decide
  obtain ⟨s₂, s, c, H, response, hstep, hrun, hc, hend, hresponse⟩ := exec_response h
  refine ⟨s₂, s, c, H, response, hstep, hrun, hc, hend, fun hkeeps => ?_⟩
  rw [Prod.mk.injEq] at hresponse
  obtain ⟨hjobs, hblob⟩ := hresponse
  obtain ⟨batchId, fileCount, requestId, jobs⟩ := response
  cases hkeeps with
  | @cons job _ _ _ hfirst _ =>
    have hkey : job.blobKey = "batches/b/original/a.tif" := (List.cons.inj hjobs).1
    have hcontent := hfirst.2
    rw [hkey, hblob] at hcontent
    cases hcontent

end Pipeline

end DocClassifier
