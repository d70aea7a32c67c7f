import DocClassifier.Working
import DocClassifier.Objects
import DocClassifier.Routes
import DocClassifier.FileNames

/-!
# The upload route

`upload_documents` from its first check to its response. A request that is refused has performed no
operation; with working services the others create one batch, one audit entry and one job for each
file.
-/

namespace DocClassifier
open BlobStorage Prog

/-- `upload_documents`. An `HTTPException` is a result, any other exception is an error. -/
def uploadRoute (policy : Policy) (actor : User) (uuid : String) (files : List UploadFile) :
    Proc (Except HTTPException UploadResponse) := do
  if policy.enforce actor.role.value "/upload" "POST" then
    match validateUpload uuid files with
    | .error e => pure (.error e)
    | .ok fileData => do
      let response ← uploadDocuments actor fileData
      pure (.ok response)
  else pure (.error { statusCode := 403, detail := "Forbidden" })

/-- The status of the response. No exception handler is installed. -/
def responseStatus : Except Exn (Except HTTPException UploadResponse) → Nat
  | .ok (.ok _) => 200
  | .ok (.error e) => e.statusCode
  | .error _ => 500

/-- What an accepted request has changed: one pending batch, one audit entry by the actor, and one
job for each file in order. -/
structure UploadEffects (actor : User) (files : List UploadFile) (w w' : World) (b r : String)
    (now : Nat) : Prop where
  batches : w'.server.db.batches.rows = w.server.db.batches.rows ++
    [{ id := b, status := .pending, fileCount := files.length, createdAt := now }]
  auditLogs : w'.server.db.auditLogs = w.server.db.auditLogs ++
    [{ actorId := some actor.id, action := "batch_created", target := "batch:" ++ b,
       details := [("file_count", .num files.length)], timestamp := now }]
  jobs : w'.queue = w.queue ++ files.map fun f => ⟨b, originalKey b (f.filename.getD ""), r⟩

section
variable {policy : Policy} {actor : User} {uuid : String} {files : List UploadFile}

theorem uploadRoute_forbidden (h : policy.enforce actor.role.value "/upload" "POST" = false) :
    uploadRoute policy actor uuid files =
      .ret (.error { statusCode := 403, detail := "Forbidden" }) := by
  rw [uploadRoute, h]
  rfl

theorem uploadRoute_invalid {e : HTTPException}
    (h : policy.enforce actor.role.value "/upload" "POST" = true)
    (hv : validateUpload uuid files = .error e) :
    uploadRoute policy actor uuid files = .ret (.error e) := by
  rw [uploadRoute, if_pos h, hv]
  rfl

theorem uploadRoute_valid {fileData : List (String × Bytes)}
    (h : policy.enforce actor.role.value "/upload" "POST" = true)
    (hv : validateUpload uuid files = .ok fileData) :
    uploadRoute policy actor uuid files =
      uploadDocuments actor fileData >>= fun response => pure (.ok response) := by
  rw [uploadRoute, if_pos h, hv]

variable {σ : Type} {h : Handler Op.Answer Exn σ} {s : σ}

/-- Once the checks are passed the status is neither 403 nor 422, whatever the services answer. -/
theorem responseStatus_valid {fileData : List (String × Bytes)} {n : Nat} (hn : n = 403 ∨ n = 422) :
    responseStatus ((uploadDocuments actor fileData >>= fun response =>
      (pure (.ok response) : Proc (Except HTTPException UploadResponse))).interp h s).1 ≠ n := by
  rw [interp_bind]
  rcases (uploadDocuments actor fileData).interp h s with ⟨e | response, s'⟩
  · change 500 ≠ n
    omega
  · change 200 ≠ n
    omega

/-- A refused request has changed nothing, whatever state the services are in. -/
theorem refused_unchanged (hstatus :
      responseStatus ((uploadRoute policy actor uuid files).interp h s).1 = 403 ∨
      responseStatus ((uploadRoute policy actor uuid files).interp h s).1 = 422) :
    ((uploadRoute policy actor uuid files).interp h s).2 = s := by
  cases hp : policy.enforce actor.role.value "/upload" "POST" with
  | false => rw [uploadRoute_forbidden hp, interp_ret]
  | true =>
    cases hv : validateUpload uuid files with
    | error e => rw [uploadRoute_invalid hp hv, interp_ret]
    | ok fileData =>
      rw [uploadRoute_valid hp hv] at hstatus
      rcases hstatus with hstatus | hstatus
      · exact (responseStatus_valid (.inl rfl) hstatus).elim
      · exact (responseStatus_valid (.inr rfl) hstatus).elim

end

section
variable {C : Classifier} {gens : Nat → Gen} {l : Live} {actor : User}

/-- With working services, `upload_documents` after its validation. -/
theorem returns_uploadDocuments {fileData : List (String × Bytes)}
    (hid : l.world.server.db.batches.find? (gens l.next).uuid = none)
    (hactor : (l.world.server.db.users.find? actor.id).isSome)
    (hsmall : ∀ p ∈ fileData, p.2.length ≤ MAX_FILE_BYTES) :
    Returns (working C gens) (uploadDocuments actor fileData) l fun _ l' =>
      l'.world.server.db =
        l.world.server.db.withBatch (gens l.next) fileData.length (some actor) ∧
      l'.world.queue = l.world.queue ++ fileData.map fun p =>
        ⟨(gens l.next).uuid, originalKey (gens l.next).uuid p.1, (gens (l.next + 2)).uuid⟩ := by
  refine returns_bind.mpr (returns_createBatch hid (fun a ha => Option.some.inj ha ▸ hactor) ?_)
  refine returns_bind.mpr (returns_io rfl ?_)
  refine returns_bind.mpr (returns_io rfl ?_)
  refine returns_bind.mpr (returns_io rfl ?_)
  refine returns_bind.mpr (Returns.foldEach (fun rest _ l' => ∃ before, fileData = before ++ rest ∧
    l'.world.server.db = l.world.server.db.withBatch (gens l.next) fileData.length (some actor) ∧
    l'.world.queue = l.world.queue ++ before.map fun p =>
      ⟨(gens l.next).uuid, originalKey (gens l.next).uuid p.1, (gens (l.next + 2)).uuid⟩) ?_ ?_
    ⟨[], rfl, rfl, (List.append_nil _).symm⟩)
  · intro ⟨filename, content⟩ rest jobs l' ⟨before, hbefore, hdb, hqueue⟩
    refine returns_bind.mpr (returns_upload (hsmall (filename, content) (by simp [hbefore])) ?_)
    refine returns_bind.mpr (returns_io rfl (returns_ret.mpr ?_))
    refine ⟨before ++ [(filename, content)], by simp [hbefore], hdb, ?_⟩
    rw [List.map_append, ← List.append_assoc, ← hqueue]
    rfl
  · intro jobs l' ⟨before, hbefore, hdb, hqueue⟩
    rw [List.append_nil] at hbefore
    subst hbefore
    exact returns_ret.mpr ⟨hdb, hqueue⟩

variable {policy : Policy} {uuid : String} {files : List UploadFile}

/-- With working services a permitted request of valid files has all its effects. -/
theorem accepted_effects (hp : policy.enforce actor.role.value "/upload" "POST" = true)
    (hid : l.world.server.db.batches.find? (gens l.next).uuid = none)
    (hactor : (l.world.server.db.users.find? actor.id).isSome)
    (hne : files ≠ []) (hok : ∀ f ∈ files, f.Ok) :
    Returns (working C gens) (uploadRoute policy actor uuid files) l fun response l' =>
      (∃ body, response = .ok body) ∧ ∃ b r now,
        UploadEffects actor files l.world l'.world b r now := by
  rw [uploadRoute_valid hp (validateUpload_of_ok hne hok)]
  have hsmall : ∀ p ∈ files.map fun f => (f.filename.getD "", f.content),
      p.2.length ≤ MAX_FILE_BYTES := by
    intro p hp
    obtain ⟨f, hf, rfl⟩ := List.mem_map.mp hp
    exact (hok f hf).size
  refine returns_bind.mpr ((returns_uploadDocuments hid hactor hsmall).mono ?_)
  intro body l' ⟨hdb, hqueue⟩
  rw [List.length_map] at hdb
  refine returns_ret.mpr ⟨⟨body, rfl⟩, (gens l.next).uuid, (gens (l.next + 2)).uuid,
    (gens l.next).now, ⟨?_, ?_, ?_⟩⟩
  · rw [hdb]
    exact Table.rows_insert hid
  · rw [hdb]
    rfl
  · rw [hqueue, List.map_map]
    rfl

/-- A request that is refused has changed nothing. With working services the refused requests are
those that are not permitted or not valid, and the others have all their effects. -/
theorem upload_validates_first (policy : Policy) (actor : User) (uuid : String)
    (files : List UploadFile) :
    (∀ (σ : Type) (h : Handler Op.Answer Exn σ) (s : σ),
      responseStatus ((uploadRoute policy actor uuid files).interp h s).1 = 403 ∨
        responseStatus ((uploadRoute policy actor uuid files).interp h s).1 = 422 →
      ((uploadRoute policy actor uuid files).interp h s).2 = s) ∧
    ∀ (C : Classifier) (gens : Nat → Gen) (l : Live),
      l.world.server.db.batches.find? (gens l.next).uuid = none →
      (l.world.server.db.users.find? actor.id).isSome →
      (responseStatus ((uploadRoute policy actor uuid files).interp (working C gens) l).1 = 422 ↔
        policy.enforce actor.role.value "/upload" "POST" = true ∧
          (files = [] ∨ ∃ f ∈ files, ¬ f.Ok)) ∧
      (policy.enforce actor.role.value "/upload" "POST" = true → files ≠ [] →
        (∀ f ∈ files, f.Ok) →
        responseStatus ((uploadRoute policy actor uuid files).interp (working C gens) l).1 = 200 ∧
          ∃ b r now, UploadEffects actor files l.world
            ((uploadRoute policy actor uuid files).interp (working C gens) l).2.world b r now) := by
  refine ⟨fun σ h s => refused_unchanged, fun C gens l hid hactor => ?_⟩
  have heffects : policy.enforce actor.role.value "/upload" "POST" = true → files ≠ [] →
      (∀ f ∈ files, f.Ok) →
      responseStatus ((uploadRoute policy actor uuid files).interp (working C gens) l).1 = 200 ∧
        ∃ b r now, UploadEffects actor files l.world
          ((uploadRoute policy actor uuid files).interp (working C gens) l).2.world b r now := by
    intro hp hne hok
    obtain ⟨response, l', hrun, ⟨body, hbody⟩, heffects⟩ :=
      accepted_effects (C := C) hp hid hactor hne hok
    rw [hrun, hbody]
    exact ⟨rfl, heffects⟩
  refine ⟨⟨fun hstatus => ?_, fun ⟨hp, hbad⟩ => ?_⟩, heffects⟩
  · cases hp : policy.enforce actor.role.value "/upload" "POST" with
    | false =>
      rw [uploadRoute_forbidden hp] at hstatus
      cases hstatus
    | true =>
      refine ⟨rfl, ?_⟩
      by_contra hgood
      rw [not_or] at hgood
      have hok : ∀ f ∈ files, f.Ok := fun f hf => by
        by_contra hf'
        exact hgood.2 ⟨f, hf, hf'⟩
      rw [(heffects hp hgood.1 hok).1] at hstatus
      cases hstatus
  · obtain ⟨e, he, hcode⟩ := @validateUpload_of_not_ok uuid files hbad
    rw [uploadRoute_invalid hp he]
    exact hcode

end

open Pipeline (uploader letters uploaders start)

theorem upload_validates_first_oneScan :
    ∃ b r now, UploadEffects uploader [⟨some "a.tif", [73]⟩] (start uploaders .empty).world
      ((uploadRoute [("admin", "/upload", "POST")] uploader "u" [⟨some "a.tif", [73]⟩]).interp
        (working letters fun _ => ⟨"b", 0, by decide⟩) ⟨(start uploaders .empty).world, 0⟩).2.world
      b r now := by
  refine (((upload_validates_first [("admin", "/upload", "POST")] uploader "u"
    [⟨some "a.tif", [73]⟩]).2 _ _ ⟨(start uploaders .empty).world, 0⟩ rfl rfl).2 (by decide)
      (List.cons_ne_nil _ _) ?_).2
  intro f hf
  rw [List.mem_singleton.mp hf]
  exact ⟨by decide, by decide, by decide⟩

end DocClassifier
