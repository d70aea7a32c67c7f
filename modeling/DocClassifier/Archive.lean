import DocClassifier.Provenance
import DocClassifier.Lib.Simulation

/-!
# The service as an archive

What the pipeline is for, without threads, statements, locks and failures: an archive that takes
versions of documents, accepts jobs for documents it has, and adds the classifier's answers for
documents that have a job. Every run of the pipeline is a run of the archive: the bucket has the
last version of each document, the queue its jobs, and the predictions table the answers.
-/

namespace DocClassifier
open ReadCommitted Transition BlobStorage Prog

structure Document where
  /-- What has been put under the key, in order. -/
  versions : List Bytes := []
  jobs : Nat := 0
  answers : List (String × Rat) := []

abbrev Archive := String → Document

inductive Action where
  | put (key : String) (data : Bytes)
  | enqueue (key : String)
  | classify (key : String) (data : Bytes)

namespace Archive

def empty : Archive := fun _ => {}

variable (C : Classifier)

def step (a : Archive) : Action → Option Archive
  | .put key data =>
    some (Function.update a key { a key with versions := (a key).versions ++ [data] })
  | .enqueue key =>
    if (a key).versions = [] then none
    else some (Function.update a key { a key with jobs := (a key).jobs + 1 })
  | .classify key data =>
    if data ∈ (a key).versions ∧ 0 < (a key).jobs then
      (C.predict data).map fun r =>
        Function.update a key { a key with answers := (a key).answers ++ [r] }
    else none

/-- The answers are the classifier's for versions of the document, and come after a job. -/
structure Honest (d : Document) : Prop where
  answers : ∀ r ∈ d.answers, ∃ data ∈ d.versions, C.predict data = some r
  classified : d.answers ≠ [] → 0 < d.jobs
  queued : 0 < d.jobs → d.versions ≠ []

variable {C} {a a' : Archive} {act : Action} {key : String}

theorem Honest.empty : Honest C {} := ⟨nofun, fun h => (h rfl).elim, nofun⟩

theorem Honest.step (H : ∀ key, Honest C (a key)) (h : a.step C act = some a') (key : String) :
    Honest C (a' key) := by
  have hother : ∀ {k d}, key ≠ k → Honest C (Function.update a k d key) := by
    intro k d hne
    rw [Function.update_of_ne hne]
    exact H key
  cases act with
  | put k data =>
    cases h
    by_cases hk : key = k
    · subst hk
      rw [Function.update_self]
      refine ⟨fun r hr => ?_, (H key).classified, fun _ => by simp⟩
      obtain ⟨data', hmem, hr⟩ := (H key).answers r hr
      exact ⟨data', List.mem_append_left _ hmem, hr⟩
    · exact hother hk
  | enqueue k =>
    simp only [Archive.step] at h
    split at h
    · cases h
    · rename_i hne
      cases h
      by_cases hk : key = k
      · subst hk
        rw [Function.update_self]
        exact ⟨(H key).answers, fun _ => Nat.succ_pos _, fun _ => hne⟩
      · exact hother hk
  | classify k data =>
    simp only [Archive.step] at h
    split at h
    · rename_i hdata
      obtain ⟨r, hr, rfl⟩ := Option.map_eq_some_iff.mp h
      by_cases hk : key = k
      · subst hk
        rw [Function.update_self]
        refine ⟨List.forall_mem_append.mpr ⟨(H key).answers, ?_⟩, fun _ => hdata.2, (H key).queued⟩
        exact List.forall_mem_singleton.mpr ⟨data, hdata.1, hr⟩
      · exact hother hk
    · cases h

/-- No action takes a version away. -/
theorem versions_subset (h : a.step C act = some a') (key : String) :
    (a key).versions ⊆ (a' key).versions := by
  have hupdate : ∀ {k d}, (a k).versions ⊆ d.versions →
      (a key).versions ⊆ (Function.update a k d key).versions := by
    intro k d hsub
    by_cases hk : key = k
    · subst hk
      rwa [Function.update_self]
    · rw [Function.update_of_ne hk]
      exact List.Subset.refl _
  cases act with
  | put k data =>
    cases h
    exact hupdate (List.subset_append_left _ _)
  | enqueue k =>
    simp only [Archive.step] at h
    split at h
    all_goals cases h
    exact hupdate (List.Subset.refl _)
  | classify k data =>
    simp only [Archive.step] at h
    split at h
    · obtain ⟨r, -, rfl⟩ := Option.map_eq_some_iff.mp h
      exact hupdate (List.Subset.refl _)
    · cases h

end Archive

namespace Pipeline

/-- The stores hold what the archive says. -/
structure Represents (s : Pipeline) (a : Archive) : Prop where
  blobs : ∀ key, s.world.blobs key = (a key).versions.getLast?
  queue : ∀ key, s.world.queue.countP (·.blobKey = key) = (a key).jobs
  rows : ∀ key, (s.world.server.db.predictions.rows.filter (·.blobKey = key)).map
    (fun p => (p.predictedClass, p.confidence)) = (a key).answers

/-- The pipeline has come to the archive, and remembers nothing that the archive has not seen. -/
structure Tracks (C : Classifier) (s : Pipeline) (a : Archive) : Prop where
  sound : s.Sound
  truthful : s.Truthful C
  represents : s.Represents a
  put : ∀ pid key data, ⟨.io (.putObject key data), .ok ()⟩ ∈ s.record pid →
    data ∈ (a key).versions
  got : ∀ pid key data, ⟨.io (.getObject key), .ok data⟩ ∈ s.record pid →
    data ∈ (a key).versions

variable {C : Classifier} {s s' : Pipeline} {a : Archive}

theorem Tracks.start (users : Table String UserORM (·.id))
    (dropZone : Table String RemoteFile (·.filename)) :
    (start users dropZone).Tracks C Archive.empty :=
  ⟨.start users dropZone, .start users dropZone, ⟨fun _ => rfl, fun _ => rfl, fun _ => rfl⟩, nofun,
    nofun⟩

section
variable {pid : Pid} {d : Done Op.Answer Exn}

/-- An answer that changes no store. -/
theorem Tracks.stutter (H : s.Tracks C a) (S : s'.Sound) (T : s'.Truthful C)
    (hrec : s'.record = Function.update s.record pid (s.record pid ++ [d]))
    (heff : Effect C s.world (s.pending pid) d s'.world) (hput : ∀ key, stored [d] key = none)
    (hqueue : enqueued [d] = []) (hsaves : saves [d] = []) : s'.Tracks C a := by
  refine ⟨S, T, ⟨fun key => ?_, fun key => ?_, fun key => ?_⟩, fun p key data hd => ?_,
    fun p key data hd => ?_⟩
  · rw [heff.blobs, hput, Option.none_or]
    exact H.represents.blobs key
  · rw [heff.queue, hqueue, List.append_nil]
    exact H.represents.queue key
  · rw [heff.rows (H.sound.locked pid).2, hsaves, List.append_nil]
    exact H.represents.rows key
  · rcases mem_record hrec hd with hd | ⟨-, rfl⟩
    · exact H.put p key data hd
    · cases (hput key).symm.trans stored_put
  · rcases mem_record hrec hd with hd | ⟨-, rfl⟩
    · exact H.got p key data hd
    · exact List.mem_of_getLast? ((H.represents.blobs key).symm.trans heff.content)

/-- An answer with which the archive takes a step. -/
theorem Tracks.advance {act : Action} {a' : Archive} (H : s.Tracks C a) (S : s'.Sound)
    (T : s'.Truthful C) (hrec : s'.record = Function.update s.record pid (s.record pid ++ [d]))
    (hact : a.step C act = some a') (hrep : s'.Represents a')
    (hput : ∀ key data, d = ⟨.io (.putObject key data), .ok ()⟩ → data ∈ (a' key).versions)
    (hget : ∀ key data, d ≠ ⟨.io (.getObject key), .ok data⟩) : s'.Tracks C a' := by
  refine ⟨S, T, hrep, fun p key data hd => ?_, fun p key data hd => ?_⟩
  · rcases mem_record hrec hd with hd | ⟨-, hd⟩
    · exact Archive.versions_subset hact key (H.put p key data hd)
    · exact hput key data hd.symm
  · rcases mem_record hrec hd with hd | ⟨-, hd⟩
    · exact Archive.versions_subset hact key (H.got p key data hd)
    · exact (hget key data hd.symm).elim

theorem Tracks.answerPut {key : String} {data : Bytes} (H : s.Tracks C a) (S : s'.Sound)
    (T : s'.Truthful C) (hd : d = ⟨.io (.putObject key data), .ok ()⟩)
    (hrec : s'.record = Function.update s.record pid (s.record pid ++ [d]))
    (heff : Effect C s.world (s.pending pid) d s'.world) :
    ∃ act a', a.step C act = some a' ∧ s'.Tracks C a' := by
  subst hd
  have hact : a.step C (.put key data) = some (Function.update a key
      { a key with versions := (a key).versions ++ [data] }) := rfl
  refine ⟨_, _, hact, H.advance S T hrec hact ⟨fun k => ?_, fun k => ?_, fun k => ?_⟩ ?_ nofun⟩
  · rw [heff.blobs, Function.update_apply]
    split
    · subst k
      rw [stored_put, Option.some_or, List.getLast?_concat]
    · rename_i hne
      rw [stored_put_of_ne (Ne.symm hne), Option.none_or]
      exact H.represents.blobs k
  · rw [heff.queue, show enqueued [_] = [] from rfl, List.append_nil, H.represents.queue,
      Function.update_apply]
    split
    · subst k
      rfl
    · rfl
  · rw [heff.rows (H.sound.locked pid).2, show saves [_] = [] from rfl, List.append_nil,
      H.represents.rows, Function.update_apply]
    split
    · subst k
      rfl
    · rfl
  · rintro k data' ⟨⟩
    rw [Function.update_self]
    exact List.mem_append_right _ List.mem_cons_self

theorem Tracks.answerEnqueue {job : Job} {id : String} (H : s.Tracks C a) (S : s'.Sound)
    (T : s'.Truthful C) (hd : d = ⟨.io (.enqueue job), .ok id⟩)
    (hrec : s'.record = Function.update s.record pid (s.record pid ++ [d])) (hmay : s.May pid d.1)
    (heff : Effect C s.world (s.pending pid) d s'.world) :
    ∃ act a', a.step C act = some a' ∧ s'.Tracks C a' := by
  subst hd
  -- The call has put the document before.
  have hne : (a job.blobKey).versions ≠ [] := by
    cases pid with
    | job n =>
      obtain ⟨job', th, -, -, hm⟩ := hmay
      exact hm.elim
    | ingest i =>
      obtain ⟨c, hc, b, f, hm⟩ := hmay
      obtain ⟨data, hput, -⟩ := hm.stored
      rw [← record_call hc] at hput
      have hmem := H.put _ _ data hput
      rw [← hm.blobKey] at hmem
      exact List.ne_nil_of_mem hmem
  have hact : a.step C (.enqueue job.blobKey) =
      some (Function.update a job.blobKey
        { a job.blobKey with jobs := (a job.blobKey).jobs + 1 }) := if_neg hne
  refine ⟨_, _, hact, H.advance S T hrec hact ⟨fun k => ?_, fun k => ?_, fun k => ?_⟩
    (by rintro _ _ ⟨⟩) (by rintro _ _ ⟨⟩)⟩
  · rw [heff.blobs, stored_none (by rintro _ ⟨⟩), Option.none_or, H.represents.blobs,
      Function.update_apply]
    split
    · subst k
      rfl
    · rfl
  · rw [heff.queue, show enqueued [_] = [job] from rfl, List.countP_append, H.represents.queue,
      Function.update_apply]
    split
    · subst k
      simp
    · rename_i hk
      simp [Ne.symm hk]
  · rw [heff.rows (H.sound.locked pid).2, show saves [_] = [] from rfl, List.append_nil,
      H.represents.rows, Function.update_apply]
    split
    · subst k
      rfl
    · rfl

theorem Tracks.answerSave {b : String} {data : PredictionCreate} {cm : Committed Prediction}
    (H : s.Tracks C a) (S : s'.Sound) (T : s'.Truthful C)
    (hd : d = ⟨.tx (.savePrediction b data), .ok cm⟩)
    (hrec : s'.record = Function.update s.record pid (s.record pid ++ [d])) (hmay : s.May pid d.1)
    (hqueue : s'.world.queue = s.world.queue)
    (heff : Effect C s.world (s.pending pid) d s'.world) :
    ∃ act a', a.step C act = some a' ∧ s'.Tracks C a' := by
  subst hd
  obtain ⟨n, job, rfl, hn, rfl, hsaved⟩ := May.save hmay
  have hkey : cm.result.blobKey = job.blobKey :=
    (heff.commit (H.sound.locked _).2).1.saved.2.2.1.trans hsaved.blobKey
  obtain ⟨-, hclass, hconf⟩ := heff.saved_label
  -- What the execution has got and has been told before.
  obtain ⟨imageBytes, hgot, hlabel⟩ : ∃ imageBytes, imageBytes ∈ (a job.blobKey).versions ∧
      C.predict imageBytes = some (cm.result.predictedClass, cm.result.confidence) := by
    have hmem : (⟨.tx (.savePrediction job.batchId data), .ok cm⟩ : Done Op.Answer Exn) ∈
        s'.record (.job n) := by
      rw [hrec, Function.update_self]
      simp
    obtain ⟨imageBytes, overlayBytes, hget, hpredict, -, -⟩ :=
      S.kept.labeled (hqueue ▸ hn : s'.world.queue[n]? = some job) hmem
    refine ⟨imageBytes, ?_, ?_⟩
    · rcases mem_record hrec hget with hold | ⟨-, hnew⟩
      · exact H.got _ _ _ hold
      · cases hnew
    · rw [hclass, hconf]
      exact T.told _ _ _ hpredict
  have hpos : 0 < (a job.blobKey).jobs := by
    rw [← H.represents.queue]
    exact List.countP_pos_iff.mpr ⟨job, List.mem_of_getElem? hn, by simp⟩
  have hact : a.step C (.classify job.blobKey imageBytes) =
      some (Function.update a job.blobKey { a job.blobKey with
        answers := (a job.blobKey).answers ++
          [(cm.result.predictedClass, cm.result.confidence)] }) := by
    rw [Archive.step, if_pos ⟨hgot, hpos⟩, hlabel]
    rfl
  refine ⟨_, _, hact, H.advance S T hrec hact ⟨fun k => ?_, fun k => ?_, fun k => ?_⟩
    (by rintro _ _ ⟨⟩) (by rintro _ _ ⟨⟩)⟩
  · rw [heff.blobs, stored_none (by rintro _ ⟨⟩), Option.none_or, H.represents.blobs,
      Function.update_apply]
    split
    · subst k
      rfl
    · rfl
  · rw [hqueue, H.represents.queue, Function.update_apply]
    split
    · subst k
      rfl
    · rfl
  · rw [heff.rows (H.sound.locked _).2, show saves [_] = [cm.result] from rfl, List.filter_append,
      List.map_append, H.represents.rows, Function.update_apply]
    split
    · subst k
      simp [hkey]
    · rename_i hk
      simp [hkey, Ne.symm hk]

end

/-- A step of the pipeline is at most one action. -/
theorem simulated : Simulated (Steps (Pipeline.step C)) (Steps (Archive.step C)) (Tracks C) := by
  intro s e s' a H h
  have S := H.sound.step h
  have T := H.truthful.step H.sound h
  cases H.sound.kept.moves h with
  | silent hrec hdb hblobs hqueue =>
    refine .inl ⟨S, T, ⟨?_, ?_, ?_⟩, ?_, ?_⟩
    · rw [hblobs]
      exact H.represents.blobs
    · rw [hqueue]
      exact H.represents.queue
    · rw [hdb]
      exact H.represents.rows
    · rw [hrec]
      exact H.put
    · rw [hrec]
      exact H.got
  | @answered pid d hrec hmay heff =>
    obtain ⟨o, e | r⟩ := d
    · have hput : ∀ key, stored [⟨o, .error e⟩] key = none := fun _ =>
        stored_none (by rintro _ ⟨⟩)
      have hsaves : saves [⟨o, .error e⟩] = [] := by
        refine List.eq_nil_iff_forall_not_mem.mpr fun p hp => ?_
        obtain ⟨b, data, cm, hd, -⟩ := mem_saves_single hp
        cases hd
      exact .inl (H.stutter S T hrec heff hput (enqueued_single (by rintro _ _ ⟨⟩)) hsaves)
    cases o with
    | io i =>
      cases i with
      | putObject key data => exact .inr (H.answerPut S T rfl hrec heff)
      | enqueue job => exact .inr (H.answerEnqueue S T rfl hrec hmay heff)
      | _ => exact .inl (H.stutter S T hrec heff (fun _ => rfl) rfl rfl)
    | tx sc =>
      cases sc with
      | savePrediction b data =>
        have hqueue := (heff.commit (H.sound.locked pid).2).2.2
        exact .inr (H.answerSave S T rfl hrec hmay hqueue heff)
      | _ => exact .inl (H.stutter S T hrec heff (fun _ => rfl) rfl rfl)

/-- Every run of the pipeline is a run of the archive, of at most as many steps, and the archive is
honest. -/
theorem archive_refines {users : Table String UserORM (·.id)}
    {dropZone : Table String RemoteFile (·.filename)} {es : List Event}
    (h : Run (Steps (Pipeline.step C)) (start users dropZone) es s) :
    ∃ (actions : List Action) (a : Archive), actions.length ≤ es.length ∧
      Run (Steps (Archive.step C)) Archive.empty actions a ∧ s.Represents a ∧
        ∀ key, Archive.Honest C (a key) := by
  obtain ⟨actions, a, hlen, hrun, H⟩ := simulated.run h (.start users dropZone)
  refine ⟨actions, a, hlen, hrun, H.represents, ?_⟩
  exact hrun.inv (I := fun a : Archive => ∀ key, Archive.Honest C (a key))
    (fun _ _ _ H h => Archive.Honest.step H h) fun _ => .empty

set_option maxRecDepth 100000 in
/-- The run of one document: a version, a job, the overlay's version and an answer. -/
theorem archive_refines_oneScan : ∃ (s : Pipeline) (actions : List Action) (a : Archive),
    Run (Steps (Archive.step letters)) Archive.empty actions a ∧ s.Represents a ∧
      (a "batches/b/original/a.tif").answers = [("letter", 1)] := by
  have h : (exec (Pipeline.step letters) (start .empty oneScan)
      (ingestOne ++ .replicate 27 (.job 0 (ok "p")))).map (fun s =>
        (s.world.server.db.predictions.rows.filter
          (·.blobKey = "batches/b/original/a.tif")).map
            (fun p => (p.predictedClass, p.confidence))) = some [("letter", 1)] := by
    decide +kernel
  obtain ⟨s, hs, h⟩ := Option.map_eq_some_iff.mp h
  obtain ⟨actions, a, -, hrun, hrep, -⟩ := archive_refines (exec_eq_some.mp hs)
  exact ⟨s, actions, a, hrun, hrep, (hrep.rows _).symm.trans h⟩

end Pipeline

end DocClassifier
