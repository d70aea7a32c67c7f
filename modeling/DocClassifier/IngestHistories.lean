import DocClassifier.Histories

/-!
# What the ingest calls do

The contract of a poll and of an upload request. The rounds of their loops are alike: a round
enqueues the job of its file, or leaves through one of the exits.
-/

namespace DocClassifier
open BlobStorage Prog

/-- Where the files of an ingest call come from. -/
inductive Source where
  | sftp
  | http
  deriving DecidableEq

/-- The id of the batch that an ingest call has created. -/
def batchOf (H : History) : Option String :=
  match txs H with
  | ⟨.createBatch .., .ok cm⟩ :: _ => some cm.result.id
  | _ => none

/-- The jobs that an ingest call has enqueued. -/
def enqueued (H : History) : List Job :=
  H.filterMap fun
    | ⟨.io (.enqueue job), .ok _⟩ => some job
    | _ => none

/-- The answers after which a file, or the whole call, leaves without a job. -/
inductive Exit : Done Op.Answer Exn → Prop
  | tx {s : ServiceCall} {e : Exn} : Exit ⟨.tx s, .error e⟩
  | io {i : Io} {e : Exn} : (∀ key, i ≠ .statObject key) → Exit ⟨.io i, .error e⟩
  | statFailed {key : String} {e : Exn} : (∀ code, e ≠ .s3Error code) →
      Exit ⟨.io (.statObject key), .error e⟩
  | present {key : String} : Exit ⟨.io (.statObject key), .ok ()⟩
  | oversized {filename : String} {size : Nat} : size > MAX_FILE_BYTES →
      Exit ⟨.io (.sftpStat filename), .ok size⟩
  | rejected {filename reason : String} {data : Bytes} : rejectReason filename data = some reason →
      Exit ⟨.io (.sftpRead filename), .ok data⟩

/-- What a poll has done about the file `f` when it marks it as seen. -/
inductive Accounted (b f : String) (H : History) : Prop
  | present : ⟨.io (.statObject (originalKey b f)), .ok ()⟩ ∈ H → Accounted b f H
  | queued {data : Bytes} {job : Job} {r : Except Exn String} :
      ⟨.io (.sftpRead f), .ok data⟩ ∈ H → rejectReason f data = none →
      ⟨.io (.putObject (originalKey b f) data), .ok ()⟩ ∈ H →
      job.batchId = b → job.blobKey = originalKey b f → ⟨.io (.enqueue job), r⟩ ∈ H →
      Accounted b f H
  | quarantined {data : Bytes} {reason : String} :
      ⟨.io (.sftpRead f), .ok data⟩ ∈ H → rejectReason f data = some reason →
      (data.length > MAX_FILE_BYTES ∨ ∃ r, ⟨.io (.putObject (quarantineKey b f) data), r⟩ ∈ H) →
      Accounted b f H

/-- The call may store the file `f` in the batch `b`; a poll stores a file once. -/
structure Turn (src : Source) (files : List String) (H : History) (b f : String) : Prop where
  batch : batchOf H = some b
  mem : f ∈ files
  once : src = .sftp → ∀ key data r, ⟨.io (.putObject key data), r⟩ ∈ H →
    key ≠ originalKey b f ∧ key ≠ quarantineKey b f

/-- The call may enqueue the job `job` of the file `f`. -/
structure MayEnqueue (src : Source) (files : List String) (H : History) (job : Job)
    (b f : String) : Prop where
  batch : batchOf H = some b
  batchId : job.batchId = b
  blobKey : job.blobKey = originalKey b f
  stored : ∃ data, ⟨.io (.putObject (originalKey b f) data), .ok ()⟩ ∈ H ∧
    (src = .sftp → ⟨.io (.sftpRead f), .ok data⟩ ∈ H ∧ rejectReason f data = none)
  /-- Jobs are enqueued in the order of the files. -/
  order : ((enqueued H).map (·.blobKey) ++ [originalKey b f]).Sublist (files.map (originalKey b))
  unseen : src = .sftp → ∀ r, ⟨.io (.addSeen f), r⟩ ∉ H

/-- The operations that an ingest call may perform. -/
def IngestMay (src : Source) (files : List String) (H : History) : Op → Prop
  | .tx s => txs H = [] ∧ ∃ actor, s = .createBatch files.length actor ∧
    (src = .sftp → actor = none)
  | .io (.statObject key) => src = .sftp ∧ ∃ b f, Turn src files H b f ∧ key = originalKey b f
  | .io (.putObject key _) =>
    ∃ b f, Turn src files H b f ∧ (key = originalKey b f ∨ key = quarantineKey b f)
  | .io (.sftpStat f) => f ∈ files
  | .io (.sftpRead f) => f ∈ files
  | .io (.enqueue job) => ∃ b f, MayEnqueue src files H job b f
  | .io (.addSeen f) => src = .sftp ∧ f ∈ files ∧ ∃ b, batchOf H = some b ∧ Accounted b f H
  | .io (.cacheDelete _) | .io .cacheClose | .io (.getClient _) | .io .uuid4 => True
  | .io _ => False

section
variable {H D : History} {b f : String}

theorem batchOf_append (h : batchOf H = some b) : batchOf (H ++ D) = some b := by
  simp only [batchOf] at h
  split at h
  · rename_i cm l hl
    simp only [batchOf, txs_append, hl, List.cons_append]
    exact h
  · cases h

@[simp] theorem enqueued_nil : enqueued [] = [] := rfl

@[simp] theorem enqueued_append (H D : History) : enqueued (H ++ D) = enqueued H ++ enqueued D :=
  List.filterMap_append

/-- The operations that change nothing but a cache. -/
def Aside : Op → Prop
  | .io (.cacheDelete _) | .io .cacheClose | .io (.getClient _) | .io .uuid4 => True
  | .io (.statObject _) | .io (.sftpStat _) | .io (.sftpRead _) => True
  | _ => False

theorem txs_aside (hD : ∀ d ∈ D, Aside d.1) : txs D = [] := by
  induction D with
  | nil => rfl
  | cons d D ih =>
    obtain ⟨s | i, r⟩ := d
    · exact (hD _ List.mem_cons_self).elim
    · exact ih fun d' hd' => hD d' (List.mem_cons_of_mem _ hd')

theorem enqueued_eq_nil (hD : ∀ d ∈ D, ∀ job, d.1 ≠ .io (.enqueue job)) : enqueued D = [] := by
  refine List.filterMap_eq_nil_iff.mpr fun d hd => ?_
  have ha := hD d hd
  obtain ⟨s | i, r⟩ := d
  · rfl
  · cases i with
    | enqueue job => exact (ha job rfl).elim
    | _ => cases r <;> rfl

theorem enqueued_aside (hD : ∀ d ∈ D, Aside d.1) : enqueued D = [] :=
  enqueued_eq_nil fun d hd _ hj => by simpa [hj, Aside] using hD d hd

theorem mem_enqueued {job : Job} :
    job ∈ enqueued H ↔ ∃ id, ⟨.io (.enqueue job), .ok id⟩ ∈ H := by
  simp only [enqueued, List.mem_filterMap]
  constructor
  · rintro ⟨⟨o, r⟩, hd, h⟩
    split at h
    · rename_i heq
      cases h
      cases heq
      exact ⟨_, hd⟩
    · cases h
  · rintro ⟨id, h⟩
    exact ⟨_, h, rfl⟩

end

/-! ## One round -/

/-- What the operations `D` of one round do for the file `f`. -/
structure Round (src : Source) (b f : String) (D : History) : Prop where
  txs : txs D = []
  enqueued : (∃ job, enqueued D = [job] ∧ job.blobKey = originalKey b f ∧ ∀ d ∈ D, ¬ Exit d) ∨
    (enqueued D = [] ∧ ∃ d ∈ D, Exit d)
  puts : ∀ key data r, ⟨.io (.putObject key data), r⟩ ∈ D →
    key = originalKey b f ∨ key = quarantineKey b f
  seen : ∀ f' r, ⟨.io (.addSeen f'), r⟩ ∈ D → f' = f
  marked : src = .sftp → DocClassifier.enqueued D ≠ [] → ⟨.io (.addSeen f), .ok ()⟩ ∈ D

section
variable {src : Source} {files : List String} {H D : History} {b f : String}

/-- A file that is only looked at leaves without a job. -/
theorem Round.aside (hD : ∀ d ∈ D, Aside d.1) (h : ∃ d ∈ D, Exit d) : Round src b f D :=
  ⟨txs_aside hD, .inr ⟨enqueued_aside hD, h⟩, fun _ _ _ hd => (hD _ hd).elim,
    fun _ _ hd => (hD _ hd).elim, fun _ hn => (hn (enqueued_aside hD)).elim⟩

/-- At the end of a round. -/
def RoundEnds (src : Source) (b f : String) (H : History) {α : Type} (H' : History)
    (r : Except Exn α) : Prop :=
  ∃ D, H' = H ++ D ∧ Round src b f D ∧ ∀ e, r = .error e → ∃ d ∈ D, Exit d

theorem Turn.append (h : Turn .sftp files H b f)
    (hD : ∀ key data r, ⟨.io (.putObject key data), r⟩ ∉ D) : Turn .sftp files (H ++ D) b f := by
  refine ⟨batchOf_append h.batch, h.mem, fun hs key data r hd => ?_⟩
  rcases List.mem_append.mp hd with hd | hd
  · exact h.once hs key data r hd
  · exact (hD _ _ _ hd).elim

/-- The rest of a round: the file is marked as seen. -/
theorem spec_mark (hb : batchOf H = some b) (hf : f ∈ files) (ha : Accounted b f (H ++ D))
    (hD : Round .http b f D) :
    Spec (contract (IngestMay .sftp files)) (RoundEnds .sftp b f H) (H ++ D) (io (.addSeen f)) := by
  refine spec_io.mpr ⟨⟨rfl, hf, b, batchOf_append hb, ha⟩, fun r hr => ?_⟩
  rcases r with e | ⟨⟩
  · cases hr
  refine ⟨_, List.append_assoc _ _ _, ⟨?_, ?_, ?_, ?_, fun _ _ => by simp⟩, nofun⟩
  · simp [hD.txs]
  · have hsame : enqueued (D ++ [⟨.io (.addSeen f), .ok ()⟩]) = enqueued D := by
      rw [enqueued_append]
      exact List.append_nil _
    rw [hsame]
    refine hD.enqueued.imp ?_ ?_
    · rintro ⟨job, hjob, hkey, hexit⟩
      refine ⟨job, hjob, hkey, fun d hd => ?_⟩
      rcases List.mem_append.mp hd with hd | hd
      · exact hexit d hd
      · obtain rfl := List.mem_singleton.mp hd
        exact nofun
    · rintro ⟨hjob, d, hd, hexit⟩
      exact ⟨hjob, d, List.mem_append_left _ hd, hexit⟩
  · intro key data r hd
    exact hD.puts key data r (by simpa using hd)
  · intro f' r hd
    rcases List.mem_append.mp hd with hd | hd
    · exact hD.seen f' r hd
    · cases List.mem_singleton.mp hd
      rfl

theorem spec_sftpDownload {Q : History → Except Exn Bytes → Prop} (hf : f ∈ files)
    (herr : ∀ D e, (∀ d ∈ D, Aside d.1) → (∃ d ∈ D, Exit d) → Q (H ++ D) (.error e))
    (hok : ∀ size data, size ≤ MAX_FILE_BYTES →
      Q (H ++ [⟨.io (.sftpStat f), .ok size⟩, ⟨.io (.sftpRead f), .ok data⟩]) (.ok data)) :
    Spec (contract (IngestMay src files)) Q H (SFTPWatcher.sftpDownload f) := by
  rw [SFTPWatcher.sftpDownload, spec_bind]
  refine spec_io.mpr ⟨hf, fun r _ => ?_⟩
  rcases r with e | size
  · exact herr _ _ (by simp [Aside]) ⟨_, List.mem_cons_self, .io nofun⟩
  dsimp only
  split
  · rename_i hsize
    exact herr _ _ (by simp [Aside]) ⟨_, List.mem_cons_self, .oversized hsize⟩
  · rename_i hsize
    refine spec_io.mpr ⟨hf, fun r _ => ?_⟩
    rw [List.append_assoc]
    rcases r with e | data
    · exact herr _ _ (by simp [Aside]) ⟨_, List.mem_cons_of_mem _ List.mem_cons_self, .io nofun⟩
    · exact hok size data (by omega)

theorem spec_blobExists {c : Contract Op.Answer Exn} {key : String}
    {Q : History → Except Exn Bool → Prop} (hmay : c.may H (.io (.statObject key)))
    (hok : Q (H ++ [⟨.io (.statObject key), .ok ()⟩]) (.ok true))
    (habsent : ∀ code, Q (H ++ [⟨.io (.statObject key), .error (.s3Error code)⟩]) (.ok false))
    (herr : ∀ e, (∀ code, e ≠ .s3Error code) → c.answers ⟨.io (.statObject key), .error e⟩ →
      Q (H ++ [⟨.io (.statObject key), .error e⟩]) (.error e)) : Spec c Q H (blobExists key) := by
  rw [blobExists, spec_bind, spec_attempt]
  refine spec_io.mpr ⟨hmay, fun r hr => ?_⟩
  rcases r with e | ⟨⟩
  · cases e with
    | s3Error code => exact habsent code
    | _ => exact herr _ nofun hr
  · exact hok

theorem processFile_spec {requestId : String} (h : Turn .sftp files H b f)
    (hu : ∀ r, ⟨.io (.addSeen f), r⟩ ∉ H)
    (ho : ((enqueued H).map (·.blobKey) ++ [originalKey b f]).Sublist
      (files.map (originalKey b))) :
    Spec (contract (IngestMay .sftp files)) (RoundEnds .sftp b f H) H
      (SFTPWatcher.processFile f b requestId) := by
  have hbatch : ∀ D, batchOf (H ++ D) = some b := fun D => batchOf_append h.batch
  rw [SFTPWatcher.processFile, spec_bind]
  refine spec_blobExists ⟨rfl, b, f, h, rfl⟩ ?_ (fun code => ?_) fun e he _ => ?_
  · exact spec_mark h.batch h.mem (.present (by simp))
      (.aside (by simp [Aside]) ⟨_, List.mem_cons_self, .present⟩)
  swap
  · have hexit : Exit ⟨.io (.statObject (originalKey b f)), .error e⟩ := .statFailed he
    exact ⟨_, rfl, .aside (by simp [Aside]) ⟨_, List.mem_cons_self, hexit⟩,
      fun _ _ => ⟨_, List.mem_cons_self, hexit⟩⟩
  dsimp only
  rw [if_neg (by decide), spec_bind, spec_attempt]
  refine spec_sftpDownload h.mem (fun D e hD hexit => ?_) fun size data hsize => ?_
  · rw [List.append_assoc]
    refine ⟨_, rfl, .aside ?_ ?_, nofun⟩
    · intro d hd
      rcases List.mem_cons.mp hd with rfl | hd
      · trivial
      · exact hD d hd
    · obtain ⟨d, hd, ht⟩ := hexit
      exact ⟨d, List.mem_cons_of_mem _ hd, ht⟩
  rw [List.append_assoc]
  dsimp only
  have hturn := h.append (D := [⟨.io (.statObject (originalKey b f)), .error (.s3Error code)⟩,
    ⟨.io (.sftpStat f), .ok size⟩, ⟨.io (.sftpRead f), .ok data⟩]) (by simp)
  cases hreason : rejectReason f data with
  | some reason =>
    dsimp only
    have hexit := Exit.rejected hreason
    -- The file is marked whether its copy has been written or not.
    have hmark : ∀ r : Except Exn Unit, Spec (contract (IngestMay .sftp files))
        (RoundEnds .sftp b f H)
        (H ++ ([⟨.io (.statObject (originalKey b f)), .error (.s3Error code)⟩,
          ⟨.io (.sftpStat f), .ok size⟩, ⟨.io (.sftpRead f), .ok data⟩] ++
          [⟨.io (.putObject (quarantineKey b f) data), r⟩])) (io (.addSeen f)) := by
      intro r
      refine spec_mark h.batch h.mem ?_ ⟨rfl, .inr ⟨rfl, _, ?_, hexit⟩, ?_, ?_, nofun⟩
      · exact .quarantined (by simp) hreason (.inr ⟨r, by simp⟩)
      · simp
      · simp +contextual
      · simp
    rw [spec_bind, spec_attempt]
    refine spec_upload ⟨b, f, hturn, .inr rfl⟩ (fun _ hlarge => ?_) (fun _ => ?_) fun e _ => ?_
    · refine spec_mark h.batch h.mem ?_ (.aside ?_ ⟨_, ?_, hexit⟩)
      · exact .quarantined (by simp) hreason (.inl hlarge)
      · simp [Aside]
      · simp
    · rw [List.append_assoc]
      exact hmark (.ok ())
    · rw [List.append_assoc]
      exact hmark (.error e)
  | none =>
    dsimp only
    rw [spec_bind, spec_attempt]
    refine spec_upload ⟨b, f, hturn, .inl rfl⟩ (fun _ hlarge => ?_) (fun _ => ?_) fun e _ => ?_
    · have hsmall := (rejectReason_eq_none.mp hreason).2.2
      omega
    · rw [List.append_assoc]
      dsimp only
      rw [spec_bind, spec_attempt]
      refine spec_io.mpr ⟨⟨b, f, hbatch _, rfl, rfl, ⟨data, by simp, fun _ => ⟨by simp, hreason⟩⟩,
        by simpa [enqueued] using ho, fun _ => by simpa using hu⟩, fun r _ => ?_⟩
      rw [List.append_assoc]
      rcases r with e | id
      · have hexit : Exit ⟨.io (.enqueue ⟨b, originalKey b f, requestId⟩), .error e⟩ := .io nofun
        refine spec_mark h.batch h.mem ?_ ⟨rfl, .inr ⟨rfl, _, ?_, hexit⟩, ?_, ?_, nofun⟩
        · exact @Accounted.queued b f _ data ⟨b, originalKey b f, requestId⟩ (.error e) (by simp)
            hreason (by simp) rfl rfl (by simp)
        · simp
        · simp +contextual
        · simp
      · refine spec_mark h.batch h.mem ?_ ⟨rfl, .inl ⟨_, rfl, rfl, ?_⟩, ?_, ?_, nofun⟩
        · exact @Accounted.queued b f _ data ⟨b, originalKey b f, requestId⟩ (.ok id) (by simp)
            hreason (by simp) rfl rfl (by simp)
        · intro d hd hexit
          simp only [List.mem_append, List.mem_cons, List.not_mem_nil, or_false] at hd
          rcases hd with ((rfl | rfl | rfl) | rfl) | rfl
          · cases hexit with
            | io hn => exact hn _ rfl
            | statFailed hn => exact hn code rfl
          · cases hexit with
            | oversized hlarge => omega
          · cases hexit with
            | rejected hr => simp [hreason] at hr
          · cases hexit
          · cases hexit
        · simp +contextual
        · simp
    · rw [List.append_assoc]
      have hexit : Exit ⟨.io (.putObject (originalKey b f) data), .error e⟩ := .io nofun
      refine ⟨_, rfl, ⟨rfl, .inr ⟨rfl, _, ?_, hexit⟩, ?_, ?_, fun _ h => (h rfl).elim⟩, nofun⟩
      · simp
      · simp +contextual
      · simp

theorem uploadRound_spec {requestId : String} {content : Bytes} {jobs : List UploadedJob}
    (h : Turn .http files H b f) (hsmall : content.length ≤ MAX_FILE_BYTES)
    (ho : ((enqueued H).map (·.blobKey) ++ [originalKey b f]).Sublist
      (files.map (originalKey b))) :
    Spec (contract (IngestMay .http files)) (RoundEnds .http b f H) H (do
      let _ ← upload (originalKey b f) content
      let jobId : String ← io (.enqueue ⟨b, originalKey b f, requestId⟩)
      pure (jobs ++ [{ filename := f, blobKey := originalKey b f, jobId }])) := by
  rw [spec_bind]
  refine spec_upload ⟨b, f, h, .inl rfl⟩ (fun _ hlarge => ?_) (fun _ => ?_) fun e e' => ?_
  · omega
  · dsimp only
    rw [spec_bind]
    refine spec_io.mpr ⟨⟨b, f, batchOf_append h.batch, rfl, rfl, ⟨content, by simp, nofun⟩,
      by simpa [enqueued] using ho, nofun⟩, fun r _ => ?_⟩
    rw [List.append_assoc]
    rcases r with e | id
    · have hexit : Exit ⟨.io (.enqueue ⟨b, originalKey b f, requestId⟩), .error e⟩ := .io nofun
      refine ⟨_, rfl, ⟨rfl, .inr ⟨rfl, _, ?_, hexit⟩, ?_, ?_, nofun⟩, fun _ _ => ⟨_, ?_, hexit⟩⟩
      · simp
      · simp +contextual
      · simp
      · simp
    · refine ⟨_, rfl, ⟨rfl, .inl ⟨_, rfl, rfl, ?_⟩, ?_, ?_, nofun⟩, nofun⟩
      · intro d hd hexit
        simp only [List.cons_append, List.nil_append, List.mem_cons, List.not_mem_nil,
          or_false] at hd
        rcases hd with rfl | rfl <;> cases hexit
      · simp +contextual
      · simp
  · have hexit : Exit ⟨.io (.putObject (originalKey b f) content), .error e⟩ := .io nofun
    refine ⟨_, rfl, ⟨rfl, .inr ⟨rfl, _, List.mem_cons_self, hexit⟩, ?_, ?_, nofun⟩,
      fun _ _ => ⟨_, List.mem_cons_self, hexit⟩⟩
    · simp +contextual
    · simp

end

end DocClassifier
