import DocClassifier.Labels
import DocClassifier.Lib.JoinedLocks
import DocClassifier.Recovery
import DocClassifier.RequestRights
import DocClassifier.Working

/-!
# The pipeline and the requests of users on one database

The watcher, the upload requests and the workers share the database with the requests that manage
users and relabel predictions. All of them go on statement by statement, in any order, and a
statement waits while the lock of its row is held. The pipeline does not notice: with the labels
erased, it goes through the same states as without these requests, but for the users and the audit
log (`Deployment.pipeline_undisturbed`), and so it keeps all that it keeps alone
(`Deployment.pipeline_consistent`).
-/

namespace DocClassifier
open ReadCommitted Transition Prog

/-! ## Requests -/

/-- A service call of a request to a mutating route. -/
structure MutationCall where
  mutation : Mutation
  actor : User
  hashPassword : String → String
  g : Gen

def MutationCall.call (r : MutationCall) : Call := r.mutation.call r.hashPassword r.actor

def MutationCall.block (r : MutationCall) : Block (List String) := r.call.block r.g

/-- A write to the users, to the audit log or to the label of a prediction. -/
def Stmt.Administers : Stmt → Prop
  | .insertUser _ | .updateRole .. | .deleteUser _ | .relabel .. | .insertAuditLog _ => True
  | _ => False

section
variable {g : Gen} {actor : User}

theorem changeRoleWrite_writes {userId : String} {old new : Role} :
    (UserService.changeRoleWrite g userId old new actor).Writes Stmt.Administers := by
  refine .exec trivial fun t => ?_
  split
  · exact .raise
  · exact .exec trivial fun _ => .ret

theorem deleteUserWrite_writes {userId : String} {target : UserORM} :
    (UserService.deleteUserWrite g target userId actor).Writes Stmt.Administers :=
  .exec trivial fun _ => .exec trivial fun _ => .ret

theorem changeRole_writes {userId : String} {update : UserRoleUpdate} :
    (UserService.changeRole g userId update actor).Writes Stmt.Administers := by
  rw [UserService.changeRole_eq]
  split
  · exact .raise
  · refine .select fun t => ?_
    split
    · exact .raise
    · split
      · refine .select fun t => ?_
        split
        · exact .raise
        · exact changeRoleWrite_writes
      · exact changeRoleWrite_writes

theorem deleteUser_writes {userId : String} :
    (UserService.deleteUser g userId actor).Writes Stmt.Administers := by
  rw [UserService.deleteUser_eq]
  split
  · exact .raise
  · split
    · exact .raise
    · refine .select fun t => ?_
      split
      · exact .raise
      · split
        · refine .select fun t => ?_
          split
          · exact .raise
          · exact deleteUserWrite_writes
        · exact deleteUserWrite_writes

theorem relabel_writes {predictionId : String} {update : PredictionRelabel} :
    (PredictionService.relabel g predictionId update actor).Writes Stmt.Administers := by
  rw [PredictionService.relabel_eq]
  split
  · exact .raise
  · refine .select fun t => ?_
    split
    · exact .raise
    · split
      · exact .raise
      · refine .exec trivial fun t => ?_
        split
        · exact .raise
        · exact .exec trivial fun _ => .ret

end

theorem MutationCall.writes (r : MutationCall) : r.block.Writes Stmt.Administers := by
  obtain ⟨m, actor, hashPassword, g⟩ := r
  cases m with
  | createUser data =>
    refine Tx.Writes.map ?_
    rw [UserService.createUser_eq]
    split
    · exact .raise
    · exact .exec trivial fun _ => .exec trivial fun _ => .ret
  | changeRole => exact changeRole_writes.map
  | deleteUser => exact deleteUser_writes.map
  | relabelPrediction => exact relabel_writes.map

/-- The tables with other users and another audit log. -/
def Tables.withAccounts (t : Tables) (users : Table String UserORM (·.id))
    (auditLogs : List AuditLog) : Tables := { t with users, auditLogs }

/-- Without the labels, such writes only change the users and the audit log. -/
theorem unlabeled_view {ws : List Stmt} (h : ∀ w ∈ ws, w.Administers) (t : Tables) :
    ∃ users auditLogs,
      (postgres.view t ws).unlabeled = t.unlabeled.withAccounts users auditLogs := by
  induction ws generalizing t with
  | nil => exact ⟨t.users, t.auditLogs, rfl⟩
  | cons w ws ih =>
    obtain ⟨hw, hws⟩ := List.forall_mem_cons.mp h
    have hone : ∃ users auditLogs,
        (applyStmt w t).unlabeled = t.unlabeled.withAccounts users auditLogs := by
      cases w with
      | insertUser | updateRole | deleteUser | insertAuditLog => exact ⟨_, _, rfl⟩
      | relabel id label =>
        refine ⟨t.users, t.auditLogs, ?_⟩
        have hrows : (t.predictions.modify id (fun p => { p with relabeledClass := some label })
            fun _ => rfl).map Prediction.unlabeled (fun _ => rfl) =
              t.predictions.map Prediction.unlabeled fun _ => rfl := by
          refine Table.ext_rows ?_
          simp only [Table.map, Table.modify, List.map_map]
          refine List.map_congr_left fun p _ => ?_
          simp only [Function.comp]
          split <;> rfl
        exact congrArg (fun predictions => { t with predictions }) hrows
      | _ => exact hw.elim
    obtain ⟨users, auditLogs, heq⟩ := hone
    obtain ⟨users', auditLogs', heq'⟩ := ih hws (applyStmt w t)
    refine ⟨users', auditLogs', ?_⟩
    rw [Backend.view_cons, postgres_apply, heq', heq]
    rfl

/-! ## The system -/

abbrev CallTxn := Txn Tables Stmt Exn (List String)

/-- The service call that a thread is in, with its transaction, which answers with the cache keys to
delete. -/
def Thread.txn {α : Type} : Thread α → Option (ServiceCall × CallTxn)
  | .run .. => none
  | .tx _ s t _ => some (s, t.map (·.deletes))

namespace Pipeline

/-- The service call that a process is in, with its transaction. -/
def txn (s : Pipeline) : Pid → Option (ServiceCall × CallTxn)
  | .ingest i => (s.calls[i]?).bind (·.thread.txn)
  | .job n => match (s.jobs n).state with
    | .running th => th.txn
    | _ => none

/-- The row that a step locks. -/
def wants (s : Pipeline) : Event → Option Row
  | .ingest i (.ok _) => (s.txn (.ingest i)).bind (·.2.wants postgres)
  | .job n (.ok _) => (s.txn (.job n)).bind (·.2.wants postgres)
  | _ => none

/-- Somebody else has changed the users and the audit log. -/
def withAccounts (s : Pipeline) (users : Table String UserORM (·.id)) (auditLogs : List AuditLog) :
    Pipeline :=
  { s with world := s.world.withDb (s.world.server.db.withAccounts users auditLogs) }

end Pipeline

structure Deployment (ι : Type) where
  pipeline : Pipeline
  /-- The rows that requests have locked. -/
  locks : Row → Option ι
  session : ι → Session Tables Stmt Exn (List String)

namespace Deployment

inductive Event (ι : Type) where
  | pipeline (e : Pipeline.Event)
  | request (e : ReadCommitted.Event ι Exn)

def Event.pipeline? {ι : Type} : Event ι → Option Pipeline.Event
  | .pipeline e => some e
  | .request _ => none

section
variable {ι : Type}

def db (s : Deployment ι) : Tables := s.pipeline.world.server.db

/-- The requests, as sessions on the database. -/
def requests (s : Deployment ι) : CallSys ι := ⟨⟨s.db, s.locks⟩, s.session⟩

/-- The row that a step of a request locks. -/
def wants (s : Deployment ι) : ReadCommitted.Event ι Exn → Option Row
  | .stmt i => match s.session i with
    | .active t => t.wants postgres
    | _ => none
  | _ => none

def start (users : Table String UserORM (·.id)) (dropZone : Table String RemoteFile (·.filename)) :
    Deployment ι :=
  { pipeline := .start users dropZone, locks := fun _ => none, session := fun _ => .idle }

variable [DecidableEq ι] (C : Classifier) (calls : ι → MutationCall)

/-- A step of the pipeline or of a request. A statement waits while the other side has locked its
row. A request ends here with its COMMIT: it deletes cache keys after that, and is answered with an
error when this raises, but the database does not change any more. -/
def step (s : Deployment ι) : Event ι → Option (Deployment ι)
  | .pipeline e =>
    if (s.pipeline.wants e).any fun k => (s.locks k).isSome then none
    else (s.pipeline.step C e).map fun pipeline => { s with pipeline }
  | .request e =>
    if (s.wants e).any fun k => (s.pipeline.world.server.locks k).isSome then none
    else (s.requests.step postgres (fun i => (calls i).block) e).map fun sys =>
      { pipeline := { s.pipeline with world := s.pipeline.world.withDb sys.server.db }
        locks := sys.server.locks
        session := sys.session }

/-- What an event can do. -/
inductive Step (s : Deployment ι) : Event ι → Deployment ι → Prop
  | pipeline {e : Pipeline.Event} {pipeline : Pipeline} :
      (∀ k, s.pipeline.wants e = some k → s.locks k = none) →
      s.pipeline.step C e = some pipeline → Step s (.pipeline e) { s with pipeline }
  | request {e : ReadCommitted.Event ι Exn} {sys : CallSys ι} :
      (∀ k, s.wants e = some k → s.pipeline.world.server.locks k = none) →
      s.requests.step postgres (fun i => (calls i).block) e = some sys → Step s (.request e)
        { pipeline := { s.pipeline with world := s.pipeline.world.withDb sys.server.db }
          locks := sys.server.locks
          session := sys.session }

variable {C calls} {s s' : Deployment ι} {e : Event ι}

theorem step_cases (h : s.step C calls e = some s') : Step C calls s e s' := by
  cases e with
  | pipeline e =>
    simp only [step] at h
    split at h
    · cases h
    · rename_i hw
      obtain ⟨pipeline, hp, rfl⟩ := Option.map_eq_some_iff.mp h
      refine .pipeline (fun k hk => ?_) hp
      simpa [hk] using hw
  | request e =>
    simp only [step] at h
    split at h
    · cases h
    · rename_i hw
      obtain ⟨sys, hs, rfl⟩ := Option.map_eq_some_iff.mp h
      refine .request (fun k hk => ?_) hs
      simpa [hk] using hw

end

end Deployment

/-! ## The pipeline is not disturbed -/

namespace Pipeline

variable {C : Classifier} {s s' : Pipeline} {users : Table String UserORM (·.id)}
  {auditLogs : List AuditLog}

/-- A step of the pipeline, or of somebody else who changes the users and the audit log. -/
inductive Amid (C : Classifier) (s : Pipeline) : Option Event → Pipeline → Prop
  | step {e : Event} {s' : Pipeline} : s.step C e = some s' → Amid C s (some e) s'
  | accounts (users : Table String UserORM (·.id)) (auditLogs : List AuditLog) :
      Amid C s none (s.withAccounts users auditLogs)

theorem Kept.withAccounts (K : s.Kept) : (s.withAccounts users auditLogs).Kept :=
  ⟨K.calls, K.jobs, K.fresh⟩

theorem Locked.withAccounts (H : s.Locked) : (s.withAccounts users auditLogs).Locked := by
  intro pid
  refine ⟨(H pid).1, fun w hw => ?_⟩
  have hf := (H pid).2 w hw
  cases w with
  | insertBatch | insertPrediction => exact hf
  | _ => trivial

theorem Sound.withAccounts (S : s.Sound) : (s.withAccounts users auditLogs).Sound where
  kept := S.kept.withAccounts
  locked := S.locked.withAccounts
  batches := ⟨S.batches.row, S.batches.unique, S.batches.origin⟩
  queue := ⟨S.queue.batch, S.queue.jobs⟩
  saved := ⟨S.saved.perm, S.saved.row⟩
  objects := ⟨S.objects.own, S.objects.other⟩

/-- Other users and another audit log make no difference to it. -/
theorem Consistent.amid {e : Option Event} (H : s.Consistent C) (h : s.Amid C e s') :
    s'.Consistent C := by
  cases h with
  | step h => exact H.step h
  | accounts =>
    obtain ⟨S, R, T, St⟩ := H
    exact ⟨S.withAccounts, ⟨R.got, R.put, R.keys⟩, ⟨T.told, T.got, T.saved⟩,
      ⟨St.notFailed, St.left, St.owed⟩⟩

end Pipeline

namespace Deployment
open Pipeline (letters oneScan ingestOne ok)

section
variable {ι : Type} [DecidableEq ι] {C : Classifier} {calls : ι → MutationCall}
  {s s' : Deployment ι} {e : Event ι}

/-- The threads and the requests are in the middle of their programs. -/
structure InPrograms (calls : ι → MutationCall) (s : Deployment ι) : Prop where
  kept : s.pipeline.Kept
  residuals : Sys.Residuals (fun i => (calls i).block) s.requests

omit [DecidableEq ι] in
theorem InPrograms.start (users : Table String UserORM (·.id))
    (dropZone : Table String RemoteFile (·.filename)) :
    InPrograms calls (Deployment.start users dropZone) :=
  ⟨.start users dropZone, nofun⟩

theorem InPrograms.step (H : InPrograms calls s) (h : s.step C calls e = some s') :
    InPrograms calls s' := by
  cases step_cases h with
  | pipeline _ hp => exact ⟨H.kept.step hp, H.residuals⟩
  | request _ hs => exact ⟨⟨H.kept.calls, H.kept.jobs, H.kept.fresh⟩, H.residuals.step hs⟩

/-- What a step of the requests does to the tables without labels. -/
theorem InPrograms.accounts (H : InPrograms calls s) {e : ReadCommitted.Event ι Exn}
    {sys : CallSys ι} (h : s.requests.step postgres (fun i => (calls i).block) e = some sys) :
    ∃ users auditLogs, sys.server.db.unlabeled = s.db.unlabeled.withAccounts users auditLogs := by
  have hsame : ∀ {db : Tables}, db = s.db →
      ∃ users auditLogs, db.unlabeled = s.db.unlabeled.withAccounts users auditLogs := by
    rintro _ rfl
    exact ⟨s.db.users, s.db.auditLogs, rfl⟩
  cases Sys.step_cases h with
  | «begin» | fail => exact hsame rfl
  | @stmt i t server r hi hs =>
    cases r with
    | running t' => exact hsame (Server.stmt_running_db hs)
    | aborted e => exact hsame (Server.stmt_aborted_db hs)
    | committed a =>
      obtain ⟨-, hdb⟩ := Server.stmt_committed hs
      have hws := (calls i).writes.commits ((H.residuals i t hi).committed hs)
      obtain ⟨users, auditLogs, heq⟩ := unlabeled_view hws s.db
      exact ⟨users, auditLogs, hdb ▸ heq⟩

theorem InPrograms.amid (H : InPrograms calls s) (h : s.step C calls e = some s') :
    s.pipeline.unlabeled.Amid C e.pipeline? s'.pipeline.unlabeled := by
  cases step_cases h with
  | pipeline _ hp => exact .step ((Pipeline.step_unlabeled H.kept).trans (congrArg _ hp))
  | @request e sys _ hs =>
    obtain ⟨users, auditLogs, heq⟩ := H.accounts hs
    have hpipeline : Pipeline.unlabeled
        { s.pipeline with world := s.pipeline.world.withDb sys.server.db } =
          s.pipeline.unlabeled.withAccounts users auditLogs :=
      congrArg (fun db => { s.pipeline with world := s.pipeline.world.withDb db }) heq
    dsimp only
    rw [hpipeline]
    exact .accounts users auditLogs

theorem InPrograms.run (H : InPrograms calls s) {es : List (Event ι)}
    (h : Run (Steps (Deployment.step C calls)) s es s') :
    Run (Pipeline.Amid C) s.pipeline.unlabeled (es.map (·.pipeline?)) s'.pipeline.unlabeled := by
  induction h with
  | nil => exact .nil
  | cons hs _ ih => exact .cons (H.amid hs) (ih (H.step hs))

/-- Ada relabels the first prediction. -/
def adaRelabels (_ : Unit) : MutationCall :=
  { mutation := .relabelPrediction "p" ⟨"resume", by decide⟩
    actor := ⟨"ada", "ada@x", .admin, true, 0⟩
    hashPassword := id
    g := .noId 1 }

/-- The job that has saved the prediction goes on meanwhile. -/
def adaRelabelsEvents : List (Event Unit) :=
  (ingestOne ++ .replicate 18 (.job 0 (ok "p"))).map .pipeline ++
    .request (.begin ()) ::
    (List.replicate 4 [.request (.stmt ()), .pipeline (.job 0 (ok "p"))]).flatten ++
    .replicate 5 (.pipeline (.job 0 (ok "p")))

set_option maxRecDepth 100000 in
theorem run_adaRelabels : ∃ s, Run (Steps (step letters adaRelabels))
    (start oneAdmin.users oneScan) adaRelabelsEvents s ∧
      (s.session ()).committed = true ∧
      s.db.predictions.rows.map (fun p => (p.id, p.predictedClass, p.relabeledClass)) =
        [("p", "letter", some "resume")] ∧
      s.db.auditLogs.map (fun e => (e.actorId, e.target)) =
        [(none, "batch:b"), (none, "batch:b"), (some "ada", "prediction:p"),
         (none, "batch:b")] := by
  have h : (exec (step letters adaRelabels) (start oneAdmin.users oneScan) adaRelabelsEvents).map
      (fun s => ((s.session ()).committed,
        s.db.predictions.rows.map (fun p => (p.id, p.predictedClass, p.relabeledClass)),
        s.db.auditLogs.map (fun e => (e.actorId, e.target)))) =
      some (true, [("p", "letter", some "resume")], [(none, "batch:b"), (none, "batch:b"),
        (some "ada", "prediction:p"), (none, "batch:b")]) := rfl
  obtain ⟨s, hs, hfacts⟩ := Option.map_eq_some_iff.mp h
  simp only [Prod.mk.injEq] at hfacts
  exact ⟨s, exec_eq_some.mp hs, hfacts⟩

/-- Without the labels, the pipeline takes the same steps as without the requests, but for what
these do to the users and the audit log. -/
theorem pipeline_undisturbed {users : Table String UserORM (·.id)}
    {dropZone : Table String RemoteFile (·.filename)} {es : List (Event ι)}
    (h : Run (Steps (step C calls)) (start users dropZone) es s) :
    Run (Pipeline.Amid C) (.start users dropZone) (es.map (·.pipeline?)) s.pipeline.unlabeled := by
  exact InPrograms.run (.start users dropZone) h

theorem pipeline_undisturbed_adaRelabels : ∃ s, Run (Steps (step letters adaRelabels))
    (start oneAdmin.users oneScan) adaRelabelsEvents s ∧
      s.db.predictions.rows.map (·.relabeledClass) = [some "resume"] ∧
      Run (Pipeline.Amid letters) (.start oneAdmin.users oneScan)
        (adaRelabelsEvents.map (·.pipeline?)) s.pipeline.unlabeled := by
  obtain ⟨s, hs, -, hrows, -⟩ := run_adaRelabels
  have hlabels := congrArg (List.map (·.2.2)) hrows
  rw [List.map_map] at hlabels
  exact ⟨s, hs, hlabels, pipeline_undisturbed hs⟩

/-- What the pipeline keeps when it is alone holds of every row, whoever relabels it, and of every
batch. -/
theorem pipeline_consistent {users : Table String UserORM (·.id)}
    {dropZone : Table String RemoteFile (·.filename)} {es : List (Event ι)}
    (h : Run (Steps (step C calls)) (start users dropZone) es s) :
    (∀ p ∈ s.db.predictions.rows, (∃ i c f data, s.pipeline.Grounded C p i c f data) ∧
      s.db.batches.find? p.batchId ≠ none ∧ s.pipeline.world.blobs p.blobKey ≠ none ∧
        s.pipeline.world.blobs p.overlayKey ≠ none) ∧
    ∀ b, 0 < s.pipeline.jobsOf b → (∀ n job, s.pipeline.world.queue[n]? = some job →
      job.batchId = b → (s.pipeline.jobs n).state = .returned) → s.db.statusOf b = some .done := by
  have H : s.pipeline.unlabeled.Consistent C :=
    (InPrograms.run (.start users dropZone) h).inv (fun _ _ _ H hs => H.amid hs)
      (.start users dropZone)
  refine ⟨fun p hp => ?_, fun b hjobs hall => H.statuses.done H.sound hjobs hall⟩
  have hp' : p.unlabeled ∈ s.pipeline.unlabeled.world.server.db.predictions.rows :=
    List.mem_map_of_mem hp
  obtain ⟨i, c, f, data, G⟩ := H.truthful.row H.sound hp'
  have G' : s.pipeline.Grounded C p i c f data :=
    ⟨G.call, G.batch, G.mem, G.blobKey, G.stored, G.label, G.overlay, G.scanned⟩
  exact ⟨⟨i, c, f, data, G'⟩, H.referenced.row H.sound (p := p.unlabeled) hp'⟩

/-- The relabeled row is still grounded. -/
theorem pipeline_consistent_adaRelabels : ∃ s p i c f data, Run (Steps (step letters adaRelabels))
    (start oneAdmin.users oneScan) adaRelabelsEvents s ∧ p ∈ s.db.predictions.rows ∧
      p.relabeledClass = some "resume" ∧ s.pipeline.Grounded letters p i c f data := by
  obtain ⟨s, hs, -, hrows, -⟩ := run_adaRelabels
  obtain ⟨p, hp, hlabel⟩ : ∃ p ∈ s.db.predictions.rows,
      (p.id, p.predictedClass, p.relabeledClass) = ("p", "letter", some "resume") :=
    List.mem_map.mp (hrows ▸ List.mem_singleton_self _)
  obtain ⟨⟨i, c, f, data, G⟩, -⟩ := (pipeline_consistent hs).1 p hp
  exact ⟨s, p, i, c, f, data, hs, hp, congrArg (·.2.2) hlabel, G⟩

end

end Deployment

end DocClassifier
