import DocClassifier.Domain
import DocClassifier.Lib.Table
import DocClassifier.Lib.ReadCommitted

/-!
# The database

The four tables of `app/db/models.py`, the statements the repositories issue on them, and the
constraints of the schema: the primary keys, the unique email, the foreign keys of predictions and
audit entries, and `ON DELETE SET NULL` on `audit_logs.actor_id`.

The share lock that a foreign-key check takes on the referenced row is left out: it only delays
the deletion of a user, so leaving it out allows more interleavings than PostgreSQL does.
-/

namespace DocClassifier
open ReadCommitted

structure UserORM where
  id : String
  email : String
  hashedPassword : String
  role : Role
  isActive : Bool := true
  createdAt : Nat
  deriving DecidableEq, Repr

/-- `User.model_validate(user_orm)`, for an email that `EmailStr` accepts as it stands. -/
def UserORM.toUser (u : UserORM) : User :=
  { id := u.id, email := u.email, role := u.role, isActive := u.isActive, createdAt := u.createdAt }

structure Tables where
  users : Table String UserORM (·.id) := .empty
  batches : Table String Batch (·.id) := .empty
  predictions : Table String Prediction (·.id) := .empty
  auditLogs : List AuditLog := []

/-- The exceptions of the services, of the blob store and of what they call. -/
inductive Exn where
  | permissionDenied (msg : String)
  | notFound (msg : String)
  | lastAdminError (msg : String)
  | relabelNotAllowed (msg : String)
  | invalidStateTransition (msg : String)
  | assertionError (msg : String)
  | integrityError (constraint : String)
  | s3Error (code : String)
  | runtimeError (msg : String)
  | valueError (msg : String)
  /-- Any other exception of PostgreSQL, Redis, MinIO, the SFTP server or the process itself. -/
  | infrastructure (msg : String)
  deriving DecidableEq, Repr

inductive Stmt where
  | insertUser (u : UserORM)
  | updateRole (userId : String) (newRole : Role)
  | deleteUser (userId : String)
  | insertBatch (b : Batch)
  | updateStatus (batchId : String) (newStatus : BatchStatus)
  | insertPrediction (p : Prediction)
  | relabel (predictionId : String) (relabeledClass : String)
  | insertAuditLog (e : AuditLog)

/-- The rows whose locks concurrent writers contend for. -/
inductive Row where
  | user (id : String)
  | batch (id : String)
  | prediction (id : String)
  deriving DecidableEq, Repr

/-- `ON DELETE SET NULL` for the deleted user. -/
def AuditLog.setNull (userId : String) (e : AuditLog) : AuditLog :=
  { e with actorId := if e.actorId = some userId then none else e.actorId }

def applyStmt : Stmt → Tables → Tables
  | .insertUser u, t => { t with users := t.users.insert u }
  | .updateRole userId newRole, t =>
    { t with users := t.users.modify userId (fun u => { u with role := newRole }) fun _ => rfl }
  | .deleteUser userId, t =>
    { t with
      users := t.users.erase userId
      auditLogs := t.auditLogs.map (·.setNull userId) }
  | .insertBatch b, t => { t with batches := t.batches.insert b }
  | .updateStatus batchId newStatus, t =>
    { t with
      batches := t.batches.modify batchId (fun b => { b with status := newStatus }) fun _ => rfl }
  | .insertPrediction p, t => { t with predictions := t.predictions.insert p }
  | .relabel predictionId relabeledClass, t =>
    { t with
      predictions := t.predictions.modify predictionId
        (fun p => { p with relabeledClass := some relabeledClass }) fun _ => rfl }
  | .insertAuditLog e, t => { t with auditLogs := t.auditLogs ++ [e] }

/-- The constraint a statement violates. The lengths of the columns are apart:
`Prediction.Storable`. -/
def checkStmt : Stmt → Tables → Option Exn
  | .insertUser u, t =>
    if (t.users.find? u.id).isSome then some (.integrityError "users_pkey")
    else if ∃ v ∈ t.users.rows, v.email = u.email then some (.integrityError "users_email_key")
    else none
  | .insertBatch b, t =>
    if (t.batches.find? b.id).isSome then some (.integrityError "batches_pkey") else none
  | .insertPrediction p, t =>
    if (t.predictions.find? p.id).isSome then some (.integrityError "predictions_pkey")
    else if (t.batches.find? p.batchId).isNone then
      some (.integrityError "predictions_batch_id_fkey")
    else none
  | .insertAuditLog e, t => match e.actorId with
    | none => none
    | some actorId =>
      if (t.users.find? actorId).isNone then some (.integrityError "audit_logs_actor_id_fkey")
      else none
  | .updateRole .., _ | .deleteUser .., _ | .updateStatus .., _ | .relabel .., _ => none

/-- What a `String(512)` takes. -/
def TakenByColumn (text : String) : Prop := text.length ≤ 512 ∧ '\x00' ∉ text.toList

instance (text : String) : Decidable (TakenByColumn text) := inferInstanceAs (Decidable (_ ∧ _))

/-- The columns `filename`, `blob_key` and `overlay_key` take the texts of the row. -/
def Prediction.Storable (p : Prediction) : Prop :=
  ∀ text ∈ [p.filename, p.blobKey, p.overlayKey], TakenByColumn text

/-- The row a statement locks. An INSERT holds its new key until the end of the transaction. -/
def rowStmt : Stmt → Option Row
  | .insertUser u => some (.user u.id)
  | .updateRole userId _ | .deleteUser userId => some (.user userId)
  | .insertBatch b => some (.batch b.id)
  | .updateStatus batchId _ => some (.batch batchId)
  | .insertPrediction p => some (.prediction p.id)
  | .relabel predictionId _ => some (.prediction predictionId)
  | .insertAuditLog _ => none

def postgres : Backend Tables Stmt Row Exn := ⟨applyStmt, checkStmt, rowStmt⟩

/-- A transaction block on the database. -/
abbrev Block := Tx Tables Stmt Exn

section
variable {t : Tables}

@[simp] theorem postgres_apply (w : Stmt) : postgres.apply w t = applyStmt w t := rfl
@[simp] theorem postgres_check (w : Stmt) : postgres.check w t = checkStmt w t := rfl
@[simp] theorem postgres_row (w : Stmt) : postgres.row w = rowStmt w := rfl

@[simp] theorem checkStmt_insertUser {u : UserORM} : checkStmt (.insertUser u) t = none ↔
    t.users.find? u.id = none ∧ ∀ v ∈ t.users.rows, v.email ≠ u.email := by
  simp only [checkStmt]
  split_ifs with h1 h2
  · simp [Option.isSome_iff_ne_none.mp h1]
  · obtain ⟨v, hv, he⟩ := h2
    simp only [false_iff, not_and]
    exact fun _ h => h v hv he
  · simp only [true_iff]
    exact ⟨by simpa using h1, fun v hv he => h2 ⟨v, hv, he⟩⟩

@[simp] theorem checkStmt_insertBatch {b : Batch} : checkStmt (.insertBatch b) t = none ↔
    t.batches.find? b.id = none := by
  simp [checkStmt]

@[simp] theorem checkStmt_insertPrediction {p : Prediction} :
    checkStmt (.insertPrediction p) t = none ↔
      t.predictions.find? p.id = none ∧ (t.batches.find? p.batchId).isSome := by
  simp only [checkStmt]
  split_ifs with h1 h2
  · simp [Option.isSome_iff_ne_none.mp h1]
  · simp [Option.isNone_iff_eq_none.mp h2]
  · simp only [true_iff]
    exact ⟨by simpa using h1, by simpa [Option.isSome_iff_ne_none] using h2⟩

@[simp] theorem checkStmt_insertAuditLog {e : AuditLog} :
    checkStmt (.insertAuditLog e) t = none ↔
      ∀ actorId, e.actorId = some actorId → (t.users.find? actorId).isSome := by
  cases h : e.actorId <;> simp [checkStmt, h, Option.isSome_iff_ne_none]

end

end DocClassifier
