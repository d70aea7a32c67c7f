import DocClassifier.Calls
import Mathlib.Data.List.Sort

/-!
# The read methods

The queries of `app/repositories` and the methods of `app/services` that only read. Rows that were
created at the same time are listed in the order of the table.
-/

namespace DocClassifier
open ReadCommitted

/-- `ORDER BY created_at DESC`. -/
def orderByCreatedAtDesc {α : Type} (createdAt : α → Nat) (rows : List α) : List α :=
  rows.insertionSort fun a b => createdAt b ≤ createdAt a

namespace UserRepo

def listAll (limit offset : Nat) : Block (List User) :=
  .query fun t => (((orderByCreatedAtDesc (·.createdAt) t.users.rows).drop offset).take limit).map
    (·.toUser)

end UserRepo

namespace BatchRepo

def list (limit offset : Nat) : Block (List Batch) :=
  .query fun t => ((orderByCreatedAtDesc (·.createdAt) t.batches.rows).drop offset).take limit

end BatchRepo

namespace PredictionRepo

def getByBatchId (batchId : String) : Block (List Prediction) :=
  .query fun t =>
    orderByCreatedAtDesc (·.createdAt) (t.predictions.rows.filter (·.batchId = batchId))

def getRecent (limit : Nat) : Block (List Prediction) :=
  .query fun t => (orderByCreatedAtDesc (·.createdAt) t.predictions.rows).take limit

end PredictionRepo

namespace AuditRepo

def listRecent (limit : Nat) : Block (List AuditLog) :=
  .query fun t => (orderByCreatedAtDesc (·.timestamp) t.auditLogs).take limit

end AuditRepo

namespace UserService

def getMe (userId : String) : Block User := do
  match ← UserRepo.getById userId with
  | none => .raise (.notFound "User not found")
  | some user => pure user

def listUsers (actor : User) (skip limit : Nat) : Block (List User) :=
  if actor.role ≠ .admin then
    .raise (.permissionDenied "Only admins can list users")
  else
    UserRepo.listAll limit skip

end UserService

namespace BatchService

def getBatch (batchId : String) : Block Batch := do
  match ← BatchRepo.getById batchId with
  | none => .raise (.notFound "Batch not found")
  | some batch => pure batch

def listBatches (skip limit : Nat) : Block (List Batch) := BatchRepo.list limit skip

end BatchService

namespace PredictionService

def getById (predictionId : String) : Block Prediction := do
  match ← PredictionRepo.getById predictionId with
  | none => .raise (.notFound "Prediction not found")
  | some pred => pure pred

def getPredictionsForBatch (batchId : String) : Block (List Prediction) :=
  PredictionRepo.getByBatchId batchId

def getRecentPredictions (limit : Nat) : Block (List Prediction) := PredictionRepo.getRecent limit

end PredictionService

namespace AuditService

def listRecent (limit : Nat) : Block (List AuditLog) := AuditRepo.listRecent limit

end AuditService

/-! ## What they answer -/

/-- A SELECT of a row that must be there. -/
def selectOr {α : Type} (e : Exn) (q : Tables → Option α) : Block α :=
  .select fun t => match q t with
    | none => .raise e
    | some a => .ret a

theorem selectOr_readOnly {α : Type} {e : Exn} {q : Tables → Option α} :
    (selectOr e q).ReadOnly := by
  refine .select fun t => ?_
  split
  · exact .raise
  · exact .ret

theorem selectOr_run {α : Type} {e : Exn} {q : Tables → Option α} {t : Tables} :
    ((selectOr e q).run postgres t none []).1 = (q t).elim (.error e) .ok := by
  rw [selectOr, Tx.run_select, Backend.view_nil]
  cases q t with
  | none => rw [Tx.run_raise]; rfl
  | some a => rfl

theorem UserService.getMe_eq {userId : String} : UserService.getMe userId =
    selectOr (.notFound "User not found") fun t => (t.users.find? userId).map (·.toUser) := by
  simp only [UserService.getMe, UserRepo.getById, Tx.query, Tx.select_bind, Tx.ret_bind, selectOr]
  congr 1
  funext t
  cases t.users.find? userId <;> rfl

theorem BatchService.getBatch_eq {batchId : String} : BatchService.getBatch batchId =
    selectOr (.notFound "Batch not found") fun t => t.batches.find? batchId := by
  simp only [BatchService.getBatch, BatchRepo.getById, Tx.query, Tx.select_bind,
    Tx.ret_bind, selectOr]
  congr 1
  funext t
  cases t.batches.find? batchId <;> rfl

theorem PredictionService.getById_eq {predictionId : String} :
    PredictionService.getById predictionId =
      selectOr (.notFound "Prediction not found") fun t => t.predictions.find? predictionId := by
  simp only [PredictionService.getById, PredictionRepo.getById, Tx.query,
    Tx.select_bind, Tx.ret_bind, selectOr]
  congr 1
  funext t
  cases t.predictions.find? predictionId <;> rfl

theorem UserService.listUsers_readOnly {actor : User} {skip limit : Nat} :
    (UserService.listUsers actor skip limit).ReadOnly := by
  rw [UserService.listUsers]
  split
  · exact .raise
  · exact Tx.readOnly_query

/-- A call of a read method. -/
inductive Query where
  | getMe (userId : String)
  | listUsers (actor : User) (skip limit : Nat)
  | getBatch (batchId : String)
  | listBatches (skip limit : Nat)
  | getPrediction (predictionId : String)
  | getPredictionsForBatch (batchId : String)
  | getRecentPredictions (limit : Nat)
  | listAuditLogs (limit : Nat)

/-- The tables after a read call. -/
def Query.serve (f : Fault Exn) (t : Tables) : Query → Tables
  | .getMe userId => ((UserService.getMe userId).run postgres t f []).2
  | .listUsers actor skip limit => ((UserService.listUsers actor skip limit).run postgres t f []).2
  | .getBatch batchId => ((BatchService.getBatch batchId).run postgres t f []).2
  | .listBatches skip limit => ((BatchService.listBatches skip limit).run postgres t f []).2
  | .getPrediction predictionId => ((PredictionService.getById predictionId).run postgres t f []).2
  | .getPredictionsForBatch batchId =>
    ((PredictionService.getPredictionsForBatch batchId).run postgres t f []).2
  | .getRecentPredictions limit =>
    ((PredictionService.getRecentPredictions limit).run postgres t f []).2
  | .listAuditLogs limit => ((AuditService.listRecent limit).run postgres t f []).2

/-- A read call changes nothing. -/
theorem Query.serve_eq (q : Query) (f : Fault Exn) (t : Tables) : q.serve f t = t := by
  cases q with
  | getMe userId =>
    rw [Query.serve, UserService.getMe_eq]
    exact selectOr_readOnly.run f
  | getBatch batchId =>
    rw [Query.serve, BatchService.getBatch_eq]
    exact selectOr_readOnly.run f
  | getPrediction predictionId =>
    rw [Query.serve, PredictionService.getById_eq]
    exact selectOr_readOnly.run f
  | listUsers => exact UserService.listUsers_readOnly.run f
  | listBatches | getPredictionsForBatch | getRecentPredictions | listAuditLogs =>
    exact Tx.readOnly_query.run f

end DocClassifier
