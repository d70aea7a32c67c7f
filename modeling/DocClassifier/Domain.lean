import Mathlib.Data.Rat.Defs

/-!
# Domain models

The Pydantic models of `app/domain` and the cache keys of `app/infra/cache.py`. Times are natural
numbers and confidences are rationals; a validated model carries its validator as a field.
-/

namespace DocClassifier

inductive Role where
  | admin
  | reviewer
  | auditor
  deriving DecidableEq, Repr

namespace Role

def value : Role → String
  | .admin => "admin"
  | .reviewer => "reviewer"
  | .auditor => "auditor"

/-- `Role(value)`. -/
def ofValue : String → Option Role
  | "admin" => some .admin
  | "reviewer" => some .reviewer
  | "auditor" => some .auditor
  | _ => none

@[simp] theorem ofValue_value (r : Role) : ofValue r.value = some r := by cases r <;> rfl

end Role

inductive BatchStatus where
  | pending
  | processing
  | done
  | failed
  deriving DecidableEq, Repr

namespace BatchStatus

def value : BatchStatus → String
  | .pending => "pending"
  | .processing => "processing"
  | .done => "done"
  | .failed => "failed"

/-- `BatchStatus(value)`. -/
def ofValue : String → Option BatchStatus
  | "pending" => some .pending
  | "processing" => some .processing
  | "done" => some .done
  | "failed" => some .failed
  | _ => none

@[simp] theorem ofValue_value (s : BatchStatus) : ofValue s.value = some s := by cases s <;> rfl

end BatchStatus

/-! ## Users -/

structure User where
  id : String
  email : String
  role : Role
  isActive : Bool
  createdAt : Nat
  deriving DecidableEq, Repr

structure UserCreate where
  email : String
  password : String
  role : Role := .auditor
  deriving DecidableEq, Repr

structure UserRoleUpdate where
  role : Role
  deriving DecidableEq, Repr

/-! ## Batches -/

structure Batch where
  id : String
  status : BatchStatus
  fileCount : Nat
  createdAt : Nat
  deriving DecidableEq, Repr

structure BatchCreate where
  id : String
  fileCount : Nat := 0
  deriving DecidableEq, Repr

/-! ## Predictions -/

def CLASSES : List String :=
  ["letter", "form", "email", "handwritten", "advertisement", "scientific report",
    "scientific publication", "specification", "file folder", "news article", "budget", "invoice",
    "presentation", "questionnaire", "resume", "memo"]

structure Prediction where
  id : String
  batchId : String
  filename : String
  blobKey : String
  overlayKey : String
  predictedClass : String
  confidence : Rat
  relabeledClass : Option String := none
  createdAt : Nat
  deriving DecidableEq, Repr

structure PredictionCreate where
  batchId : String
  filename : String
  blobKey : String
  overlayKey : String
  predictedClass : String
  confidence : Rat
  deriving DecidableEq, Repr

structure PredictionRelabel where
  relabeledClass : String
  mustBeValidClass : relabeledClass ∈ CLASSES

/-! ## Audit log -/

/-- A value of the JSON object in the `details` column. -/
inductive Json where
  | str (s : String)
  | num (n : Nat)
  deriving DecidableEq, Repr

structure AuditLog where
  actorId : Option String
  action : String
  target : String
  details : List (String × Json)
  timestamp : Nat
  deriving DecidableEq, Repr

/-- The text of a field of `details`. -/
def AuditLog.detail (e : AuditLog) (field : String) : Option String :=
  match e.details.lookup field with
  | some (.str s) => some s
  | _ => none

/-! ## Cache keys -/

def USERS_LIST_KEY : String := "users:list"
def BATCHES_LIST_KEY : String := "batches:list"
def PREDICTIONS_RECENT_KEY : String := "predictions:recent"

def userMeKey (userId : String) : String := "user:me:" ++ userId
def batchKey (batchId : String) : String := "batch:" ++ batchId
def predictionsBatchKey (batchId : String) : String := "predictions:batch:" ++ batchId

end DocClassifier
