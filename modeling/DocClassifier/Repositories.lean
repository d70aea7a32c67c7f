import DocClassifier.Db

/-!
# Repositories

The queries and statements of `app/repositories` that the services use. No repository commits.
-/

namespace DocClassifier
open ReadCommitted

/-- The values a call takes from `uuid.uuid4()`, which are hex digits and dashes, and from the
clock. -/
structure Gen where
  uuid : String
  now : Nat
  plain : '/' ∉ uuid.toList := by decide
  deriving DecidableEq

/-- The values of a call that takes no id. -/
def Gen.noId (now : Nat) : Gen := { uuid := "", now }

namespace UserRepo

def create (g : Gen) (userCreate : UserCreate) : Block User :=
  let userORM : UserORM :=
    { id := g.uuid, email := userCreate.email, hashedPassword := userCreate.password,
      role := userCreate.role, isActive := true, createdAt := g.now }
  .execReturning (.insertUser userORM) fun _ => userORM.toUser

def getById (userId : String) : Block (Option User) :=
  .query fun t => (t.users.find? userId).map (·.toUser)

def countByRole (role : Role) : Block Nat :=
  .query fun t => t.users.rows.countP (·.role = role)

def updateRole (userId : String) (newRole : Role) : Block (Option User) :=
  .execReturning (.updateRole userId newRole) fun t => (t.users.find? userId).map (·.toUser)

def delete (userId : String) : Block Unit :=
  .execReturning (.deleteUser userId) fun _ => ()

end UserRepo

namespace BatchRepo

def create (g : Gen) (batchCreate : BatchCreate) : Block Batch :=
  let batch : Batch :=
    { id := batchCreate.id, fileCount := batchCreate.fileCount, status := .pending,
      createdAt := g.now }
  .execReturning (.insertBatch batch) fun _ => batch

def getById (batchId : String) : Block (Option Batch) :=
  .query fun t => t.batches.find? batchId

def updateStatus (batchId : String) (newStatus : BatchStatus) : Block (Option Batch) :=
  .execReturning (.updateStatus batchId newStatus) fun t => t.batches.find? batchId

end BatchRepo

namespace PredictionRepo

def create (g : Gen) (batchId : String) (predCreate : PredictionCreate) : Block Prediction :=
  let pred : Prediction :=
    { id := g.uuid, batchId, filename := predCreate.filename, blobKey := predCreate.blobKey,
      overlayKey := predCreate.overlayKey, predictedClass := predCreate.predictedClass,
      confidence := predCreate.confidence, createdAt := g.now }
  .execReturning (.insertPrediction pred) fun _ => pred

def getById (predictionId : String) : Block (Option Prediction) :=
  .query fun t => t.predictions.find? predictionId

def relabel (predictionId : String) (relabelModel : PredictionRelabel) :
    Block (Option Prediction) :=
  .execReturning (.relabel predictionId relabelModel.relabeledClass) fun t =>
    t.predictions.find? predictionId

end PredictionRepo

namespace AuditRepo

def create (g : Gen) (actorId : Option String) (action target : String)
    (details : List (String × Json)) : Block Unit :=
  .execReturning (.insertAuditLog { actorId, action, target, details, timestamp := g.now })
    fun _ => ()

end AuditRepo

end DocClassifier
