import DocClassifier.Repositories

/-!
# Services

The mutating methods of `app/services`. A call is one transaction block followed by the deletion
of cache keys, one by one; the block answers with the value to return and the keys to delete. What
a method checks before `async with self.db.begin()` is at the head of its block, where no statement
has been executed yet.
-/

namespace DocClassifier
open ReadCommitted

/-- What a block hands to the code after its commit. -/
structure Committed (α : Type) where
  result : α
  /-- The cache keys to delete, in order. -/
  deletes : List String

namespace UserService

def createUser (hashPassword : String → String) (g : Gen) (data : UserCreate) (actor : User) :
    Block (Committed User) := do
  if actor.role ≠ .admin then
    .raise (.permissionDenied "Only admins can create users")
  else
    let hashed := hashPassword data.password
    let toPersist := { data with password := hashed }
    let user ← UserRepo.create g toPersist
    AuditRepo.create g (some actor.id) "user_create" ("user:" ++ user.id)
      [("email", .str data.email), ("role", .str data.role.value)]
    pure ⟨user, [USERS_LIST_KEY]⟩

def changeRole (g : Gen) (targetUserId : String) (update : UserRoleUpdate) (actor : User) :
    Block (Committed User) := do
  if actor.role ≠ .admin then
    .raise (.permissionDenied "Only admins can change roles")
  else
    match ← UserRepo.getById targetUserId with
    | none => .raise (.notFound "Target user not found")
    | some target =>
      let lastAdmin ← if target.role = .admin ∧ update.role ≠ .admin then do
          let adminCount ← UserRepo.countByRole .admin
          pure (adminCount == 1)
        else pure false
      if lastAdmin then
        .raise (.lastAdminError "Cannot demote the last admin")
      else
        match ← UserRepo.updateRole targetUserId update.role with
        | none => .raise (.assertionError "User must exist after update")
        | some updated =>
          AuditRepo.create g (some actor.id) "role_change" ("user:" ++ targetUserId)
            [("old_role", .str target.role.value), ("new_role", .str update.role.value)]
          pure ⟨updated, [userMeKey targetUserId, USERS_LIST_KEY]⟩

def deleteUser (g : Gen) (targetUserId : String) (actor : User) : Block (Committed Unit) := do
  if actor.role ≠ .admin then
    .raise (.permissionDenied "Only admins can delete users")
  else if targetUserId = actor.id then
    .raise (.permissionDenied "You cannot delete your own account")
  else
    match ← UserRepo.getById targetUserId with
    | none => .raise (.notFound "User not found")
    | some target =>
      let lastAdmin ← if target.role = .admin then do
          let adminCount ← UserRepo.countByRole .admin
          pure (adminCount == 1)
        else pure false
      if lastAdmin then
        .raise (.lastAdminError "Cannot delete the last admin account")
      else
        AuditRepo.create g (some actor.id) "user_deleted" ("user:" ++ targetUserId)
          [("email", .str target.email), ("role", .str target.role.value)]
        UserRepo.delete targetUserId
        pure ⟨(), [userMeKey targetUserId, USERS_LIST_KEY]⟩

end UserService

namespace BatchService

def createBatch (g : Gen) (data : Option BatchCreate) (actor : Option User) :
    Block (Committed Batch) := do
  let data := data.getD { id := g.uuid }
  let batch ← BatchRepo.create g data
  AuditRepo.create g (actor.map (·.id)) "batch_created" ("batch:" ++ batch.id)
    [("file_count", .num data.fileCount)]
  pure ⟨batch, [BATCHES_LIST_KEY]⟩

/-- `BatchService._transition`. -/
def transition (g : Gen) (batchId : String) (newStatus : BatchStatus)
    (allowed : List BatchStatus) : Block (Committed Batch) := do
  match ← BatchRepo.getById batchId with
  | none => .raise (.notFound "Batch not found")
  | some batch =>
    if batch.status ∉ allowed then
      .raise (.invalidStateTransition
        ("Cannot move from '" ++ batch.status.value ++ "' to '" ++ newStatus.value ++ "'"))
    else
      match ← BatchRepo.updateStatus batchId newStatus with
      | none => .raise (.notFound "Batch not found after update")
      | some updated =>
        AuditRepo.create g none "batch_state_change" ("batch:" ++ batchId)
          [("from", .str batch.status.value), ("to", .str newStatus.value)]
        pure ⟨updated, [batchKey batchId, BATCHES_LIST_KEY]⟩

def markProcessing (g : Gen) (batchId : String) : Block (Committed Batch) :=
  transition g batchId .processing [.pending]

def markDone (g : Gen) (batchId : String) : Block (Committed Batch) :=
  transition g batchId .done [.processing]

def markFailed (g : Gen) (batchId : String) : Block (Committed Batch) :=
  transition g batchId .failed [.pending, .processing]

end BatchService

namespace PredictionService

def savePrediction (g : Gen) (batchId : String) (data : PredictionCreate) :
    Block (Committed Prediction) := do
  let prediction ← PredictionRepo.create g batchId data
  pure ⟨prediction, [PREDICTIONS_RECENT_KEY, batchKey batchId, predictionsBatchKey batchId]⟩

def relabel (g : Gen) (predictionId : String) (update : PredictionRelabel) (actor : User) :
    Block (Committed Prediction) := do
  if actor.role ∉ [Role.admin, Role.reviewer] then
    .raise (.permissionDenied "Only reviewers and admins can relabel")
  else
    match ← PredictionRepo.getById predictionId with
    | none => .raise (.notFound "Prediction not found")
    | some pred =>
      if actor.role = .reviewer ∧ pred.confidence ≥ 7 / 10 then
        .raise (.relabelNotAllowed "Reviewers can only relabel predictions with confidence < 0.7")
      else
        match ← PredictionRepo.relabel predictionId update with
        | none => .raise (.notFound "Prediction not found during relabel")
        | some updated =>
          AuditRepo.create g (some actor.id) "relabel" ("prediction:" ++ predictionId)
            [("from", .str pred.predictedClass), ("to", .str update.relabeledClass)]
          pure ⟨updated, [PREDICTIONS_RECENT_KEY, batchKey pred.batchId,
            predictionsBatchKey pred.batchId]⟩

end PredictionService

end DocClassifier
