import DocClassifier.Services

/-!
# What the service methods do

For each mutating method, its block as a tree of statements (`_eq`) and what a call that returns
has done to the tables (`_ok`). Callers use these and never unfold a method.
-/

namespace DocClassifier
open ReadCommitted

variable {g : Gen} {t t' : Tables} {actor : User}

namespace UserService

variable {hashPassword : String → String} {data : UserCreate} {userId : String}
  {update : UserRoleUpdate}

/-- The row that `create_user` inserts. -/
def newUser (hashPassword : String → String) (g : Gen) (data : UserCreate) : UserORM :=
  { id := g.uuid, email := data.email, hashedPassword := hashPassword data.password,
    role := data.role, isActive := true, createdAt := g.now }

/-- The entry that `create_user` appends. -/
def userCreate (g : Gen) (data : UserCreate) (actor : User) : AuditLog :=
  { actorId := some actor.id, action := "user_create", target := "user:" ++ g.uuid,
    details := [("email", .str data.email), ("role", .str data.role.value)], timestamp := g.now }

/-- The entry that `change_role` appends. -/
def roleChange (g : Gen) (userId : String) (old new : Role) (actor : User) : AuditLog :=
  { actorId := some actor.id, action := "role_change", target := "user:" ++ userId,
    details := [("old_role", .str old.value), ("new_role", .str new.value)], timestamp := g.now }

/-- The entry that `delete_user` appends. -/
def userDeleted (g : Gen) (target : UserORM) (userId : String) (actor : User) : AuditLog :=
  { actorId := some actor.id, action := "user_deleted", target := "user:" ++ userId,
    details := [("email", .str target.email), ("role", .str target.role.value)],
    timestamp := g.now }

theorem createUser_eq : createUser hashPassword g data actor =
    if actor.role ≠ .admin then .raise (.permissionDenied "Only admins can create users")
    else .exec (.insertUser (newUser hashPassword g data)) fun _ =>
      .exec (.insertAuditLog (userCreate g data actor)) fun _ =>
        .ret ⟨(newUser hashPassword g data).toUser, [USERS_LIST_KEY]⟩ := rfl

theorem createUser_ok {c : Committed User}
    (h : (createUser hashPassword g data actor).run postgres t none [] = (.ok c, t')) :
    actor.role = .admin ∧ t.users.find? g.uuid = none ∧
      (∀ u ∈ t.users.rows, u.email ≠ data.email) ∧
      c = ⟨(newUser hashPassword g data).toUser, [USERS_LIST_KEY]⟩ ∧
      t' = { t with
        users := t.users.insert (newUser hashPassword g data)
        auditLogs := t.auditLogs ++ [userCreate g data actor] } := by
  rw [createUser_eq] at h
  split at h
  · simp at h
  · rename_i hr
    simp only [Tx.run_exec_ok, Tx.run_ret_ok, postgres_check, checkStmt_insertUser] at h
    obtain ⟨⟨hid, hemail⟩, -, hc, ht⟩ := h
    exact ⟨by simpa using hr, hid, hemail, hc, ht⟩

/-- `change_role` after its guard. -/
def changeRoleWrite (g : Gen) (userId : String) (old new : Role) (actor : User) :
    Block (Committed User) :=
  .exec (.updateRole userId new) fun t => match (t.users.find? userId).map (·.toUser) with
    | none => .raise (.assertionError "User must exist after update")
    | some updated => .exec (.insertAuditLog (roleChange g userId old new actor)) fun _ =>
        .ret ⟨updated, [userMeKey userId, USERS_LIST_KEY]⟩

theorem changeRoleWrite_ok {old new : Role} {c : Committed User}
    (h : (changeRoleWrite g userId old new actor).run postgres t none [] = (.ok c, t')) :
    t' = { t with
      users := t.users.modify userId (fun u => { u with role := new }) fun _ => rfl
      auditLogs := t.auditLogs ++ [roleChange g userId old new actor] } := by
  rw [changeRoleWrite, Tx.run_exec_ok] at h
  obtain ⟨-, h⟩ := h
  split at h
  · simp at h
  · simp only [Tx.run_exec_ok, Tx.run_ret_ok] at h
    exact h.2.2

/-- The foreign key of the entry of `change_role` holds. -/
theorem checkStmt_roleChange {old new : Role} (hactor : (t.users.find? actor.id).isSome) :
    checkStmt (.insertAuditLog (roleChange g userId old new actor))
      (applyStmt (.updateRole userId new) t) = none := by
  simp only [checkStmt_insertAuditLog, roleChange, Option.some.injEq, applyStmt]
  rintro _ rfl
  rw [Table.find?_modify]
  split <;> simpa using hactor

theorem changeRoleWrite_run {old new : Role} {target : UserORM}
    (ht : t.users.find? userId = some target) (hactor : (t.users.find? actor.id).isSome) :
    (changeRoleWrite g userId old new actor).run postgres t none [] =
      (.ok ⟨{ target with role := new }.toUser, [userMeKey userId, USERS_LIST_KEY]⟩, { t with
        users := t.users.modify userId (fun u => { u with role := new }) fun _ => rfl
        auditLogs := t.auditLogs ++ [roleChange g userId old new actor] }) := by
  have hfind : ((applyStmt (.updateRole userId new) t).users.find? userId).map (·.toUser) =
      some { target with role := new }.toUser := by
    simp [applyStmt, Table.find?_modify, ht]
  rw [changeRoleWrite, Tx.run_exec]
  simp only [postgres_check, Backend.view_nil, Backend.view_snoc, postgres_apply, checkStmt]
  rw [hfind]
  dsimp only
  rw [Tx.run_exec, List.nil_append, Backend.view_cons, Backend.view_nil, postgres_check,
    postgres_apply, checkStmt_roleChange hactor]
  rfl

theorem changeRoleWrite_deletes {old new : Role} {ws : List Stmt} {c : Committed User}
    (h : (changeRoleWrite g userId old new actor).Commits ws c) :
    c.deletes = [userMeKey userId, USERS_LIST_KEY] := by
  rw [changeRoleWrite, Tx.commits_exec] at h
  obtain ⟨t, ws', -, h⟩ := h
  split at h
  · exact (Tx.commits_raise h).elim
  · simp only [Tx.commits_exec, Tx.commits_ret] at h
    obtain ⟨-, -, -, -, rfl⟩ := h
    rfl

theorem changeRole_eq : changeRole g userId update actor =
    if actor.role ≠ .admin then .raise (.permissionDenied "Only admins can change roles")
    else .select fun t => match t.users.find? userId with
      | none => .raise (.notFound "Target user not found")
      | some target =>
        if target.role = .admin ∧ update.role ≠ .admin then
          .select fun t =>
            if t.users.rows.countP (·.role = .admin) = 1 then
              .raise (.lastAdminError "Cannot demote the last admin")
            else changeRoleWrite g userId target.role update.role actor
        else changeRoleWrite g userId target.role update.role actor := by
  unfold changeRole
  split
  · rfl
  · simp only [UserRepo.getById, Tx.query, Tx.select_bind, Tx.ret_bind]
    congr 1
    funext t
    cases t.users.find? userId with
    | none => rfl
    | some target =>
      simp only [Option.map_some, UserORM.toUser]
      split
      · simp only [UserRepo.countByRole, Tx.query, Tx.select_bind, Tx.ret_bind, Tx.pure_eq,
          beq_iff_eq]
        rfl
      · rfl

theorem changeRole_ok {c : Committed User}
    (h : (changeRole g userId update actor).run postgres t none [] = (.ok c, t')) :
    actor.role = .admin ∧ ∃ target, t.users.find? userId = some target ∧
      ¬ (target.role = .admin ∧ update.role ≠ .admin ∧
        t.users.rows.countP (·.role = .admin) = 1) ∧
      t' = { t with
        users := t.users.modify userId (fun u => { u with role := update.role }) fun _ => rfl
        auditLogs := t.auditLogs ++ [roleChange g userId target.role update.role actor] } := by
  rw [changeRole_eq] at h
  split at h
  · simp at h
  · rename_i hr
    rw [Tx.run_select] at h
    split at h
    · simp at h
    · rename_i target ht
      refine ⟨by simpa using hr, target, ht, ?_⟩
      split at h
      · rename_i hg
        rw [Tx.run_select] at h
        split at h
        · simp at h
        · rename_i hn
          exact ⟨fun hl => hn hl.2.2, changeRoleWrite_ok h⟩
      · rename_i hg
        exact ⟨fun hl => hg ⟨hl.1, hl.2.1⟩, changeRoleWrite_ok h⟩

/-- A `change_role` call that passes its checks commits. -/
theorem changeRole_run {target : UserORM} (hr : actor.role = .admin)
    (ht : t.users.find? userId = some target)
    (hlast : t.users.rows.countP (·.role = .admin) ≠ 1)
    (hactor : (t.users.find? actor.id).isSome) :
    ((changeRole g userId update actor).run postgres t none []).2 = { t with
      users := t.users.modify userId (fun u => { u with role := update.role }) fun _ => rfl
      auditLogs := t.auditLogs ++ [roleChange g userId target.role update.role actor] } := by
  rw [changeRole_eq, if_neg (by simpa using hr), Tx.run_select, Backend.view_nil, ht]
  dsimp only
  split
  · rw [Tx.run_select, Backend.view_nil, if_neg hlast]
    rw [changeRoleWrite_run ht hactor]
  · rw [changeRoleWrite_run ht hactor]

theorem changeRole_deletes {ws : List Stmt} {c : Committed User}
    (h : (changeRole g userId update actor).Commits ws c) :
    c.deletes = [userMeKey userId, USERS_LIST_KEY] := by
  rw [changeRole_eq] at h
  split at h
  · exact (Tx.commits_raise h).elim
  · obtain ⟨t, h⟩ := Tx.commits_select.mp h
    split at h
    · exact (Tx.commits_raise h).elim
    · split at h
      · obtain ⟨t', h⟩ := Tx.commits_select.mp h
        split at h
        · exact (Tx.commits_raise h).elim
        · exact changeRoleWrite_deletes h
      · exact changeRoleWrite_deletes h

/-- `delete_user` after its guard. -/
def deleteUserWrite (g : Gen) (target : UserORM) (userId : String) (actor : User) :
    Block (Committed Unit) :=
  .exec (.insertAuditLog (userDeleted g target userId actor)) fun _ =>
    .exec (.deleteUser userId) fun _ => .ret ⟨(), [userMeKey userId, USERS_LIST_KEY]⟩

theorem deleteUserWrite_ok {target : UserORM} {c : Committed Unit}
    (h : (deleteUserWrite g target userId actor).run postgres t none [] = (.ok c, t')) :
    t' = { t with
      users := t.users.erase userId
      auditLogs :=
        (t.auditLogs ++ [userDeleted g target userId actor]).map (·.setNull userId) } := by
  simp only [deleteUserWrite, Tx.run_exec_ok, Tx.run_ret_ok] at h
  exact h.2.2.2

theorem deleteUser_eq : deleteUser g userId actor =
    if actor.role ≠ .admin then .raise (.permissionDenied "Only admins can delete users")
    else if userId = actor.id then
      .raise (.permissionDenied "You cannot delete your own account")
    else .select fun t => match t.users.find? userId with
      | none => .raise (.notFound "User not found")
      | some target =>
        if target.role = .admin then
          .select fun t =>
            if t.users.rows.countP (·.role = .admin) = 1 then
              .raise (.lastAdminError "Cannot delete the last admin account")
            else deleteUserWrite g target userId actor
        else deleteUserWrite g target userId actor := by
  unfold deleteUser
  split
  · rfl
  · split
    · rfl
    · simp only [UserRepo.getById, Tx.query, Tx.select_bind, Tx.ret_bind]
      congr 1
      funext t
      cases t.users.find? userId with
      | none => rfl
      | some target =>
        simp only [Option.map_some, UserORM.toUser]
        split
        · simp only [UserRepo.countByRole, Tx.query, Tx.select_bind, Tx.ret_bind, Tx.pure_eq,
            beq_iff_eq]
          rfl
        · rfl

theorem deleteUser_ok {c : Committed Unit}
    (h : (deleteUser g userId actor).run postgres t none [] = (.ok c, t')) :
    actor.role = .admin ∧ userId ≠ actor.id ∧ ∃ target, t.users.find? userId = some target ∧
      ¬ (target.role = .admin ∧ t.users.rows.countP (·.role = .admin) = 1) ∧
      t' = { t with
        users := t.users.erase userId
        auditLogs :=
          (t.auditLogs ++ [userDeleted g target userId actor]).map (·.setNull userId) } := by
  rw [deleteUser_eq] at h
  split at h
  · simp at h
  · rename_i hr
    split at h
    · simp at h
    · rename_i ha
      rw [Tx.run_select] at h
      split at h
      · simp at h
      · rename_i target ht
        refine ⟨by simpa using hr, ha, target, ht, ?_⟩
        split at h
        · rename_i hg
          rw [Tx.run_select] at h
          split at h
          · simp at h
          · rename_i hn
            exact ⟨fun hl => hn hl.2, deleteUserWrite_ok h⟩
        · rename_i hg
          exact ⟨fun hl => hg hl.1, deleteUserWrite_ok h⟩

theorem deleteUserWrite_deletes {target : UserORM} {ws : List Stmt} {c : Committed Unit}
    (h : (deleteUserWrite g target userId actor).Commits ws c) :
    c.deletes = [userMeKey userId, USERS_LIST_KEY] := by
  simp only [deleteUserWrite, Tx.commits_exec, Tx.commits_ret] at h
  obtain ⟨-, -, -, -, -, -, -, rfl⟩ := h
  rfl

theorem deleteUser_deletes {ws : List Stmt} {c : Committed Unit}
    (h : (deleteUser g userId actor).Commits ws c) :
    c.deletes = [userMeKey userId, USERS_LIST_KEY] := by
  rw [deleteUser_eq] at h
  split at h
  · exact (Tx.commits_raise h).elim
  · split at h
    · exact (Tx.commits_raise h).elim
    · obtain ⟨t, h⟩ := Tx.commits_select.mp h
      split at h
      · exact (Tx.commits_raise h).elim
      · split at h
        · obtain ⟨t', h⟩ := Tx.commits_select.mp h
          split at h
          · exact (Tx.commits_raise h).elim
          · exact deleteUserWrite_deletes h
        · exact deleteUserWrite_deletes h

end UserService

namespace BatchService

variable {batchId : String} {newStatus : BatchStatus} {allowed : List BatchStatus}

/-- The row that `create_batch` inserts. -/
def newBatch (g : Gen) (data : BatchCreate) : Batch :=
  { id := data.id, fileCount := data.fileCount, status := .pending, createdAt := g.now }

/-- The entry that `create_batch` appends. -/
def batchCreated (g : Gen) (data : BatchCreate) (actor : Option User) : AuditLog :=
  { actorId := actor.map (·.id), action := "batch_created", target := "batch:" ++ data.id,
    details := [("file_count", .num data.fileCount)], timestamp := g.now }

/-- The entry that `_transition` appends. -/
def stateChange (g : Gen) (batchId : String) (old new : BatchStatus) : AuditLog :=
  { actorId := none, action := "batch_state_change", target := "batch:" ++ batchId,
    details := [("from", .str old.value), ("to", .str new.value)], timestamp := g.now }

theorem createBatch_eq {data : Option BatchCreate} {actor : Option User} :
    createBatch g data actor =
      .exec (.insertBatch (newBatch g (data.getD { id := g.uuid }))) fun _ =>
        .exec (.insertAuditLog (batchCreated g (data.getD { id := g.uuid }) actor)) fun _ =>
          .ret ⟨newBatch g (data.getD { id := g.uuid }), [BATCHES_LIST_KEY]⟩ := rfl

theorem createBatch_ok {data : Option BatchCreate} {actor : Option User} {c : Committed Batch}
    (h : (createBatch g data actor).run postgres t none [] = (.ok c, t')) :
    ∃ d, d = data.getD { id := g.uuid } ∧ t.batches.find? d.id = none ∧
      c = ⟨newBatch g d, [BATCHES_LIST_KEY]⟩ ∧
      t' = { t with
        batches := t.batches.insert (newBatch g d)
        auditLogs := t.auditLogs ++ [batchCreated g d actor] } := by
  simp only [createBatch_eq, Tx.run_exec_ok, Tx.run_ret_ok, postgres_check,
    checkStmt_insertBatch] at h
  obtain ⟨hid, -, hc, ht⟩ := h
  exact ⟨_, rfl, hid, hc, ht⟩

/-- `_transition` after its check. -/
def transitionWrite (g : Gen) (batchId : String) (old new : BatchStatus) :
    Block (Committed Batch) :=
  .exec (.updateStatus batchId new) fun t => match t.batches.find? batchId with
    | none => .raise (.notFound "Batch not found after update")
    | some updated => .exec (.insertAuditLog (stateChange g batchId old new)) fun _ =>
        .ret ⟨updated, [batchKey batchId, BATCHES_LIST_KEY]⟩

theorem transition_eq : transition g batchId newStatus allowed =
    .select fun t => match t.batches.find? batchId with
      | none => .raise (.notFound "Batch not found")
      | some batch =>
        if batch.status ∉ allowed then
          .raise (.invalidStateTransition
            ("Cannot move from '" ++ batch.status.value ++ "' to '" ++ newStatus.value ++ "'"))
        else transitionWrite g batchId batch.status newStatus := rfl

theorem transition_ok {c : Committed Batch}
    (h : (transition g batchId newStatus allowed).run postgres t none [] = (.ok c, t')) :
    ∃ batch, t.batches.find? batchId = some batch ∧ batch.status ∈ allowed ∧
      t' = { t with
        batches := t.batches.modify batchId (fun b => { b with status := newStatus }) fun _ => rfl
        auditLogs := t.auditLogs ++ [stateChange g batchId batch.status newStatus] } := by
  rw [transition_eq, Tx.run_select] at h
  split at h
  · simp at h
  · rename_i batch hb
    split at h
    · simp at h
    · rename_i ha
      rw [transitionWrite, Tx.run_exec_ok] at h
      obtain ⟨-, h⟩ := h
      split at h
      · simp at h
      · simp only [Tx.run_exec_ok, Tx.run_ret_ok] at h
        exact ⟨batch, hb, not_not.mp ha, h.2.2⟩

theorem transition_deletes {ws : List Stmt} {c : Committed Batch}
    (h : (transition g batchId newStatus allowed).Commits ws c) :
    c.deletes = [batchKey batchId, BATCHES_LIST_KEY] := by
  rw [transition_eq] at h
  obtain ⟨t, h⟩ := Tx.commits_select.mp h
  split at h
  · exact (Tx.commits_raise h).elim
  · split at h
    · exact (Tx.commits_raise h).elim
    · rw [transitionWrite, Tx.commits_exec] at h
      obtain ⟨t', ws', -, h⟩ := h
      split at h
      · exact (Tx.commits_raise h).elim
      · simp only [Tx.commits_exec, Tx.commits_ret] at h
        obtain ⟨-, -, -, -, rfl⟩ := h
        rfl

end BatchService

namespace PredictionService

variable {predictionId batchId : String} {update : PredictionRelabel} {data : PredictionCreate}

/-- The row that `save_prediction` inserts. -/
def newPrediction (g : Gen) (batchId : String) (data : PredictionCreate) : Prediction :=
  { id := g.uuid, batchId, filename := data.filename, blobKey := data.blobKey,
    overlayKey := data.overlayKey, predictedClass := data.predictedClass,
    confidence := data.confidence, createdAt := g.now }

/-- The entry that `relabel` appends. -/
def relabeled (g : Gen) (pred : Prediction) (predictionId : String) (update : PredictionRelabel)
    (actor : User) : AuditLog :=
  { actorId := some actor.id, action := "relabel", target := "prediction:" ++ predictionId,
    details := [("from", .str pred.predictedClass), ("to", .str update.relabeledClass)],
    timestamp := g.now }

theorem savePrediction_eq : savePrediction g batchId data =
    .exec (.insertPrediction (newPrediction g batchId data)) fun _ =>
      .ret ⟨newPrediction g batchId data,
        [PREDICTIONS_RECENT_KEY, batchKey batchId, predictionsBatchKey batchId]⟩ := rfl

theorem savePrediction_ok {c : Committed Prediction}
    (h : (savePrediction g batchId data).run postgres t none [] = (.ok c, t')) :
    t.predictions.find? g.uuid = none ∧ (t.batches.find? batchId).isSome ∧
      c = ⟨newPrediction g batchId data,
        [PREDICTIONS_RECENT_KEY, batchKey batchId, predictionsBatchKey batchId]⟩ ∧
      t' = { t with predictions := t.predictions.insert (newPrediction g batchId data) } := by
  simp only [savePrediction_eq, Tx.run_exec_ok, Tx.run_ret_ok, postgres_check,
    checkStmt_insertPrediction] at h
  obtain ⟨⟨hid, hb⟩, hc, ht⟩ := h
  exact ⟨hid, hb, hc, ht⟩

/-- `relabel` after its checks. -/
def relabelWrite (g : Gen) (pred : Prediction) (predictionId : String)
    (update : PredictionRelabel) (actor : User) : Block (Committed Prediction) :=
  .exec (.relabel predictionId update.relabeledClass) fun t =>
    match t.predictions.find? predictionId with
    | none => .raise (.notFound "Prediction not found during relabel")
    | some updated =>
      .exec (.insertAuditLog (relabeled g pred predictionId update actor)) fun _ =>
        .ret ⟨updated, [PREDICTIONS_RECENT_KEY, batchKey pred.batchId,
          predictionsBatchKey pred.batchId]⟩

theorem relabel_eq : relabel g predictionId update actor =
    if actor.role ∉ [Role.admin, Role.reviewer] then
      .raise (.permissionDenied "Only reviewers and admins can relabel")
    else .select fun t => match t.predictions.find? predictionId with
      | none => .raise (.notFound "Prediction not found")
      | some pred =>
        if actor.role = .reviewer ∧ pred.confidence ≥ 7 / 10 then
          .raise
            (.relabelNotAllowed "Reviewers can only relabel predictions with confidence < 0.7")
        else relabelWrite g pred predictionId update actor := rfl

theorem relabel_ok {c : Committed Prediction}
    (h : (relabel g predictionId update actor).run postgres t none [] = (.ok c, t')) :
    actor.role ∈ [Role.admin, Role.reviewer] ∧
      ∃ pred, t.predictions.find? predictionId = some pred ∧
        ¬ (actor.role = .reviewer ∧ pred.confidence ≥ 7 / 10) ∧
        t' = { t with
          predictions := t.predictions.modify predictionId
            (fun p => { p with relabeledClass := some update.relabeledClass }) fun _ => rfl
          auditLogs := t.auditLogs ++ [relabeled g pred predictionId update actor] } := by
  rw [relabel_eq] at h
  split at h
  · simp at h
  · rename_i hr
    rw [Tx.run_select] at h
    split at h
    · simp at h
    · rename_i pred hp
      split at h
      · simp at h
      · rename_i hc
        rw [relabelWrite, Tx.run_exec_ok] at h
        obtain ⟨-, h⟩ := h
        split at h
        · simp at h
        · simp only [Tx.run_exec_ok, Tx.run_ret_ok] at h
          exact ⟨not_not.mp hr, pred, hp, hc, h.2.2⟩

theorem relabelWrite_deletes {pred : Prediction} {ws : List Stmt} {c : Committed Prediction}
    (h : (relabelWrite g pred predictionId update actor).Commits ws c) :
    c.deletes = [PREDICTIONS_RECENT_KEY, batchKey pred.batchId,
      predictionsBatchKey pred.batchId] := by
  rw [relabelWrite, Tx.commits_exec] at h
  obtain ⟨t, ws', -, h⟩ := h
  split at h
  · exact (Tx.commits_raise h).elim
  · simp only [Tx.commits_exec, Tx.commits_ret] at h
    obtain ⟨-, -, -, -, rfl⟩ := h
    rfl

theorem relabel_deletes {pred : Prediction} {c : Committed Prediction}
    (h : (relabel g predictionId update actor).run postgres t none [] = (.ok c, t'))
    (hp : t.predictions.find? predictionId = some pred) :
    c.deletes = [PREDICTIONS_RECENT_KEY, batchKey pred.batchId,
      predictionsBatchKey pred.batchId] := by
  rw [relabel_eq] at h
  split at h
  · simp at h
  · rw [Tx.run_select, Backend.view_nil, hp] at h
    dsimp only at h
    split at h
    · simp at h
    · obtain ⟨ws, hc⟩ := Tx.commits_of_run h
      exact relabelWrite_deletes hc

end PredictionService

end DocClassifier
