import DocClassifier.ServiceSpecs

/-!
# Rows that `User.model_validate` refuses

`User.email` is an `EmailStr`, and the column `users.email` holds any text: `scripts/seed_admin.py`
stores its address unchecked. A repository that reads such a row raises, and so may
`hash_password`. Here are the methods that write users, with the answers of `email_validator` and
of `pwdlib` as parameters; those of `Services` are the case in which neither ever refuses
(`createUser_total`, `changeRole_total`, `deleteUser_total`).
-/

namespace DocClassifier
open ReadCommitted

/-- The `ValidationError` of pydantic is a `ValueError`. -/
def invalidEmail : Exn := .valueError "value is not a valid email address"

/-- `User.model_validate(user_orm)`: `emailStr` answers with the normalized address. -/
def UserORM.modelValidate (emailStr : String → Option String) (u : UserORM) : Except Exn User :=
  match emailStr u.email with
  | none => .error invalidEmail
  | some email => .ok { u.toUser with email }

namespace Validated

variable (emailStr : String → Option String) (hashPassword : String → Except String String)

namespace UserRepo

/-- The INSERT is flushed after the model is built. -/
def create (g : Gen) (userCreate : UserCreate) : Block User := do
  let userORM : UserORM :=
    { id := g.uuid, email := userCreate.email, hashedPassword := userCreate.password,
      role := userCreate.role, isActive := true, createdAt := g.now }
  let user ← Tx.ofExcept (userORM.modelValidate emailStr)
  .execReturning (.insertUser userORM) fun _ => user

def getById (userId : String) : Block (Option User) := do
  match ← Tx.query fun t => t.users.find? userId with
  | none => pure none
  | some userORM =>
    let user ← Tx.ofExcept (userORM.modelValidate emailStr)
    pure (some user)

def updateRole (userId : String) (newRole : Role) : Block (Option User) := do
  match ← Tx.execReturning (.updateRole userId newRole) fun t => t.users.find? userId with
  | none => pure none
  | some userORM =>
    let user ← Tx.ofExcept (userORM.modelValidate emailStr)
    pure (some user)

end UserRepo

namespace UserService

def createUser (g : Gen) (data : UserCreate) (actor : User) : Block (Committed User) := do
  if actor.role ≠ .admin then
    .raise (.permissionDenied "Only admins can create users")
  else
    match hashPassword data.password with
    | .error msg => .raise (.infrastructure msg)
    | .ok hashed =>
      let toPersist := { data with password := hashed }
      let user ← UserRepo.create emailStr g toPersist
      AuditRepo.create g (some actor.id) "user_create" ("user:" ++ user.id)
        [("email", .str data.email), ("role", .str data.role.value)]
      pure ⟨user, [USERS_LIST_KEY]⟩

def changeRole (g : Gen) (targetUserId : String) (update : UserRoleUpdate) (actor : User) :
    Block (Committed User) := do
  if actor.role ≠ .admin then
    .raise (.permissionDenied "Only admins can change roles")
  else
    match ← UserRepo.getById emailStr targetUserId with
    | none => .raise (.notFound "Target user not found")
    | some target =>
      let lastAdmin ← if target.role = .admin ∧ update.role ≠ .admin then do
          let adminCount ← UserRepo.countByRole .admin
          pure (adminCount == 1)
        else pure false
      if lastAdmin then
        .raise (.lastAdminError "Cannot demote the last admin")
      else
        match ← UserRepo.updateRole emailStr targetUserId update.role with
        | none => .raise (.assertionError "User must exist after update")
        | some updated =>
          AuditRepo.create g (some actor.id) "role_change" ("user:" ++ targetUserId)
            [("old_role", .str target.role.value), ("new_role", .str update.role.value)]
          pure ⟨updated, [userMeKey targetUserId, USERS_LIST_KEY]⟩

def deleteUser (g : Gen) (targetUserId : String) (actor : User) : Block (Committed Unit) := do
  if actor.role ≠ .admin then
    .raise (.permissionDenied "Only admins can delete users")
  else if targetUserId = actor.id then
    .raise (.permissionDenied "You cannot delete your own account")
  else
    match ← UserRepo.getById emailStr targetUserId with
    | none => .raise (.notFound "User not found")
    | some target =>
      let lastAdmin ← if target.role = .admin then do
          let adminCount ← UserRepo.countByRole .admin
          pure (adminCount == 1)
        else pure false
      if lastAdmin then
        .raise (.lastAdminError "Cannot delete the last admin account")
      else
        AuditRepo.create g (some actor.id) "user_deleted" ("user:" ++ targetUserId)
          [("email", .str target.email), ("role", .str target.role.value)]
        UserRepo.delete targetUserId
        pure ⟨(), [userMeKey targetUserId, USERS_LIST_KEY]⟩

end UserService

/-! ## Their statements -/

variable {emailStr : String → Option String} {hashPassword : String → Except String String}
  {g : Gen} {data : UserCreate} {userId : String} {update : UserRoleUpdate} {actor : User}

namespace UserRepo

theorem getById_bind {α : Type} {k : Option User → Block α} :
    (getById emailStr userId >>= k) = .select fun t => match t.users.find? userId with
      | none => k none
      | some u => match emailStr u.email with
        | none => .raise invalidEmail
        | some email => k (some { u.toUser with email }) := by
  simp only [getById, Tx.query, Tx.select_bind, Tx.ret_bind]
  congr 1
  funext t
  cases t.users.find? userId with
  | none => rfl
  | some u =>
    dsimp only [UserORM.modelValidate]
    cases emailStr u.email <;> rfl

theorem updateRole_bind {α : Type} {newRole : Role} {k : Option User → Block α} :
    (updateRole emailStr userId newRole >>= k) = .exec (.updateRole userId newRole) fun t =>
      match t.users.find? userId with
      | none => k none
      | some u => match emailStr u.email with
        | none => .raise invalidEmail
        | some email => k (some { u.toUser with email }) := by
  simp only [updateRole, Tx.execReturning, Tx.exec_bind, Tx.ret_bind]
  congr 1
  funext t
  cases t.users.find? userId with
  | none => rfl
  | some u =>
    dsimp only [UserORM.modelValidate]
    cases emailStr u.email <;> rfl

end UserRepo

namespace UserService
open DocClassifier.UserService (newUser userCreate roleChange deleteUserWrite)

theorem createUser_eq : createUser emailStr hashPassword g data actor =
    if actor.role ≠ .admin then .raise (.permissionDenied "Only admins can create users")
    else match hashPassword data.password with
      | .error msg => .raise (.infrastructure msg)
      | .ok hashed => match emailStr data.email with
        | none => .raise invalidEmail
        | some email => .exec (.insertUser (newUser (fun _ => hashed) g data)) fun _ =>
            .exec (.insertAuditLog (userCreate g data actor)) fun _ =>
              .ret ⟨{ (newUser (fun _ => hashed) g data).toUser with email },
                [USERS_LIST_KEY]⟩ := by
  rw [createUser]
  split
  · rfl
  · cases hashPassword data.password with
    | error msg => rfl
    | ok hashed =>
      dsimp only [UserRepo.create, UserORM.modelValidate]
      cases emailStr data.email <;> rfl

/-- `change_role` after its guard. -/
def changeRoleWrite (emailStr : String → Option String) (g : Gen) (userId : String)
    (old new : Role) (actor : User) : Block (Committed User) :=
  .exec (.updateRole userId new) fun t => match t.users.find? userId with
    | none => .raise (.assertionError "User must exist after update")
    | some u => match emailStr u.email with
      | none => .raise invalidEmail
      | some email => .exec (.insertAuditLog (roleChange g userId old new actor)) fun _ =>
          .ret ⟨{ u.toUser with email }, [userMeKey userId, USERS_LIST_KEY]⟩

theorem changeRole_eq : changeRole emailStr g userId update actor =
    if actor.role ≠ .admin then .raise (.permissionDenied "Only admins can change roles")
    else .select fun t => match t.users.find? userId with
      | none => .raise (.notFound "Target user not found")
      | some target => match emailStr target.email with
        | none => .raise invalidEmail
        | some _ =>
          if target.role = .admin ∧ update.role ≠ .admin then
            .select fun t =>
              if t.users.rows.countP (·.role = .admin) = 1 then
                .raise (.lastAdminError "Cannot demote the last admin")
              else changeRoleWrite emailStr g userId target.role update.role actor
          else changeRoleWrite emailStr g userId target.role update.role actor := by
  unfold changeRole
  split
  · rfl
  · rw [UserRepo.getById_bind]
    congr 1
    funext t
    cases t.users.find? userId with
    | none => rfl
    | some target =>
      dsimp only
      cases emailStr target.email with
      | none => rfl
      | some email =>
        simp only [UserRepo.updateRole_bind, UserORM.toUser]
        split
        · simp only [UserRepo.countByRole, Tx.query, Tx.select_bind, Tx.ret_bind, Tx.pure_eq,
            beq_iff_eq]
          rfl
        · rfl

theorem deleteUser_eq : deleteUser emailStr g userId actor =
    if actor.role ≠ .admin then .raise (.permissionDenied "Only admins can delete users")
    else if userId = actor.id then
      .raise (.permissionDenied "You cannot delete your own account")
    else .select fun t => match t.users.find? userId with
      | none => .raise (.notFound "User not found")
      | some target => match emailStr target.email with
        | none => .raise invalidEmail
        | some email =>
          if target.role = .admin then
            .select fun t =>
              if t.users.rows.countP (·.role = .admin) = 1 then
                .raise (.lastAdminError "Cannot delete the last admin account")
              else deleteUserWrite g { target with email } userId actor
          else deleteUserWrite g { target with email } userId actor := by
  unfold deleteUser
  split
  · rfl
  · split
    · rfl
    · rw [UserRepo.getById_bind]
      congr 1
      funext t
      cases t.users.find? userId with
      | none => rfl
      | some target =>
        dsimp only
        cases emailStr target.email with
        | none => rfl
        | some email =>
          simp only [UserORM.toUser]
          by_cases hr : target.role = .admin
          · simp only [if_pos hr, UserRepo.countByRole, Tx.query, Tx.select_bind, Tx.ret_bind,
              Tx.pure_eq, beq_iff_eq]
            rfl
          · rw [if_neg hr]
            exact if_neg hr

/-! ## Where nothing is refused -/

theorem createUser_total (hashPassword : String → String) (g : Gen) (data : UserCreate)
    (actor : User) : createUser some (fun plain => .ok (hashPassword plain)) g data actor =
      DocClassifier.UserService.createUser hashPassword g data actor := rfl

theorem changeRoleWrite_total (g : Gen) (userId : String) (old new : Role) (actor : User) :
    changeRoleWrite some g userId old new actor =
      DocClassifier.UserService.changeRoleWrite g userId old new actor := by
  rw [changeRoleWrite, DocClassifier.UserService.changeRoleWrite]
  congr 1
  funext t
  cases t.users.find? userId <;> rfl

theorem changeRole_total (g : Gen) (userId : String) (update : UserRoleUpdate) (actor : User) :
    changeRole some g userId update actor =
      DocClassifier.UserService.changeRole g userId update actor := by
  have hwrite : changeRoleWrite some = DocClassifier.UserService.changeRoleWrite := by
    funext g userId old new actor
    exact changeRoleWrite_total g userId old new actor
  have hleft : changeRole some g userId update actor = _ := changeRole_eq
  rw [hwrite] at hleft
  exact hleft.trans DocClassifier.UserService.changeRole_eq.symm

theorem deleteUser_total (g : Gen) (userId : String) (actor : User) :
    deleteUser some g userId actor = DocClassifier.UserService.deleteUser g userId actor :=
  deleteUser_eq.trans DocClassifier.UserService.deleteUser_eq.symm

end UserService

end Validated

end DocClassifier
