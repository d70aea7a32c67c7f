import DocClassifier.Validation

/-!
# What the service methods answer

The answers of a method whose actor has a row, without faults: one constructor for each exception
that the method can raise, with the check it comes from, and one for the call that returns. The
foreign key of the audit entry holds, and the row that a method has read is still there, with the
same email, when it writes.
-/

namespace DocClassifier
open ReadCommitted

variable {g : Gen} {t : Tables} {actor : User}

namespace UserService

variable {hashPassword : String → String} {data : UserCreate}

/-- The constraints that refuse the row of `create_user`: its id or its email is taken. -/
def Taken (g : Gen) (data : UserCreate) (t : Tables) : Prop :=
  ∃ u ∈ t.users.rows, u.id = g.uuid ∨ u.email = data.email

instance : Decidable (Taken g data t) :=
  inferInstanceAs (Decidable (∃ u ∈ t.users.rows, u.id = g.uuid ∨ u.email = data.email))

theorem not_taken : ¬ Taken g data t ↔
    t.users.find? g.uuid = none ∧ ∀ u ∈ t.users.rows, u.email ≠ data.email := by
  rw [Table.find?_eq_none]
  constructor
  · intro h
    exact ⟨fun u hu hid => h ⟨u, hu, .inl hid⟩, fun u hu he => h ⟨u, hu, .inr he⟩⟩
  · intro ⟨hid, hemail⟩ ⟨u, hu, h⟩
    rcases h with h | h
    · exact hid u hu h
    · exact hemail u hu h

theorem checkStmt_newUser : checkStmt (.insertUser (newUser hashPassword g data)) t = none ↔
    ¬ Taken g data t := by
  rw [checkStmt_insertUser, not_taken]
  rfl

/-- An insert into `users` fails on one of the two constraints of the table. -/
theorem integrityError_of_insertUser {u : UserORM} {e : Exn}
    (h : checkStmt (.insertUser u) t = some e) : ∃ constraint, e = .integrityError constraint := by
  simp only [checkStmt] at h
  split at h
  · exact ⟨_, (Option.some.inj h).symm⟩
  · split at h
    · exact ⟨_, (Option.some.inj h).symm⟩
    · cases h

end UserService

namespace Validated.UserService
open DocClassifier.UserService

variable {emailStr : String → Option String} {hashPassword : String → Except String String}
  {data : UserCreate} {userId : String} {update : UserRoleUpdate}

/-- What `create_user` answers. -/
inductive CreateUserAnswer (emailStr : String → Option String)
    (hashPassword : String → Except String String) (g : Gen) (data : UserCreate) (actor : User)
    (t : Tables) : Except Exn (Committed User) → Prop
  | denied : actor.role ≠ .admin → CreateUserAnswer emailStr hashPassword g data actor t
      (.error (.permissionDenied "Only admins can create users"))
  | notHashed {msg : String} : actor.role = .admin → hashPassword data.password = .error msg →
      CreateUserAnswer emailStr hashPassword g data actor t (.error (.infrastructure msg))
  | invalid : actor.role = .admin → emailStr data.email = none →
      CreateUserAnswer emailStr hashPassword g data actor t (.error invalidEmail)
  | taken {constraint : String} : actor.role = .admin → Taken g data t →
      CreateUserAnswer emailStr hashPassword g data actor t (.error (.integrityError constraint))
  | returns {hashed email : String} {c : Committed User} : actor.role = .admin →
      hashPassword data.password = .ok hashed → emailStr data.email = some email →
      ¬ Taken g data t → CreateUserAnswer emailStr hashPassword g data actor t (.ok c)

theorem createUser_answer (emailStr : String → Option String)
    (hashPassword : String → Except String String) (g : Gen) (data : UserCreate)
    (hactor : (t.users.find? actor.id).isSome) :
    CreateUserAnswer emailStr hashPassword g data actor t
      ((createUser emailStr hashPassword g data actor).run postgres t none []).1 := by
  rw [createUser_eq]
  by_cases hr : actor.role = .admin
  swap
  · rw [if_pos hr, Tx.run_raise]
    exact .denied hr
  rw [if_neg (not_not.mpr hr)]
  cases hhash : hashPassword data.password with
  | error msg => exact .notHashed hr hhash
  | ok hashed =>
    dsimp only
    cases hemail : emailStr data.email with
    | none => exact .invalid hr hemail
    | some email =>
      dsimp only
      rw [Tx.run_exec, postgres_check, Backend.view_nil]
      cases hcheck : checkStmt (.insertUser (newUser (fun _ => hashed) g data)) t with
      | some e =>
        obtain ⟨constraint, rfl⟩ := integrityError_of_insertUser hcheck
        refine .taken hr ?_
        by_contra htaken
        rw [checkStmt_newUser.mpr htaken] at hcheck
        cases hcheck
      | none =>
        -- The row of the actor is still there.
        obtain ⟨a, ha⟩ := Option.isSome_iff_exists.mp hactor
        have hfind : ((t.users.insert (newUser (fun _ => hashed) g data)).find?
            actor.id).isSome := by
          rw [Table.find?_insert_of_some ha]
          rfl
        have haudit : checkStmt (.insertAuditLog (userCreate g data actor))
            (applyStmt (.insertUser (newUser (fun _ => hashed) g data)) t) = none := by
          simpa [userCreate, applyStmt] using hfind
        dsimp only
        rw [Tx.run_exec, List.nil_append, Backend.view_cons, Backend.view_nil, postgres_check,
          postgres_apply, haudit]
        exact .returns hr hhash hemail (checkStmt_newUser.mp hcheck)

theorem changeRole_denied (hr : actor.role ≠ .admin) (f : Fault Exn) :
    (changeRole emailStr g userId update actor).run postgres t f [] =
      (.error (.permissionDenied "Only admins can change roles"), t) := by
  rw [changeRole_eq, if_pos hr, Tx.run_raise]

/-- The first statement fails. -/
theorem changeRole_fault (hr : actor.role = .admin) (e : Exn) :
    (changeRole emailStr g userId update actor).run postgres t (some (0, e)) [] =
      (.error e, t) := by
  rw [changeRole_eq, if_neg (not_not.mpr hr)]
  rfl

/-- What `change_role` answers. -/
inductive ChangeRoleAnswer (emailStr : String → Option String) (userId : String)
    (update : UserRoleUpdate) (actor : User) (t : Tables) : Except Exn (Committed User) → Prop
  | denied : actor.role ≠ .admin → ChangeRoleAnswer emailStr userId update actor t
      (.error (.permissionDenied "Only admins can change roles"))
  | notFound : actor.role = .admin → t.users.find? userId = none →
      ChangeRoleAnswer emailStr userId update actor t (.error (.notFound "Target user not found"))
  | invalid {target : UserORM} : actor.role = .admin → t.users.find? userId = some target →
      emailStr target.email = none →
      ChangeRoleAnswer emailStr userId update actor t (.error invalidEmail)
  | lastAdmin {target : UserORM} : actor.role = .admin → t.users.find? userId = some target →
      (emailStr target.email).isSome → target.role = .admin → update.role ≠ .admin →
      t.users.rows.countP (·.role = .admin) = 1 →
      ChangeRoleAnswer emailStr userId update actor t
        (.error (.lastAdminError "Cannot demote the last admin"))
  | returns {target : UserORM} {c : Committed User} : actor.role = .admin →
      t.users.find? userId = some target → (emailStr target.email).isSome →
      ¬ (target.role = .admin ∧ update.role ≠ .admin ∧
        t.users.rows.countP (·.role = .admin) = 1) →
      ChangeRoleAnswer emailStr userId update actor t (.ok c)

theorem changeRoleWrite_run {old new : Role} {target : UserORM} {email : String}
    (ht : t.users.find? userId = some target) (hemail : emailStr target.email = some email)
    (hactor : (t.users.find? actor.id).isSome) : ∃ c,
    ((changeRoleWrite emailStr g userId old new actor).run postgres t none []).1 = .ok c := by
  -- The row that is read back has the email that was accepted.
  have hfind : (applyStmt (.updateRole userId new) t).users.find? userId =
      some { target with role := new } := by
    simp [applyStmt, Table.find?_modify, ht]
  rw [changeRoleWrite, Tx.run_exec]
  simp only [postgres_check, Backend.view_nil, Backend.view_snoc, postgres_apply, checkStmt]
  rw [hfind]
  dsimp only
  rw [hemail]
  dsimp only
  rw [Tx.run_exec, List.nil_append, Backend.view_cons, Backend.view_nil, postgres_check,
    postgres_apply, checkStmt_roleChange hactor]
  exact ⟨_, rfl⟩

theorem changeRole_answer (emailStr : String → Option String) (g : Gen) (userId : String)
    (update : UserRoleUpdate) (hactor : (t.users.find? actor.id).isSome) :
    ChangeRoleAnswer emailStr userId update actor t
      ((changeRole emailStr g userId update actor).run postgres t none []).1 := by
  by_cases hr : actor.role = .admin
  swap
  · rw [changeRole_denied hr]
    exact .denied hr
  rw [changeRole_eq, if_neg (not_not.mpr hr), Tx.run_select, Backend.view_nil]
  cases ht : t.users.find? userId with
  | none => exact .notFound hr ht
  | some target =>
    dsimp only
    cases hemail : emailStr target.email with
    | none => exact .invalid hr ht hemail
    | some email =>
      have hvalid : (emailStr target.email).isSome := by simp [hemail]
      have hwrite : ∃ c, ((changeRoleWrite emailStr g userId target.role update.role actor).run
          postgres t none []).1 = .ok c := changeRoleWrite_run ht hemail hactor
      dsimp only
      by_cases hg : target.role = .admin ∧ update.role ≠ .admin
      · rw [if_pos hg, Tx.run_select, Backend.view_nil]
        by_cases hn : t.users.rows.countP (·.role = .admin) = 1
        · rw [if_pos hn, Tx.run_raise]
          exact .lastAdmin hr ht hvalid hg.1 hg.2 hn
        · obtain ⟨c, hc⟩ := hwrite
          rw [if_neg hn, hc]
          exact .returns hr ht hvalid fun h => hn h.2.2
      · obtain ⟨c, hc⟩ := hwrite
        rw [if_neg hg, hc]
        exact .returns hr ht hvalid fun h => hg ⟨h.1, h.2.1⟩

theorem deleteUserWrite_run {target : UserORM} (hactor : (t.users.find? actor.id).isSome) :
    ((deleteUserWrite g target userId actor).run postgres t none []).1 =
      .ok ⟨(), [userMeKey userId, USERS_LIST_KEY]⟩ := by
  have haudit : checkStmt (.insertAuditLog (userDeleted g target userId actor)) t = none := by
    simpa [userDeleted] using hactor
  rw [deleteUserWrite, Tx.run_exec, postgres_check, Backend.view_nil, haudit]
  rfl

theorem deleteUser_denied (hr : actor.role ≠ .admin) (f : Fault Exn) :
    (deleteUser emailStr g userId actor).run postgres t f [] =
      (.error (.permissionDenied "Only admins can delete users"), t) := by
  rw [deleteUser_eq, if_pos hr, Tx.run_raise]

theorem deleteUser_self (hr : actor.role = .admin) (f : Fault Exn) :
    (deleteUser emailStr g actor.id actor).run postgres t f [] =
      (.error (.permissionDenied "You cannot delete your own account"), t) := by
  rw [deleteUser_eq, if_neg (not_not.mpr hr), if_pos rfl, Tx.run_raise]

theorem deleteUser_fault (hr : actor.role = .admin) (hid : userId ≠ actor.id) (e : Exn) :
    (deleteUser emailStr g userId actor).run postgres t (some (0, e)) [] = (.error e, t) := by
  rw [deleteUser_eq, if_neg (not_not.mpr hr), if_neg hid]
  rfl

/-- What `delete_user` answers. -/
inductive DeleteUserAnswer (emailStr : String → Option String) (userId : String) (actor : User)
    (t : Tables) : Except Exn (Committed Unit) → Prop
  | denied : actor.role ≠ .admin → DeleteUserAnswer emailStr userId actor t
      (.error (.permissionDenied "Only admins can delete users"))
  | self : actor.role = .admin → userId = actor.id → DeleteUserAnswer emailStr userId actor t
      (.error (.permissionDenied "You cannot delete your own account"))
  | notFound : actor.role = .admin → userId ≠ actor.id → t.users.find? userId = none →
      DeleteUserAnswer emailStr userId actor t (.error (.notFound "User not found"))
  | invalid {target : UserORM} : actor.role = .admin → userId ≠ actor.id →
      t.users.find? userId = some target → emailStr target.email = none →
      DeleteUserAnswer emailStr userId actor t (.error invalidEmail)
  | lastAdmin {target : UserORM} : actor.role = .admin → userId ≠ actor.id →
      t.users.find? userId = some target → (emailStr target.email).isSome →
      target.role = .admin → t.users.rows.countP (·.role = .admin) = 1 →
      DeleteUserAnswer emailStr userId actor t
        (.error (.lastAdminError "Cannot delete the last admin account"))
  | returns {target : UserORM} : actor.role = .admin → userId ≠ actor.id →
      t.users.find? userId = some target → (emailStr target.email).isSome →
      ¬ (target.role = .admin ∧ t.users.rows.countP (·.role = .admin) = 1) →
      DeleteUserAnswer emailStr userId actor t (.ok ⟨(), [userMeKey userId, USERS_LIST_KEY]⟩)

theorem deleteUser_answer (emailStr : String → Option String) (g : Gen) (userId : String)
    (hactor : (t.users.find? actor.id).isSome) : DeleteUserAnswer emailStr userId actor t
      ((deleteUser emailStr g userId actor).run postgres t none []).1 := by
  by_cases hr : actor.role = .admin
  swap
  · rw [deleteUser_denied hr]
    exact .denied hr
  by_cases hid : userId = actor.id
  · subst hid
    rw [deleteUser_self hr]
    exact .self hr rfl
  rw [deleteUser_eq, if_neg (not_not.mpr hr), if_neg hid, Tx.run_select, Backend.view_nil]
  cases ht : t.users.find? userId with
  | none => exact .notFound hr hid ht
  | some target =>
    dsimp only
    cases hemail : emailStr target.email with
    | none => exact .invalid hr hid ht hemail
    | some email =>
      have hvalid : (emailStr target.email).isSome := by simp [hemail]
      dsimp only
      by_cases hg : target.role = .admin
      · rw [if_pos hg, Tx.run_select, Backend.view_nil]
        by_cases hn : t.users.rows.countP (·.role = .admin) = 1
        · rw [if_pos hn, Tx.run_raise]
          exact .lastAdmin hr hid ht hvalid hg hn
        · rw [if_neg hn, deleteUserWrite_run hactor]
          exact .returns hr hid ht hvalid fun h => hn h.2
      · rw [if_neg hg, deleteUserWrite_run hactor]
        exact .returns hr hid ht hvalid fun h => hg h.1

end Validated.UserService

namespace PredictionService

variable {predictionId : String} {update : PredictionRelabel}

theorem relabelWrite_run {pred : Prediction}
    (hp : t.predictions.find? predictionId = some pred)
    (hactor : (t.users.find? actor.id).isSome) :
    ((relabelWrite g pred predictionId update actor).run postgres t none []).1 =
      .ok ⟨{ pred with relabeledClass := some update.relabeledClass },
        [PREDICTIONS_RECENT_KEY, batchKey pred.batchId, predictionsBatchKey pred.batchId]⟩ := by
  have hfind : (applyStmt (.relabel predictionId update.relabeledClass) t).predictions.find?
      predictionId = some { pred with relabeledClass := some update.relabeledClass } := by
    simp [applyStmt, Table.find?_modify, hp]
  have hactor' : checkStmt (.insertAuditLog (relabeled g pred predictionId update actor))
      (applyStmt (.relabel predictionId update.relabeledClass) t) = none := by
    simpa [relabeled, applyStmt] using hactor
  rw [relabelWrite, Tx.run_exec]
  simp only [postgres_check, Backend.view_nil, Backend.view_cons, List.nil_append, postgres_apply,
    checkStmt]
  rw [hfind]
  dsimp only
  rw [Tx.run_exec, Backend.view_cons, Backend.view_nil, postgres_check, postgres_apply, hactor']
  rfl

theorem relabel_denied (hr : actor.role ∉ [Role.admin, Role.reviewer]) (f : Fault Exn) :
    (relabel g predictionId update actor).run postgres t f [] =
      (.error (.permissionDenied "Only reviewers and admins can relabel"), t) := by
  rw [relabel_eq, if_pos hr, Tx.run_raise]

theorem relabel_fault (hr : actor.role ∈ [Role.admin, Role.reviewer]) (e : Exn) :
    (relabel g predictionId update actor).run postgres t (some (0, e)) [] = (.error e, t) := by
  rw [relabel_eq, if_neg (not_not.mpr hr)]
  rfl

/-- What `relabel` answers. -/
inductive RelabelAnswer (predictionId : String) (update : PredictionRelabel) (actor : User)
    (t : Tables) : Except Exn (Committed Prediction) → Prop
  | denied : actor.role ∉ [Role.admin, Role.reviewer] → RelabelAnswer predictionId update actor t
      (.error (.permissionDenied "Only reviewers and admins can relabel"))
  | notFound : actor.role ∈ [Role.admin, Role.reviewer] →
      t.predictions.find? predictionId = none →
      RelabelAnswer predictionId update actor t (.error (.notFound "Prediction not found"))
  | notAllowed {pred : Prediction} : t.predictions.find? predictionId = some pred →
      actor.role = .reviewer → pred.confidence ≥ 7 / 10 →
      RelabelAnswer predictionId update actor t (.error (.relabelNotAllowed
        "Reviewers can only relabel predictions with confidence < 0.7"))
  | returns {pred : Prediction} : actor.role ∈ [Role.admin, Role.reviewer] →
      t.predictions.find? predictionId = some pred →
      ¬ (actor.role = .reviewer ∧ pred.confidence ≥ 7 / 10) →
      RelabelAnswer predictionId update actor t
        (.ok ⟨{ pred with relabeledClass := some update.relabeledClass },
          [PREDICTIONS_RECENT_KEY, batchKey pred.batchId, predictionsBatchKey pred.batchId]⟩)

theorem relabel_answer (g : Gen) (predictionId : String) (update : PredictionRelabel)
    (hactor : (t.users.find? actor.id).isSome) : RelabelAnswer predictionId update actor t
      ((relabel g predictionId update actor).run postgres t none []).1 := by
  by_cases hr : actor.role ∈ [Role.admin, Role.reviewer]
  swap
  · rw [relabel_denied hr]
    exact .denied hr
  rw [relabel_eq, if_neg (not_not.mpr hr), Tx.run_select, Backend.view_nil]
  cases hp : t.predictions.find? predictionId with
  | none => exact .notFound hr hp
  | some pred =>
    dsimp only
    by_cases hg : actor.role = .reviewer ∧ pred.confidence ≥ 7 / 10
    · rw [if_pos hg, Tx.run_raise]
      exact .notAllowed hp hg.1 hg.2
    · rw [if_neg hg, relabelWrite_run hp hactor]
      exact .returns hr hp hg

end PredictionService

end DocClassifier
