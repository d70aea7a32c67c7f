import DocClassifier.Lib.TwoRuns
import DocClassifier.Queries
import DocClassifier.Rollback

/-!
# Passwords

Nothing but the column `users.hashed_password` depends on the passwords given to `create_user`.
`withoutHashes` blanks that column; every statement commutes with it, so blocks that differ only in
the rows they insert run alike.
-/

namespace DocClassifier
open ReadCommitted

/-! ## Tables without the column -/

def UserORM.withoutHash (u : UserORM) : UserORM := { u with hashedPassword := "" }

theorem UserORM.withoutHash_id (u : UserORM) : u.withoutHash.id = u.id := rfl

def Tables.withoutHashes (t : Tables) : Tables :=
  { t with users := t.users.map UserORM.withoutHash UserORM.withoutHash_id }

def Stmt.withoutHash : Stmt → Stmt
  | .insertUser u => .insertUser u.withoutHash
  | w => w

/-- Equal but for the hashes. -/
def SameTables (t t' : Tables) : Prop := t.withoutHashes = t'.withoutHashes

def SameStmt (w w' : Stmt) : Prop := w.withoutHash = w'.withoutHash

theorem rows_withoutHashes {t : Tables} :
    t.withoutHashes.users.rows = t.users.rows.map UserORM.withoutHash := rfl

theorem applyStmt_withoutHash (w : Stmt) (t : Tables) :
    (applyStmt w t).withoutHashes = applyStmt w.withoutHash t.withoutHashes := by
  cases w with
  | insertUser u =>
    simp only [applyStmt, Stmt.withoutHash, Tables.withoutHashes, Table.map_insert]
  | updateRole userId newRole =>
    have h : ∀ u : UserORM, UserORM.withoutHash { u with role := newRole } =
        { u.withoutHash with role := newRole } := fun _ => rfl
    simp only [applyStmt, Stmt.withoutHash, Tables.withoutHashes, Table.map_modify h]
  | deleteUser userId =>
    simp only [applyStmt, Stmt.withoutHash, Tables.withoutHashes, Table.map_erase]
  | insertBatch | updateStatus | insertPrediction | relabel | insertAuditLog => rfl

theorem find?_withoutHashes {t : Tables} {userId : String} :
    t.withoutHashes.users.find? userId = (t.users.find? userId).map UserORM.withoutHash := by
  rw [Tables.withoutHashes, Table.find?_map]

theorem checkStmt_withoutHash (w : Stmt) (t : Tables) :
    checkStmt w.withoutHash t.withoutHashes = checkStmt w t := by
  cases w with
  | insertUser u =>
    have hemail : (∃ v ∈ t.withoutHashes.users.rows, v.email = u.email) ↔
        ∃ v ∈ t.users.rows, v.email = u.email := by
      simp only [rows_withoutHashes, List.mem_map, exists_exists_and_eq_and]
      rfl
    simp only [checkStmt, Stmt.withoutHash, find?_withoutHashes, Option.isSome_map,
      UserORM.withoutHash, hemail]
  | insertAuditLog e =>
    simp only [checkStmt, Stmt.withoutHash, find?_withoutHashes, Option.isNone_map]
  | updateRole | deleteUser | insertBatch | updateStatus | insertPrediction | relabel => rfl

theorem postgres_respects : postgres.Respects SameTables SameStmt where
  apply {w w' t t'} hw ht := by
    change (applyStmt w t).withoutHashes = (applyStmt w' t').withoutHashes
    rw [applyStmt_withoutHash, applyStmt_withoutHash, hw, ht]
  check {w w' t t'} hw ht := by
    change checkStmt w t = checkStmt w' t'
    rw [← checkStmt_withoutHash w t, ← checkStmt_withoutHash w' t', hw, ht]

/-! ## Queries -/

/-- A query that does not read the column. -/
def Blind {α : Type} (q : Tables → α) : Prop := ∀ t, q t.withoutHashes = q t

theorem Blind.same {α : Type} {q : Tables → α} (hq : Blind q) {t t' : Tables}
    (h : SameTables t t') : q t = q t' := by
  rw [← hq t, ← hq t', h]

theorem blind_getById (userId : String) :
    Blind fun t => (t.users.find? userId).map (·.toUser) := by
  intro t
  simp only [find?_withoutHashes, Option.map_map]
  rfl

theorem blind_countByRole (role : Role) : Blind fun t => t.users.rows.countP (·.role = role) := by
  intro t
  simp only [rows_withoutHashes, List.countP_map]
  rfl

theorem blind_listAll (limit offset : Nat) : Blind fun t =>
    (((orderByCreatedAtDesc (·.createdAt) t.users.rows).drop offset).take limit).map
      (·.toUser) := by
  intro t
  have hsort : orderByCreatedAtDesc (·.createdAt) (t.users.rows.map UserORM.withoutHash) =
      (orderByCreatedAtDesc (·.createdAt) t.users.rows).map UserORM.withoutHash :=
    (List.map_insertionSort _ _ UserORM.withoutHash _ fun _ _ _ _ => Iff.rfl).symm
  simp only [rows_withoutHashes, hsort, ← List.map_drop, ← List.map_take,
    List.map_map]
  rfl

theorem blind_listRecent (limit : Nat) :
    Blind fun t => (orderByCreatedAtDesc (·.timestamp) t.auditLogs).take limit := fun _ => rfl

/-! ## Calls -/

def UserCreate.withoutPassword (data : UserCreate) : UserCreate := { data with password := "" }

/-- A call of a method of `UserService`, or a read of the audit log. -/
inductive UserCall where
  | createUser (data : UserCreate) (actor : User)
  | changeRole (targetUserId : String) (update : UserRoleUpdate) (actor : User)
  | deleteUser (targetUserId : String) (actor : User)
  | getMe (userId : String)
  | listUsers (actor : User) (skip limit : Nat)
  | listRecent (limit : Nat)

/-- What a call returns. -/
inductive Returned where
  | user (u : User)
  | users (us : List User)
  | logs (es : List AuditLog)
  | none
  deriving DecidableEq

def UserCall.withoutPassword : UserCall → UserCall
  | .createUser data actor => .createUser data.withoutPassword actor
  | c => c

def UserCall.block (hashPassword : String → String) (g : Gen) :
    UserCall → Block (Committed Returned)
  | .createUser data actor =>
    UserService.createUser hashPassword g data actor >>= fun c => pure ⟨.user c.result, c.deletes⟩
  | .changeRole targetUserId update actor =>
    UserService.changeRole g targetUserId update actor >>= fun c =>
      pure ⟨.user c.result, c.deletes⟩
  | .deleteUser targetUserId actor =>
    UserService.deleteUser g targetUserId actor >>= fun c => pure ⟨.none, c.deletes⟩
  | .getMe userId => UserService.getMe userId >>= fun u => pure ⟨.user u, []⟩
  | .listUsers actor skip limit =>
    UserService.listUsers actor skip limit >>= fun us => pure ⟨.users us, []⟩
  | .listRecent limit => AuditService.listRecent limit >>= fun es => pure ⟨.logs es, []⟩

/-- A call with what it generates, the fault of its transaction and the fault of its deletions. -/
structure UserStep where
  call : UserCall
  gen : Gen
  fault : Fault Exn := none
  cacheFault : Fault Exn := none

def UserStep.withoutPassword (s : UserStep) : UserStep :=
  { s with call := s.call.withoutPassword }

/-- The keys that are deleted before the first failure. -/
def deletedKeys : Fault Exn → List String → List String
  | none, keys => keys
  | some (n, _), keys => keys.take n

/-- What a caller sees of a call: its value or exception, and the deleted cache keys. -/
structure Observed where
  answer : Except Exn Returned
  deleted : List String

def UserStep.serve (hashPassword : String → String) (t : Tables) (s : UserStep) :
    Observed × Tables :=
  match (s.call.block hashPassword s.gen).run postgres t s.fault [] with
  | (.error e, t') => (⟨.error e, []⟩, t')
  | (.ok c, t') =>
    (⟨(deleteKeys s.cacheFault c.deletes).map fun _ => c.result,
      deletedKeys s.cacheFault c.deletes⟩, t')

/-- The calls one after the other: what each shows, and the tables at the end. -/
def serveUsers (hashPassword : String → String) (t : Tables) :
    List UserStep → List Observed × Tables
  | [] => ([], t)
  | s :: steps =>
    let (o, t) := s.serve hashPassword t
    let (os, t) := serveUsers hashPassword t steps
    (o :: os, t)

/-! ## Two runs -/

section
variable {hashPassword hashPassword' : String → String} {g : Gen}

theorem SameTables.find? {t t' : Tables} (h : SameTables t t') (userId : String) :
    (t.users.find? userId).map UserORM.withoutHash =
      (t'.users.find? userId).map UserORM.withoutHash := by
  rw [← find?_withoutHashes, ← find?_withoutHashes, h]

/-- Two alike tables have both no user with the id, or users that differ in the hash only. -/
theorem SameTables.find?_cases {t t' : Tables} (h : SameTables t t') (userId : String) :
    (t.users.find? userId = none ∧ t'.users.find? userId = none) ∨
      ∃ target target', t.users.find? userId = some target ∧
        t'.users.find? userId = some target' ∧ target.email = target'.email ∧
          target.role = target'.role := by
  have hfind := h.find? userId
  cases hu : t.users.find? userId with
  | none =>
    rw [hu] at hfind
    exact .inl ⟨rfl, Option.map_eq_none_iff.1 hfind.symm⟩
  | some target =>
    rw [hu] at hfind
    obtain ⟨target', hu', hsame⟩ := Option.map_eq_some_iff.1 hfind.symm
    have hemail := congrArg (fun u : UserORM => u.email) hsame
    have hrole := congrArg (fun u : UserORM => u.role) hsame
    exact .inr ⟨target, target', rfl, hu', hemail.symm, hrole.symm⟩

theorem alike_createUser {data data' : UserCreate} {actor : User}
    (h : data.withoutPassword = data'.withoutPassword) :
    Tx.Alike SameTables SameStmt (UserService.createUser hashPassword g data actor)
      (UserService.createUser hashPassword' g data' actor) := by
  obtain ⟨email, password, role⟩ := data
  obtain ⟨email', password', role'⟩ := data'
  cases h
  rw [UserService.createUser_eq, UserService.createUser_eq]
  split
  · exact .raise
  · exact .exec rfl fun _ _ _ => .exec rfl fun _ _ _ => .ret

theorem alike_changeRoleWrite {userId : String} {old new : Role} {actor : User} :
    Tx.Alike SameTables SameStmt (UserService.changeRoleWrite g userId old new actor)
      (UserService.changeRoleWrite g userId old new actor) := by
  refine .exec rfl fun t t' ht => ?_
  rw [(blind_getById userId).same ht]
  split
  · exact .raise
  · exact .exec rfl fun _ _ _ => .ret

theorem alike_changeRole {userId : String} {update : UserRoleUpdate} {actor : User} :
    Tx.Alike SameTables SameStmt (UserService.changeRole g userId update actor)
      (UserService.changeRole g userId update actor) := by
  rw [UserService.changeRole_eq]
  split
  · exact .raise
  · refine .select fun t t' ht => ?_
    rcases ht.find?_cases userId with ⟨h, h'⟩ | ⟨target, target', h, h', -, hrole⟩
    · rw [h, h']
      exact .raise
    · rw [h, h']
      simp only [hrole]
      split
      · refine .select fun u u' hu => ?_
        rw [(blind_countByRole .admin).same hu]
        split
        · exact .raise
        · exact alike_changeRoleWrite
      · exact alike_changeRoleWrite

theorem alike_deleteUserWrite {userId : String} {actor : User} {target target' : UserORM}
    (hemail : target.email = target'.email) (hrole : target.role = target'.role) :
    Tx.Alike SameTables SameStmt (UserService.deleteUserWrite g target userId actor)
      (UserService.deleteUserWrite g target' userId actor) := by
  rw [UserService.deleteUserWrite, UserService.deleteUserWrite, UserService.userDeleted,
    UserService.userDeleted, hemail, hrole]
  exact .exec rfl fun _ _ _ => .exec rfl fun _ _ _ => .ret

theorem alike_deleteUser {userId : String} {actor : User} :
    Tx.Alike SameTables SameStmt (UserService.deleteUser g userId actor)
      (UserService.deleteUser g userId actor) := by
  rw [UserService.deleteUser_eq]
  split
  · exact .raise
  · split
    · exact .raise
    · refine .select fun t t' ht => ?_
      rcases ht.find?_cases userId with ⟨h, h'⟩ | ⟨target, target', h, h', hemail, hrole⟩
      · rw [h, h']
        exact .raise
      · rw [h, h']
        simp only [hrole]
        split
        · refine .select fun u u' hu => ?_
          rw [(blind_countByRole .admin).same hu]
          split
          · exact .raise
          · exact alike_deleteUserWrite hemail hrole
        · exact alike_deleteUserWrite hemail hrole

theorem alike_getMe {userId : String} : Tx.Alike SameTables SameStmt (UserService.getMe userId)
    (UserService.getMe userId) := by
  refine .bind (.query fun _ _ => (blind_getById userId).same) fun user? => ?_
  cases user? with
  | none => exact .raise
  | some user => exact .ret

theorem alike_listUsers {actor : User} {skip limit : Nat} :
    Tx.Alike SameTables SameStmt (UserService.listUsers actor skip limit)
      (UserService.listUsers actor skip limit) := by
  rw [UserService.listUsers]
  split
  · exact .raise
  · exact .query fun _ _ => (blind_listAll limit skip).same

theorem UserCall.eq_or_createUser {c c' : UserCall} (h : c.withoutPassword = c'.withoutPassword) :
    c = c' ∨ ∃ data data' actor, c = .createUser data actor ∧ c' = .createUser data' actor ∧
      data.withoutPassword = data'.withoutPassword := by
  cases c with
  | createUser data actor =>
    cases c' with
    | createUser data' actor' =>
      obtain ⟨hdata, rfl⟩ := UserCall.createUser.inj h
      exact .inr ⟨data, data', actor, rfl, rfl, hdata⟩
    | changeRole | deleteUser | getMe | listUsers | listRecent => cases h
  | changeRole | deleteUser | getMe | listUsers | listRecent =>
    cases c' with
    | createUser => cases h
    | changeRole | deleteUser | getMe | listUsers | listRecent => exact .inl h

/-- Calls that differ in their passwords only issue the same statements up to the hashes. -/
theorem UserCall.alike {c c' : UserCall} (h : c.withoutPassword = c'.withoutPassword) :
    Tx.Alike SameTables SameStmt (c.block hashPassword g) (c'.block hashPassword' g) := by
  rcases UserCall.eq_or_createUser h with rfl | ⟨data, data', actor, rfl, rfl, hdata⟩
  · cases c with
    | createUser data actor => exact .bind (alike_createUser rfl) fun _ => .ret
    | changeRole => exact .bind alike_changeRole fun _ => .ret
    | deleteUser => exact .bind alike_deleteUser fun _ => .ret
    | getMe => exact .bind alike_getMe fun _ => .ret
    | listUsers => exact .bind alike_listUsers fun _ => .ret
    | listRecent limit =>
      exact .bind (.query fun _ _ => (blind_listRecent limit).same) fun _ => .ret
  · exact .bind (alike_createUser hdata) fun _ => .ret

theorem UserStep.serve_alike {s s' : UserStep} {t t' : Tables}
    (h : s.withoutPassword = s'.withoutPassword) (ht : SameTables t t') :
    (s.serve hashPassword t).1 = (s'.serve hashPassword' t').1 ∧
      SameTables (s.serve hashPassword t).2 (s'.serve hashPassword' t').2 := by
  obtain ⟨call, gen, fault, cacheFault⟩ := s
  obtain ⟨call', gen', fault', cacheFault'⟩ := s'
  obtain ⟨hcall, rfl, rfl, rfl⟩ := UserStep.mk.inj h
  have halike : Tx.Alike SameTables SameStmt (call.block hashPassword gen)
      (call'.block hashPassword' gen) := UserCall.alike hcall
  obtain ⟨hans, htab⟩ := halike.run postgres_respects ht fault .nil
  revert hans htab
  simp only [UserStep.serve]
  rcases (call.block hashPassword gen).run postgres t fault [] with ⟨r, u⟩
  rcases (call'.block hashPassword' gen).run postgres t' fault [] with ⟨r', u'⟩
  rintro rfl htab
  cases r with
  | error e => exact ⟨rfl, htab⟩
  | ok c => exact ⟨rfl, htab⟩

theorem serveUsers_alike {steps steps' : List UserStep} {t t' : Tables}
    (h : steps.map UserStep.withoutPassword = steps'.map UserStep.withoutPassword)
    (ht : SameTables t t') :
    (serveUsers hashPassword t steps).1 = (serveUsers hashPassword' t' steps').1 ∧
      SameTables (serveUsers hashPassword t steps).2 (serveUsers hashPassword' t' steps').2 := by
  induction steps generalizing steps' t t' with
  | nil =>
    rw [List.map_nil] at h
    rw [List.map_eq_nil_iff.1 h.symm]
    exact ⟨rfl, ht⟩
  | cons s steps ih =>
    cases steps' with
    | nil => cases h
    | cons s' steps' =>
      rw [List.map_cons, List.map_cons] at h
      obtain ⟨hs, hsteps⟩ := List.cons.inj h
      obtain ⟨ho, ht'⟩ := @UserStep.serve_alike hashPassword hashPassword' _ _ _ _ hs ht
      obtain ⟨hos, hend⟩ := ih hsteps ht'
      exact ⟨congrArg₂ List.cons ho hos, hend⟩

/-! ## The stored hashes -/

/-- The service call that a mutating call is. -/
def UserCall.mutation (hashPassword : String → String) : UserCall → Option Call
  | .createUser data actor => some (.createUser hashPassword data actor)
  | .changeRole targetUserId update actor => some (.changeRole targetUserId update actor)
  | .deleteUser targetUserId actor => some (.deleteUser targetUserId actor)
  | .getMe .. | .listUsers .. | .listRecent .. => none

theorem UserStep.serve_tables (s : UserStep) (t : Tables) : (s.serve hashPassword t).2 =
    match s.call.mutation hashPassword with
    | some c => c.serve s.gen s.fault t
    | none => t := by
  have h : (s.serve hashPassword t).2 =
      ((s.call.block hashPassword s.gen).run postgres t s.fault []).2 := by
    rw [UserStep.serve]
    split
    · rename_i hrun
      rw [hrun]
    · rename_i hrun
      rw [hrun]
  rw [h]
  cases hc : s.call with
  | createUser | changeRole | deleteUser =>
    simp only [UserCall.block, UserCall.mutation, Tx.run_map, Call.serve]
  | getMe userId =>
    simp only [UserCall.block, UserCall.mutation, Tx.run_map]
    exact Query.serve_eq (.getMe userId) s.fault t
  | listUsers actor skip limit =>
    simp only [UserCall.block, UserCall.mutation, Tx.run_map]
    exact Query.serve_eq (.listUsers actor skip limit) s.fault t
  | listRecent limit =>
    simp only [UserCall.block, UserCall.mutation, Tx.run_map]
    exact Query.serve_eq (.listAuditLogs limit) s.fault t

/-- The stored hash is that of the password given to the call that created the user. -/
def Hashed (hashPassword : String → String) (steps : List UserStep) (u : UserORM) : Prop :=
  ∃ s ∈ steps, ∃ data actor, s.call = .createUser data actor ∧ u.id = s.gen.uuid ∧
    u.email = data.email ∧ u.hashedPassword = hashPassword data.password

/-- A row that was there before, with the same email and hash. -/
def Inherited (t : Tables) (u : UserORM) : Prop :=
  ∃ v ∈ t.users.rows, v.id = u.id ∧ v.email = u.email ∧ v.hashedPassword = u.hashedPassword

/-- One call: a row is inherited, or it is the one that `create_user` has just inserted. -/
theorem UserStep.serve_rows (s : UserStep) (t : Tables) :
    ∀ u ∈ (s.serve hashPassword t).2.users.rows, Inherited t u ∨ Hashed hashPassword [s] u := by
  intro u hu
  rw [UserStep.serve_tables] at hu
  cases hc : s.call.mutation hashPassword with
  | none =>
    rw [hc] at hu
    exact .inl ⟨u, hu, rfl, rfl, rfl⟩
  | some c =>
    rw [hc] at hu
    dsimp only at hu
    rcases c.serve_cases s.gen s.fault t with h | ⟨keys, hdone⟩
    · rw [h] at hu
      exact .inl ⟨u, hu, rfl, rfl, rfl⟩
    · generalize c.serve s.gen s.fault t = t' at hu hdone
      cases hdone with
      | @createUser hp data actor _ hid _ =>
        rw [Table.rows_insert hid] at hu
        rcases List.mem_append.1 hu with hu | hu
        · exact .inl ⟨u, hu, rfl, rfl, rfl⟩
        · rw [List.mem_singleton.1 hu]
          cases hcall : s.call with
          | createUser data' actor' =>
            rw [hcall] at hc
            obtain ⟨rfl, rfl, rfl⟩ := Call.createUser.inj (Option.some.inj hc)
            exact .inr ⟨s, List.mem_singleton_self s, _, _, hcall, rfl, rfl, rfl⟩
          | changeRole | deleteUser | getMe | listUsers | listRecent =>
            rw [hcall] at hc
            cases hc
      | changeRole =>
        obtain ⟨v, hv, rfl⟩ := List.mem_map.1 hu
        refine .inl ⟨v, hv, ?_⟩
        split <;> exact ⟨rfl, rfl, rfl⟩
      | deleteUser => exact .inl ⟨u, (List.mem_filter.1 hu).1, rfl, rfl, rfl⟩
      | createBatch | transition | savePrediction | relabel => exact .inl ⟨u, hu, rfl, rfl, rfl⟩

theorem serveUsers_rows (steps : List UserStep) (t : Tables) :
    ∀ u ∈ (serveUsers hashPassword t steps).2.users.rows,
      Inherited t u ∨ Hashed hashPassword steps u := by
  induction steps generalizing t with
  | nil => exact fun u hu => .inl ⟨u, hu, rfl, rfl, rfl⟩
  | cons s steps ih =>
    intro u hu
    rcases ih (s.serve hashPassword t).2 u hu with ⟨v, hv, hid, hemail, hhash⟩ | h
    · rcases s.serve_rows t v hv with ⟨w, hw, hid', hemail', hhash'⟩ | h
      · exact .inl ⟨w, hw, hid'.trans hid, hemail'.trans hemail, hhash'.trans hhash⟩
      · obtain ⟨s', hs', data, actor, hcall, hid', hemail', hhash'⟩ := h
        rw [List.mem_singleton.1 hs'] at hcall hid'
        exact .inr ⟨s, List.mem_cons_self, data, actor, hcall, hid ▸ hid', hemail ▸ hemail',
          hhash ▸ hhash'⟩
    · obtain ⟨s', hs', h⟩ := h
      exact .inr ⟨s', List.mem_cons_of_mem _ hs', h⟩

end

/-- Two serial runs that differ in the passwords only show the same and leave the same tables but
for the hashes, and every hash is that of the password with which its user was created. -/
theorem passwords_do_not_leak (hashPassword : String → String) (t : Tables)
    (steps steps' : List UserStep)
    (h : steps.map UserStep.withoutPassword = steps'.map UserStep.withoutPassword) :
    (serveUsers hashPassword t steps).1 = (serveUsers hashPassword t steps').1 ∧
      (serveUsers hashPassword t steps).2.withoutHashes =
        (serveUsers hashPassword t steps').2.withoutHashes ∧
      ∀ u ∈ (serveUsers hashPassword t steps).2.users.rows,
        Inherited t u ∨ Hashed hashPassword steps u := by
  have halike : (serveUsers hashPassword t steps).1 = (serveUsers hashPassword t steps').1 ∧
      SameTables (serveUsers hashPassword t steps).2 (serveUsers hashPassword t steps').2 :=
    serveUsers_alike h rfl
  exact ⟨halike.1, halike.2, serveUsers_rows steps t⟩

private def createAndList (password : String) : List UserStep :=
  [{ call := .createUser { email := "bob@x", password } ⟨"ada", "ada@x", .admin, true, 0⟩,
     gen := { uuid := "bob", now := 1 } },
   { call := .listUsers ⟨"ada", "ada@x", .admin, true, 0⟩ 0 20,
     gen := { uuid := "unused", now := 2 } }]

/-- Bob's password is seen in no answer, and in the column. -/
theorem passwords_do_not_leak_bob :
    (serveUsers ("argon2:" ++ ·) oneAdmin (createAndList "one")).1 =
        (serveUsers ("argon2:" ++ ·) oneAdmin (createAndList "two")).1 ∧
      (serveUsers ("argon2:" ++ ·) oneAdmin (createAndList "one")).2.users.rows.map
        (·.hashedPassword) = ["", "argon2:one"] :=
  ⟨(passwords_do_not_leak ("argon2:" ++ ·) oneAdmin (createAndList "one") (createAndList "two")
    rfl).1, by decide⟩

end DocClassifier
