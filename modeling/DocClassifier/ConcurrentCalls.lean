import DocClassifier.RelabelHistory
import DocClassifier.Lib.ProofOutline

/-!
# Service calls that run at the same time

Any number of calls of the nine mutating methods share the database under READ COMMITTED. They do
not behave like calls one after the other: two admins may demote each other, because each of them
has counted the admins before the other one commits. What they write takes effect at once, at the
commit, and `Call.Lands` says what a call does there and what it has read before
(`concurrent_calls_land`). The row that is written, the batch of a new prediction and the confidence
of a relabeled one are those at the commit. The other reads lock nothing, and may have been answered
from an earlier version of the tables: the count of the admins, the role and the status that the
audit entry names as the old ones, the deleted user, the emails in use. `Call.Lands` without earlier
versions is `Call.Done`.
-/

namespace DocClassifier
open ReadCommitted Transition

/-- More than one admin, or none. The guard of the last admin asks for it. -/
def Tables.NotOneAdmin (t : Tables) : Prop := t.users.rows.countP (·.role = .admin) ≠ 1

/-- `Lands g v c keys t'`: the call `c` commits on `v.db`, which gives `t'`, and `keys` are deleted
afterwards. What it has read and not locked is of `v.db` or of an earlier version. -/
inductive Call.Lands (g : Gen) (v : Timeline Tables) : Call → List String → Tables → Prop
  | createUser {hashPassword : String → String} {data : UserCreate} {actor : User} :
      actor.role = .admin → v.db.users.find? g.uuid = none →
      v.Had (fun t => ∀ u ∈ t.users.rows, u.email ≠ data.email) →
      Lands g v (.createUser hashPassword data actor) [USERS_LIST_KEY]
        { v.db with
          users := v.db.users.insert (UserService.newUser hashPassword g data)
          auditLogs := v.db.auditLogs ++ [UserService.userCreate g data actor] }
  | changeRole {userId : String} {update : UserRoleUpdate} {actor : User} {target : UserORM} :
      actor.role = .admin → (v.db.users.find? userId).isSome →
      v.Had (fun t => t.users.find? userId = some target) →
      (target.role = .admin → update.role ≠ .admin → v.Had Tables.NotOneAdmin) →
      Lands g v (.changeRole userId update actor) [userMeKey userId, USERS_LIST_KEY]
        { v.db with
          users := v.db.users.modify userId (fun u => { u with role := update.role }) fun _ => rfl
          auditLogs := v.db.auditLogs ++
            [UserService.roleChange g userId target.role update.role actor] }
  | deleteUser {userId : String} {actor : User} {target : UserORM} :
      actor.role = .admin → userId ≠ actor.id →
      v.Had (fun t => t.users.find? userId = some target) →
      (target.role = .admin → v.Had Tables.NotOneAdmin) →
      Lands g v (.deleteUser userId actor) [userMeKey userId, USERS_LIST_KEY]
        { v.db with
          users := v.db.users.erase userId
          auditLogs := (v.db.auditLogs ++ [UserService.userDeleted g target userId actor]).map
            (·.setNull userId) }
  | createBatch {data : Option BatchCreate} {actor : Option User} {d : BatchCreate} :
      d = data.getD { id := g.uuid } → v.db.batches.find? d.id = none →
      Lands g v (.createBatch data actor) [BATCHES_LIST_KEY]
        { v.db with
          batches := v.db.batches.insert (BatchService.newBatch g d)
          auditLogs := v.db.auditLogs ++ [BatchService.batchCreated g d actor] }
  | transition {c : Call} {batchId : String} {newStatus : BatchStatus}
      {allowed : List BatchStatus} {batch : Batch} :
      c.transition? = some (batchId, newStatus, allowed) →
      (v.db.batches.find? batchId).isSome →
      v.Had (fun t => t.batches.find? batchId = some batch) → batch.status ∈ allowed →
      Lands g v c [batchKey batchId, BATCHES_LIST_KEY]
        { v.db with
          batches :=
            v.db.batches.modify batchId (fun b => { b with status := newStatus }) fun _ => rfl
          auditLogs := v.db.auditLogs ++
            [BatchService.stateChange g batchId batch.status newStatus] }
  | savePrediction {batchId : String} {data : PredictionCreate} :
      v.db.predictions.find? g.uuid = none → (v.db.batches.find? batchId).isSome →
      Lands g v (.savePrediction batchId data)
        [PREDICTIONS_RECENT_KEY, batchKey batchId, predictionsBatchKey batchId]
        { v.db with
          predictions := v.db.predictions.insert (PredictionService.newPrediction g batchId data) }
  | relabel {predictionId : String} {update : PredictionRelabel} {actor : User}
      {pred : Prediction} : actor.role ∈ [Role.admin, Role.reviewer] →
      v.db.predictions.find? predictionId = some pred →
      ¬ (actor.role = .reviewer ∧ pred.confidence ≥ 7 / 10) →
      Lands g v (.relabel predictionId update actor)
        [PREDICTIONS_RECENT_KEY, batchKey pred.batchId, predictionsBatchKey pred.batchId]
        { v.db with
          predictions := v.db.predictions.modify predictionId
            (fun p => { p with relabeledClass := some update.relabeledClass }) fun _ => rfl
          auditLogs := v.db.auditLogs ++
            [PredictionService.relabeled g pred predictionId update actor] }

/-- A call that reads everything at its commit does what a call does alone. -/
theorem Call.lands_iff_done {g : Gen} {t t' : Tables} {c : Call} {keys : List String} :
    c.Lands g ⟨t, []⟩ keys t' ↔ c.Done g t keys t' := by
  constructor
  · intro h
    cases h with
    | createUser hr hid hemail => exact .createUser hr hid hemail.of_nil
    | changeRole hr _ htarget hlast =>
      refine .changeRole hr htarget.of_nil fun ⟨hadmin, hne, hone⟩ => ?_
      exact (hlast hadmin hne).of_nil hone
    | deleteUser hr hne htarget hlast =>
      refine .deleteUser hr hne htarget.of_nil fun ⟨hadmin, hone⟩ => ?_
      exact (hlast hadmin).of_nil hone
    | createBatch hd hid => exact .createBatch hd hid
    | transition htr _ hb hallowed => exact .transition htr hb.of_nil hallowed
    | savePrediction hid hb => exact .savePrediction hid hb
    | relabel hr hp hconf => exact .relabel hr hp hconf
  · intro h
    cases h with
    | createUser hr hid hemail => exact .createUser hr hid (.now hemail)
    | changeRole hr htarget hlast =>
      refine .changeRole hr (Option.isSome_of_eq_some htarget) (.now htarget) fun hadmin hne => ?_
      exact .now fun hone => hlast ⟨hadmin, hne, hone⟩
    | deleteUser hr hne htarget hlast =>
      exact .deleteUser hr hne (.now htarget) fun hadmin => .now fun hone => hlast ⟨hadmin, hone⟩
    | createBatch hd hid => exact .createBatch hd hid
    | transition htr hb hallowed =>
      exact .transition htr (Option.isSome_of_eq_some hb) (.now hb) hallowed
    | savePrediction hid hb => exact .savePrediction hid hb
    | relabel hr hp hconf => exact .relabel hr hp hconf

/-! ## What the other calls leave alone -/

/-- The prediction as it was created. -/
def Prediction.unlabeled (p : Prediction) : Prediction := { p with relabeledClass := none }

/-- What does not change in a row of `batches`, apart from the id. -/
def Batch.fixed (b : Batch) : Nat × Nat := (b.fileCount, b.createdAt)

/-- Batches and predictions stay, and only the status and the label of a row change. -/
structure KeepsRows (t t' : Tables) : Prop where
  batches : ∀ id b, t.batches.find? id = some b →
    ∃ b', t'.batches.find? id = some b' ∧ b'.fixed = b.fixed
  predictions : ∀ id p, t.predictions.find? id = some p →
    ∃ p', t'.predictions.find? id = some p' ∧ p'.unlabeled = p.unlabeled

section
variable {g : Gen} {t t' : Tables} {c : Call} {keys : List String} {ws : List Stmt} {w : Stmt}

theorem KeepsRows.of_eq (hb : t'.batches = t.batches) (hp : t'.predictions = t.predictions) :
    KeepsRows t t' := ⟨fun _ b h => ⟨b, hb ▸ h, rfl⟩, fun _ p h => ⟨p, hp ▸ h, rfl⟩⟩

theorem KeepsRows.refl : KeepsRows t t := .of_eq rfl rfl

theorem KeepsRows.trans {t'' : Tables} (h : KeepsRows t t') (h' : KeepsRows t' t'') :
    KeepsRows t t'' := by
  refine ⟨fun id b hb => ?_, fun id p hp => ?_⟩
  · obtain ⟨b', hb', heq⟩ := h.batches id b hb
    obtain ⟨b'', hb'', heq'⟩ := h'.batches id b' hb'
    exact ⟨b'', hb'', heq'.trans heq⟩
  · obtain ⟨p', hp', heq⟩ := h.predictions id p hp
    obtain ⟨p'', hp'', heq'⟩ := h'.predictions id p' hp'
    exact ⟨p'', hp'', heq'.trans heq⟩

theorem Call.Lands.keepsRows {v : Timeline Tables} (h : c.Lands g v keys t') :
    KeepsRows v.db t' := by
  cases h with
  | createUser | changeRole | deleteUser => exact .of_eq rfl rfl
  | createBatch =>
    exact ⟨fun id b h => ⟨b, Table.find?_insert_of_some h, rfl⟩, fun _ p h => ⟨p, h, rfl⟩⟩
  | transition =>
    refine ⟨fun id b h => ?_, fun _ p h => ⟨p, h, rfl⟩⟩
    rw [Table.find?_modify, h]
    split
    · exact ⟨_, rfl, rfl⟩
    · exact ⟨b, rfl, rfl⟩
  | savePrediction =>
    exact ⟨fun _ b h => ⟨b, h, rfl⟩, fun id p h => ⟨p, Table.find?_insert_of_some h, rfl⟩⟩
  | relabel =>
    refine ⟨fun _ b h => ⟨b, h, rfl⟩, fun id p h => ?_⟩
    rw [Table.find?_modify, h]
    split
    · exact ⟨_, rfl, rfl⟩
    · exact ⟨p, rfl, rfl⟩

/-- The row `k` has not changed. -/
def SameRow (t t' : Tables) : Row → Prop
  | .user id => t'.users.find? id = t.users.find? id
  | .batch id => t'.batches.find? id = t.batches.find? id
  | .prediction id => t'.predictions.find? id = t.predictions.find? id

theorem SameRow.refl (k : Row) : SameRow t t k := by cases k <;> rfl

theorem SameRow.trans {t'' : Tables} {k : Row} (h : SameRow t t' k) (h' : SameRow t' t'' k) :
    SameRow t t'' k := by
  cases k with
  | user | batch | prediction => exact Eq.trans h' h

/-- A write changes the row that it locks and no other. -/
theorem sameRow_apply {k : Row} (h : rowStmt w ≠ some k) : SameRow t (applyStmt w t) k := by
  cases w with
  | insertAuditLog => cases k <;> rfl
  | insertUser | insertBatch | insertPrediction =>
    cases k with
    | user | batch | prediction =>
      first
      | rfl
      | exact Table.find?_insert_of_ne fun heq => h (by simp [rowStmt, heq])
  | updateRole | updateStatus | relabel =>
    cases k with
    | user | batch | prediction =>
      first
      | rfl
      | rw [SameRow, applyStmt, Table.find?_modify_of_ne]
        exact fun heq => h (by simp [rowStmt, heq])
  | deleteUser =>
    cases k with
    | user => exact Table.find?_erase_of_ne fun heq => h (by simp [rowStmt, heq])
    | batch | prediction => rfl

theorem sameRow_view {k : Row} (h : ∀ w ∈ ws, rowStmt w ≠ some k) :
    SameRow t (postgres.view t ws) k := by
  induction ws generalizing t with
  | nil => exact .refl k
  | cons w ws ih =>
    exact (sameRow_apply (h w List.mem_cons_self)).trans
      (ih fun w' hw => h w' (List.mem_cons_of_mem _ hw))

/-- What every commit keeps to. -/
def Keeps (t : Tables) (ws : List Stmt) : Prop := KeepsRows t (postgres.view t ws)

/-- A locked row does not change. -/
theorem stable_sameRow {k : Row} (hw : w ∈ ws) (hk : rowStmt w = some k) :
    postgres.Stable Keeps ws fun v => SameRow t v.db k := by
  intro v ws' _ hapart h
  exact h.trans (sameRow_view fun w' hw' hk' => hapart w hw w' hw' k hk hk')

theorem stable_keepsRows : postgres.Stable Keeps ws fun v => KeepsRows t v.db :=
  .of_guarantee fun _ _ hG h => h.trans hG

end

/-! ## The outline of each method -/

/-- A method of the call `c` may commit the writes `ws` on `v.db` and answer with `cm`. -/
def Call.Landing {α : Type} (g : Gen) (c : Call) (v : Timeline Tables) (ws : List Stmt)
    (cm : Committed α) : Prop :=
  c.Lands g v cm.deletes (postgres.view v.db ws)

/-- What a session knows that knew `φ` when it wrote the row `k` on the tables `t`. -/
structure Since (φ : Timeline Tables → Prop) (t : Tables) (k : Row) (v : Timeline Tables) :
    Prop where
  row : SameRow t v.db k
  keeps : KeepsRows t v.db
  known : φ v

section
variable {α : Type} {g : Gen} {c : Call} {ws : List Stmt} {φ : Timeline Tables → Prop} {w : Stmt}
  {cm : Committed α} {e : AuditLog} {actor : User} {t : Tables} {k : Row}

theorem stable_since (hφ : postgres.Stable Keeps [] φ) (hw : w ∈ ws) (hk : rowStmt w = some k) :
    postgres.Stable Keeps ws (Since φ t k) := fun v ws' hG hws h =>
  ⟨stable_sameRow hw hk v ws' hG hws h.row, h.keeps.trans hG,
    hφ.append ws v ws' hG hws h.known⟩

theorem outline_ret (h : ∀ v, φ v → c.Landing g v ws cm) :
    (Tx.ret cm : Block (Committed α)).Outline postgres Keeps (c.Landing g) ws φ :=
  fun v hv => ⟨(h v hv).keepsRows, h v hv⟩

/-- The audit entry comes last. -/
theorem outline_audit (hφ : postgres.Stable Keeps ws φ)
    (h : ∀ v, φ v → c.Landing g v (ws ++ [.insertAuditLog e]) cm) :
    (Tx.exec (.insertAuditLog e) fun _ => .ret cm : Block (Committed α)).Outline postgres Keeps
      (c.Landing g) ws φ :=
  .exec hφ fun _ _ _ => outline_ret h

/-- A write of one row, which stays locked until the commit. -/
theorem outline_write {cont : Tables → Block (Committed α)} (hφ : postgres.Stable Keeps [] φ)
    (hk : rowStmt w = some k)
    (h : ∀ v, φ v → checkStmt w v.db = none →
      (cont (applyStmt w v.db)).Outline postgres Keeps (c.Landing g) [w] (Since φ v.db k)) :
    (Tx.exec w cont).Outline postgres Keeps (c.Landing g) [] φ := fun v hv hc =>
  ⟨Since φ v.db k, stable_since hφ List.mem_cons_self hk, ⟨.refl k, .refl, hv⟩, h v hv hc⟩

/-- The INSERT of a user whose email is new. -/
theorem outline_createUser {hashPassword : String → String} {data : UserCreate} :
    (UserService.createUser hashPassword g data actor).Outline postgres Keeps
      ((Call.createUser hashPassword data actor).Landing g) [] fun _ => True := by
  rw [UserService.createUser_eq]
  split
  · trivial
  · rename_i hr
    intro v _ hc
    obtain ⟨hid, hemail⟩ := checkStmt_insertUser.mp hc
    have hnew : postgres.Stable Keeps [] fun v : Timeline Tables =>
        v.Had fun t => ∀ u ∈ t.users.rows, u.email ≠ data.email := .had _
    refine ⟨Since _ v.db (.user g.uuid), stable_since hnew List.mem_cons_self rfl,
      ⟨.refl _, .refl, .now hemail⟩, outline_audit (stable_since hnew List.mem_cons_self rfl) ?_⟩
    exact fun v' hv' => .createUser (not_not.mp hr) (Eq.trans hv'.row hid) hv'.known

theorem outline_changeRoleWrite {userId : String} {target : UserORM} {update : UserRoleUpdate}
    (hr : actor.role = .admin) (hφ : postgres.Stable Keeps [] φ)
    (htarget : ∀ v, φ v → v.Had fun t => t.users.find? userId = some target)
    (hlast : ∀ v, φ v → target.role = .admin → update.role ≠ .admin →
      v.Had Tables.NotOneAdmin) :
    (UserService.changeRoleWrite g userId target.role update.role actor).Outline postgres Keeps
      ((Call.changeRole userId update actor).Landing g) [] φ := by
  refine outline_write hφ rfl fun v _ _ => ?_
  split
  · trivial
  · rename_i updated hupdated
    obtain ⟨u, hu, -⟩ := Option.map_eq_some_iff.mp hupdated
    rw [applyStmt, Table.find?_modify, if_pos rfl] at hu
    obtain ⟨row, hrow, -⟩ := Option.map_eq_some_iff.mp hu
    refine outline_audit (stable_since hφ List.mem_cons_self rfl) fun v' hv' => ?_
    exact .changeRole hr (Option.isSome_of_eq_some (Eq.trans hv'.row hrow))
      (htarget v' hv'.known) (hlast v' hv'.known)

theorem outline_changeRole {userId : String} {update : UserRoleUpdate} :
    (UserService.changeRole g userId update actor).Outline postgres Keeps
      ((Call.changeRole userId update actor).Landing g) [] fun _ => True := by
  rw [UserService.changeRole_eq]
  split
  · trivial
  · rename_i hr
    refine .see (.const True) fun u _ => ?_
    split
    · trivial
    · rename_i target htarget
      split
      · -- The role and the count are read by two statements, so of two versions.
        refine .see (.and (.const True) (.had _)) fun u' _ => ?_
        split
        · trivial
        · rename_i hcount
          exact outline_changeRoleWrite (not_not.mp hr)
            (.and (.and (.const True) (.had _)) (.had _))
            (fun v hv => hv.1.2.of_eq htarget) fun v hv _ _ => hv.2.of_eq hcount
      · rename_i hdemotion
        exact outline_changeRoleWrite (not_not.mp hr) (.and (.const True) (.had _))
          (fun v hv => hv.2.of_eq htarget) fun v _ hadmin hne => absurd ⟨hadmin, hne⟩ hdemotion

theorem outline_deleteUserWrite {userId : String} {target : UserORM} (hr : actor.role = .admin)
    (hne : userId ≠ actor.id) (hφ : postgres.Stable Keeps [] φ)
    (htarget : ∀ v, φ v → v.Had fun t => t.users.find? userId = some target)
    (hlast : ∀ v, φ v → target.role = .admin → v.Had Tables.NotOneAdmin) :
    (UserService.deleteUserWrite g target userId actor).Outline postgres Keeps
      ((Call.deleteUser userId actor).Landing g) [] φ :=
  .exec hφ fun _ _ _ => .exec (hφ.append _) fun _ _ _ =>
    outline_ret fun v hv => .deleteUser hr hne (htarget v hv) (hlast v hv)

theorem outline_deleteUser {userId : String} :
    (UserService.deleteUser g userId actor).Outline postgres Keeps
      ((Call.deleteUser userId actor).Landing g) [] fun _ => True := by
  rw [UserService.deleteUser_eq]
  split
  · trivial
  · rename_i hr
    split
    · trivial
    · rename_i hne
      refine .see (.const True) fun u _ => ?_
      split
      · trivial
      · rename_i target htarget
        split
        · refine .see (.and (.const True) (.had _)) fun u' _ => ?_
          split
          · trivial
          · rename_i hcount
            exact outline_deleteUserWrite (not_not.mp hr) hne
              (.and (.and (.const True) (.had _)) (.had _)) (fun v hv => hv.1.2.of_eq htarget)
              fun v hv _ => hv.2.of_eq hcount
        · rename_i hadmin
          exact outline_deleteUserWrite (not_not.mp hr) hne (.and (.const True) (.had _))
            (fun v hv => hv.2.of_eq htarget) fun v _ hrole => absurd hrole hadmin

theorem outline_createBatch {data : Option BatchCreate} {actor : Option User} :
    (BatchService.createBatch g data actor).Outline postgres Keeps
      ((Call.createBatch data actor).Landing g) [] fun _ => True := by
  rw [BatchService.createBatch_eq]
  refine outline_write (.const True) rfl fun v _ hc => ?_
  exact outline_audit (stable_since (.const True) List.mem_cons_self rfl)
    fun v' hv' => .createBatch rfl (Eq.trans hv'.row (checkStmt_insertBatch.mp hc))

theorem outline_transition {batchId : String} {newStatus : BatchStatus}
    {allowed : List BatchStatus} (hc : c.transition? = some (batchId, newStatus, allowed)) :
    (BatchService.transition g batchId newStatus allowed).Outline postgres Keeps (c.Landing g) []
      fun _ => True := by
  rw [BatchService.transition_eq]
  refine .see (.const True) fun u _ => ?_
  split
  · trivial
  · rename_i batch hbatch
    have hread : postgres.Stable Keeps [] fun v => True ∧ v.Had (· = u.db) :=
      .and (.const True) (.had _)
    split
    · trivial
    · rename_i hallowed
      refine outline_write hread rfl fun v _ _ => ?_
      split
      · trivial
      · rename_i updated hupdated
        rw [applyStmt, Table.find?_modify, if_pos rfl] at hupdated
        obtain ⟨row, hrow, -⟩ := Option.map_eq_some_iff.mp hupdated
        refine outline_audit (stable_since hread List.mem_cons_self rfl) fun v' hv' => ?_
        exact .transition hc (Option.isSome_of_eq_some (Eq.trans hv'.row hrow))
          (hv'.known.2.of_eq hbatch) (not_not.mp hallowed)

theorem outline_savePrediction {batchId : String} {data : PredictionCreate} :
    (PredictionService.savePrediction g batchId data).Outline postgres Keeps
      ((Call.savePrediction batchId data).Landing g) [] fun _ => True := by
  rw [PredictionService.savePrediction_eq]
  refine outline_write (.const True) rfl fun v _ hc => outline_ret fun v' hv' => ?_
  obtain ⟨hid, hbatch⟩ := checkStmt_insertPrediction.mp hc
  obtain ⟨b, hb⟩ := Option.isSome_iff_exists.mp hbatch
  obtain ⟨b', hb', -⟩ := hv'.keeps.batches _ b hb
  exact .savePrediction (Eq.trans hv'.row hid) (Option.isSome_of_eq_some hb')

theorem outline_relabel {predictionId : String} {update : PredictionRelabel} :
    (PredictionService.relabel g predictionId update actor).Outline postgres Keeps
      ((Call.relabel predictionId update actor).Landing g) [] fun _ => True := by
  rw [PredictionService.relabel_eq]
  split
  · trivial
  · rename_i hr
    refine .learn (ψ := fun u v => KeepsRows u.db v.db) (fun _ => stable_keepsRows)
      (fun _ _ => .refl) fun u _ => ?_
    split
    · trivial
    · rename_i pred hpred
      split
      · trivial
      · rename_i hconf
        refine outline_write stable_keepsRows rfl fun v _ _ => ?_
        split
        · trivial
        · refine outline_audit (stable_since stable_keepsRows List.mem_cons_self rfl)
            fun v' hv' => ?_
          -- The row has been relabeled since the SELECT, at most.
          obtain ⟨p, hp, heq⟩ := hv'.known.predictions _ _ hpred
          have hb : pred.batchId = p.batchId := congrArg (·.batchId) heq.symm
          have hf : pred.confidence = p.confidence := congrArg (·.confidence) heq.symm
          have hc : pred.predictedClass = p.predictedClass := congrArg (·.predictedClass) heq.symm
          rw [PredictionService.relabeled, hc, hb]
          exact .relabel (not_not.mp hr) hp (hf ▸ hconf)

/-- Every method of the services has an outline. -/
theorem Call.outline (c : Call) (g : Gen) : (c.block g).Outline postgres Keeps
    (fun v ws keys => c.Lands g v keys (postgres.view v.db ws)) [] fun _ => True := by
  cases c with
  | createUser => exact .map outline_createUser
  | changeRole => exact .map outline_changeRole
  | deleteUser => exact .map outline_deleteUser
  | createBatch => exact .map outline_createBatch
  | markProcessing | markDone | markFailed => exact .map (outline_transition rfl)
  | savePrediction => exact .map outline_savePrediction
  | relabel => exact .map outline_relabel

end

/-! ## The system -/

section
variable {ι : Type} [DecidableEq ι]

abbrev CallSys (ι : Type) := Sys Tables Stmt Row Exn (List String) ι

/-- The start, a statement, the COMMIT or the failure of one of the calls. -/
def callStep (calls : ι → Call × Gen) : CallSys ι → Event ι Exn → Option (CallSys ι) :=
  Sys.step postgres fun i => (calls i).1.block (calls i).2

/-- The calls that commit, in the order of their commits, and the keys that they delete next. -/
def callCommits (calls : ι → Call × Gen) (s : CallSys ι) (es : List (Event ι Exn)) :
    List (ι × List String) :=
  s.commits postgres (fun i => (calls i).1.block (calls i).2) es

/-- One of the calls commits. -/
def CallLands (calls : ι → Call × Gen) (v : Timeline Tables) (c : ι × List String)
    (v' : Timeline Tables) : Prop :=
  ∃ t, (calls c.1).1.Lands (calls c.1).2 v c.2 t ∧ v' = v.commit t

omit [DecidableEq ι] in
theorem keepsRows_of_lands {calls : ι → Call × Gen} {v v' : Timeline Tables}
    {cs : List (ι × List String)} (h : Run (CallLands calls) v cs v') : KeepsRows v.db v'.db := by
  induction h with
  | nil => exact .refl
  | cons hs _ ih =>
    obtain ⟨t, hlands, rfl⟩ := hs
    exact hlands.keepsRows.trans ih

/-- Every open call is at a point of its outline. -/
def CallsOutlined (calls : ι → Call × Gen) (v : Timeline Tables) (s : CallSys ι) : Prop :=
  s.Outlined postgres Keeps (fun _ => True) (fun i v ws keys =>
    (calls i).1.Lands (calls i).2 v keys (postgres.view v.db ws)) v

omit [DecidableEq ι] in
theorem callsOutlined_start {calls : ι → Call × Gen} {t : Tables} :
    CallsOutlined calls ⟨t, []⟩ (Sys.start t) := Sys.outlined_start trivial

/-- From any point of a run on, the calls land. -/
theorem CallsOutlined.run {calls : ι → Call × Gen} {s s' : CallSys ι} {v : Timeline Tables}
    {es : List (Event ι Exn)} (H : CallsOutlined calls v s)
    (h : Run (Steps (callStep calls)) s es s') : ∃ v', CallsOutlined calls v' s' ∧
      Run (CallLands calls) v (callCommits calls s es) v' := by
  obtain ⟨v', H', hrun⟩ := Sys.Outlined.run (fun _ _ _ _ => trivial)
    (fun i => (calls i).1.outline (calls i).2) H h
  refine ⟨v', H', hrun.mono ?_⟩
  rintro u ⟨i, keys⟩ _ ⟨ws, hlands, rfl⟩
  exact ⟨_, hlands, rfl⟩

/-- In every interleaving of the statements of the calls, those that commit write at their commits,
in the order of these, and read what the committed tables hold then or held before. The others write
nothing. -/
theorem concurrent_calls_land (calls : ι → Call × Gen) {t : Tables} {es : List (Event ι Exn)}
    {s : CallSys ι} (h : Run (Steps (callStep calls)) (Sys.start t) es s) :
    (∃ v, v.db = s.server.db ∧
      Run (CallLands calls) ⟨t, []⟩ (callCommits calls (Sys.start t) es) v) ∧
      ((callCommits calls (Sys.start t) es).map (·.1)).Nodup ∧
      ∀ i keys, (i, keys) ∈ callCommits calls (Sys.start t) es ↔
        s.session i = .done (.ok keys) := by
  obtain ⟨v, H, hrun⟩ := callsOutlined_start.run h
  have R := (Sys.recorded_start t).run h
  exact ⟨⟨v, H.db, hrun⟩, R.nodup, R.mem⟩

/-- Ada relabels a prediction twice at the same time. -/
def relabelTwice : Bool → Call × Gen
  | false => (toMemo.1, toMemo.2.1)
  | true => (toForm.1, toForm.2.1)

/-- The second call waits for the lock of the first one, which has read the same row. -/
def relabelTwiceEvents : List (Event Bool Exn) :=
  [.begin false, .begin true, .stmt false, .stmt true, .stmt false, .stmt false, .stmt false,
    .stmt true, .stmt true, .stmt true]

theorem concurrent_calls_land_relabelTwice : ∃ s v,
    Run (Steps (callStep relabelTwice)) (Sys.start letterSaved) relabelTwiceEvents s ∧
      v.db = s.server.db ∧ Run (CallLands relabelTwice) ⟨letterSaved, []⟩
        (callCommits relabelTwice (Sys.start letterSaved) relabelTwiceEvents) v ∧
      (callCommits relabelTwice (Sys.start letterSaved) relabelTwiceEvents).map (·.1) =
        [false, true] := by
  have h : (exec (callStep relabelTwice) (Sys.start letterSaved) relabelTwiceEvents).isSome := by
    decide
  obtain ⟨s, hs⟩ := Option.isSome_iff_exists.mp h
  have hrun := exec_eq_some.mp hs
  obtain ⟨⟨v, hv, hlands⟩, -⟩ := concurrent_calls_land relabelTwice hrun
  exact ⟨s, v, hrun, hv, hlands, by decide⟩

end

end DocClassifier
