import DocClassifier.ServiceSpecs
import DocClassifier.Lib.Run

/-!
# Replaying the audit log

The audit log is the only history of roles, batch statuses and relabels. `replayEntry` reads one
entry as a change of these three maps. The maps that the tables hold are a run of the log from the
initial maps (`LogReplays.serveAll`): one call of a service method either appends nothing and leaves
the maps alone, or appends the entry that says how it has changed them.
-/

namespace DocClassifier
open ReadCommitted Transition

/-- What an audit log can tell: roles by user id, statuses by batch id, relabels by prediction. -/
@[ext] structure Replayed where
  roles : String → Option Role
  statuses : String → Option BatchStatus
  relabels : String → Option String

/-- The maps that the tables hold. -/
def Tables.current (t : Tables) : Replayed :=
  { roles := fun id => (t.users.find? id).map (·.role)
    statuses := fun id => (t.batches.find? id).map (·.status)
    relabels := fun id => (t.predictions.find? id).bind (·.relabeledClass) }

/-- A map with the value of the id that `target` names after `kind` replaced. -/
def setTarget {α : Type} (m : String → Option α) (kind target : String) (v : Option α) :
    String → Option α :=
  fun id => if target = kind ++ id then v else m id

@[simp] theorem setTarget_append {α : Type} (m : String → Option α) (kind id : String)
    (v : Option α) : setTarget m kind (kind ++ id) v = Function.update m id v := by
  funext id'
  simp [setTarget, Function.update_apply, String.append_right_inj, eq_comm]

def replayEntry (r : Replayed) (e : AuditLog) : Replayed :=
  match e.action with
  | "user_create" =>
    { r with roles := setTarget r.roles "user:" e.target ((e.detail "role").bind Role.ofValue) }
  | "role_change" =>
    { r with
      roles := setTarget r.roles "user:" e.target ((e.detail "new_role").bind Role.ofValue) }
  | "user_deleted" => { r with roles := setTarget r.roles "user:" e.target none }
  | "batch_created" =>
    { r with statuses := setTarget r.statuses "batch:" e.target (some .pending) }
  | "batch_state_change" =>
    { r with
      statuses := setTarget r.statuses "batch:" e.target
        ((e.detail "to").bind BatchStatus.ofValue) }
  | "relabel" =>
    { r with relabels := setTarget r.relabels "prediction:" e.target (e.detail "to") }
  | _ => r

def replay (r : Replayed) (log : List AuditLog) : Replayed := log.foldl replayEntry r

/-- The values that an entry claims to have replaced are those of `r`. -/
structure OldValues (r : Replayed) (e : AuditLog) : Prop where
  oldRole : e.action = "role_change" → ∃ id old, e.target = "user:" ++ id ∧
    e.detail "old_role" = some (Role.value old) ∧ r.roles id = some old
  oldStatus : e.action = "batch_state_change" → ∃ id old, e.target = "batch:" ++ id ∧
    e.detail "from" = some (BatchStatus.value old) ∧ r.statuses id = some old

theorem OldValues.of_action {r : Replayed} {e : AuditLog} (h1 : e.action ≠ "role_change")
    (h2 : e.action ≠ "batch_state_change") : OldValues r e :=
  ⟨fun h => (h1 h).elim, fun h => (h2 h).elim⟩

/-- An entry that is right about the past, read as a change of the maps. -/
def Recorded (r : Replayed) (e : AuditLog) (r' : Replayed) : Prop :=
  OldValues r e ∧ r' = replayEntry r e

theorem Recorded.setNull {r r' : Replayed} {e : AuditLog} (userId : String)
    (h : Recorded r e r') : Recorded r (e.setNull userId) r' := by
  obtain ⟨⟨h1, h2⟩, h3⟩ := h
  exact ⟨⟨h1, h2⟩, h3⟩

theorem replay_of_run {r r' : Replayed} {log : List AuditLog} (h : Run Recorded r log r') :
    replay r log = r' := by
  induction h with
  | nil => rfl
  | cons hs _ ih => rw [← ih, hs.2]; rfl

/-! ## What the writes do to the maps -/

section
variable {t : Tables} {log : List AuditLog}

theorem current_insertUser {u : UserORM} (h : t.users.find? u.id = none) :
    { t with users := t.users.insert u, auditLogs := log }.current =
      { t.current with roles := Function.update t.current.roles u.id (some u.role) } := by
  refine Replayed.ext (funext fun id => ?_) rfl rfl
  simp only [Tables.current, Table.find?_insert h, Function.update_apply, eq_comm (a := id)]
  split <;> rfl

theorem current_updateRole {userId : String} {target : UserORM} {newRole : Role}
    (h : t.users.find? userId = some target) :
    { t with
      users := t.users.modify userId (fun u => { u with role := newRole }) fun _ => rfl
      auditLogs := log }.current =
      { t.current with roles := Function.update t.current.roles userId (some newRole) } := by
  refine Replayed.ext (funext fun id => ?_) rfl rfl
  simp only [Tables.current, Table.find?_modify, Function.update_apply, eq_comm (a := id)]
  split
  · rename_i hid
    subst hid
    simp [h]
  · rfl

theorem current_deleteUser {userId : String} :
    { t with users := t.users.erase userId, auditLogs := log }.current =
      { t.current with roles := Function.update t.current.roles userId none } := by
  refine Replayed.ext (funext fun id => ?_) rfl rfl
  simp only [Tables.current, Table.find?_erase, Function.update_apply, eq_comm (a := id)]
  split <;> rfl

theorem current_insertBatch {b : Batch} (h : t.batches.find? b.id = none) :
    { t with batches := t.batches.insert b, auditLogs := log }.current =
      { t.current with statuses := Function.update t.current.statuses b.id (some b.status) } := by
  refine Replayed.ext rfl (funext fun id => ?_) rfl
  simp only [Tables.current, Table.find?_insert h, Function.update_apply, eq_comm (a := id)]
  split <;> rfl

theorem current_updateStatus {batchId : String} {b : Batch} {newStatus : BatchStatus}
    (h : t.batches.find? batchId = some b) :
    { t with
      batches := t.batches.modify batchId (fun b => { b with status := newStatus }) fun _ => rfl
      auditLogs := log }.current =
      { t.current with
        statuses := Function.update t.current.statuses batchId (some newStatus) } := by
  refine Replayed.ext rfl (funext fun id => ?_) rfl
  simp only [Tables.current, Table.find?_modify, Function.update_apply, eq_comm (a := id)]
  split
  · rename_i hid
    subst hid
    simp [h]
  · rfl

/-- A new prediction has not been relabeled, so it is not seen in the maps. -/
theorem current_insertPrediction {p : Prediction} (h : t.predictions.find? p.id = none)
    (hp : p.relabeledClass = none) :
    { t with predictions := t.predictions.insert p }.current = t.current := by
  refine Replayed.ext rfl rfl (funext fun id => ?_)
  simp only [Tables.current, Table.find?_insert h]
  split
  · rename_i hid
    simp [hp, ← hid, h]
  · rfl

theorem current_relabel {predictionId c : String} {p : Prediction}
    (h : t.predictions.find? predictionId = some p) :
    { t with
      predictions := t.predictions.modify predictionId
        (fun p => { p with relabeledClass := some c }) fun _ => rfl
      auditLogs := log }.current =
      { t.current with
        relabels := Function.update t.current.relabels predictionId (some c) } := by
  refine Replayed.ext rfl rfl (funext fun id => ?_)
  simp only [Tables.current, Table.find?_modify, Function.update_apply, eq_comm (a := id)]
  split
  · rename_i hid
    subst hid
    simp [h]
  · rfl

end

/-! ## The entry of each call -/

section
variable {g : Gen} {t : Tables} {actor : User}

theorem recorded_userCreate {hashPassword : String → String} {data : UserCreate}
    (h : t.users.find? g.uuid = none) :
    Recorded t.current (UserService.userCreate g data actor)
      { t with
        users := t.users.insert (UserService.newUser hashPassword g data)
        auditLogs := t.auditLogs ++ [UserService.userCreate g data actor] }.current := by
  have hrole : (UserService.userCreate g data actor).detail "role" = some data.role.value := rfl
  refine ⟨.of_action ?_ ?_, ?_⟩
  · simp [UserService.userCreate]
  · simp [UserService.userCreate]
  · rw [current_insertUser h, replayEntry, hrole]
    simp [UserService.userCreate, UserService.newUser]

theorem recorded_roleChange {userId : String} {target : UserORM} {newRole : Role}
    (h : t.users.find? userId = some target) :
    Recorded t.current (UserService.roleChange g userId target.role newRole actor)
      { t with
        users := t.users.modify userId (fun u => { u with role := newRole }) fun _ => rfl
        auditLogs := t.auditLogs ++
          [UserService.roleChange g userId target.role newRole actor] }.current := by
  have hnew : (UserService.roleChange g userId target.role newRole actor).detail "new_role" =
    some newRole.value := rfl
  refine ⟨⟨fun _ => ⟨userId, target.role, rfl, rfl, ?_⟩, fun ha => ?_⟩, ?_⟩
  · simp [Tables.current, h]
  · simp [UserService.roleChange] at ha
  · rw [current_updateRole h, replayEntry, hnew]
    simp [UserService.roleChange]

theorem recorded_userDeleted {userId : String} {target : UserORM} {log : List AuditLog} :
    Recorded t.current (UserService.userDeleted g target userId actor)
      { t with users := t.users.erase userId, auditLogs := log }.current := by
  refine ⟨.of_action ?_ ?_, ?_⟩
  · simp [UserService.userDeleted]
  · simp [UserService.userDeleted]
  · rw [current_deleteUser]
    simp [replayEntry, UserService.userDeleted]

theorem recorded_batchCreated {data : BatchCreate} {actor : Option User}
    (h : t.batches.find? data.id = none) :
    Recorded t.current (BatchService.batchCreated g data actor)
      { t with
        batches := t.batches.insert (BatchService.newBatch g data)
        auditLogs := t.auditLogs ++ [BatchService.batchCreated g data actor] }.current := by
  refine ⟨.of_action ?_ ?_, ?_⟩
  · simp [BatchService.batchCreated]
  · simp [BatchService.batchCreated]
  · rw [current_insertBatch h]
    simp [replayEntry, BatchService.batchCreated, BatchService.newBatch]

theorem recorded_stateChange {batchId : String} {b : Batch} {newStatus : BatchStatus}
    (h : t.batches.find? batchId = some b) :
    Recorded t.current (BatchService.stateChange g batchId b.status newStatus)
      { t with
        batches := t.batches.modify batchId (fun b => { b with status := newStatus }) fun _ => rfl
        auditLogs := t.auditLogs ++
          [BatchService.stateChange g batchId b.status newStatus] }.current := by
  have hto : (BatchService.stateChange g batchId b.status newStatus).detail "to" =
    some newStatus.value := rfl
  refine ⟨⟨fun ha => ?_, fun _ => ⟨batchId, b.status, rfl, rfl, ?_⟩⟩, ?_⟩
  · simp [BatchService.stateChange] at ha
  · simp [Tables.current, h]
  · rw [current_updateStatus h, replayEntry, hto]
    simp [BatchService.stateChange]

theorem recorded_relabeled {predictionId : String} {pred : Prediction}
    {update : PredictionRelabel} (h : t.predictions.find? predictionId = some pred) :
    Recorded t.current (PredictionService.relabeled g pred predictionId update actor)
      { t with
        predictions := t.predictions.modify predictionId
          (fun p => { p with relabeledClass := some update.relabeledClass }) fun _ => rfl
        auditLogs := t.auditLogs ++
          [PredictionService.relabeled g pred predictionId update actor] }.current := by
  have hto : (PredictionService.relabeled g pred predictionId update actor).detail "to" =
    some update.relabeledClass := rfl
  refine ⟨.of_action ?_ ?_, ?_⟩
  · simp [PredictionService.relabeled]
  · simp [PredictionService.relabeled]
  · rw [current_relabel h, replayEntry, hto]
    simp [PredictionService.relabeled]

end

/-! ## Serial calls -/

/-- A call of a mutating service method with its arguments. -/
inductive Call where
  | createUser (hashPassword : String → String) (data : UserCreate) (actor : User)
  | changeRole (targetUserId : String) (update : UserRoleUpdate) (actor : User)
  | deleteUser (targetUserId : String) (actor : User)
  | createBatch (data : Option BatchCreate) (actor : Option User)
  | markProcessing (batchId : String)
  | markDone (batchId : String)
  | markFailed (batchId : String)
  | savePrediction (batchId : String) (data : PredictionCreate)
  | relabel (predictionId : String) (update : PredictionRelabel) (actor : User)

/-- The tables after a call that no other call overlaps, with a fault at one of its statements
or none. -/
def Call.serve (g : Gen) (f : Fault Exn) (t : Tables) : Call → Tables
  | .createUser hashPassword data actor =>
    ((UserService.createUser hashPassword g data actor).run postgres t f []).2
  | .changeRole targetUserId update actor =>
    ((UserService.changeRole g targetUserId update actor).run postgres t f []).2
  | .deleteUser targetUserId actor =>
    ((UserService.deleteUser g targetUserId actor).run postgres t f []).2
  | .createBatch data actor => ((BatchService.createBatch g data actor).run postgres t f []).2
  | .markProcessing batchId => ((BatchService.markProcessing g batchId).run postgres t f []).2
  | .markDone batchId => ((BatchService.markDone g batchId).run postgres t f []).2
  | .markFailed batchId => ((BatchService.markFailed g batchId).run postgres t f []).2
  | .savePrediction batchId data =>
    ((PredictionService.savePrediction g batchId data).run postgres t f []).2
  | .relabel predictionId update actor =>
    ((PredictionService.relabel g predictionId update actor).run postgres t f []).2

/-- Serve calls one after the other. -/
def serveAll (t : Tables) (calls : List (Call × Gen × Fault Exn)) : Tables :=
  calls.foldl (fun t c => c.1.serve c.2.1 c.2.2 t) t

/-- The log leads from the initial maps to the ones the tables hold. -/
def LogReplays (r : Replayed) (t : Tables) : Prop := Run Recorded r t.auditLogs t.current

variable {g : Gen} {t t' : Tables} {r : Replayed}

theorem LogReplays.append {e : AuditLog} (H : LogReplays r t) (he : Recorded t.current e t'.current)
    (hl : t'.auditLogs = t.auditLogs ++ [e]) : LogReplays r t' := by
  rw [LogReplays, hl]
  exact Run.snoc H he

/-- It is enough to look at the calls that return: the others have no effect. -/
theorem LogReplays.run {α : Type} {p : Block α} (H : LogReplays r t) (f : Fault Exn)
    (hok : ∀ a t', p.run postgres t none [] = (.ok a, t') → LogReplays r t') :
    LogReplays r (p.run postgres t f []).2 := by
  have hcases : (p.run postgres t f []).2 = t ∨ _ := p.run_ok f []
  rcases hcases with h | ⟨a, h⟩
  · rw [h]
    exact H
  · exact hok a _ h

theorem LogReplays.transition {batchId : String} {newStatus : BatchStatus}
    {allowed : List BatchStatus} (H : LogReplays r t) (f : Fault Exn) :
    LogReplays r
      ((BatchService.transition g batchId newStatus allowed).run postgres t f []).2 := by
  refine H.run f fun c t' h => ?_
  obtain ⟨b, hb, -, rfl⟩ := BatchService.transition_ok h
  exact H.append (recorded_stateChange hb) rfl

theorem LogReplays.serve {f : Fault Exn} (H : LogReplays r t) (call : Call) :
    LogReplays r (call.serve g f t) := by
  cases call with
  | createUser hashPassword data actor =>
    refine H.run f fun c t' h => ?_
    obtain ⟨-, hid, -, -, rfl⟩ := UserService.createUser_ok h
    exact H.append (recorded_userCreate hid) rfl
  | changeRole targetUserId update actor =>
    refine H.run f fun c t' h => ?_
    obtain ⟨-, target, htarget, -, rfl⟩ := UserService.changeRole_ok h
    exact H.append (recorded_roleChange htarget) rfl
  | deleteUser targetUserId actor =>
    refine H.run f fun c t' h => ?_
    obtain ⟨-, -, target, -, -, rfl⟩ := UserService.deleteUser_ok h
    -- `ON DELETE SET NULL` touches old entries, but not what they say.
    have hsetNull := fun r e r' (he : Recorded r e r') => he.setNull targetUserId
    rw [LogReplays]
    exact (Run.snoc H recorded_userDeleted).map hsetNull
  | createBatch data actor =>
    refine H.run f fun c t' h => ?_
    obtain ⟨d, -, hid, -, rfl⟩ := BatchService.createBatch_ok h
    exact H.append (recorded_batchCreated hid) rfl
  | markProcessing batchId => exact H.transition f
  | markDone batchId => exact H.transition f
  | markFailed batchId => exact H.transition f
  | savePrediction batchId data =>
    refine H.run f fun c t' h => ?_
    obtain ⟨hid, -, -, rfl⟩ := PredictionService.savePrediction_ok h
    rw [LogReplays, current_insertPrediction hid rfl]
    exact H
  | relabel predictionId update actor =>
    refine H.run f fun c t' h => ?_
    obtain ⟨-, pred, hp, -, rfl⟩ := PredictionService.relabel_ok h
    exact H.append (recorded_relabeled hp) rfl

theorem LogReplays.serveAll (H : LogReplays r t) (calls : List (Call × Gen × Fault Exn)) :
    LogReplays r (serveAll t calls) := by
  induction calls generalizing t with
  | nil => exact H
  | cons c calls ih => exact ih (H.serve c.1)

/-- Folding the log from the initial roles gives the current maps, and every entry names the value
that the entries before it give. -/
theorem audit_log_replays_to_tables (users : Table String UserORM (·.id))
    (calls : List (Call × Gen × Fault Exn)) :
    let initial : Tables := { users }
    let final := DocClassifier.serveAll initial calls
    replay initial.current final.auditLogs = final.current ∧
      ∀ before e after, final.auditLogs = before ++ e :: after →
        OldValues (replay initial.current before) e := by
  intro initial final
  have H : LogReplays initial.current final := LogReplays.serveAll (t := initial) .nil calls
  refine ⟨replay_of_run H, fun before e after hlog => ?_⟩
  rw [LogReplays, hlog] at H
  obtain ⟨r', h1, h2⟩ := H.split
  cases h2 with
  | cons he _ =>
    rw [replay_of_run h1]
    exact he.1

end DocClassifier
