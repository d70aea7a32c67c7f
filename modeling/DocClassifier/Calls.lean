import DocClassifier.AuditReplay

/-!
# Service calls

A call of a mutating method is one transaction, followed by the deletion of cache keys, one by one.
`Call.Done` says for each method what a call whose transaction commits has done to the tables and
which keys it deletes; the other calls leave the tables as they were.
-/

namespace DocClassifier
open ReadCommitted Transition

/-- The transaction of a call, which answers with the cache keys to delete. -/
def Call.block (g : Gen) : Call → Block (List String)
  | .createUser hashPassword data actor =>
    UserService.createUser hashPassword g data actor >>= fun c => pure c.deletes
  | .changeRole targetUserId update actor =>
    UserService.changeRole g targetUserId update actor >>= fun c => pure c.deletes
  | .deleteUser targetUserId actor =>
    UserService.deleteUser g targetUserId actor >>= fun c => pure c.deletes
  | .createBatch data actor => BatchService.createBatch g data actor >>= fun c => pure c.deletes
  | .markProcessing batchId => BatchService.markProcessing g batchId >>= fun c => pure c.deletes
  | .markDone batchId => BatchService.markDone g batchId >>= fun c => pure c.deletes
  | .markFailed batchId => BatchService.markFailed g batchId >>= fun c => pure c.deletes
  | .savePrediction batchId data =>
    PredictionService.savePrediction g batchId data >>= fun c => pure c.deletes
  | .relabel predictionId update actor =>
    PredictionService.relabel g predictionId update actor >>= fun c => pure c.deletes

/-- The transition that a call makes: the batch, the new status and the statuses it may leave. -/
def Call.transition? : Call → Option (String × BatchStatus × List BatchStatus)
  | .markProcessing batchId => some (batchId, .processing, [.pending])
  | .markDone batchId => some (batchId, .done, [.processing])
  | .markFailed batchId => some (batchId, .failed, [.pending, .processing])
  | _ => none

/-- `Done g t c keys t'`: the transaction of `c` can commit on `t`, which gives `t'`, and `keys` are
deleted afterwards. -/
inductive Call.Done (g : Gen) (t : Tables) : Call → List String → Tables → Prop
  | createUser {hashPassword : String → String} {data : UserCreate} {actor : User} :
      actor.role = .admin → t.users.find? g.uuid = none →
      (∀ u ∈ t.users.rows, u.email ≠ data.email) →
      Done g t (.createUser hashPassword data actor) [USERS_LIST_KEY]
        { t with
          users := t.users.insert (UserService.newUser hashPassword g data)
          auditLogs := t.auditLogs ++ [UserService.userCreate g data actor] }
  | changeRole {userId : String} {update : UserRoleUpdate} {actor : User} {target : UserORM} :
      actor.role = .admin → t.users.find? userId = some target →
      ¬ (target.role = .admin ∧ update.role ≠ .admin ∧
        t.users.rows.countP (·.role = .admin) = 1) →
      Done g t (.changeRole userId update actor) [userMeKey userId, USERS_LIST_KEY]
        { t with
          users := t.users.modify userId (fun u => { u with role := update.role }) fun _ => rfl
          auditLogs := t.auditLogs ++
            [UserService.roleChange g userId target.role update.role actor] }
  | deleteUser {userId : String} {actor : User} {target : UserORM} :
      actor.role = .admin → userId ≠ actor.id → t.users.find? userId = some target →
      ¬ (target.role = .admin ∧ t.users.rows.countP (·.role = .admin) = 1) →
      Done g t (.deleteUser userId actor) [userMeKey userId, USERS_LIST_KEY]
        { t with
          users := t.users.erase userId
          auditLogs := (t.auditLogs ++ [UserService.userDeleted g target userId actor]).map
            (·.setNull userId) }
  | createBatch {data : Option BatchCreate} {actor : Option User} {d : BatchCreate} :
      d = data.getD { id := g.uuid } → t.batches.find? d.id = none →
      Done g t (.createBatch data actor) [BATCHES_LIST_KEY]
        { t with
          batches := t.batches.insert (BatchService.newBatch g d)
          auditLogs := t.auditLogs ++ [BatchService.batchCreated g d actor] }
  | transition {c : Call} {batchId : String} {newStatus : BatchStatus}
      {allowed : List BatchStatus} {batch : Batch} :
      c.transition? = some (batchId, newStatus, allowed) →
      t.batches.find? batchId = some batch → batch.status ∈ allowed →
      Done g t c [batchKey batchId, BATCHES_LIST_KEY]
        { t with
          batches :=
            t.batches.modify batchId (fun b => { b with status := newStatus }) fun _ => rfl
          auditLogs := t.auditLogs ++
            [BatchService.stateChange g batchId batch.status newStatus] }
  | savePrediction {batchId : String} {data : PredictionCreate} :
      t.predictions.find? g.uuid = none → (t.batches.find? batchId).isSome →
      Done g t (.savePrediction batchId data)
        [PREDICTIONS_RECENT_KEY, batchKey batchId, predictionsBatchKey batchId]
        { t with
          predictions := t.predictions.insert (PredictionService.newPrediction g batchId data) }
  | relabel {predictionId : String} {update : PredictionRelabel} {actor : User}
      {pred : Prediction} :
      actor.role ∈ [Role.admin, Role.reviewer] →
      t.predictions.find? predictionId = some pred →
      ¬ (actor.role = .reviewer ∧ pred.confidence ≥ 7 / 10) →
      Done g t (.relabel predictionId update actor)
        [PREDICTIONS_RECENT_KEY, batchKey pred.batchId, predictionsBatchKey pred.batchId]
        { t with
          predictions := t.predictions.modify predictionId
            (fun p => { p with relabeledClass := some update.relabeledClass }) fun _ => rfl
          auditLogs := t.auditLogs ++
            [PredictionService.relabeled g pred predictionId update actor] }

section
variable {g : Gen} {f : Fault Exn} {t t' : Tables} {c : Call} {keys : List String}

theorem Call.serve_eq : c.serve g f t = ((c.block g).run postgres t f []).2 := by
  cases c <;> simp only [Call.serve, Call.block, Tx.run_map]

/-- What is computed from the result of a call comes from the result. -/
theorem deletes_of_run {α : Type} {p : Block (Committed α)}
    (h : (p >>= fun c => pure c.deletes).run postgres t none [] = (.ok keys, t')) :
    ∃ cm, p.run postgres t none [] = (.ok cm, t') ∧ cm.deletes = keys := by
  rw [Tx.run_map] at h
  obtain ⟨hr, rfl⟩ := Prod.mk.inj h
  cases hp : p.run postgres t none [] with
  | mk r t'' =>
    rw [hp] at hr
    cases r with
    | error e => cases hr
    | ok cm =>
      cases hr
      exact ⟨cm, rfl, rfl⟩

theorem done_transition {batchId : String} {newStatus : BatchStatus} {allowed : List BatchStatus}
    (hc : c.transition? = some (batchId, newStatus, allowed))
    (h : (BatchService.transition g batchId newStatus allowed >>= fun c => pure c.deletes).run
      postgres t none [] = (.ok keys, t')) : c.Done g t keys t' := by
  obtain ⟨cm, hrun, rfl⟩ := deletes_of_run h
  obtain ⟨ws, hcommits⟩ := Tx.commits_of_run hrun
  obtain ⟨batch, hb, hallowed, rfl⟩ := BatchService.transition_ok hrun
  rw [BatchService.transition_deletes hcommits]
  exact .transition hc hb hallowed

theorem Call.done_of_run (h : (c.block g).run postgres t none [] = (.ok keys, t')) :
    c.Done g t keys t' := by
  cases c with
  | createUser hashPassword data actor =>
    obtain ⟨cm, hrun, rfl⟩ := deletes_of_run h
    obtain ⟨hr, hid, hemail, rfl, rfl⟩ := UserService.createUser_ok hrun
    exact .createUser hr hid hemail
  | changeRole userId update actor =>
    obtain ⟨cm, hrun, rfl⟩ := deletes_of_run h
    obtain ⟨ws, hcommits⟩ := Tx.commits_of_run hrun
    obtain ⟨hr, target, ht, hlast, rfl⟩ := UserService.changeRole_ok hrun
    rw [UserService.changeRole_deletes hcommits]
    exact .changeRole hr ht hlast
  | deleteUser userId actor =>
    obtain ⟨cm, hrun, rfl⟩ := deletes_of_run h
    obtain ⟨ws, hcommits⟩ := Tx.commits_of_run hrun
    obtain ⟨hr, hne, target, ht, hlast, rfl⟩ := UserService.deleteUser_ok hrun
    rw [UserService.deleteUser_deletes hcommits]
    exact .deleteUser hr hne ht hlast
  | createBatch data actor =>
    obtain ⟨cm, hrun, rfl⟩ := deletes_of_run h
    obtain ⟨d, hd, hid, rfl, rfl⟩ := BatchService.createBatch_ok hrun
    exact .createBatch hd hid
  | markProcessing batchId => exact done_transition rfl h
  | markDone batchId => exact done_transition rfl h
  | markFailed batchId => exact done_transition rfl h
  | savePrediction batchId data =>
    obtain ⟨cm, hrun, rfl⟩ := deletes_of_run h
    obtain ⟨hid, hb, rfl, rfl⟩ := PredictionService.savePrediction_ok hrun
    exact .savePrediction hid hb
  | relabel predictionId update actor =>
    obtain ⟨cm, hrun, rfl⟩ := deletes_of_run h
    obtain ⟨hr, pred, hp, hconf, rfl⟩ := PredictionService.relabel_ok hrun
    rw [PredictionService.relabel_deletes hrun hp]
    exact .relabel hr hp hconf

/-- A transaction raises and changes nothing, or it commits. -/
theorem Call.run_cases (c : Call) (g : Gen) (f : Fault Exn) (t : Tables) :
    (∃ e, (c.block g).run postgres t f [] = (.error e, t)) ∨
      ∃ keys t', (c.block g).run postgres t f [] = (.ok keys, t') ∧ c.Done g t keys t' := by
  rcases (c.block g).run_fault f [] with hf | ⟨e, hf⟩
  swap
  · exact .inl ⟨e, hf⟩
  rcases (c.block g).run_cases none [] with ⟨e, h⟩ | ⟨ws, keys, -, h⟩
  · exact .inl ⟨e, hf.trans h⟩
  · exact .inr ⟨keys, _, hf.trans h, done_of_run h⟩

/-- The transaction of the call commits. -/
def Call.commits (g : Gen) (f : Fault Exn) (t : Tables) (c : Call) : Bool :=
  ((c.block g).run postgres t f []).1.toBool

theorem Call.commits_cases (c : Call) (g : Gen) (f : Fault Exn) (t : Tables) :
    (c.commits g f t = false ∧ c.serve g f t = t) ∨
      (c.commits g f t = true ∧ ∃ keys, c.Done g t keys (c.serve g f t)) := by
  rw [serve_eq, commits]
  rcases c.run_cases g f t with ⟨e, h⟩ | ⟨keys, t', h, hdone⟩
  · rw [h]
    exact .inl ⟨rfl, rfl⟩
  · rw [h]
    exact .inr ⟨rfl, keys, hdone⟩

/-- What a call does to the tables. -/
theorem Call.serve_cases (c : Call) (g : Gen) (f : Fault Exn) (t : Tables) :
    c.serve g f t = t ∨ ∃ keys, c.Done g t keys (c.serve g f t) := by
  rw [serve_eq]
  rcases c.run_cases g f t with ⟨e, h⟩ | ⟨keys, t', h, hdone⟩
  · exact .inl (by rw [h])
  · refine .inr ⟨keys, ?_⟩
    rw [h]
    exact hdone

end

/-! ## Serial runs -/

/-- The step of a serial run: a call, with what it generates and its fault. -/
def Served (t : Tables) (c : Call × Gen × Fault Exn) (t' : Tables) : Prop :=
  t' = c.1.serve c.2.1 c.2.2 t

@[simp] theorem serveAll_cons {t : Tables} {c : Call × Gen × Fault Exn}
    {calls : List (Call × Gen × Fault Exn)} :
    serveAll t (c :: calls) = serveAll (c.1.serve c.2.1 c.2.2 t) calls := rfl

theorem serveAll_append {t : Tables} {calls calls' : List (Call × Gen × Fault Exn)} :
    serveAll t (calls ++ calls') = serveAll (serveAll t calls) calls' := List.foldl_append

theorem serveAll_run (t : Tables) (calls : List (Call × Gen × Fault Exn)) :
    Run Served t calls (serveAll t calls) := by
  induction calls generalizing t with
  | nil => exact .nil
  | cons c calls ih => exact .cons rfl (ih _)

/-- A step changes nothing or commits. -/
theorem Served.cases {t t' : Tables} {c : Call × Gen × Fault Exn} (h : Served t c t') :
    t' = t ∨ ∃ keys, c.1.Done c.2.1 t keys t' := by
  rw [Served] at h
  subst h
  exact c.1.serve_cases c.2.1 c.2.2 t

/-- A step is determined by its call. -/
theorem Served.run_cons {P : Tables → Tables → Prop} {t t' : Tables} {c : Call × Gen × Fault Exn}
    {calls : List (Call × Gen × Fault Exn)} :
    Run (fun u c v => Served u c v ∧ P u v) t (c :: calls) t' ↔
      P t (c.1.serve c.2.1 c.2.2 t) ∧
        Run (fun u c v => Served u c v ∧ P u v) (c.1.serve c.2.1 c.2.2 t) calls t' := by
  rw [Run.cons_iff]
  constructor
  · rintro ⟨u, ⟨rfl, hP⟩, h⟩
    exact ⟨hP, h⟩
  · intro h
    exact ⟨_, ⟨rfl, h.1⟩, h.2⟩

end DocClassifier
