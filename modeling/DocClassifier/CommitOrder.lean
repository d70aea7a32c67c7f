import DocClassifier.AuditTrail
import DocClassifier.ConcurrentCalls
import DocClassifier.Lib.Reordering
import DocClassifier.Lib.RowHistory

/-!
# What the order of commits explains

For calls that overlap in any way, the list of the calls that commit, in the order of their commits,
explains the committed tables. The audit log has the entries of these calls
(`concurrent_audit_trail`) and replays to the tables (`concurrent_log_replays`), and every row was
there at the start or was made by one of the calls and has the role, status or label that was set
last.

The log is listed here in the order of the commits, which PostgreSQL does not store: an entry has
the time at which its transaction began. What is set of one user, batch or prediction depends on the
order of its own entries only, so the log may be read by time when the times of the entries of each
target are in the order of their commits.
-/

namespace DocClassifier
open ReadCommitted Transition

/-! ## The audit log -/

section
variable {g : Gen} {t t' : Tables} {v : Timeline Tables} {c : Call} {keys : List String}
  {r : Replayed}

theorem replay_append {log : List AuditLog} {e : AuditLog} :
    replay r (log ++ [e]) = replayEntry (replay r log) e := List.foldl_append

theorem replay_setNull {log : List AuditLog} {userId : String} :
    replay r (log.map (·.setNull userId)) = replay r log := by
  rw [replay, List.foldl_map]
  rfl

theorem replayEntry_roleChange {userId : String} {old newRole : Role} {actor : User}
    {target : UserORM} {log : List AuditLog} (h : t.users.find? userId = some target) :
    replayEntry t.current (UserService.roleChange g userId old newRole actor) =
      { t with
        users := t.users.modify userId (fun u => { u with role := newRole }) fun _ => rfl
        auditLogs := log }.current := by
  have hnew : (UserService.roleChange g userId old newRole actor).detail "new_role" =
    some newRole.value := rfl
  rw [current_updateRole h, replayEntry, hnew]
  simp [UserService.roleChange]

theorem replayEntry_stateChange {batchId : String} {old newStatus : BatchStatus} {b : Batch}
    {log : List AuditLog} (h : t.batches.find? batchId = some b) :
    replayEntry t.current (BatchService.stateChange g batchId old newStatus) =
      { t with
        batches := t.batches.modify batchId (fun b => { b with status := newStatus }) fun _ => rfl
        auditLogs := log }.current := by
  have hto : (BatchService.stateChange g batchId old newStatus).detail "to" =
    some newStatus.value := rfl
  rw [current_updateStatus h, replayEntry, hto]
  simp [BatchService.stateChange]

/-- The log leads from `r` to the maps that the tables hold, whatever its entries say about the
values that they have replaced. -/
def Replays (r : Replayed) (t : Tables) : Prop := replay r t.auditLogs = t.current

/-- The entry of a call says what the call has set. -/
theorem Call.Lands.replays (h : c.Lands g v keys t') (hr : Replays r v.db) : Replays r t' := by
  rw [Replays] at *
  cases h with
  | createUser _ hid => rw [replay_append, hr, ← (recorded_userCreate hid).2]
  | changeRole _ hu =>
    obtain ⟨u, hu⟩ := Option.isSome_iff_exists.mp hu
    rw [replay_append, hr, ← replayEntry_roleChange hu]
  | deleteUser => rw [replay_setNull, replay_append, hr, ← recorded_userDeleted.2]
  | createBatch _ hid => rw [replay_append, hr, ← (recorded_batchCreated hid).2]
  | transition _ hb =>
    obtain ⟨b, hb⟩ := Option.isSome_iff_exists.mp hb
    rw [replay_append, hr, ← replayEntry_stateChange hb]
  | savePrediction hid => exact hr.trans (current_insertPrediction hid rfl).symm
  | relabel _ hp => rw [replay_append, hr, ← (recorded_relabeled hp).2]

theorem Call.Lands.logs (h : c.Lands g v keys t') : c.Logs g v.db t' := by
  cases h with
  | @deleteUser userId actor target hr hne =>
    refine ⟨[(UserService.userDeleted g target userId actor).setNull userId], ?_, ?_⟩
    · simp [Call.deletedUser?, AuditLog.setNulls_singleton]
    · -- The actor is not the deleted user.
      simp [AuditLog.setNull, UserService.userDeleted, Call.audited, hne.symm]
  | createBatch hd =>
    subst hd
    exact .of_append rfl rfl rfl
  | transition htr => cases c <;> cases htr <;> exact .of_append rfl rfl rfl
  | savePrediction => exact .of_append rfl (List.append_nil _).symm rfl
  | createUser | changeRole | relabel => exact .of_append rfl rfl rfl

end

/-! ### The log in another order -/

theorem setTarget_of_ne {α : Type} {m : String → Option α} {kind id target : String}
    {v : Option α} (h : target ≠ kind ++ id) : setTarget m kind target v id = m id := if_neg h

theorem setTarget_congr {α : Type} {m m' : String → Option α} {kind id target : String}
    {v : Option α} (h : m id = m' id) :
    setTarget m kind target v id = setTarget m' kind target v id := by
  rw [setTarget, setTarget, h]

section
variable {r : Replayed} {e : AuditLog} {id : String} {log log' : List AuditLog}

/-- What an entry does to one user depends on what was known of this user, and it is nothing if the
user is not its target. -/
theorem replayEntry_roles (r' : Replayed) :
    (r.roles id = r'.roles id → (replayEntry r e).roles id = (replayEntry r' e).roles id) ∧
      (e.target ≠ "user:" ++ id → (replayEntry r e).roles id = r.roles id) := by
  rw [replayEntry, replayEntry]
  split <;> first
    | exact ⟨setTarget_congr, setTarget_of_ne⟩
    | exact ⟨fun h => h, fun _ => rfl⟩

theorem replayEntry_statuses (r' : Replayed) :
    (r.statuses id = r'.statuses id →
      (replayEntry r e).statuses id = (replayEntry r' e).statuses id) ∧
      (e.target ≠ "batch:" ++ id → (replayEntry r e).statuses id = r.statuses id) := by
  rw [replayEntry, replayEntry]
  split <;> first
    | exact ⟨setTarget_congr, setTarget_of_ne⟩
    | exact ⟨fun h => h, fun _ => rfl⟩

theorem replayEntry_relabels (r' : Replayed) :
    (r.relabels id = r'.relabels id →
      (replayEntry r e).relabels id = (replayEntry r' e).relabels id) ∧
      (e.target ≠ "prediction:" ++ id → (replayEntry r e).relabels id = r.relabels id) := by
  rw [replayEntry, replayEntry]
  split <;> first
    | exact ⟨setTarget_congr, setTarget_of_ne⟩
    | exact ⟨fun h => h, fun _ => rfl⟩

/-- Only the order of the entries of each target counts. -/
theorem replay_sameByKey (h : SameByKey AuditLog.target log log') :
    replay r log' = replay r log := by
  refine Replayed.ext (funext fun id => ?_) (funext fun id => ?_) (funext fun id => ?_)
  · exact h.foldl (f := replayEntry) (·.roles id) ("user:" ++ id)
      (fun _ _ _ => (replayEntry_roles _).1)
      (fun r _ => (replayEntry_roles r).2) r
  · exact h.foldl (f := replayEntry) (·.statuses id) ("batch:" ++ id)
      (fun _ _ _ => (replayEntry_statuses _).1)
      (fun r _ => (replayEntry_statuses r).2) r
  · exact h.foldl (f := replayEntry) (·.relabels id) ("prediction:" ++ id)
      (fun _ _ _ => (replayEntry_relabels _).1)
      (fun r _ => (replayEntry_relabels r).2) r

/-- The entries of each target are listed in the order of their times. -/
def TimesInOrder (log : List AuditLog) : Prop :=
  ∀ target, (log.filter (·.target = target)).Pairwise (·.timestamp ≤ ·.timestamp)

theorem TimesInOrder.sameByKey (h : TimesInOrder log) :
    SameByKey AuditLog.target log (log.mergeSort (·.timestamp ≤ ·.timestamp)) :=
  sameByKey_mergeSort h

end

section
variable {ι : Type} {calls : ι → Call × Gen} {v v' : Timeline Tables} {c : ι × List String}
  {cs : List (ι × List String)}

theorem CallLands.logs (h : CallLands calls v c v') :
    (calls c.1).1.Logs (calls c.1).2 v.db v'.db := by
  obtain ⟨t, h, rfl⟩ := h
  exact Call.Lands.logs h

/-- The users that the calls delete. -/
def deletedBy (calls : ι → Call × Gen) (cs : List (ι × List String)) : List String :=
  cs.flatMap fun c => (calls c.1).1.deletedUser?.toList

/-- Actor and target of the entries of the calls, where a later call may delete the actor. -/
def entriesOf (calls : ι → Call × Gen) : List (ι × List String) → List (Option String × String)
  | [] => []
  | c :: cs => ((calls c.1).1.audited (calls c.1).2).toList.map
      (fun a => (a.1.filter (· ∉ deletedBy calls cs), a.2)) ++ entriesOf calls cs

/-- The log after a run of calls. -/
theorem logs_of_lands (h : Run (CallLands calls) v cs v') : ∃ es : List AuditLog,
    v'.db.auditLogs = v.db.auditLogs.map (·.setNulls (deletedBy calls cs)) ++ es ∧
      es.map (fun e => (e.actorId, e.target)) = entriesOf calls cs := by
  induction h with
  | nil => exact ⟨[], by simp [deletedBy], rfl⟩
  | @cons v u v' c cs hs _ ih =>
    obtain ⟨es, hlog, hes⟩ := hs.logs
    obtain ⟨es', hlog', hes'⟩ := ih
    refine ⟨es.map (·.setNulls (deletedBy calls cs)) ++ es', ?_, ?_⟩
    · rw [hlog', hlog]
      simp [deletedBy, AuditLog.setNulls_append]
    · rw [List.map_append, hes', entriesOf, ← hes, List.map_map, List.map_map]
      rfl

theorem replays_of_lands {r : Replayed} (h : Run (CallLands calls) v cs v')
    (hr : Replays r v.db) : Replays r v'.db := by
  refine h.inv (I := fun v => Replays r v.db) ?_ hr
  rintro u c _ hr ⟨t, hlands, rfl⟩
  exact hlands.replays hr

end

section
variable {ι : Type} [DecidableEq ι]

/-- The letter, with a reviewer. -/
def letterReviewed : Tables :=
  { letterSaved with
    users := ⟨[⟨"ada", "ada@x", "", .admin, true, 0⟩, ⟨"bob", "bob@x", "", .reviewer, true, 0⟩],
      by decide⟩ }

/-- Bob relabels the letter while Ada deletes him. -/
def deletedReviewer : Bool → Call × Gen
  | false => (.relabel "p" ⟨"invoice", by decide⟩ ⟨"bob", "bob@x", .reviewer, true, 0⟩, .noId 1)
  | true => (.deleteUser "bob" ⟨"ada", "ada@x", .admin, true, 0⟩, .noId 2)

/-- Ada's call has looked Bob up before he begins. -/
def deletedReviewerEvents : List (Event Bool Exn) :=
  [.begin true, .stmt true, .begin false, .stmt false, .stmt false, .stmt false, .stmt false,
    .stmt true, .stmt true, .stmt true]

theorem run_deletedReviewer : ∃ s,
    Run (Steps (callStep deletedReviewer)) (Sys.start letterReviewed) deletedReviewerEvents s ∧
      s.server.db.auditLogs.length = 2 ∧ s.server.db.users.find? "bob" = none ∧
      (s.server.db.predictions.find? "p").isSome ∧ TimesInOrder s.server.db.auditLogs := by
  have h : ((exec (callStep deletedReviewer) (Sys.start letterReviewed)
      deletedReviewerEvents).map fun s => decide (s.server.db.auditLogs.length = 2 ∧
        s.server.db.users.find? "bob" = none ∧ (s.server.db.predictions.find? "p").isSome ∧
        s.server.db.auditLogs.Pairwise (·.timestamp ≤ ·.timestamp))) =
      some true := by decide +kernel
  obtain ⟨s, hs, hfacts⟩ := Option.map_eq_some_iff.mp h
  obtain ⟨hlog, hbob, hp, htimes⟩ := of_decide_eq_true hfacts
  exact ⟨s, exec_eq_some.mp hs, hlog, hbob, hp, fun _ => htimes.filter _⟩

/-- The log replays to the tables, in the order of the commits and in every order that keeps that of
the entries of each target. -/
structure ReplaysInOrders (r : Replayed) (t : Tables) : Prop where
  commits : Replays r t
  orders : ∀ log, SameByKey AuditLog.target t.auditLogs log → replay r log = t.current
  times : TimesInOrder t.auditLogs →
    replay r (t.auditLogs.mergeSort (·.timestamp ≤ ·.timestamp)) = t.current

theorem Replays.inOrders {r : Replayed} {t : Tables} (h : Replays r t) : ReplaysInOrders r t where
  commits := h
  orders _ hlog := (replay_sameByKey hlog).trans h
  times ht := (replay_sameByKey ht.sameByKey).trans h

/-- However the calls overlap, the audit log replays to the committed tables: the roles, the
statuses and the labels are those that its entries set, in the order of the commits. -/
theorem concurrent_log_replays (calls : ι → Call × Gen) {r : Replayed} {t : Tables}
    {es : List (Event ι Exn)} {s : CallSys ι} (hr : Replays r t)
    (h : Run (Steps (callStep calls)) (Sys.start t) es s) : ReplaysInOrders r s.server.db := by
  obtain ⟨v, H, hrun⟩ := callsOutlined_start.run h
  exact (H.db ▸ replays_of_lands hrun hr).inOrders

/-- Both entries are read by time. -/
theorem concurrent_log_replays_deletedReviewer : ∃ s,
    Run (Steps (callStep deletedReviewer)) (Sys.start letterReviewed) deletedReviewerEvents s ∧
      s.server.db.auditLogs.length = 2 ∧ replay letterReviewed.current
        (s.server.db.auditLogs.mergeSort (·.timestamp ≤ ·.timestamp)) = s.server.db.current := by
  obtain ⟨s, hs, hlog, -, -, htimes⟩ := run_deletedReviewer
  have hr : Replays letterReviewed.current letterReviewed := rfl
  exact ⟨s, hs, hlog, (concurrent_log_replays deletedReviewer hr hs).times htimes⟩

/-- However the calls overlap, the log gets one entry for each audited call that commits, listed in
the order of the commits, and what was there changes by `ON DELETE SET NULL` only. -/
theorem concurrent_audit_trail (calls : ι → Call × Gen) {t : Tables} {es : List (Event ι Exn)}
    {s : CallSys ι} (h : Run (Steps (callStep calls)) (Sys.start t) es s) :
    ∃ entries : List AuditLog, s.server.db.auditLogs = t.auditLogs.map
        (·.setNulls (deletedBy calls (callCommits calls (Sys.start t) es))) ++ entries ∧
      entries.map (fun e => (e.actorId, e.target)) =
        entriesOf calls (callCommits calls (Sys.start t) es) := by
  obtain ⟨v, H, hrun⟩ := callsOutlined_start.run h
  exact H.db ▸ logs_of_lands hrun

/-- Bob's entry has lost its actor. -/
theorem concurrent_audit_trail_deletedReviewer : ∃ s,
    Run (Steps (callStep deletedReviewer)) (Sys.start letterReviewed) deletedReviewerEvents s ∧
      s.server.db.auditLogs.map (fun e => (e.actorId, e.target)) =
        [(none, "prediction:p"), (some "ada", "user:bob")] := by
  obtain ⟨s, hs, -⟩ := run_deletedReviewer
  obtain ⟨entries, hlog, hentries⟩ := concurrent_audit_trail deletedReviewer hs
  have hold : letterReviewed.auditLogs = [] := rfl
  rw [hold, List.map_nil, List.nil_append] at hlog
  exact ⟨s, hs, by rw [hlog, hentries]; decide +kernel⟩

end

/-! ## The rows -/

/-- What does not change in a row of `users`, apart from the id. -/
def UserORM.fixed (u : UserORM) : String × String × Bool × Nat :=
  (u.email, u.hashedPassword, u.isActive, u.createdAt)

/-- The role that a call gives to the user `id`. -/
def Call.setsRole (g : Gen) (id : String) : Call → Option Role
  | .createUser _ data _ => if g.uuid = id then some data.role else none
  | .changeRole userId update _ => if userId = id then some update.role else none
  | _ => none

/-- The status that a call gives to the batch `id`. -/
def Call.setsStatus (g : Gen) (id : String) : Call → Option BatchStatus
  | .createBatch data _ => if (data.getD { id := g.uuid }).id = id then some .pending else none
  | .markProcessing batchId => if batchId = id then some .processing else none
  | .markDone batchId => if batchId = id then some .done else none
  | .markFailed batchId => if batchId = id then some .failed else none
  | _ => none

/-- The relabeled class that a call gives to the prediction `id`: none when it makes the row. -/
def Call.setsLabel (g : Gen) (id : String) : Call → Option (Option String)
  | .savePrediction .. => if g.uuid = id then some none else none
  | .relabel predictionId update _ =>
    if predictionId = id then some (some update.relabeledClass) else none
  | _ => none

/-- An admin creates the user. -/
def Call.MakesUser (g : Gen) (c : Call) (u : UserORM) : Prop :=
  ∃ hashPassword data actor, c = .createUser hashPassword data actor ∧ actor.role = .admin ∧
    u = UserService.newUser hashPassword g data

def Call.MakesBatch (g : Gen) (c : Call) (b : Batch) : Prop :=
  ∃ data actor, c = .createBatch data actor ∧
    b = BatchService.newBatch g (data.getD { id := g.uuid })

def Call.MakesPrediction (g : Gen) (c : Call) (p : Prediction) : Prop :=
  ∃ batchId data, c = .savePrediction batchId data ∧
    p = PredictionService.newPrediction g batchId data

section
variable {g : Gen} {v : Timeline Tables} {t' : Tables} {c : Call} {keys : List String} {id : String}

theorem Call.Lands.user {u : UserORM} (h : c.Lands g v keys t')
    (hu : t'.users.find? id = some u) :
    (∃ w, v.db.users.find? id = some w ∧ u.fixed = w.fixed ∧
      u.role = (c.setsRole g id).getD w.role) ∨
    c.MakesUser g u ∧ c.setsRole g id = some u.role := by
  cases h with
  | @createUser hashPassword data actor hr hid =>
    have hid' : v.db.users.find? (UserService.newUser hashPassword g data).id = none := hid
    rw [Table.find?_insert hid'] at hu
    split at hu
    · rename_i hk
      cases hu
      exact .inr ⟨⟨_, _, _, rfl, hr, rfl⟩, if_pos hk⟩
    · rename_i hk
      have hsets : (Call.createUser hashPassword data actor).setsRole g id = none := if_neg hk
      exact .inl ⟨u, hu, rfl, by rw [hsets]; rfl⟩
  | changeRole hr ht =>
    rw [Table.find?_modify] at hu
    split at hu
    · rename_i hk
      obtain ⟨w, hw, rfl⟩ := Option.map_eq_some_iff.mp hu
      exact .inl ⟨w, hw, rfl, by rw [Call.setsRole, if_pos hk]; rfl⟩
    · rename_i hk
      exact .inl ⟨u, hu, rfl, by rw [Call.setsRole, if_neg hk]; rfl⟩
  | deleteUser =>
    rw [Table.find?_erase] at hu
    split at hu
    · cases hu
    · exact .inl ⟨u, hu, rfl, rfl⟩
  | transition htr => cases c <;> cases htr <;> exact .inl ⟨u, hu, rfl, rfl⟩
  | createBatch | savePrediction | relabel => exact .inl ⟨u, hu, rfl, rfl⟩

theorem Call.setsStatus_transition {batchId : String} {newStatus : BatchStatus}
    {allowed : List BatchStatus} (h : c.transition? = some (batchId, newStatus, allowed)) :
    c.setsStatus g id = if batchId = id then some newStatus else none := by
  cases c <;> cases h <;> rfl

theorem Call.Lands.batch {b : Batch} (h : c.Lands g v keys t')
    (hb : t'.batches.find? id = some b) :
    (∃ a, v.db.batches.find? id = some a ∧ b.fixed = a.fixed ∧
      b.status = (c.setsStatus g id).getD a.status) ∨
    c.MakesBatch g b ∧ c.setsStatus g id = some b.status := by
  cases h with
  | @createBatch data actor d hd hid =>
    subst hd
    have hid' :
        v.db.batches.find? (BatchService.newBatch g (data.getD { id := g.uuid })).id = none := hid
    rw [Table.find?_insert hid'] at hb
    split at hb
    · rename_i hk
      cases hb
      exact .inr ⟨⟨_, _, rfl, rfl⟩, if_pos hk⟩
    · rename_i hk
      have hsets : (Call.createBatch data actor).setsStatus g id = none := if_neg hk
      exact .inl ⟨b, hb, rfl, by rw [hsets]; rfl⟩
  | transition htr =>
    rw [Call.setsStatus_transition htr]
    rw [Table.find?_modify] at hb
    split at hb
    · rename_i hk
      obtain ⟨a, ha, rfl⟩ := Option.map_eq_some_iff.mp hb
      exact .inl ⟨a, ha, rfl, by rw [if_pos hk]; rfl⟩
    · rename_i hk
      exact .inl ⟨b, hb, rfl, by rw [if_neg hk]; rfl⟩
  | createUser | changeRole | deleteUser | savePrediction | relabel =>
    exact .inl ⟨b, hb, rfl, rfl⟩

theorem Call.Lands.prediction {p : Prediction} (h : c.Lands g v keys t')
    (hp : t'.predictions.find? id = some p) :
    (∃ q, v.db.predictions.find? id = some q ∧ p.unlabeled = q.unlabeled ∧
      p.relabeledClass = (c.setsLabel g id).getD q.relabeledClass) ∨
    c.MakesPrediction g p ∧ c.setsLabel g id = some p.relabeledClass := by
  cases h with
  | @savePrediction batchId data hid hb =>
    have hid' : v.db.predictions.find? (PredictionService.newPrediction g batchId data).id = none :=
      hid
    rw [Table.find?_insert hid'] at hp
    split at hp
    · rename_i hk
      cases hp
      exact .inr ⟨⟨_, _, rfl, rfl⟩, if_pos hk⟩
    · rename_i hk
      have hsets : (Call.savePrediction batchId data).setsLabel g id = none := if_neg hk
      exact .inl ⟨p, hp, rfl, by rw [hsets]; rfl⟩
  | relabel =>
    rw [Table.find?_modify] at hp
    split at hp
    · rename_i hk
      obtain ⟨q, hq, rfl⟩ := Option.map_eq_some_iff.mp hp
      exact .inl ⟨q, hq, rfl, by rw [Call.setsLabel, if_pos hk]; rfl⟩
    · rename_i hk
      exact .inl ⟨p, hp, rfl, by rw [Call.setsLabel, if_neg hk]; rfl⟩
  | transition htr => cases c <;> cases htr <;> exact .inl ⟨p, hp, rfl, rfl⟩
  | createUser | changeRole | deleteUser | createBatch => exact .inl ⟨p, hp, rfl, rfl⟩

/-- Only an admin deletes a user, and not itself. -/
theorem Call.Lands.deleted {u : UserORM} (h : c.Lands g v keys t')
    (hu : v.db.users.find? id = some u) (hnone : t'.users.find? id = none) :
    ∃ actor, c = .deleteUser id actor ∧ actor.role = .admin ∧ id ≠ actor.id := by
  cases h with
  | createUser =>
    rw [Table.find?_insert_of_some hu] at hnone
    cases hnone
  | changeRole =>
    rw [Table.find?_modify, hu] at hnone
    split at hnone <;> cases hnone
  | @deleteUser userId actor target hr hne =>
    rw [Table.find?_erase] at hnone
    split at hnone
    · rename_i hk
      subst hk
      exact ⟨actor, rfl, hr, hne⟩
    · cases hu.symm.trans hnone
  | createBatch | transition | savePrediction | relabel => cases hu.symm.trans hnone

/-- The guard of `relabel`, of the row as it is after the call. -/
theorem Call.Lands.relabeler {update : PredictionRelabel} {actor : User}
    (h : (Call.relabel id update actor).Lands g v keys t') :
    ∃ p, v.db.predictions.find? id = some p ∧
      (actor.role = .admin ∨ actor.role = .reviewer ∧ p.confidence < 7 / 10) := by
  cases h with
  | transition htr => cases htr
  | relabel hr hp hconf =>
    refine ⟨_, hp, ?_⟩
    rcases List.mem_cons.mp hr with ha | hrev
    · exact .inl ha
    · have hrev := List.mem_singleton.mp hrev
      exact .inr ⟨hrev, Rat.not_le.mp fun hle => hconf ⟨hrev, hle⟩⟩

end

section
variable {ι : Type} (calls : ι → Call × Gen) (t : Tables) (cs : List (ι × List String))

/-- The user `id` with the row `u` was there at the start or an admin has created it since, with the
same email and password, and its role is the one that was set last. -/
def UserFrom (id : String) (u : UserORM) : Prop :=
  StemsFrom (fun t : Tables => t.users.find? id) UserORM.fixed (·.role)
    (fun c u => (calls c.1).1.MakesUser (calls c.1).2 u)
    (fun c => (calls c.1).1.setsRole (calls c.1).2 id) t cs u

def BatchFrom (id : String) (b : Batch) : Prop :=
  StemsFrom (fun t : Tables => t.batches.find? id) Batch.fixed (·.status)
    (fun c b => (calls c.1).1.MakesBatch (calls c.1).2 b)
    (fun c => (calls c.1).1.setsStatus (calls c.1).2 id) t cs b

def PredictionFrom (id : String) (p : Prediction) : Prop :=
  StemsFrom (fun t : Tables => t.predictions.find? id) Prediction.unlabeled (·.relabeledClass)
    (fun c p => (calls c.1).1.MakesPrediction (calls c.1).2 p)
    (fun c => (calls c.1).1.setsLabel (calls c.1).2 id) t cs p

end

section
variable {ι : Type} {calls : ι → Call × Gen} {v v' : Timeline Tables}
  {cs : List (ι × List String)} {id : String}

theorem userFrom_of_lands (h : Run (CallLands calls) v cs v') {u : UserORM}
    (hu : v'.db.users.find? id = some u) : UserFrom calls v.db cs id u := by
  refine h.stemsFrom (fun t : Tables => t.users.find? id) (·.db) ?_ hu
  rintro v c _ u ⟨t, hlands, rfl⟩ hu
  exact .of_step (hlands.user hu)

theorem batchFrom_of_lands (h : Run (CallLands calls) v cs v') {b : Batch}
    (hb : v'.db.batches.find? id = some b) : BatchFrom calls v.db cs id b := by
  refine h.stemsFrom (fun t : Tables => t.batches.find? id) (·.db) ?_ hb
  rintro v c _ b ⟨t, hlands, rfl⟩ hb
  exact .of_step (hlands.batch hb)

theorem predictionFrom_of_lands (h : Run (CallLands calls) v cs v') {p : Prediction}
    (hp : v'.db.predictions.find? id = some p) : PredictionFrom calls v.db cs id p := by
  refine h.stemsFrom (fun t : Tables => t.predictions.find? id) (·.db) ?_ hp
  rintro v c _ p ⟨t, hlands, rfl⟩ hp
  exact .of_step (hlands.prediction hp)

theorem deletions_of_lands {u : UserORM} (h : Run (CallLands calls) v cs v')
    (hu : v.db.users.find? id = some u) (hnone : v'.db.users.find? id = none) :
    ∃ c ∈ cs, ∃ actor, (calls c.1).1 = .deleteUser id actor ∧ actor.role = .admin ∧
      id ≠ actor.id := by
  induction h generalizing u with
  | nil => cases hu.symm.trans hnone
  | @cons v v₁ v' c cs hs _ ih =>
    obtain ⟨t, hlands, rfl⟩ := hs
    cases ht : t.users.find? id with
    | none => exact ⟨c, List.mem_cons_self, hlands.deleted hu ht⟩
    | some w =>
      obtain ⟨d, hd, h⟩ := ih ht hnone
      exact ⟨d, List.mem_cons_of_mem _ hd, h⟩

/-- The prediction that has been relabeled is there, and its relabeler was allowed to do so. -/
theorem relabelers_of_lands (h : Run (CallLands calls) v cs v') {c : ι × List String}
    (hc : c ∈ cs) {update : PredictionRelabel} {actor : User}
    (hcall : (calls c.1).1 = .relabel id update actor) :
    ∃ p, v'.db.predictions.find? id = some p ∧
      (actor.role = .admin ∨ actor.role = .reviewer ∧ p.confidence < 7 / 10) := by
  induction h with
  | nil => cases hc
  | @cons v v₁ v' d cs hs hrun ih =>
    rcases List.mem_cons.mp hc with rfl | hc
    · obtain ⟨t, hlands, rfl⟩ := hs
      rw [hcall] at hlands
      obtain ⟨q, hq, hallowed⟩ := hlands.relabeler
      -- The confidence is still the same.
      obtain ⟨p, hp, heq⟩ := (hlands.keepsRows.trans (keepsRows_of_lands hrun)).predictions _ _ hq
      have hconf : p.confidence = q.confidence := congrArg (·.confidence) heq
      exact ⟨p, hp, hconf ▸ hallowed⟩
    · exact ih hc

end

section
variable {ι : Type} [DecidableEq ι]

/-- However the calls overlap, an email, a password hash and an activity flag are those with which
the user was created, the role of a user is the one that was set last, only admins create users, and
only admins delete them, none itself. -/
theorem concurrent_users (calls : ι → Call × Gen) {t : Tables} {es es' : List (Event ι Exn)}
    {s s' : CallSys ι} (h : Run (Steps (callStep calls)) (Sys.start t) es s)
    (h' : Run (Steps (callStep calls)) s es' s') (id : String) :
    ∀ u, s.server.db.users.find? id = some u →
      UserFrom calls t (callCommits calls (Sys.start t) es) id u ∧
      (s'.server.db.users.find? id = none → ∃ c ∈ callCommits calls s es', ∃ actor,
        (calls c.1).1 = .deleteUser id actor ∧ actor.role = .admin ∧ id ≠ actor.id) := by
  intro u hu
  obtain ⟨v, H, hrun⟩ := callsOutlined_start.run h
  obtain ⟨v', H', hrun'⟩ := H.run h'
  rw [← H.db] at hu
  rw [← H'.db]
  exact ⟨userFrom_of_lands hrun hu, deletions_of_lands hrun' hu⟩

/-- Bob is gone because Ada has deleted him. -/
theorem concurrent_users_deletedReviewer : ∃ s,
    Run (Steps (callStep deletedReviewer)) (Sys.start letterReviewed) deletedReviewerEvents s ∧
      ∃ c ∈ callCommits deletedReviewer (Sys.start letterReviewed) deletedReviewerEvents, ∃ actor,
        (deletedReviewer c.1).1 = .deleteUser "bob" actor ∧ actor.role = .admin := by
  obtain ⟨s, hs, -, hbob, -⟩ := run_deletedReviewer
  obtain ⟨c, hc, actor, hcall, hadmin, -⟩ :=
    (concurrent_users deletedReviewer .nil hs "bob" ⟨"bob", "bob@x", "", .reviewer, true, 0⟩ rfl).2
      hbob
  exact ⟨s, hs, c, hc, actor, hcall, hadmin⟩

/-- However the calls overlap, no prediction is lost, its columns are those with which it was saved,
its label is the one that was set last, and every label that was set was set by an admin or, under
the threshold, by a reviewer. -/
theorem concurrent_predictions (calls : ι → Call × Gen) {t : Tables} {es es' : List (Event ι Exn)}
    {s s' : CallSys ι} (h : Run (Steps (callStep calls)) (Sys.start t) es s)
    (h' : Run (Steps (callStep calls)) s es' s') (id : String) :
    (∀ p, s.server.db.predictions.find? id = some p →
      PredictionFrom calls t (callCommits calls (Sys.start t) es) id p ∧
      ∃ p', s'.server.db.predictions.find? id = some p' ∧ p'.unlabeled = p.unlabeled) ∧
    ∀ c ∈ callCommits calls (Sys.start t) es, ∀ update actor,
      (calls c.1).1 = .relabel id update actor → ∃ p, s.server.db.predictions.find? id = some p ∧
        (actor.role = .admin ∨ actor.role = .reviewer ∧ p.confidence < 7 / 10) := by
  obtain ⟨v, H, hrun⟩ := callsOutlined_start.run h
  obtain ⟨v', H', hrun'⟩ := H.run h'
  rw [← H.db, ← H'.db]
  refine ⟨fun p hp => ⟨predictionFrom_of_lands hrun hp, ?_⟩,
    fun c hc update actor hcall => relabelers_of_lands hrun hc hcall⟩
  exact (keepsRows_of_lands hrun').predictions id p hp

theorem concurrent_predictions_deletedReviewer : ∃ s p,
    Run (Steps (callStep deletedReviewer)) (Sys.start letterReviewed) deletedReviewerEvents s ∧
      s.server.db.predictions.find? "p" = some p ∧
      PredictionFrom deletedReviewer letterReviewed
        (callCommits deletedReviewer (Sys.start letterReviewed) deletedReviewerEvents) "p" p := by
  obtain ⟨s, hs, -, -, hp, -⟩ := run_deletedReviewer
  obtain ⟨p, hp⟩ := Option.isSome_iff_exists.mp hp
  exact ⟨s, p, hs, hp, ((concurrent_predictions deletedReviewer hs .nil "p").1 p hp).1⟩

/-- However the calls overlap, a batch stays, its file count is the one with which it was created
and its status is the one that was set last. -/
theorem concurrent_batches (calls : ι → Call × Gen) {t : Tables} {es es' : List (Event ι Exn)}
    {s s' : CallSys ι} (h : Run (Steps (callStep calls)) (Sys.start t) es s)
    (h' : Run (Steps (callStep calls)) s es' s') (id : String) :
    ∀ b, s.server.db.batches.find? id = some b →
      BatchFrom calls t (callCommits calls (Sys.start t) es) id b ∧
      ∃ b', s'.server.db.batches.find? id = some b' ∧ b'.fixed = b.fixed := by
  intro b hb
  obtain ⟨v, H, hrun⟩ := callsOutlined_start.run h
  obtain ⟨v', H', hrun'⟩ := H.run h'
  rw [← H.db] at hb
  rw [← H'.db]
  exact ⟨batchFrom_of_lands hrun hb, (keepsRows_of_lands hrun').batches id b hb⟩

theorem concurrent_batches_deletedReviewer : ∃ s b,
    Run (Steps (callStep deletedReviewer)) (Sys.start letterReviewed) deletedReviewerEvents s ∧
      s.server.db.batches.find? "b" = some b ∧ b.fixed = (1, 0) := by
  obtain ⟨s, hs, -⟩ := run_deletedReviewer
  obtain ⟨-, b, hb, hfixed⟩ := concurrent_batches deletedReviewer .nil hs "b" ⟨"b", .done, 1, 0⟩ rfl
  exact ⟨s, b, hs, hb, hfixed⟩

end

end DocClassifier
