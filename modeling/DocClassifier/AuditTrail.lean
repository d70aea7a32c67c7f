import DocClassifier.Queries
import DocClassifier.Rollback

/-!
# The audit log is append-only

A call appends one entry when its transaction commits, `save_prediction` and the read methods append
none, and the only thing that ever happens to an earlier entry is `ON DELETE SET NULL`. A call that
raises while it deletes cache keys has appended its entry all the same.
-/

namespace DocClassifier
open ReadCommitted Transition

/-- An operation of a serial run: a mutating call, with faults in its transaction and in its
deletions, or a read call. -/
inductive Operation where
  | call (c : Call) (g : Gen) (f d : Fault Exn)
  | read (q : Query) (f : Fault Exn)

def Operation.serve (t : Tables) : Operation → Tables
  | .call c g f d => (c.perform g f d t).2
  | .read q f => q.serve f t

def serveOperations (t : Tables) (ops : List Operation) : Tables :=
  ops.foldl (fun t op => op.serve t) t

/-- Actor and target of the entry that a call appends. -/
def Call.audited (g : Gen) : Call → Option (Option String × String)
  | .createUser _ _ actor => some (some actor.id, "user:" ++ g.uuid)
  | .changeRole targetUserId _ actor => some (some actor.id, "user:" ++ targetUserId)
  | .deleteUser targetUserId actor => some (some actor.id, "user:" ++ targetUserId)
  | .createBatch data actor => some (actor.map (·.id), "batch:" ++ (data.getD { id := g.uuid }).id)
  | .markProcessing batchId | .markDone batchId | .markFailed batchId =>
    some (none, "batch:" ++ batchId)
  | .savePrediction .. => none
  | .relabel predictionId _ actor => some (some actor.id, "prediction:" ++ predictionId)

def Call.deletedUser? : Call → Option String
  | .deleteUser targetUserId _ => some targetUserId
  | _ => none

/-- Actor and target of the entry that an operation appends on `t`. -/
def Operation.audited (t : Tables) : Operation → List (Option String × String)
  | .call c g f _ => if c.commits g f t then (c.audited g).toList else []
  | .read .. => []

/-- The user that an operation deletes on `t`. -/
def Operation.deletedUsers (t : Tables) : Operation → List String
  | .call c g f _ => if c.commits g f t then c.deletedUser?.toList else []
  | .read .. => []

/-- `ON DELETE SET NULL` for the deleted users. -/
def AuditLog.setNulls (userIds : List String) (e : AuditLog) : AuditLog :=
  { e with actorId := e.actorId.filter (· ∉ userIds) }

section
variable {e : AuditLog} {userIds userIds' : List String}

@[simp] theorem AuditLog.setNulls_nil : e.setNulls [] = e := by
  obtain ⟨actorId, action, target, details, timestamp⟩ := e
  cases actorId <;> rfl

theorem AuditLog.setNulls_singleton {userId : String} : e.setNulls [userId] = e.setNull userId := by
  rw [setNulls, setNull]
  cases e.actorId <;> simp [Option.filter]

theorem AuditLog.setNulls_append :
    e.setNulls (userIds ++ userIds') = (e.setNulls userIds).setNulls userIds' := by
  simp only [setNulls, Option.filter_filter, List.mem_append, not_or, Bool.decide_and]

end

/-- What an operation does to the audit log: the entries that are there keep their place and what
they say, apart from the deleted actors, and the new entry comes after them. -/
def LogStep (t : Tables) (op : Operation) (t' : Tables) : Prop :=
  ∃ es : List AuditLog, t'.auditLogs = t.auditLogs.map (·.setNulls (op.deletedUsers t)) ++ es ∧
    es.map (fun e => (e.actorId, e.target)) = op.audited t

/-- What the transaction of `c` does to the log when it commits. -/
def Call.Logs (g : Gen) (c : Call) (t t' : Tables) : Prop :=
  ∃ es : List AuditLog, t'.auditLogs = t.auditLogs.map (·.setNulls c.deletedUser?.toList) ++ es ∧
    es.map (fun e => (e.actorId, e.target)) = (c.audited g).toList

section
variable {c : Call} {g : Gen} {t t' : Tables} {keys : List String}

theorem Call.Logs.of_append {es : List AuditLog} (hdel : c.deletedUser? = none)
    (hlog : t'.auditLogs = t.auditLogs ++ es)
    (hes : es.map (fun e => (e.actorId, e.target)) = (c.audited g).toList) : c.Logs g t t' := by
  refine ⟨es, ?_, hes⟩
  rw [hlog, hdel]
  simp

theorem Call.Done.logs (h : c.Done g t keys t') : c.Logs g t t' := by
  cases h with
  | @deleteUser userId actor target hr hne =>
    refine ⟨[(UserService.userDeleted g target userId actor).setNull userId], ?_, ?_⟩
    · simp [Call.deletedUser?, AuditLog.setNulls_singleton]
    · -- The actor is not the deleted user.
      simp [AuditLog.setNull, UserService.userDeleted, Call.audited, hne.symm]
  | createBatch hd =>
    subst hd
    exact .of_append rfl rfl rfl
  | transition htr => cases c <;> cases htr <;> exact .of_append rfl rfl rfl
  | savePrediction => exact .of_append rfl (List.append_nil _).symm rfl
  | createUser | changeRole | relabel => exact .of_append rfl rfl rfl

end

theorem logStep_serve (t : Tables) (op : Operation) : LogStep t op (op.serve t) := by
  cases op with
  | read q f => exact ⟨[], by simp [Operation.serve, Query.serve_eq, Operation.deletedUsers], rfl⟩
  | call c g f d =>
    rw [LogStep, Operation.serve, Operation.deletedUsers, Operation.audited]
    rcases c.perform_cases g f d t with ⟨hc, e, hp⟩ | ⟨hc, keys, t', hdone, hp⟩
    · rw [hp, hc]
      exact ⟨[], by simp, rfl⟩
    · rw [hp, hc]
      exact hdone.logs

/-! ## A serial run -/

/-- The users that the operations of a run delete. -/
def deletedUsers (t : Tables) : List Operation → List String
  | [] => []
  | op :: ops => op.deletedUsers t ++ deletedUsers (op.serve t) ops

/-- Actor and target of the entries that the operations of a run append. -/
def audited (t : Tables) : List Operation → List (Option String × String)
  | [] => []
  | op :: ops => op.audited t ++ audited (op.serve t) ops

theorem logStep_run (t : Tables) (ops : List Operation) :
    Run (fun u op v => v = op.serve u ∧ LogStep u op v) t ops (serveOperations t ops) := by
  induction ops generalizing t with
  | nil => exact .nil
  | cons op ops ih => exact .cons ⟨rfl, logStep_serve t op⟩ (ih _)

theorem auditLogs_serveOperations (t : Tables) (ops : List Operation) :
    ∃ es : List AuditLog, (serveOperations t ops).auditLogs =
        t.auditLogs.map (·.setNulls (deletedUsers t ops)) ++ es ∧
      es.map (·.target) = (audited t ops).map (·.2) := by
  induction ops generalizing t with
  | nil => exact ⟨[], by simp [serveOperations, deletedUsers], rfl⟩
  | cons op ops ih =>
    obtain ⟨es, hlog, hes⟩ := logStep_serve t op
    obtain ⟨es', hlog', hes'⟩ := ih (op.serve t)
    refine ⟨es.map (·.setNulls (deletedUsers (op.serve t) ops)) ++ es', ?_, ?_⟩
    · rw [serveOperations, List.foldl_cons, ← serveOperations, hlog', hlog]
      simp [deletedUsers, AuditLog.setNulls_append]
    · have htargets : es.map (·.target) = (op.audited t).map (·.2) := by
        rw [← hes, List.map_map]
        rfl
      rw [List.map_append, List.map_map, hes', audited, List.map_append, ← htargets]
      rfl

/-- The audit log over serial runs: each operation does to it what `LogStep` says, so what is there
stays in front, with the actors that have been deleted set to null, and the new entries follow in
the order of the operations. The calls that return are among the ones that commit. -/
theorem audit_trail (t : Tables) (ops : List Operation) :
    Run (fun u op v => v = op.serve u ∧ LogStep u op v) t ops (serveOperations t ops) ∧
      (∃ es : List AuditLog, (serveOperations t ops).auditLogs =
          t.auditLogs.map (·.setNulls (deletedUsers t ops)) ++ es ∧
        es.map (·.target) = (audited t ops).map (·.2)) ∧
      ∀ u c g f d, (Call.perform g f d u c).1 = .ok () → c.commits g f u = true :=
  ⟨logStep_run t ops, auditLogs_serveOperations t ops, fun _ _ _ _ _ => Call.commits_of_ok⟩

/-- `create_user` fails at Redis, after its commit, and has appended an entry. -/
theorem entry_of_raised_call :
    (createBob.perform { uuid := "bob", now := 1 } none (some (0, .infrastructure "redis"))
        oneAdmin).1 = .error (.infrastructure "redis") ∧
      (Operation.serve oneAdmin (.call createBob { uuid := "bob", now := 1 } none
        (some (0, .infrastructure "redis")))).auditLogs.length = oneAdmin.auditLogs.length + 1 :=
  ⟨rfl, rfl⟩

end DocClassifier
