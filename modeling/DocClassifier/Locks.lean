import DocClassifier.Records

/-!
# Locks and new keys

A transaction holds the locks of the rows it has written until it ends. So the key of a row that a
transaction has inserted is not taken by anybody else before its commit (`Pipeline.Locked`).
-/

namespace DocClassifier
open ReadCommitted Transition

/-- The key of a new batch or prediction is not taken. -/
def FreshKey : Stmt → Tables → Prop
  | .insertBatch b, t => t.batches.find? b.id = none
  | .insertPrediction p, t => t.predictions.find? p.id = none
  | _, _ => True

section
variable {w w' : Stmt} {ws : List Stmt} {t : Tables}

theorem FreshKey.of_check (h : checkStmt w t = none) : FreshKey w t := by
  cases w with
  | insertBatch b => exact checkStmt_insertBatch.mp h
  | insertPrediction p => exact (checkStmt_insertPrediction.mp h).1
  | _ => trivial

/-- A write to another row does not take the key. -/
theorem FreshKey.apply (h : FreshKey w t) (hne : ∀ k, rowStmt w = some k → rowStmt w' ≠ some k) :
    FreshKey w (applyStmt w' t) := by
  cases w with
  | insertBatch b =>
    cases w' with
    | insertBatch b' =>
      have hid : b'.id ≠ b.id := fun heq => hne _ rfl (by simp [rowStmt, heq])
      exact (Table.find?_insert_of_ne hid).trans h
    | updateStatus batchId newStatus =>
      have h' : t.batches.find? b.id = none := h
      simp [FreshKey, applyStmt, Table.find?_modify, h']
    | _ => exact h
  | insertPrediction p =>
    cases w' with
    | insertPrediction p' =>
      have hid : p'.id ≠ p.id := fun heq => hne _ rfl (by simp [rowStmt, heq])
      exact (Table.find?_insert_of_ne hid).trans h
    | relabel predictionId c =>
      have h' : t.predictions.find? p.id = none := h
      simp [FreshKey, applyStmt, Table.find?_modify, h']
    | _ => exact h
  | _ => trivial

theorem FreshKey.view (h : FreshKey w t)
    (hne : ∀ w' ∈ ws, ∀ k, rowStmt w = some k → rowStmt w' ≠ some k) :
    FreshKey w (postgres.view t ws) := by
  induction ws generalizing t with
  | nil => exact h
  | cons w' ws ih =>
    exact ih (h.apply (hne w' List.mem_cons_self)) fun w'' hw => hne w'' (List.mem_cons_of_mem _ hw)

/-- No write frees a key of a batch or a prediction. -/
theorem FreshKey.of_apply (h : FreshKey w (applyStmt w' t)) : FreshKey w t := by
  cases w with
  | insertBatch b =>
    cases hb : t.batches.find? b.id with
    | none => exact hb
    | some b' =>
      cases w' with
      | insertBatch b'' => cases h.symm.trans (Table.find?_insert_of_some hb)
      | updateStatus batchId newStatus =>
        simp only [FreshKey, applyStmt, Table.find?_modify, hb] at h
        split at h <;> cases h
      | _ => cases hb.symm.trans h
  | insertPrediction p =>
    cases hp : t.predictions.find? p.id with
    | none => exact hp
    | some p' =>
      cases w' with
      | insertPrediction p'' => cases h.symm.trans (Table.find?_insert_of_some hp)
      | relabel predictionId c =>
        simp only [FreshKey, applyStmt, Table.find?_modify, hp] at h
        split at h <;> cases h
      | _ => cases hp.symm.trans h
  | _ => trivial

theorem FreshKey.of_view (h : FreshKey w (postgres.view t ws)) : FreshKey w t := by
  induction ws generalizing t with
  | nil => exact h
  | cons w' ws ih => exact (ih h).of_apply

end

/-- What a step of the process `pid` does to the locks, when it changes its pending writes from `ws`
to `ws'`. -/
structure LockStep (pid : Pid) (s s' : Server Tables Row Pid) (ws ws' : List Stmt) : Prop where
  own : s.Holds postgres pid ws → s'.Holds postgres pid ws'
  other : ∀ j l, j ≠ pid → s.Holds postgres j l → s'.Holds postgres j l
  fresh : (∀ w ∈ ws, FreshKey w s.db) → ∀ w ∈ ws', FreshKey w s'.db
  /-- The keys of other sessions stay fresh. -/
  safe : ∀ j l, j ≠ pid → s.Holds postgres pid ws → s.Holds postgres j l →
    (∀ w ∈ l, FreshKey w s.db) → ∀ w ∈ l, FreshKey w s'.db

section
variable {pid : Pid} {s s' : Server Tables Row Pid} {ws ws' : List Stmt}

theorem LockStep.refl : LockStep pid s s ws ws :=
  ⟨id, fun _ _ _ h => h, id, fun _ _ _ _ _ h => h⟩

theorem LockStep.nil : LockStep pid s s ws [] :=
  ⟨nofun, fun _ _ _ h => h, nofun, fun _ _ _ _ _ h => h⟩

theorem LockStep.release : LockStep pid s (s.release pid) ws [] :=
  ⟨nofun, fun _ _ hj h => h.release (Ne.symm hj), nofun, fun _ _ _ _ _ h => h⟩

theorem LockStep.commit {db : Tables} (hdb : db = postgres.view s.db ws) :
    LockStep pid s { s.release pid with db } ws [] := by
  subst hdb
  refine ⟨nofun, fun _ _ hj h => h.release (Ne.symm hj), nofun, fun j l hj hown hl hf w hw => ?_⟩
  refine (hf w hw).view fun w' hw' k hk hk' => ?_
  have h1 := hl w hw k hk
  rw [hown w' hw' k hk', Option.some.injEq] at h1
  exact hj h1.symm

theorem LockStep.stmt {α : Type} {t : Txn Tables Stmt Exn α} {r : Reply Tables Stmt Exn α}
    (h : s.stmt postgres pid t = some (s', r)) :
    LockStep pid s s' t.pending (match r with
      | .running t' => t'.pending
      | _ => []) := by
  cases r with
  | running t' =>
    have hdb := Server.stmt_running_db h
    refine ⟨fun hown => hown.own h, fun j l hj hl => hl.other (Ne.symm hj) h, fun hf w hw => ?_,
      fun j l hj _ _ hf => hdb ▸ hf⟩
    rw [hdb]
    cases Server.stmt_cases h with
    | select => exact hf w hw
    | exec hr hb hc =>
      rcases List.mem_append.mp hw with hw | hw
      · exact hf w hw
      · rw [List.mem_singleton.mp hw]
        exact (FreshKey.of_check hc).of_view
  | committed a =>
    cases Server.stmt_cases h with
    | commit => exact .commit rfl
  | aborted e => cases Server.stmt_cases h <;> exact .release

theorem LockStep.thread {α : Type} {C : Classifier} {w w' : World} {th th' : Thread α} {tick : Tick}
    (h : th.step C pid w tick = some (w', th')) :
    LockStep pid w.server w'.server th.pending th'.pending := by
  cases Thread.step_cases h with
  | begin | refused | fail => exact .nil
  | io => exact (perform_server C w _ _).symm ▸ .nil
  | @stmt H s t k server r hs =>
    have hstep := LockStep.stmt hs
    cases r <;> exact hstep
  | lost => exact .release

end

/-! ## The pipeline -/

theorem JobRun.pending_next (past : List History) (th : Thread ClassifyResult) :
    (JobRun.next past th).pending = th.pending := by
  unfold JobRun.next
  split <;> rfl

namespace Pipeline

variable {C : Classifier} {s s' : Pipeline} {e : Event}

/-- Every process holds the locks of its pending writes, and the keys they take are free. -/
def Locked (s : Pipeline) : Prop :=
  ∀ pid, s.world.server.Holds postgres pid (s.pending pid) ∧
    ∀ w ∈ s.pending pid, FreshKey w s.world.server.db

theorem Locked.start (users : Table String UserORM (·.id))
    (dropZone : Table String RemoteFile (·.filename)) : (start users dropZone).Locked := by
  intro pid
  have hnil : (Pipeline.start users dropZone).pending pid = [] := by cases pid <;> rfl
  rw [hnil]
  exact ⟨nofun, nofun⟩

theorem pending_killCall {i : Nat} {c : IngestCall} (hc : s.calls[i]? = some c) :
    (s.killCall i c).pending = Function.update s.pending (.ingest i) [] :=
  pending_setCall (c := c) hc

theorem lockStep (h : s.step C e = some s') : ∃ pid ws,
    s'.pending = Function.update s.pending pid ws ∧
      LockStep pid s.world.server s'.world.server (s.pending pid) ws := by
  have hsame : ∀ {server}, server = s.world.server → ∃ pid ws,
      s.pending = Function.update s.pending pid ws ∧
        LockStep pid s.world.server server (s.pending pid) ws := by
    rintro - rfl
    exact ⟨.ingest 0, _, (Function.update_eq_self _ _).symm, .refl⟩
  cases step_cases h with
  | drop | restartIdle => exact hsame rfl
  | poll | upload =>
    obtain ⟨pid, ws, hp, hl⟩ := hsame rfl
    exact ⟨pid, ws, (pending_addCall rfl).trans hp, hl⟩
  | restart hi hc => exact ⟨_, _, pending_killCall hc, .release⟩
  | cancel hc => exact ⟨_, _, pending_killCall hc, .release⟩
  | @ingest i tick c world thread hc ht =>
    refine ⟨_, _, pending_setCall hc, ?_⟩
    rw [pending_call hc]
    exact .thread ht
  | @start n job hn hs => exact ⟨_, _, pending_setJob, .nil⟩
  | @job n tick th th' world hs ht =>
    refine ⟨_, _, pending_setJob, ?_⟩
    have hpend : s.pending (.job n) = th.pending := by simp [pending, JobRun.pending, hs]
    rw [hpend, JobRun.pending_next]
    exact .thread ht
  | @kill n th hs => exact ⟨_, _, pending_setJob, .release⟩
  | @retry n hs => exact ⟨_, _, pending_setJob, .nil⟩

theorem Locked.step (H : s.Locked) (h : s.step C e = some s') : s'.Locked := by
  obtain ⟨pid, ws, hp, hl⟩ := lockStep h
  intro j
  rw [hp]
  by_cases hj : j = pid
  · subst hj
    rw [Function.update_self]
    exact ⟨hl.own (H j).1, hl.fresh (H j).2⟩
  · rw [Function.update_of_ne hj]
    exact ⟨hl.other j _ hj (H j).1, hl.safe j _ hj (H pid).1 (H j).1 (H j).2⟩

end Pipeline

end DocClassifier
