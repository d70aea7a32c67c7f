import DocClassifier.ServiceSpecs
import DocClassifier.Lib.Sessions

/-!
# Concurrent transitions of one batch

Any number of `mark_processing`, `mark_done` and `mark_failed` calls on one batch run at the same
time. A call checks the status that its SELECT has read, and its UPDATE writes the row whatever
the status has become. `BatchTransitions.stays_on_path_iff` says that a run follows the transition
graph exactly when every commit finds the status that its call has read; in
`BatchTransitions.done_regresses` a slow call takes a batch back from `done`.
-/

namespace DocClassifier
open ReadCommitted Transition

inductive Mark where
  | processing
  | done
  | failed
  deriving DecidableEq, Repr

namespace Mark

def newStatus : Mark → BatchStatus
  | .processing => .processing
  | .done => .done
  | .failed => .failed

def allowed : Mark → List BatchStatus
  | .processing => [.pending]
  | .done => [.processing]
  | .failed => [.pending, .processing]

def block (m : Mark) (g : Gen) (batchId : String) : Block (Committed Batch) :=
  match m with
  | .processing => BatchService.markProcessing g batchId
  | .done => BatchService.markDone g batchId
  | .failed => BatchService.markFailed g batchId

theorem block_eq (m : Mark) (g : Gen) (batchId : String) :
    m.block g batchId = BatchService.transition g batchId m.newStatus m.allowed := by
  cases m <;> rfl

end Mark

namespace BatchStatus

/-- The transition graph. -/
def Edge (s t : BatchStatus) : Prop :=
  (s, t) ∈ [(pending, processing), (pending, failed), (processing, done), (processing, failed)]

instance (s t : BatchStatus) : Decidable (Edge s t) := List.instDecidableMemOfLawfulBEq ..

def Terminal (s : BatchStatus) : Prop := s = .done ∨ s = .failed

instance (s : BatchStatus) : Decidable (Terminal s) := instDecidableOr

def rank : BatchStatus → Nat
  | .pending => 0
  | .processing => 1
  | .done | .failed => 2

/-- One edge of a path. -/
def PathStep (s : BatchStatus) (e : BatchStatus × BatchStatus) (t : BatchStatus) : Prop :=
  e = (s, t) ∧ Edge s t

variable {s t u : BatchStatus} {es : List (BatchStatus × BatchStatus)}

theorem Edge.rank_lt (h : Edge s t) : s.rank < t.rank := by
  simp only [Edge, List.mem_cons, Prod.mk.injEq, List.not_mem_nil, or_false] at h
  rcases h with ⟨rfl, rfl⟩ | ⟨rfl, rfl⟩ | ⟨rfl, rfl⟩ | ⟨rfl, rfl⟩ <;> decide

theorem Edge.not_terminal (h : Edge s t) : ¬ s.Terminal := by
  revert h
  cases s <;> cases t <;> decide

theorem edge_of_allowed {m : Mark} (h : s ∈ m.allowed) : Edge s m.newStatus := by
  cases m <;> cases s <;> revert h <;> decide

theorem path_end (h : Run PathStep s es t) (h' : Run PathStep s es u) : t = u := by
  induction h with
  | nil => cases h'; rfl
  | cons hs _ ih =>
    cases h' with
    | cons hs' h' =>
      have heq := hs.1.symm.trans hs'.1
      rw [Prod.mk.injEq] at heq
      exact ih (heq.2 ▸ h')

/-- The rank grows along a path, so no edge comes back. -/
theorem path_nodup (h : Run PathStep s es t) : es.Nodup ∧ ∀ e ∈ es, s.rank ≤ e.1.rank := by
  induction h with
  | nil => exact ⟨List.nodup_nil, nofun⟩
  | @cons s u t e es hs _ ih =>
    obtain ⟨rfl, he⟩ := hs
    have hlt := he.rank_lt
    refine ⟨List.nodup_cons.mpr ⟨fun hmem => ?_, ih.1⟩, fun e' he' => ?_⟩
    · have hle := ih.2 _ hmem
      dsimp only at hle
      omega
    · rcases List.mem_cons.mp he' with rfl | he'
      · exact le_rfl
      · have hle := ih.2 e' he'
        omega

end BatchStatus

/-- The status change of the batch that an entry records. -/
def AuditLog.change (batchId : String) (e : AuditLog) : Option (BatchStatus × BatchStatus) :=
  if e.action = "batch_state_change" ∧ e.target = "batch:" ++ batchId then
    match (e.detail "from").bind BatchStatus.ofValue, (e.detail "to").bind BatchStatus.ofValue with
    | some old, some new => some (old, new)
    | _, _ => none
  else none

/-- The status changes of the batch in a log. -/
def stateChanges (batchId : String) (log : List AuditLog) : List (BatchStatus × BatchStatus) :=
  log.filterMap (·.change batchId)

def Tables.statusOf (t : Tables) (batchId : String) : Option BatchStatus :=
  (t.batches.find? batchId).map (·.status)

theorem change_stateChange {g : Gen} {batchId : String} {old new : BatchStatus} :
    (BatchService.stateChange g batchId old new).change batchId = some (old, new) := by
  have hfrom : (BatchService.stateChange g batchId old new).detail "from" = some old.value := rfl
  have hto : (BatchService.stateChange g batchId old new).detail "to" = some new.value := rfl
  rw [AuditLog.change, hfrom, hto]
  simp [BatchService.stateChange]

namespace BatchTransitions

/-- The entries that a list of writes appends to the log. -/
def entries (ws : List Stmt) : List AuditLog :=
  ws.filterMap fun
    | .insertAuditLog e => some e
    | _ => none

theorem commits {m : Mark} {g : Gen} {batchId : String} {ws : List Stmt} {c : Committed Batch}
    (h : (m.block g batchId).Commits ws c) : ∃ old, BatchStatus.Edge old m.newStatus ∧
      ws = [.updateStatus batchId m.newStatus,
        .insertAuditLog (BatchService.stateChange g batchId old m.newStatus)] := by
  rw [Mark.block_eq, BatchService.transition_eq, Tx.commits_select] at h
  obtain ⟨t, h⟩ := h
  split at h
  · simp at h
  · rename_i batch _
    split at h
    · simp at h
    · rename_i hallowed
      rw [BatchService.transitionWrite, Tx.commits_exec] at h
      obtain ⟨t, ws', rfl, h⟩ := h
      split at h
      · simp at h
      · simp only [Tx.commits_exec, Tx.commits_ret] at h
        obtain ⟨_, _, rfl, rfl, -⟩ := h
        exact ⟨batch.status, BatchStatus.edge_of_allowed (not_not.mp hallowed), rfl⟩

/-- The log records one path of the transition graph from `pending` to the current status, and no
edge of it occurs twice. -/
def OnePath (batchId : String) (t : Tables) : Prop :=
  ∃ s, t.statusOf batchId = some s ∧
    Run BatchStatus.PathStep .pending (stateChanges batchId t.auditLogs) s ∧
    (stateChanges batchId t.auditLogs).Nodup

section
variable {ι : Type} [DecidableEq ι] {batchId : String} {calls : ι → Mark × Gen}

/-- Transitions of one batch that are served at the same time. -/
abbrev MarkSys (ι : Type) := Sys Tables Stmt Row Exn (Committed Batch) ι

def step (batchId : String) (calls : ι → Mark × Gen) (s : MarkSys ι) (e : Event ι Exn) :
    Option (MarkSys ι) :=
  s.step postgres (fun i => (calls i).1.block (calls i).2 batchId) e

/-- A commit finds the status that its call has read, the one it is about to record as `from`. -/
def ReadIsCurrent (batchId : String) (s : MarkSys ι) : Event ι Exn → Prop
  | .stmt i => (s.session i).atCommit = true →
      ∀ c ∈ stateChanges batchId (entries (s.session i).pending),
        s.server.db.statusOf batchId = some c.1
  | .begin _ | .fail .. => True

instance (s : MarkSys ι) (e : Event ι Exn) : Decidable (ReadIsCurrent batchId s e) :=
  match e with
  | .stmt i => inferInstanceAs (Decidable ((s.session i).atCommit = true →
      ∀ c ∈ stateChanges batchId (entries (s.session i).pending),
        s.server.db.statusOf batchId = some c.1))
  | .begin _ | .fail .. => .isTrue trivial

/-- What one event does to the batch: nothing, or one change of its status. -/
inductive Effect (batchId : String) (s : MarkSys ι) (e : Event ι Exn) (s' : MarkSys ι) : Prop
  | quiet : s'.server.db = s.server.db → ReadIsCurrent batchId s e → Effect batchId s e s'
  | change {old new : BatchStatus} : BatchStatus.Edge old new →
      s'.server.db.statusOf batchId = (s.server.db.statusOf batchId).map (fun _ => new) →
      stateChanges batchId s'.server.db.auditLogs =
        stateChanges batchId s.server.db.auditLogs ++ [(old, new)] →
      (ReadIsCurrent batchId s e ↔ s.server.db.statusOf batchId = some old) →
      Effect batchId s e s'

variable {s s' : MarkSys ι} {e : Event ι Exn} {es : List (Event ι Exn)} {t : Tables}

/-- Every block in progress is what is left of its call. -/
abbrev InCalls (batchId : String) (calls : ι → Mark × Gen) (s : MarkSys ι) : Prop :=
  s.Residuals fun i => (calls i).1.block (calls i).2 batchId

omit [DecidableEq ι] in
theorem readIsCurrent_of_rest {i : ι} {txn : Txn Tables Stmt Exn (Committed Batch)}
    (hi : s.session i = .active txn) (hrest : ∀ a, txn.rest ≠ .ret a) :
    ReadIsCurrent batchId s (.stmt i) := by
  intro hc
  obtain ⟨rest, pending⟩ := txn
  rw [hi] at hc
  cases rest with
  | ret a => exact (hrest a rfl).elim
  | raise | select | exec => cases hc

theorem effect (H : InCalls batchId calls s) (h : Steps (step batchId calls) s e s') :
    Effect batchId s e s' := by
  cases Sys.step_cases h with
  | begin => exact .quiet rfl trivial
  | fail => exact .quiet rfl trivial
  | @stmt i txn server r hi hs =>
    cases r with
    | running txn' =>
      refine .quiet (Server.stmt_running_db hs) (readIsCurrent_of_rest hi fun a ha => ?_)
      cases Server.stmt_cases hs with
      | select hr => cases ha.symm.trans hr
      | exec hr => cases ha.symm.trans hr
    | aborted err =>
      refine .quiet (Server.stmt_aborted_db hs) (readIsCurrent_of_rest hi fun a ha => ?_)
      cases Server.stmt_cases hs with
      | rollback hr => cases ha.symm.trans hr
      | violation hr => cases ha.symm.trans hr
    | committed a =>
      obtain ⟨old, hedge, hws⟩ := commits ((H i txn hi).committed hs)
      obtain ⟨htxn, hdb⟩ := Server.stmt_committed hs
      rw [hws] at htxn hdb
      refine .change hedge ?_ ?_ ?_
      · simp [hdb, Tables.statusOf, applyStmt, Table.find?_modify, Function.comp_def]
      · simp [hdb, stateChanges, applyStmt, change_stateChange]
      · simp [ReadIsCurrent, hi, htxn, Session.atCommit, Session.pending, entries, stateChanges,
          change_stateChange]

omit [DecidableEq ι] in
theorem Effect.onePath_iff (E : Effect batchId s e s') (H : OnePath batchId s.server.db) :
    OnePath batchId s'.server.db ↔ ReadIsCurrent batchId s e := by
  cases E with
  | quiet hdb hc => simp only [hdb, H, hc]
  | @change old new hedge hstatus hlog hiff =>
    rw [hiff]
    obtain ⟨cur, hcur, hpath, -⟩ := H
    constructor
    · rintro ⟨t, -, hpath', -⟩
      rw [hlog] at hpath'
      obtain ⟨u, h1, h2⟩ := hpath'.split
      cases h2 with
      | cons hs _ =>
        have hu := (Prod.mk.inj hs.1).1
        rw [hcur, hu, BatchStatus.path_end hpath h1]
    · intro hread
      obtain rfl : cur = old := Option.some.inj (hcur.symm.trans hread)
      have hpath' := hpath.snoc (u := new) (e := (cur, new)) ⟨rfl, hedge⟩
      rw [← hlog] at hpath'
      exact ⟨new, by rw [hstatus, hcur]; rfl, hpath', (BatchStatus.path_nodup hpath').1⟩

omit [DecidableEq ι] in
/-- A step from a path keeps a terminal status, unless its commit has read an older one. -/
theorem Effect.terminal (E : Effect batchId s e s') (hc : ReadIsCurrent batchId s e)
    {st : BatchStatus} (hst : st.Terminal) (h : s.server.db.statusOf batchId = some st) :
    s'.server.db.statusOf batchId = some st := by
  cases E with
  | quiet hdb => rw [hdb, h]
  | @change old new hedge _ _ hiff =>
    have heq := (hiff.mp hc).symm.trans h
    rw [Option.some.injEq] at heq
    exact (hedge.not_terminal (heq ▸ hst)).elim

/-- In every state of the run the log is one path from `pending`, and no later state undoes a
terminal status. -/
def StaysOnPath (batchId : String) (calls : ι → Mark × Gen) (s₀ : MarkSys ι)
    (es : List (Event ι Exn)) : Prop :=
  ∀ es₁ es₂ es₃ u v, es = es₁ ++ es₂ ++ es₃ → Run (Steps (step batchId calls)) s₀ es₁ u →
    Run (Steps (step batchId calls)) u es₂ v → OnePath batchId v.server.db ∧
      ∀ st : BatchStatus, st.Terminal → u.server.db.statusOf batchId = some st →
        v.server.db.statusOf batchId = some st

/-- A run of concurrent transitions stays on the transition graph if and only if each commit finds
the status that its call has read. -/
theorem stays_on_path_iff (calls : ι → Mark × Gen)
    (hpending : t.statusOf batchId = some .pending) (hlog : stateChanges batchId t.auditLogs = [])
    (h : Run (Steps (step batchId calls)) (Sys.start t) es s) :
    StaysOnPath batchId calls (Sys.start t) es ↔
      Run (Meeting (ReadIsCurrent batchId) (Steps (step batchId calls))) (Sys.start t) es s := by
  have hstart : OnePath batchId (Sys.start t : MarkSys ι).server.db :=
    ⟨.pending, hpending, by rw [Sys.start, hlog]; exact .nil, by simp [Sys.start, hlog]⟩
  have hcalls : InCalls batchId calls (Sys.start t) := Sys.residuals_start t
  have hkeep : ∀ s e s', InCalls batchId calls s → Steps (step batchId calls) s e s' →
    InCalls batchId calls s' := fun _ _ _ H hs => H.step hs
  constructor
  · intro hprop
    refine h.meeting fun es₁ e es₂ u v hes h1 h2 => ?_
    have hu := (hprop es₁ [] (e :: es₂) u u (by simpa using hes) h1 .nil).1
    have hv := (hprop es₁ [e] es₂ u v (by simpa using hes) h1 (.single h2)).1
    exact ((effect (h1.inv hkeep hcalls) h2).onePath_iff hu).mp hv
  · intro hmeet es₁ es₂ es₃ u v hes h1 h2
    rw [hes] at hmeet
    obtain ⟨v', hv', -⟩ := hmeet.split
    obtain ⟨u', hu', huv'⟩ := hv'.split
    obtain rfl := hu'.of_meeting.unique h1
    obtain rfl := huv'.of_meeting.unique h2
    refine ⟨(hv'.inv (I := fun s => InCalls batchId calls s ∧ OnePath batchId s.server.db) ?_
      ⟨hcalls, hstart⟩).2, fun st hst hu => ?_⟩
    · rintro s e s' ⟨hs, hp⟩ ⟨hstep, hc⟩
      exact ⟨hkeep s e s' hs hstep, ((effect hs hstep).onePath_iff hp).mpr hc⟩
    · refine (huv'.inv (I := fun s => InCalls batchId calls s ∧
        s.server.db.statusOf batchId = some st) ?_ ⟨h1.inv hkeep hcalls, hu⟩).2
      rintro s e s' ⟨hs, hp⟩ ⟨hstep, hc⟩
      exact ⟨hkeep s e s' hs hstep, (effect hs hstep).terminal hc hst hp⟩

end

/-- One pending batch. -/
def onePending : Tables := { batches := ⟨[⟨"b", .pending, 2, 0⟩], List.nodup_singleton "b"⟩ }

/-- A job marks the batch as processing and then as done; another one is slow. -/
def slowJob : Fin 3 → Mark × Gen
  | 0 => (.processing, .noId 1)
  | 1 => (.done, .noId 2)
  | 2 => (.processing, .noId 3)

/-- Served one after the other, the calls stay on the graph: the slow one is refused. -/
theorem slowJob_stays_on_path : ∃ es s,
    Run (Steps (step "b" slowJob)) (Sys.start onePending) es s ∧
      StaysOnPath "b" slowJob (Sys.start onePending) es := by
  have h : (exec (fun s e => if ReadIsCurrent "b" s e then step "b" slowJob s e else none)
      (Sys.start onePending) (.begin 0 :: .replicate 4 (.stmt 0) ++
        .begin 1 :: .replicate 4 (.stmt 1) ++ .begin 2 :: .replicate 2 (.stmt 2))).isSome := by
    decide
  obtain ⟨s, hs⟩ := Option.isSome_iff_exists.mp h
  have hrun := run_of_exec hs
  exact ⟨_, s, hrun.of_meeting,
    (stays_on_path_iff slowJob (by decide) (by decide) hrun.of_meeting).mpr hrun⟩

/-- The slow call reads `pending`, its siblings drive the batch to `done`, and it then takes the
batch back to `processing` along an edge that the log has already. -/
theorem done_regresses : ∃ es₁ es₂ u v,
    Run (Steps (step "b" slowJob)) (Sys.start onePending) es₁ u ∧
      Run (Steps (step "b" slowJob)) u es₂ v ∧
      u.server.db.statusOf "b" = some .done ∧ v.server.db.statusOf "b" = some .processing ∧
      stateChanges "b" v.server.db.auditLogs =
        [(.pending, .processing), (.processing, .done), (.pending, .processing)] := by
  have h : ((exec (step "b" slowJob) (Sys.start onePending)
      (.begin 2 :: .stmt 2 :: .begin 0 :: .replicate 4 (.stmt 0) ++
        .begin 1 :: .replicate 4 (.stmt 1))).bind fun u =>
      (exec (step "b" slowJob) u (.replicate 3 (.stmt 2))).map fun v =>
        (u.server.db.statusOf "b", v.server.db.statusOf "b",
          stateChanges "b" v.server.db.auditLogs)) =
      some (some .done, some .processing,
        [(.pending, .processing), (.processing, .done), (.pending, .processing)]) := by decide
  obtain ⟨u, hu, h⟩ := Option.bind_eq_some_iff.mp h
  obtain ⟨v, hv, h⟩ := Option.map_eq_some_iff.mp h
  simp only [Prod.mk.injEq] at h
  exact ⟨_, _, u, v, exec_eq_some.mp hu, exec_eq_some.mp hv, h.1, h.2.1, h.2.2⟩

end BatchTransitions

end DocClassifier
