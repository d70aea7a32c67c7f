import DocClassifier.Deployment

/-!
# All service calls of a deployment

For the database, a deployment is a set of service calls that overlap: those of the requests, and
those of the threads of the pipeline, each in a transaction of its own. So what holds of any calls
that overlap holds of a deployment: the calls that commit write at their commits
(`Deployment.calls_land`), and every label is that of a request that was allowed to set it
(`Deployment.labels_authorized`).
-/

namespace DocClassifier
open ReadCommitted Transition Prog

/-- A service call of the pipeline, as a call among others. -/
def ServiceCall.call (g : Gen) : ServiceCall → Call
  | .createBatch fileCount actor => .createBatch (some { id := g.uuid, fileCount }) actor
  | .markProcessing batchId => .markProcessing batchId
  | .markDone batchId => .markDone batchId
  | .savePrediction batchId data => .savePrediction batchId data

theorem ServiceCall.block_call (s : ServiceCall) (g : Gen) :
    (s.call g).block g = s.block g >>= fun c => pure c.deletes := by
  cases s <;> rfl

/-- A service call that has committed, with the cache keys to delete. -/
abbrev CallDone := ServiceCall × List String

/-- The service calls that have committed in a history. -/
def callsDone (H : History) : List CallDone :=
  (txs H).filterMap fun d => match d.2 with
    | .ok c => some (d.1, c.deletes)
    | .error _ => none

section
variable {H H' : History} {s : ServiceCall}

theorem callsDone_append : callsDone (H ++ H') = callsDone H ++ callsDone H' := by
  rw [callsDone, txs_append, List.filterMap_append]
  rfl

theorem callsDone_ok {c : Committed s.Result} :
    callsDone (H ++ [⟨.tx s, .ok c⟩]) = callsDone H ++ [(s, c.deletes)] := callsDone_append

theorem callsDone_error {e : Exn} : callsDone (H ++ [⟨.tx s, .error e⟩]) = callsDone H :=
  callsDone_append.trans (List.append_nil _)

theorem callsDone_io {i : Io} {r : Except Exn i.Answer} :
    callsDone (H ++ [⟨.io i, r⟩]) = callsDone H := callsDone_append.trans (List.append_nil _)

end

/-- The transaction that is in progress after a statement. -/
def txnOf : Reply Tables Stmt Exn (List String) → Option CallTxn
  | .running t => some t
  | .committed _ | .aborted _ => none

/-- The call that a statement commits. -/
def doneBy (s : ServiceCall) : Reply Tables Stmt Exn (List String) → List CallDone
  | .committed keys => [(s, keys)]
  | .running _ | .aborted _ => []

/-! ## Steps of the pipeline, seen from the database -/

/-- What a step of the process `pid` is for the database. The process was in `o`, and `D` had
committed. -/
inductive DbStep (pid : Pid) (want : Option Row) (s s' : Server Tables Row Pid)
    (o o' : Option (ServiceCall × CallTxn)) (D D' : List CallDone) : Prop
  | quiet : o' = o → D' = D → s' = s → DbStep pid want s s' o o' D D'
  | begin {sc : ServiceCall} (g : Gen) : o = none → o' = some (sc, ⟨(sc.call g).block g, []⟩) →
      D' = D → s' = s → DbStep pid want s s' o o' D D'
  | stmt {sc : ServiceCall} {t : CallTxn} {r : Reply Tables Stmt Exn (List String)} :
      o = some (sc, t) → want = t.wants postgres → s.stmt postgres pid t = some (s', r) →
      o' = (txnOf r).map (sc, ·) → D' = D ++ doneBy sc r → DbStep pid want s s' o o' D D'
  | ended : o' = none → D' = D → s' = s.release pid → DbStep pid want s s' o o' D D'

/-- The row that a step of a thread locks. -/
def Thread.wants {α : Type} (th : Thread α) : Tick → Option Row
  | .ok _ => th.txn.bind (·.2.wants postgres)
  | .raise _ => none

theorem Thread.dbStep {α : Type} {C : Classifier} {pid : Pid} {w w' : World} {th th' : Thread α}
    {tick : Tick} (h : th.step C pid w tick = some (w', th')) :
    DbStep pid (th.wants tick) w.server w'.server th.txn th'.txn (callsDone th.hist)
      (callsDone th'.hist) := by
  cases th with
  | run hist p =>
    cases p with
    | ret | raise => cases tick <;> cases h
    | op o k =>
      cases o with
      | tx sc =>
        cases tick with
        | ok g =>
          cases h
          exact .begin g rfl (by rw [sc.block_call]; rfl) rfl rfl
        | raise f =>
          cases h
          exact .quiet rfl callsDone_error rfl
      | io i =>
        cases tick with
        | ok g =>
          cases h
          exact .quiet rfl callsDone_io (perform_server C w g i)
        | raise f =>
          simp only [step] at h
          split at h <;> cases h
          exact .quiet rfl callsDone_io rfl
  | tx hist sc t k =>
    cases tick with
    | raise f =>
      cases h
      exact .ended rfl callsDone_error rfl
    | ok g =>
      obtain ⟨⟨server, r⟩, hs, h⟩ := Option.map_eq_some_iff.mp h
      cases h
      have hs' := Server.stmt_map (B := postgres) (s := w.server) (i := pid) (t := t) (·.deletes)
      rw [hs] at hs'
      cases r with
      | running t' => exact .stmt rfl rfl hs' rfl (List.append_nil _).symm
      | committed c => exact .stmt rfl rfl hs' rfl callsDone_ok
      | aborted e => exact .stmt rfl rfl hs' rfl (callsDone_error.trans (List.append_nil _).symm)

def JobRun.txn (j : JobRun) : Option (ServiceCall × CallTxn) :=
  match j.state with
  | .running th => th.txn
  | _ => none

theorem JobRun.txn_next (past : List History) (th : Thread ClassifyResult) :
    (JobRun.next past th).txn = th.txn := by
  unfold JobRun.next
  split <;> rfl

/-- The calls that have committed before are not looked at. -/
theorem DbStep.after {pid : Pid} {want : Option Row} {s s' : Server Tables Row Pid}
    {o o' : Option (ServiceCall × CallTxn)} {D D' : List CallDone} (E : List CallDone)
    (h : DbStep pid want s s' o o' D D') : DbStep pid want s s' o o' (E ++ D) (E ++ D') := by
  cases h with
  | quiet ho hD hs => exact .quiet ho (by rw [hD]) hs
  | «begin» g ho ho' hD hs => exact .begin g ho ho' (by rw [hD]) hs
  | stmt ho hw hs ho' hD => exact .stmt ho hw hs ho' (by rw [hD, List.append_assoc])
  | ended ho hD hs => exact .ended ho (by rw [hD]) hs

namespace Pipeline

/-- The service calls of a process that have committed. -/
def done (s : Pipeline) (pid : Pid) : List CallDone := callsDone (s.record pid)

variable {C : Classifier} {s s' : Pipeline} {e : Event} {i n : Nat} {c c' : IngestCall} {j : JobRun}

theorem txn_job : s.txn (.job n) = (s.jobs n).txn := rfl

theorem txn_call (hc : s.calls[i]? = some c) : s.txn (.ingest i) = c.thread.txn := by
  simp [txn, hc]

theorem txn_addCall (h : c.thread.txn = none) :
    txn { s with calls := s.calls ++ [c] } = s.txn := by
  funext pid
  cases pid with
  | job => rfl
  | ingest m =>
    simp only [txn, getElem?_addCall]
    by_cases hm : m = s.calls.length
    · simp [hm, h]
    · simp [hm]

theorem txn_setCall (h : s.calls[i]? = some c) :
    txn { s with calls := s.calls.set i c' } =
      Function.update s.txn (.ingest i) c'.thread.txn := by
  funext pid
  cases pid with
  | job => rfl
  | ingest m =>
    simp only [txn, getElem?_setCall h, Function.update_apply, Pid.ingest.injEq]
    by_cases hm : m = i <;> simp [hm]

theorem txn_setJob : (s.setJob n j).txn = Function.update s.txn (.job n) j.txn := by
  funext pid
  cases pid with
  | ingest => rfl
  | job m =>
    simp only [txn_job, setJob, Function.update_apply, Pid.job.injEq]
    by_cases hm : m = n <;> simp [hm]

/-- The calls that have committed, when one record has changed. -/
theorem done_update {H : History} {pid : Pid} (h : s'.record = Function.update s.record pid H) :
    s'.done = Function.update s.done pid (callsDone H) := by
  funext pid'
  rw [done, h, Function.update_apply, Function.update_apply]
  split <;> rfl

/-- A step of the pipeline, seen from the database. -/
def DbSteps (s : Pipeline) (want : Option Row) (s' : Pipeline) : Prop :=
  ∃ pid o D, s'.txn = Function.update s.txn pid o ∧ s'.done = Function.update s.done pid D ∧
    DbStep pid want s.world.server s'.world.server (s.txn pid) o (s.done pid) D

theorem DbSteps.quiet {want : Option Row} (ht : s'.txn = s.txn) (hr : s'.record = s.record)
    (hs : s'.world.server = s.world.server) : s.DbSteps want s' := by
  refine ⟨.ingest 0, _, _, ?_, ?_, .quiet rfl rfl hs⟩
  · rw [ht, Function.update_eq_self]
  · rw [Function.update_eq_self]
    funext pid
    rw [done, done, hr]

theorem dbStep (h : s.step C e = some s') : s.DbSteps (s.wants e) s' := by
  cases step_cases h with
  | drop | restartIdle => exact .quiet rfl rfl rfl
  | poll | upload => exact .quiet (txn_addCall rfl) (record_addCall rfl) rfl
  | restart hi hc =>
    exact ⟨_, _, _, txn_setCall hc, done_update (record_setCall hc), .ended rfl
      (congrArg callsDone (record_call hc).symm) rfl⟩
  | cancel hc =>
    exact ⟨_, _, _, txn_setCall hc, done_update (record_setCall hc), .ended rfl
      (congrArg callsDone (record_call hc).symm) rfl⟩
  | @ingest i tick c world thread hc ht =>
    refine ⟨_, _, _, txn_setCall hc, done_update (record_setCall hc), ?_⟩
    have hwants : s.wants (.ingest i tick) = c.thread.wants tick := by
      cases tick with
      | raise => rfl
      | ok => exact congrArg (·.bind (·.2.wants postgres)) (txn_call hc)
    rw [txn_call hc, hwants, done, record_call hc]
    exact Thread.dbStep ht
  | @start n job hn hs =>
    refine .quiet ?_ ?_ rfl
    · rw [txn_setJob, update_same]
      simp [txn_job, JobRun.txn, hs, Thread.txn]
    · rw [record_setJob, update_same]
      simp [record, JobRun.record, JobRun.hist, hs, Thread.hist]
  | @job n tick th th' world hs ht =>
    refine ⟨_, _, _, txn_setJob, done_update record_setJob, ?_⟩
    have htxn : s.txn (.job n) = th.txn := by rw [txn_job, JobRun.txn, hs]
    have hwants : s.wants (.job n tick) = th.wants tick := by
      cases tick with
      | raise => rfl
      | ok => exact congrArg (·.bind (·.2.wants postgres)) htxn
    have hhist : (s.jobs n).hist = th.hist := by simp [JobRun.hist, hs]
    rw [htxn, hwants, JobRun.txn_next, JobRun.record_next, done, record, JobRun.record, hhist,
      callsDone_append, callsDone_append]
    exact (Thread.dbStep ht).after _
  | @kill n th hs =>
    refine ⟨_, _, _, txn_setJob, done_update record_setJob, .ended rfl ?_ rfl⟩
    simp [done, record, JobRun.record, JobRun.hist, hs]
  | @retry n hs =>
    refine .quiet ?_ ?_ rfl
    · rw [txn_setJob, update_same]
      simp [txn_job, JobRun.txn, hs]
    · rw [record_setJob, update_same]
      simp [record, JobRun.record, JobRun.hist, hs]

theorem pending_of_txn {pid : Pid} (h : s.txn pid = none) : s.pending pid = [] := by
  have hthread : ∀ {α : Type} {th : Thread α}, th.txn = none → th.pending = [] := by
    intro α th h
    cases th with
    | run => rfl
    | tx => cases h
  cases pid with
  | ingest i =>
    cases hc : s.calls[i]? with
    | none => simp [pending, hc]
    | some c => exact (pending_call hc).trans (hthread ((txn_call hc).symm.trans h))
  | job n =>
    rw [txn_job, JobRun.txn] at h
    rw [pending, JobRun.pending]
    cases hst : (s.jobs n).state with
    | running th =>
      rw [hst] at h
      exact hthread h
    | _ => rfl

/-- A process that holds a lock is in a service call. -/
theorem Used.txn (U : s.Used) {pid : Pid} {k : Row} (h : s.world.server.locks k = some pid) :
    s.txn pid ≠ none := by
  intro hnone
  obtain ⟨w, hw, -⟩ := U pid k h
  rw [pending_of_txn hnone] at hw
  cases hw

end Pipeline

/-! ## The calls -/

/-- A service call of a deployment: that of a request, or the `n`-th of the pipeline. -/
inductive Caller (ι : Type) where
  | request (i : ι)
  | pipeline (pid : Pid) (n : Nat) (s : ServiceCall) (g : Gen)
  deriving DecidableEq

namespace Caller

variable {ι : Type}

/-- The call that a process makes, or has made last. -/
def ofPid (last : Pid → Nat × ServiceCall × Gen) (pid : Pid) : Caller ι :=
  .pipeline pid (last pid).1 (last pid).2.1 (last pid).2.2

variable {last : Pid → Nat × ServiceCall × Gen}

theorem ofPid_injective : Function.Injective (ofPid last : Pid → Caller ι) := by
  intro pid pid' h
  cases h
  rfl

theorem ofPid_ne (pid : Pid) (i : ι) : ofPid last pid ≠ request i := by
  simp [ofPid]

/-- A call of the process `pid` that has committed. -/
def doneOf (pid : Pid) : Caller ι × List String → Option CallDone
  | (.pipeline pid' _ s _, keys) => if pid' = pid then some (s, keys) else none
  | (.request _, _) => none

end Caller

/-- The calls of a deployment. -/
def callsOf {ι : Type} (calls : ι → MutationCall) : Caller ι → Call × Gen
  | .request i => ((calls i).call, (calls i).g)
  | .pipeline _ _ s g => (s.call g, g)

section
variable {ι : Type} {last : Pid → Nat × ServiceCall × Gen}

/-- The calls of `sys`, of which `cs` have committed, are at the points at which the requests and
the threads of `s` are. The pipeline has made `m` calls at most. -/
structure Overlaps (s : Deployment ι) (sys : CallSys (Caller ι))
    (cs : List (Caller ι × List String))
    (last : Pid → Nat × ServiceCall × Gen) (m : Nat) : Prop where
  server : sys.server = s.pipeline.world.server.join (Caller.ofPid last) .request s.locks
  request : ∀ i, sys.session (.request i) = s.session i
  txn : ∀ pid sc t, s.pipeline.txn pid = some (sc, t) →
    sys.session (Caller.ofPid last pid) = .active t ∧ (last pid).2.1 = sc
  done : ∀ pid, cs.filterMap (Caller.doneOf pid) = s.pipeline.done pid
  fresh : ∀ pid n sc g, m ≤ n → sys.session (.pipeline pid n sc g) = .idle
  apart : LocksApart s.pipeline.world.server.locks s.locks
  used : s.pipeline.Used

theorem overlaps_start (users : Table String UserORM (·.id))
    (dropZone : Table String RemoteFile (·.filename)) :
    Overlaps (Deployment.start users dropZone : Deployment ι) (Sys.start { users }) []
      (fun _ => (0, .markDone "", .noId 0)) 0 where
  server := rfl
  request _ := rfl
  txn pid sc t h := by
    cases pid <;> cases h
  done pid := by
    cases pid <;> rfl
  fresh _ _ _ _ _ := rfl
  apart _ := .inl rfl
  used := .start users dropZone

variable {C : Classifier} {calls : ι → MutationCall} {s : Deployment ι}
  {sys : CallSys (Caller ι)} {cs : List (Caller ι × List String)} {m : Nat}

/-- The pipeline does something else than a statement. -/
theorem Overlaps.quiet (H : Overlaps s sys cs last m) {p : Pipeline} (htxn : p.txn = s.pipeline.txn)
    (hdone : p.done = s.pipeline.done) (hserver : p.world.server = s.pipeline.world.server)
    (hused : p.Used) : Overlaps { s with pipeline := p } sys cs last m where
  server := by
    rw [H.server, hserver]
  request := H.request
  txn := by
    rw [htxn]
    exact H.txn
  done := by
    rw [hdone]
    exact H.done
  fresh := H.fresh
  apart := by
    rw [hserver]
    exact H.apart
  used := hused

/-- The server, with the requests first. -/
theorem Overlaps.server_symm (H : Overlaps s sys cs last m) : sys.server =
    s.requests.server.join .request (Caller.ofPid last) s.pipeline.world.server.locks :=
  H.server.trans (congrArg (Server.mk _) (joinLocks_comm H.apart))

variable [DecidableEq ι]

/-- The session of a request goes on. -/
theorem Overlaps.ofRequest (H : Overlaps s sys cs last m) {i : ι}
    {se : Session Tables Stmt Exn (List String)} (server : Server Tables Row ι)
    (hapart : LocksApart server.locks s.pipeline.world.server.locks)
    {new : List (Caller ι × List String)} (hnew : ∀ c ∈ new, c.1 = .request i) :
    Overlaps
      { pipeline := { s.pipeline with world := s.pipeline.world.withDb server.db }
        locks := server.locks
        session := Function.update s.session i se }
      { server := server.join .request (Caller.ofPid last) s.pipeline.world.server.locks
        session := Function.update sys.session (.request i) se } (cs ++ new) last m where
  server := congrArg (Server.mk _) (joinLocks_comm hapart)
  request j := by
    simp only [Function.update_apply, Caller.request.injEq, H.request]
  txn pid sc t ht := by
    dsimp only
    rw [Function.update_of_ne (Caller.ofPid_ne pid i)]
    exact H.txn pid sc t ht
  done pid := by
    have hnil : new.filterMap (Caller.doneOf pid) = [] := by
      refine List.filterMap_eq_nil_iff.mpr ?_
      rintro ⟨c, keys⟩ hc
      obtain rfl : c = .request i := hnew _ hc
      rfl
    rw [List.filterMap_append, hnil, List.append_nil]
    exact H.done pid
  fresh pid n sc g hn := by
    dsimp only
    rw [Function.update_of_ne (by simp)]
    exact H.fresh pid n sc g hn
  apart := hapart.symm
  used pid k hk := H.used pid k hk

/-- The calls go on from `sys` to `sys'`, and those of `new` commit. -/
def CallsGo (calls : ι → MutationCall) (sys sys' : CallSys (Caller ι))
    (new : List (Caller ι × List String)) : Prop :=
  ∃ es, Run (Steps (callStep (callsOf calls))) sys es sys' ∧
    sys.commits postgres (fun c => (callsOf calls c).1.block (callsOf calls c).2) es = new

theorem CallsGo.refl : CallsGo calls sys sys [] := ⟨[], .nil, rfl⟩

theorem CallsGo.single {sys' : CallSys (Caller ι)} {e : Event (Caller ι) Exn}
    (h : callStep (callsOf calls) sys e = some sys') :
    CallsGo calls sys sys' (sys'.newlyCommitted e) := by
  refine ⟨[e], .single h, ?_⟩
  rw [Sys.commits, show Sys.step _ _ _ _ = _ from h]
  exact List.append_nil _

theorem CallsGo.trans {sys' sys'' : CallSys (Caller ι)} {new new' : List (Caller ι × List String)}
    (h : CallsGo calls sys sys' new) (h' : CallsGo calls sys' sys'' new') :
    CallsGo calls sys sys'' (new ++ new') := by
  obtain ⟨es, hrun, rfl⟩ := h
  obtain ⟨es', hrun', rfl⟩ := h'
  exact ⟨es ++ es', hrun.append hrun', Sys.commits_append hrun⟩

/-- What a step of a request is among the calls. -/
theorem Overlaps.requests (H : Overlaps s sys cs last m) {e : ReadCommitted.Event ι Exn}
    {r : CallSys ι} (hw : ∀ k, s.wants e = some k → s.pipeline.world.server.locks k = none)
    (h : s.requests.step postgres (fun i => (calls i).block) e = some r) :
    ∃ sys' new, CallsGo calls sys sys' new ∧
      Overlaps
        { pipeline := { s.pipeline with world := s.pipeline.world.withDb r.server.db }
          locks := r.server.locks
          session := r.session } sys' (cs ++ new) last m := by
  have hinj : Function.Injective (Caller.request : ι → Caller ι) := fun _ _ => Caller.request.inj
  have hne : ∀ i pid, (Caller.request i : Caller ι) ≠ Caller.ofPid last pid :=
    fun i pid => (Caller.ofPid_ne pid i).symm
  have hnone : ∀ {c : Caller ι}, ∀ d ∈ ([] : List (Caller ι × List String)), d.1 = c := by simp
  cases Sys.step_cases h with
  | @«begin» i hi =>
    have hidle := (H.request i).trans hi
    have hbegin : callStep (callsOf calls) sys (.begin (.request i)) = some
        { server := s.requests.server.join .request (Caller.ofPid last)
            s.pipeline.world.server.locks
          session := Function.update sys.session (.request i)
            (.active ⟨(calls i).block, []⟩) } := by
      simp [callStep, Sys.step, hidle, callsOf, MutationCall.block, ← H.server_symm]
    exact ⟨_, _, .single hbegin, H.ofRequest s.requests.server H.apart.symm hnone⟩
  | @stmt i t server r hi hs =>
    have hactive := (H.request i).trans hi
    have hwants : ∀ k, t.wants postgres = some k → s.pipeline.world.server.locks k = none := by
      intro k hk
      refine hw k ?_
      have hi' : s.session i = .active t := hi
      simp only [Deployment.wants, hi', hk]
    have hjoin := Server.stmt_join hinj hne H.apart.symm hwants hs
    rw [← H.server_symm] at hjoin
    refine ⟨_, _, .single (Sys.steps_stmt hactive hjoin),
      H.ofRequest server (H.apart.symm.stmt hwants hs) ?_⟩
    rw [Sys.newlyCommitted]
    split
    · simp
    · exact hnone
  | @fail i e t hi =>
    have hactive := (H.request i).trans hi
    have hapart : LocksApart s.requests.server.locks s.pipeline.world.server.locks := H.apart.symm
    have hrelease := Server.release_join (i := i) hinj hne hapart
    have hfail : callStep (callsOf calls) sys (.fail (.request i) e) = some
        { server := (s.requests.server.release i).join .request (Caller.ofPid last)
            s.pipeline.world.server.locks
          session := Function.update sys.session (.request i) (.done (.error e)) } := by
      simp [callStep, Sys.step, hactive, H.server_symm, hrelease]
    exact ⟨_, _, .single hfail,
      H.ofRequest (s.requests.server.release i) hapart.release hnone⟩

omit [DecidableEq ι] in
/-- A process that is in a service call has made less than `m`. -/
theorem Overlaps.lt (H : Overlaps s sys cs last m) {pid : Pid} {sc : ServiceCall} {t : CallTxn}
    (h : s.pipeline.txn pid = some (sc, t)) : (last pid).1 < m := by
  by_contra hge
  cases (H.txn pid sc t h).1.symm.trans (H.fresh pid _ _ _ (Nat.not_lt.mp hge))

/-- The session of the last call of a process goes on. -/
theorem Overlaps.ofPid (H : Overlaps s sys cs last m) {p : Pipeline} {pid : Pid}
    {se : Session Tables Stmt Exn (List String)} {o : Option (ServiceCall × CallTxn)}
    (new : List CallDone) (hlt : (last pid).1 < m)
    (htxn : p.txn = Function.update s.pipeline.txn pid o)
    (ho : ∀ sc t, o = some (sc, t) → se = .active t ∧ (last pid).2.1 = sc)
    (hdone : p.done = Function.update s.pipeline.done pid (s.pipeline.done pid ++ new))
    (hnew : ∀ d ∈ new, d.1 = (last pid).2.1) (hused : p.Used)
    (hapart : LocksApart p.world.server.locks s.locks) :
    Overlaps { s with pipeline := p }
      { server := p.world.server.join (Caller.ofPid last) .request s.locks
        session := Function.update sys.session (Caller.ofPid last pid) se }
      (cs ++ new.map fun d => (Caller.ofPid last pid, d.2)) last m where
  server := rfl
  request i := by
    dsimp only
    rw [Function.update_of_ne (Caller.ofPid_ne pid i).symm]
    exact H.request i
  txn pid' sc t ht := by
    dsimp only at ht ⊢
    rw [htxn] at ht
    by_cases hpid : pid' = pid
    · subst hpid
      rw [Function.update_self] at ht ⊢
      exact ho sc t ht
    · rw [Function.update_of_ne hpid] at ht
      rw [Function.update_of_ne (Caller.ofPid_injective.ne hpid)]
      exact H.txn pid' sc t ht
  done pid' := by
    dsimp only
    rw [hdone, List.filterMap_append, List.filterMap_map, H.done]
    by_cases hpid : pid' = pid
    · subst hpid
      rw [Function.update_self]
      refine congrArg _ ((List.filterMap_congr fun d hd => ?_).trans List.filterMap_some)
      simp [Caller.doneOf, Caller.ofPid, ← hnew d hd]
    · rw [Function.update_of_ne hpid]
      have hnone : new.filterMap
          (Caller.doneOf pid' ∘ fun d => ((Caller.ofPid last pid : Caller ι), d.2)) = [] := by
        refine List.filterMap_eq_nil_iff.mpr fun d _ => ?_
        simp [Caller.doneOf, Caller.ofPid, Ne.symm hpid]
      rw [hnone, List.append_nil]
  fresh pid' n sc g hn := by
    dsimp only
    rw [Function.update_of_ne (fun heq => by cases heq; omega)]
    exact H.fresh pid' n sc g hn
  apart := hapart
  used := hused

/-- A process begins a service call. -/
theorem Overlaps.begin (H : Overlaps s sys cs last m) {p : Pipeline} {pid : Pid} {sc : ServiceCall}
    {t : CallTxn} (g : Gen) (hnone : s.pipeline.txn pid = none)
    (htxn : p.txn = Function.update s.pipeline.txn pid (some (sc, t)))
    (hdone : p.done = s.pipeline.done) (hserver : p.world.server = s.pipeline.world.server)
    (hused : p.Used) :
    Overlaps { s with pipeline := p }
      { sys with session := Function.update sys.session (.pipeline pid m sc g) (.active t) } cs
      (Function.update last pid (m, sc, g)) (m + 1) where
  server := by
    -- The process holds no lock yet.
    dsimp only
    rw [H.server, hserver]
    refine congrArg (Server.mk _) (joinLocks_congr fun k pid' hk => ?_)
    have hpid : pid' ≠ pid := by
      rintro rfl
      exact H.used.txn hk hnone
    simp [Caller.ofPid, Function.update_of_ne hpid]
  request i := by
    dsimp only
    rw [Function.update_of_ne (by simp)]
    exact H.request i
  txn pid' sc' t' ht := by
    dsimp only at ht ⊢
    rw [htxn] at ht
    by_cases hpid : pid' = pid
    · subst hpid
      rw [Function.update_self] at ht
      cases ht
      simp [Caller.ofPid]
    · rw [Function.update_of_ne hpid] at ht
      have hne : Caller.ofPid last pid' ≠ Caller.pipeline (ι := ι) pid m sc g := by
        simp [Caller.ofPid, hpid]
      rw [Caller.ofPid, Function.update_of_ne hpid]
      exact ⟨(Function.update_of_ne hne _ _).trans (H.txn pid' sc' t' ht).1,
        (H.txn pid' sc' t' ht).2⟩
  done := by
    rw [hdone]
    exact H.done
  fresh pid' n sc' g' hn := by
    dsimp only
    rw [Function.update_of_ne (fun heq => by cases heq; omega)]
    exact H.fresh pid' n sc' g' (by omega)
  apart := by
    rw [hserver]
    exact H.apart
  used := hused

variable (calls) in
/-- A process executes a statement of its service call. -/
theorem Overlaps.stmt (H : Overlaps s sys cs last m) {p : Pipeline} {pid : Pid} {sc : ServiceCall}
    {t : CallTxn} {r : Reply Tables Stmt Exn (List String)}
    (ho : s.pipeline.txn pid = some (sc, t))
    (hwants : ∀ k, t.wants postgres = some k → s.locks k = none)
    (hs : s.pipeline.world.server.stmt postgres pid t = some (p.world.server, r))
    (htxn : p.txn = Function.update s.pipeline.txn pid ((txnOf r).map (sc, ·)))
    (hdone : p.done = Function.update s.pipeline.done pid (s.pipeline.done pid ++ doneBy sc r))
    (hused : p.Used) :
    ∃ sys' new, CallsGo calls sys sys' new ∧
      Overlaps { s with pipeline := p } sys' (cs ++ new) last m := by
  obtain ⟨hactive, hsc⟩ := H.txn pid sc t ho
  have hne : ∀ pid (i : ι), Caller.ofPid last pid ≠ Caller.request i := Caller.ofPid_ne
  have hjoin := Server.stmt_join Caller.ofPid_injective hne H.apart hwants hs
  rw [← H.server] at hjoin
  have hnew : (doneBy sc r).map (fun d => ((Caller.ofPid last pid : Caller ι), d.2)) =
      Sys.newlyCommitted
        (⟨p.world.server.join (Caller.ofPid last) .request s.locks, Function.update sys.session
          (Caller.ofPid last pid) (.ofReply r)⟩ : CallSys (Caller ι))
        (.stmt (Caller.ofPid last pid) : Event (Caller ι) Exn) := by
    cases r <;> simp [doneBy, Sys.newlyCommitted, Session.ofReply]
  refine ⟨_, _, .single (Sys.steps_stmt hactive hjoin), ?_⟩
  rw [← hnew]
  refine H.ofPid (doneBy sc r) (H.lt ho) htxn ?_ hdone ?_ hused (H.apart.stmt hwants hs)
  · rintro sc' t' heq
    cases r <;> cases heq
    exact ⟨rfl, hsc⟩
  · cases r <;> simp [doneBy, hsc]

variable (calls) in
/-- A service call of a process fails, or is cut off with it. -/
theorem Overlaps.fail (H : Overlaps s sys cs last m) {p : Pipeline} {pid : Pid} {sc : ServiceCall}
    {t : CallTxn} (ho : s.pipeline.txn pid = some (sc, t))
    (htxn : p.txn = Function.update s.pipeline.txn pid none) (hdone : p.done = s.pipeline.done)
    (hserver : p.world.server = s.pipeline.world.server.release pid) (hused : p.Used) :
    ∃ sys' new, CallsGo calls sys sys' new ∧
      Overlaps { s with pipeline := p } sys' (cs ++ new) last m := by
  obtain ⟨hactive, -⟩ := H.txn pid sc t ho
  have hne : ∀ pid (i : ι), Caller.ofPid last pid ≠ Caller.request i := Caller.ofPid_ne
  have hrelease := Server.release_join (i := pid) Caller.ofPid_injective hne H.apart
  rw [← hserver, ← H.server] at hrelease
  have hfail : callStep (callsOf calls) sys
      (.fail (.ofPid last pid) (.infrastructure "connection lost")) = some
      { server := p.world.server.join (Caller.ofPid last) .request s.locks
        session := Function.update sys.session (.ofPid last pid)
          (.done (.error (.infrastructure "connection lost"))) } := by
    simp [callStep, Sys.step, hactive, hrelease]
  have hapart : LocksApart p.world.server.locks s.locks := by
    rw [hserver]
    exact H.apart.release
  have hdone' : p.done = Function.update s.pipeline.done pid (s.pipeline.done pid ++ []) := by
    rw [hdone, List.append_nil, Function.update_eq_self]
  exact ⟨_, _, .single hfail, H.ofPid [] (H.lt ho) htxn (by simp) hdone' (by simp) hused hapart⟩

/-- What a step of the pipeline is among the calls. -/
theorem Overlaps.pipeline (H : Overlaps s sys cs last m) {e : Pipeline.Event} {p : Pipeline}
    (hw : ∀ k, s.pipeline.wants e = some k → s.locks k = none) (h : s.pipeline.step C e = some p) :
    ∃ sys' new last' m', CallsGo calls sys sys' new ∧
      Overlaps { s with pipeline := p } sys' (cs ++ new) last' m' := by
  obtain ⟨pid, o, D, htxn, hdone, hstep⟩ := Pipeline.dbStep h
  have hused := H.used.step h
  have hquiet (htxn : p.txn = s.pipeline.txn) (hdone : p.done = s.pipeline.done)
      (hserver : p.world.server = s.pipeline.world.server) : ∃ sys' new last' m',
      CallsGo calls sys sys' new ∧ Overlaps { s with pipeline := p } sys' (cs ++ new) last' m' := by
    refine ⟨sys, _, last, m, .refl, ?_⟩
    rw [List.append_nil]
    exact H.quiet htxn hdone hserver hused
  cases hstep with
  | quiet ho hD hserver =>
    rw [ho, Function.update_eq_self] at htxn
    rw [hD, Function.update_eq_self] at hdone
    exact hquiet htxn hdone hserver
  | @«begin» sc g ho ho' hD hserver =>
    subst ho'
    rw [hD, Function.update_eq_self] at hdone
    have hidle := H.fresh pid m sc g le_rfl
    have hbegin : callStep (callsOf calls) sys (.begin (.pipeline pid m sc g)) = some
        { sys with
          session := Function.update sys.session (.pipeline pid m sc g)
            (.active ⟨(sc.call g).block g, []⟩) } := by
      simp [callStep, Sys.step, hidle, callsOf]
    refine ⟨_, _, Function.update last pid (m, sc, g), m + 1, .single hbegin, ?_⟩
    rw [Sys.newlyCommitted, List.append_nil]
    exact H.begin g ho htxn hdone hserver hused
  | @stmt sc t r ho hwant hs ho' hD =>
    rw [ho'] at htxn
    rw [hD] at hdone
    obtain ⟨sys', new, hgo, H'⟩ :=
      H.stmt calls ho (fun k hk => hw k (hwant.trans hk)) hs htxn hdone hused
    exact ⟨sys', new, last, m, hgo, H'⟩
  | ended ho' hD hserver =>
    subst ho'
    rw [hD, Function.update_eq_self] at hdone
    cases ho : s.pipeline.txn pid with
    | none =>
      -- A process that is in no call has nothing to release.
      refine hquiet (by rw [htxn, ← ho, Function.update_eq_self]) hdone ?_
      rw [hserver]
      refine congrArg (Server.mk _) (funext fun k => if_neg fun hk => ?_)
      exact H.used.txn hk ho
    | some call =>
      obtain ⟨sys', new, hgo, H'⟩ := H.fail calls ho htxn hdone hserver hused
      exact ⟨sys', new, last, m, hgo, H'⟩

end

end DocClassifier
