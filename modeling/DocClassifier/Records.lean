import DocClassifier.Pipeline
import DocClassifier.Threads

/-!
# The records of the pipeline

Every reachable state of the pipeline keeps to the contracts (`Kept`). The record of a process is
the list of the operations it has performed so far with their answers, over all executions for a
job. A step adds at most one answer to one record (`Moves`), and what it does to the tables, the
objects and the queue is the effect of that answer.
-/

namespace DocClassifier
open ReadCommitted Transition Prog

/-- The call keeps to its contract. -/
structure IngestCall.Kept (c : IngestCall) : Prop where
  along : Along (contract (IngestMay c.source c.files)) c.thread.hist
  keeps : c.killed = false →
    c.thread.Keeps (IngestMay c.source c.files) (CallEnds c.source c.files)
  dead : c.killed = true → c.thread.ended = true
  files : c.files ≠ []
  nodup : c.source = .sftp → c.files.Nodup

/-- All executions of the job keep to its contract, and it has returned only if it has finished. -/
structure JobRun.Kept (j : JobRun) (job : Job) : Prop where
  running : ∀ th, j.state = .running th → th.Keeps (JobMay job) (JobEnds job) ∧ th.ended = false
  past : ∀ H ∈ j.past, Along (contract (JobMay job)) H
  returned : j.state = .returned → ∃ H ∈ j.past, Finished job H

/-- The history of the execution in progress. -/
def JobRun.hist (j : JobRun) : History :=
  match j.state with
  | .running th => th.hist
  | _ => []

def JobRun.pending (j : JobRun) : List Stmt :=
  match j.state with
  | .running th => th.pending
  | _ => []

/-- What the executions of a job have performed so far. -/
def JobRun.record (j : JobRun) : History := j.past.flatten ++ j.hist

namespace Pipeline

structure Kept (s : Pipeline) : Prop where
  calls : ∀ (i : Nat) (c : IngestCall), s.calls[i]? = some c → c.Kept
  jobs : ∀ n job, s.world.queue[n]? = some job → (s.jobs n).Kept job
  fresh : ∀ n, s.world.queue.length ≤ n → s.jobs n = {}

variable {C : Classifier} {s s' : Pipeline} {e : Event}

theorem newFiles_nodup : s.newFiles.Nodup := s.world.dropZone.nodup.filter _

theorem pollCall_kept (h : s.newFiles ≠ []) : s.pollCall.Kept := by
  refine ⟨along_nil, fun _ => ⟨along_nil, ?_⟩, nofun, h, fun _ => newFiles_nodup⟩
  rw [spec_bind]
  refine (poll_spec h newFiles_nodup).mono fun H r hr => ?_
  cases r <;> exact ⟨hr.early, hr.ends⟩

theorem uploadCall_kept {actor : User} {uuid : String} {files : List UploadFile}
    {fileData : List (String × Bytes)} (h : validateUpload uuid files = .ok fileData) :
    (uploadCall actor fileData).Kept := by
  obtain ⟨hne, hsmall⟩ := validateUpload_ok h
  refine ⟨along_nil, fun _ => ⟨along_nil, ?_⟩, nofun, by simpa [uploadCall] using hne, nofun⟩
  rw [spec_bind]
  refine (uploadDocuments_spec hne hsmall).mono fun H r hr => ?_
  cases r <;> exact ⟨hr.early, hr.ends⟩

theorem Kept.start (users : Table String UserORM (·.id))
    (dropZone : Table String RemoteFile (·.filename)) : (start users dropZone).Kept :=
  ⟨nofun, nofun, fun _ _ => rfl⟩

end Pipeline

theorem JobRun.Kept.fresh (job : Job) : ({} : JobRun).Kept job := ⟨nofun, nofun, nofun⟩

theorem JobRun.Kept.next {past : List History} {th : Thread ClassifyResult} {job : Job}
    (hp : ∀ H ∈ past, Along (contract (JobMay job)) H)
    (hth : th.Keeps (JobMay job) (JobEnds job)) : (JobRun.next past th).Kept job := by
  have hpast : ∀ H ∈ past ++ [th.hist], Along (contract (JobMay job)) H :=
    List.forall_mem_append.mpr ⟨hp, List.forall_mem_singleton.mpr hth.along⟩
  unfold JobRun.next
  split
  · exact ⟨nofun, hpast, fun _ => ⟨_, by simp, hth.2⟩⟩
  · exact ⟨nofun, hpast, nofun⟩
  · rename_i hret hraise
    refine ⟨fun th' heq => ?_, hp, nofun⟩
    cases heq
    refine ⟨hth, ?_⟩
    cases th with
    | run H p =>
      cases p with
      | ret a => exact (hret H a rfl).elim
      | raise e => exact (hraise H e rfl).elim
      | op => rfl
    | tx => rfl

theorem IngestCall.Kept.kill {c : IngestCall} (H : c.Kept) :
    IngestCall.Kept { c with thread := c.thread.kill, killed := true } :=
  ⟨H.along, nofun, fun _ => rfl, H.files, H.nodup⟩

/-- A thread that has ended takes no step. -/
theorem Thread.step_running {α : Type} {C : Classifier} {pid : Pid} {w w' : World}
    {th th' : Thread α} {tick : Tick} (h : th.step C pid w tick = some (w', th')) :
    th.ended = false := by
  cases step_cases h <;> rfl

theorem Thread.Keeps.ends {α : Type} {th : Thread α} {may : History → Op → Prop}
    {Q : History → Except Exn α → Prop} (H : th.Keeps may Q) (hend : th.ended = true) :
    ∃ r, Q th.hist r := by
  cases th with
  | tx => cases hend
  | run H' p =>
    cases p with
    | ret a => exact ⟨_, H.2⟩
    | raise e => exact ⟨_, H.2⟩
    | op => cases hend

/-- What holds of a call that has ended by itself. -/
theorem IngestCall.Kept.ends {c : IngestCall} {b : String} (H : c.Kept) (hk : c.killed = false)
    (hend : c.thread.ended = true) (hb : batchOf c.thread.hist = some b) :
    IngestEnds c.source c.files c.thread.hist b := by
  obtain ⟨r, hr⟩ := (H.keeps hk).ends hend
  exact hr.ends b hb

theorem IngestCall.Kept.step {c : IngestCall} {C : Classifier} {pid : Pid} {w w' : World}
    {thread : Thread (Option UploadResponse)} {tick : Tick} (H : c.Kept)
    (h : c.thread.step C pid w tick = some (w', thread)) :
    IngestCall.Kept { c with thread } ∧ c.killed = false := by
  have hk : c.killed = false := by
    cases hk : c.killed with
    | false => rfl
    | true =>
      have hend := H.dead hk
      rw [Thread.step_running h] at hend
      cases hend
  have hkeeps := (H.keeps hk).step h
  refine ⟨⟨hkeeps.along, fun _ => hkeeps, fun hd => ?_, H.files, H.nodup⟩, hk⟩
  rw [hk] at hd
  cases hd

theorem Thread.step_queue {α : Type} {C : Classifier} {pid : Pid} {w w' : World}
    {th th' : Thread α} {tick : Tick} (h : th.step C pid w tick = some (w', th')) :
    w.queue <+: w'.queue := by
  cases step_cases h with
  | @io H i k g =>
    cases i with
    | enqueue job => exact List.prefix_append _ _
    | _ => exact List.prefix_rfl
  | _ => exact List.prefix_rfl

namespace Pipeline

variable {C : Classifier} {s s' : Pipeline} {e : Event}

theorem Kept.setJob (H : s.Kept) {n : Nat} {j : JobRun} (hn : n < s.world.queue.length)
    (hj : ∀ job, s.world.queue[n]? = some job → j.Kept job) : (s.setJob n j).Kept := by
  refine ⟨H.calls, fun m job hm => ?_, fun m hm => ?_⟩
  · simp only [Pipeline.setJob, Function.update_apply]
    split
    · subst m
      exact hj job hm
    · exact H.jobs m job hm
  · have hne : m ≠ n := by
      rintro rfl
      exact absurd hn (Nat.not_lt.mpr hm)
    simp only [Pipeline.setJob, Function.update_apply, hne, if_false]
    exact H.fresh m hm

/-- A longer queue has new jobs at its end, which nobody has started. -/
theorem Kept.withWorld (H : s.Kept) {world : World} (hq : s.world.queue <+: world.queue) :
    Kept { s with world } := by
  refine ⟨H.calls, fun n job hn => ?_, fun n hn => H.fresh n (hq.length_le.trans hn)⟩
  by_cases hlt : n < s.world.queue.length
  · exact H.jobs n job ((getElem?_extend hq hlt).symm.trans hn)
  · dsimp only
    rw [H.fresh n (Nat.not_lt.mp hlt)]
    exact .fresh job

theorem Kept.withCalls (H : s.Kept) {calls : List IngestCall}
    (h : ∀ (i : Nat) (c : IngestCall), calls[i]? = some c → c.Kept) :
    Kept { s with calls } := ⟨h, H.jobs, H.fresh⟩

theorem Kept.addCall (H : s.Kept) {c : IngestCall} (hc : c.Kept) :
    Kept { s with calls := s.calls ++ [c] } := by
  refine H.withCalls fun i c' hc' => ?_
  rw [List.getElem?_append] at hc'
  split at hc'
  · exact H.calls i c' hc'
  · rw [List.getElem?_singleton] at hc'
    split at hc'
    · cases hc'
      exact hc
    · cases hc'

theorem Kept.setCall (H : s.Kept) (i : Nat) {c : IngestCall} (hc : c.Kept) :
    Kept { s with calls := s.calls.set i c } := by
  refine H.withCalls fun j c' hc' => ?_
  rw [List.getElem?_set] at hc'
  split at hc'
  · split at hc'
    · cases hc'
      exact hc
    · cases hc'
  · exact H.calls j c' hc'

theorem Kept.killCall (H : s.Kept) {i : Nat} {c : IngestCall} (hc : s.calls[i]? = some c) :
    (s.killCall i c).Kept :=
  (show (s.release (.ingest i)).Kept from H.withWorld List.prefix_rfl).setCall i
    (H.calls i c hc).kill

/-- A job that is not new is in the queue. -/
theorem Kept.lt (H : s.Kept) {n : Nat} (h : s.jobs n ≠ {}) : n < s.world.queue.length := by
  by_contra hn
  exact h (H.fresh n (Nat.not_lt.mp hn))

theorem Kept.step (H : s.Kept) (h : s.step C e = some s') : s'.Kept := by
  cases step_cases h with
  | drop => exact H.withWorld List.prefix_rfl
  | poll hidle hne => exact H.addCall (pollCall_kept hne)
  | restartIdle => exact H.withWorld List.prefix_rfl
  | restart hi hc => exact (H.killCall hc).withWorld List.prefix_rfl
  | upload hok => exact H.addCall (uploadCall_kept hok)
  | cancel hc => exact H.killCall hc
  | @ingest i tick c world thread hc ht =>
    exact (H.withWorld (Thread.step_queue ht)).setCall i ((H.calls i c hc).step ht).1
  | @start n job hn hs =>
    have hlt : n < s.world.queue.length := by
      by_contra hge
      rw [List.getElem?_eq_none (Nat.not_lt.mp hge)] at hn
      cases hn
    refine H.setJob hlt fun job' hn' => ⟨fun th hth => ?_, (H.jobs n job' hn').past, nofun⟩
    cases hth
    rw [hn] at hn'
    cases hn'
    exact ⟨⟨along_nil, classify_spec job⟩, rfl⟩
  | @job n tick th th' world hs ht =>
    have hq := Thread.step_queue ht
    have hlt := H.lt (n := n) fun heq => by simp [heq] at hs
    have hworld : Kept { s with world } := H.withWorld hq
    refine hworld.setJob (hlt.trans_le hq.length_le) fun job hn => ?_
    have hjob := H.jobs n job ((getElem?_extend hq hlt).symm.trans hn)
    exact .next hjob.past ((hjob.running th hs).1.step ht)
  | @kill n th hs =>
    have hlt := H.lt (n := n) fun heq => by simp [heq] at hs
    have hworld : (s.release (.job n)).Kept := H.withWorld List.prefix_rfl
    refine hworld.setJob hlt fun job hn => ?_
    have hjob := H.jobs n job hn
    have halong := (hjob.running th hs).1.along
    exact ⟨nofun, List.forall_mem_append.mpr ⟨hjob.past, List.forall_mem_singleton.mpr halong⟩,
      nofun⟩
  | @retry n hs =>
    have hlt := H.lt (n := n) fun heq => by simp [heq] at hs
    exact H.setJob hlt fun job hn => ⟨nofun, (H.jobs n job hn).past, nofun⟩

/-! ## Records -/

/-- What a process has performed so far. -/
def record (s : Pipeline) : Pid → History
  | .ingest i => match s.calls[i]? with
    | some c => c.thread.hist
    | none => []
  | .job n => (s.jobs n).record

/-- The writes of the transaction that a process has in progress. -/
def pending (s : Pipeline) : Pid → List Stmt
  | .ingest i => match s.calls[i]? with
    | some c => c.thread.pending
    | none => []
  | .job n => (s.jobs n).pending

/-- The operations that a process may perform next. -/
def May (s : Pipeline) : Pid → Op → Prop
  | .ingest i, o => ∃ c, s.calls[i]? = some c ∧ IngestMay c.source c.files c.thread.hist o
  | .job n, o => ∃ job th, s.world.queue[n]? = some job ∧ (s.jobs n).state = .running th ∧
      JobMay job th.hist o

section
variable {i n : Nat} {c c' : IngestCall} {j : JobRun}

theorem record_call (h : s.calls[i]? = some c) : s.record (.ingest i) = c.thread.hist := by
  simp [record, h]

theorem pending_call (h : s.calls[i]? = some c) : s.pending (.ingest i) = c.thread.pending := by
  simp [pending, h]

theorem getElem?_addCall (m : Nat) :
    (s.calls ++ [c])[m]? = if m = s.calls.length then some c else s.calls[m]? := by
  rcases Nat.lt_trichotomy m s.calls.length with hm | rfl | hm
  · rw [List.getElem?_append_left hm, if_neg hm.ne]
  · simp
  · rw [List.getElem?_eq_none (by simp; omega), List.getElem?_eq_none hm.le, if_neg hm.ne']

theorem record_addCall (h : c.thread.hist = []) :
    record { s with calls := s.calls ++ [c] } = s.record := by
  funext pid
  cases pid with
  | job => rfl
  | ingest m =>
    simp only [record, getElem?_addCall]
    by_cases hm : m = s.calls.length
    · simp [hm, h]
    · simp [hm]

theorem pending_addCall (h : c.thread.pending = []) :
    pending { s with calls := s.calls ++ [c] } = s.pending := by
  funext pid
  cases pid with
  | job => rfl
  | ingest m =>
    simp only [pending, getElem?_addCall]
    by_cases hm : m = s.calls.length
    · simp [hm, h]
    · simp [hm]

theorem getElem?_setCall (h : s.calls[i]? = some c) (m : Nat) :
    (s.calls.set i c')[m]? = if m = i then some c' else s.calls[m]? := by
  have hlt : i < s.calls.length := (List.getElem?_eq_some_iff.mp h).1
  rw [List.getElem?_set]
  by_cases hm : i = m
  · subst hm
    simp [hlt]
  · simp [hm, Ne.symm hm]

theorem record_setCall (h : s.calls[i]? = some c) :
    record { s with calls := s.calls.set i c' } =
      Function.update s.record (.ingest i) c'.thread.hist := by
  funext pid
  cases pid with
  | job => rfl
  | ingest m =>
    simp only [record, getElem?_setCall h, Function.update_apply, Pid.ingest.injEq]
    by_cases hm : m = i <;> simp [hm]

theorem pending_setCall (h : s.calls[i]? = some c) :
    pending { s with calls := s.calls.set i c' } =
      Function.update s.pending (.ingest i) c'.thread.pending := by
  funext pid
  cases pid with
  | job => rfl
  | ingest m =>
    simp only [pending, getElem?_setCall h, Function.update_apply, Pid.ingest.injEq]
    by_cases hm : m = i <;> simp [hm]

theorem record_setJob : (s.setJob n j).record = Function.update s.record (.job n) j.record := by
  funext pid
  cases pid with
  | ingest => rfl
  | job m =>
    simp only [record, setJob, Function.update_apply, Pid.job.injEq]
    by_cases hm : m = n <;> simp [hm]

theorem pending_setJob : (s.setJob n j).pending = Function.update s.pending (.job n) j.pending := by
  funext pid
  cases pid with
  | ingest => rfl
  | job m =>
    simp only [pending, setJob, Function.update_apply, Pid.job.injEq]
    by_cases hm : m = n <;> simp [hm]

end

/-- A step adds at most one answer to one record, with its effect. -/
inductive Moves (C : Classifier) (s s' : Pipeline) : Prop
  | silent : s'.record = s.record → s'.world.server.db = s.world.server.db →
      s'.world.blobs = s.world.blobs → s'.world.queue = s.world.queue → Moves C s s'
  | answered {pid : Pid} {d : Done Op.Answer Exn} :
      s'.record = Function.update s.record pid (s.record pid ++ [d]) → s.May pid d.1 →
      Effect C s.world (s.pending pid) d s'.world → Moves C s s'

end Pipeline

theorem JobRun.record_next (past : List History) (th : Thread ClassifyResult) :
    (JobRun.next past th).record = past.flatten ++ th.hist := by
  unfold JobRun.next
  split <;> simp [JobRun.record, JobRun.hist, Thread.hist]

namespace Pipeline

variable {C : Classifier} {s s' : Pipeline} {e : Event}

theorem update_same {β : Type} {f : Pid → β} {pid : Pid} {b : β} (h : b = f pid) :
    Function.update f pid b = f := by
  rw [h, Function.update_eq_self]

theorem record_killCall {i : Nat} {c : IngestCall} (hc : s.calls[i]? = some c) :
    (s.killCall i c).record = s.record := by
  have h : (s.killCall i c).record = Function.update s.record (.ingest i) c.thread.hist :=
    record_setCall (c := c) hc
  rw [h, ← record_call hc, Function.update_eq_self]

theorem Kept.moves (H : s.Kept) (h : s.step C e = some s') : Moves C s s' := by
  cases step_cases h with
  | drop => exact .silent rfl rfl rfl rfl
  | poll => exact .silent (record_addCall rfl) rfl rfl rfl
  | restartIdle => exact .silent rfl rfl rfl rfl
  | restart hi hc => exact .silent (record_killCall hc) rfl rfl rfl
  | upload => exact .silent (record_addCall rfl) rfl rfl rfl
  | cancel hc => exact .silent (record_killCall hc) rfl rfl rfl
  | @ingest i tick c world thread hc ht =>
    have hkeeps := (H.calls i c hc).keeps ((H.calls i c hc).step ht).2
    have hrec : record { s with world, calls := s.calls.set i { c with thread } } =
      Function.update s.record (.ingest i) thread.hist := record_setCall hc
    rcases hkeeps.effect ht with ⟨hh, server, rfl, hdb⟩ | ⟨d, hh, hmay, heff⟩
    · refine .silent ?_ hdb rfl rfl
      rw [hrec, hh, ← record_call hc, Function.update_eq_self]
    · rw [← record_call hc] at hh
      rw [← pending_call hc] at heff
      have hmay' : s.May (.ingest i) d.1 := ⟨c, hc, hmay⟩
      exact .answered (hrec.trans (by rw [hh])) hmay' heff
  | @start n job hn hs =>
    refine .silent ?_ rfl rfl rfl
    rw [record_setJob, update_same]
    simp [record, JobRun.record, JobRun.hist, hs, Thread.hist]
  | @job n tick th th' world hs ht =>
    have hlt := H.lt (n := n) fun heq => by simp [heq] at hs
    have hn : s.world.queue[n]? = some s.world.queue[n] := List.getElem?_eq_getElem hlt
    have hkeeps := ((H.jobs n _ hn).running th hs).1
    have hrec : (Pipeline.setJob { s with world } n (.next (s.jobs n).past th')).record =
        Function.update s.record (.job n) ((s.jobs n).past.flatten ++ th'.hist) := by
      rw [record_setJob, JobRun.record_next]
      rfl
    have hhist : (s.jobs n).hist = th.hist := by simp [JobRun.hist, hs]
    have hpend : s.pending (.job n) = th.pending := by simp [pending, JobRun.pending, hs]
    have hold : s.record (.job n) = (s.jobs n).past.flatten ++ th.hist := by
      rw [record, JobRun.record, hhist]
    rcases hkeeps.effect ht with ⟨hh, server, rfl, hdb⟩ | ⟨d, hh, hmay, heff⟩
    · refine .silent ?_ hdb rfl rfl
      rw [hrec, hh, ← hold, Function.update_eq_self]
    · rw [← hpend] at heff
      have hmay' : s.May (.job n) d.1 := ⟨_, th, hn, hs, hmay⟩
      refine .answered (hrec.trans ?_) hmay' heff
      rw [hh, hold, List.append_assoc]
  | @kill n th hs =>
    refine .silent ?_ rfl rfl rfl
    have hrec : ((s.release (.job n)).setJob n ⟨(s.jobs n).past ++ [th.hist], .failed⟩).record =
      Function.update s.record (.job n) _ := record_setJob
    rw [hrec, update_same]
    simp [record, JobRun.record, JobRun.hist, hs]
  | @retry n hs =>
    refine .silent ?_ rfl rfl rfl
    rw [record_setJob, update_same]
    simp [record, JobRun.record, JobRun.hist, hs]

end Pipeline

end DocClassifier
