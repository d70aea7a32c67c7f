import DocClassifier.IngestLoops
import DocClassifier.Lib.Run

/-!
# The pipeline

The system of the SFTP watcher, the upload requests, the queue and the workers on one world. Every
poll and every upload request is an ingest call with a thread of its own, every execution of a job
too, and the threads take their steps in any order. RQ hands a queued job to one worker; a job that
raises, or whose worker is killed, goes to the failed queue, from where it may be queued again.
-/

namespace DocClassifier
open ReadCommitted Transition

namespace Thread

variable {α : Type}

/-- The thread has returned or raised. -/
def ended : Thread α → Bool
  | .run _ (.ret _) => true
  | .run _ (.raise _) => true
  | _ => false

/-- The process of the thread dies. -/
def kill (th : Thread α) : Thread α := .run th.hist (.raise (.infrastructure "killed"))

end Thread

structure IngestCall where
  source : Source
  files : List String
  thread : Thread (Option UploadResponse)
  /-- The process of the call has died. -/
  killed : Bool := false

/-- The call is a poll in progress. -/
def IngestCall.polling (c : IngestCall) : Bool := c.source = .sftp ∧ ¬ c.thread.ended

inductive JobState where
  | queued
  | running (th : Thread ClassifyResult)
  | returned
  | failed

inductive JobStatus where
  | queued
  | started
  | finished
  | failed
  deriving DecidableEq

/-- A job's state without its thread. -/
def JobState.status : JobState → JobStatus
  | .queued => .queued
  | .running _ => .started
  | .returned => .finished
  | .failed => .failed

theorem JobState.eq_of_status {st st' : JobState} (h : st.status = st'.status)
    (hr : st'.status ≠ .started) : st = st' := by
  cases st with
  | running => exact absurd h.symm hr
  | queued | returned | failed =>
    cases st' with
    | running => exact absurd rfl hr
    | queued | returned | failed =>
      first
      | rfl
      | cases h

/-- A job with the histories of its earlier executions. -/
structure JobRun where
  past : List History := []
  state : JobState := .queued

/-- The execution of a job has come to `th`. -/
def JobRun.next (past : List History) (th : Thread ClassifyResult) : JobRun :=
  match th with
  | .run H (.ret _) => ⟨past ++ [H], .returned⟩
  | .run H (.raise _) => ⟨past ++ [H], .failed⟩
  | th => ⟨past, .running th⟩

structure Pipeline where
  world : World
  calls : List IngestCall := []
  /-- The state of each job, by its position in the queue. -/
  jobs : Nat → JobRun := fun _ => {}

namespace Pipeline

/-- A fresh deployment: users, and files in the drop zone, but nothing ingested. -/
def start (users : Table String UserORM (·.id)) (dropZone : Table String RemoteFile (·.filename)) :
    Pipeline :=
  { world :=
      { server := ⟨{ users }, fun _ => none⟩, blobs := fun _ => none, queue := [], dropZone
        seen := [] } }

inductive Event where
  /-- The scanner changes the drop zone. -/
  | drop (dropZone : Table String RemoteFile (·.filename))
  /-- The watcher lists new files and starts to process them. -/
  | poll
  /-- The process of the watcher is killed and starts again. -/
  | restart
  /-- A permitted upload request is received. -/
  | upload (actor : User) (uuid : String) (files : List UploadFile)
  | cancel (i : Nat)
  | ingest (i : Nat) (tick : Tick)
  | start (n : Nat)
  | job (n : Nat) (tick : Tick)
  | kill (n : Nat)
  | retry (n : Nat)

def newFiles (s : Pipeline) : List String :=
  SFTPWatcher.listNewFiles s.world.dropZone s.world.seen

/-- The poll in progress. -/
def activePoll (s : Pipeline) : Option Nat := s.calls.findIdx? (·.polling)

def pollCall (s : Pipeline) : IngestCall :=
  { source := .sftp
    files := s.newFiles
    thread := .run [] do
      SFTPWatcher.poll s.newFiles
      pure none }

def uploadCall (actor : User) (fileData : List (String × Bytes)) : IngestCall :=
  { source := .http
    files := fileData.map (·.1)
    thread := .run [] do
      let response ← uploadDocuments actor fileData
      pure (some response) }

def release (s : Pipeline) (pid : Pid) : Pipeline :=
  { s with world := { s.world with server := s.world.server.release pid } }

/-- The process of the ingest call `i` dies. -/
def killCall (s : Pipeline) (i : Nat) (c : IngestCall) : Pipeline :=
  { s.release (.ingest i) with
    calls := s.calls.set i { c with thread := c.thread.kill, killed := true } }

def setJob (s : Pipeline) (n : Nat) (j : JobRun) : Pipeline :=
  { s with jobs := Function.update s.jobs n j }

def forget (s : Pipeline) : Pipeline := { s with world := { s.world with seen := [] } }

variable (C : Classifier)

def step (s : Pipeline) : Event → Option Pipeline
  | .drop dropZone => some { s with world := { s.world with dropZone } }
  | .poll =>
    if s.activePoll = none ∧ s.newFiles ≠ [] then
      some { s with calls := s.calls ++ [s.pollCall] }
    else none
  | .restart => match s.activePoll with
    | none => some s.forget
    | some i => (s.calls[i]?).map fun c => (s.killCall i c).forget
  | .upload actor uuid files => match validateUpload uuid files with
    | .ok fileData => some { s with calls := s.calls ++ [uploadCall actor fileData] }
    | .error _ => none
  | .cancel i => match s.calls[i]? with
    | some c => if c.source = .http ∧ ¬ c.thread.ended then some (s.killCall i c) else none
    | none => none
  | .ingest i tick => match s.calls[i]? with
    | some c => (c.thread.step C (.ingest i) s.world tick).map fun (world, thread) =>
      { s with world, calls := s.calls.set i { c with thread } }
    | none => none
  | .start n => match s.world.queue[n]?, (s.jobs n).state with
    | some job, .queued =>
      some (s.setJob n { s.jobs n with state := .running (.run [] (classify job)) })
    | _, _ => none
  | .job n tick => match (s.jobs n).state with
    | .running th => (th.step C (.job n) s.world tick).map fun (world, th') =>
      { s with world }.setJob n (.next (s.jobs n).past th')
    | _ => none
  | .kill n => match (s.jobs n).state with
    | .running th =>
      some ((s.release (.job n)).setJob n ⟨(s.jobs n).past ++ [th.hist], .failed⟩)
    | _ => none
  | .retry n => match (s.jobs n).state with
    | .failed => some (s.setJob n { s.jobs n with state := .queued })
    | _ => none

/-- What an event can do. -/
inductive Step (s : Pipeline) : Event → Pipeline → Prop
  | drop {dropZone : Table String RemoteFile (·.filename)} :
      Step s (.drop dropZone) { s with world := { s.world with dropZone } }
  | poll : s.activePoll = none → s.newFiles ≠ [] →
      Step s .poll { s with calls := s.calls ++ [s.pollCall] }
  | restartIdle : s.activePoll = none → Step s .restart s.forget
  | restart {i : Nat} {c : IngestCall} : s.activePoll = some i → s.calls[i]? = some c →
      Step s .restart (s.killCall i c).forget
  | upload {actor : User} {uuid : String} {files : List UploadFile}
      {fileData : List (String × Bytes)} : validateUpload uuid files = .ok fileData →
      Step s (.upload actor uuid files)
        { s with calls := s.calls ++ [uploadCall actor fileData] }
  | cancel {i : Nat} {c : IngestCall} : s.calls[i]? = some c → c.source = .http →
      c.thread.ended = false → Step s (.cancel i) (s.killCall i c)
  | ingest {i : Nat} {tick : Tick} {c : IngestCall} {world : World}
      {thread : Thread (Option UploadResponse)} : s.calls[i]? = some c →
      c.thread.step C (.ingest i) s.world tick = some (world, thread) →
      Step s (.ingest i tick) { s with world, calls := s.calls.set i { c with thread } }
  | start {n : Nat} {job : Job} : s.world.queue[n]? = some job → (s.jobs n).state = .queued →
      Step s (.start n)
        (s.setJob n { s.jobs n with state := .running (.run [] (classify job)) })
  | job {n : Nat} {tick : Tick} {th th' : Thread ClassifyResult} {world : World} :
      (s.jobs n).state = .running th →
      th.step C (.job n) s.world tick = some (world, th') →
      Step s (.job n tick) ({ s with world }.setJob n (.next (s.jobs n).past th'))
  | kill {n : Nat} {th : Thread ClassifyResult} : (s.jobs n).state = .running th →
      Step s (.kill n)
        ((s.release (.job n)).setJob n ⟨(s.jobs n).past ++ [th.hist], .failed⟩)
  | retry {n : Nat} : (s.jobs n).state = .failed →
      Step s (.retry n) (s.setJob n { s.jobs n with state := .queued })

variable {C} {s s' : Pipeline} {e : Event}

theorem step_cases (h : s.step C e = some s') : Step C s e s' := by
  cases e with
  | drop => cases h; exact .drop
  | poll =>
    simp only [step] at h
    split at h
    · cases h; exact .poll (by simp_all) (by simp_all)
    · cases h
  | restart =>
    simp only [step] at h
    split at h
    · cases h; exact .restartIdle ‹_›
    · obtain ⟨c, hc, rfl⟩ := Option.map_eq_some_iff.mp h
      exact .restart ‹_› hc
  | upload actor uuid files =>
    simp only [step] at h
    split at h
    · cases h; exact .upload ‹_›
    · cases h
  | cancel i =>
    simp only [step] at h
    split at h
    · split at h
      · rename_i hc hs
        cases h
        exact .cancel hc hs.1 (by simpa using hs.2)
      · cases h
    · cases h
  | ingest i tick =>
    simp only [step] at h
    split at h
    · obtain ⟨⟨world, thread⟩, ht, rfl⟩ := Option.map_eq_some_iff.mp h
      exact .ingest ‹_› ht
    · cases h
  | start n =>
    simp only [step] at h
    split at h
    · cases h; exact .start ‹_› ‹_›
    · cases h
  | job n tick =>
    simp only [step] at h
    split at h
    · obtain ⟨⟨world, th'⟩, ht, rfl⟩ := Option.map_eq_some_iff.mp h
      exact .job ‹_› ht
    · cases h
  | kill n =>
    simp only [step] at h
    split at h
    · cases h; exact .kill ‹_›
    · cases h
  | retry n =>
    simp only [step] at h
    split at h
    · cases h; exact .retry ‹_›
    · cases h

end Pipeline

end DocClassifier
