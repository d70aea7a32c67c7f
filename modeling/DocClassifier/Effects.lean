import DocClassifier.Documents
import DocClassifier.ServiceSpecs
import DocClassifier.Lib.Program

/-!
# Operations, the world and threads

The operations of the ingest loops and of the inference worker, the world they act on, and the
execution of one thread. A thread performs its operations one at a time; a service call is a
transaction that it executes statement by statement on the shared server. Each thread keeps the
history of its operations with their answers, which no program reads.

An operation that raises has had no effect. The image classifier is a parameter.
-/

namespace DocClassifier
open ReadCommitted

/-- The service calls of the ingest loops and of the worker. -/
inductive ServiceCall where
  | createBatch (fileCount : Nat) (actor : Option User)
  | markProcessing (batchId : String)
  | markDone (batchId : String)
  | savePrediction (batchId : String) (data : PredictionCreate)
  deriving DecidableEq

namespace ServiceCall

@[reducible] def Result : ServiceCall → Type
  | .createBatch .. => Batch
  | .markProcessing _ => Batch
  | .markDone _ => Batch
  | .savePrediction .. => Prediction

def block : (s : ServiceCall) → Gen → Block (Committed s.Result)
  | .createBatch fileCount actor, g =>
    BatchService.createBatch g (some { id := g.uuid, fileCount }) actor
  | .markProcessing batchId, g => BatchService.markProcessing g batchId
  | .markDone batchId, g => BatchService.markDone g batchId
  | .savePrediction batchId data, g => PredictionService.savePrediction g batchId data

end ServiceCall

/-- The keyword arguments of a classify job. -/
structure Job where
  batchId : String
  blobKey : String
  requestId : String
  deriving DecidableEq

inductive Io where
  | cacheDelete (key : String)
  | cacheClose
  /-- The first use of a process-level singleton builds it from the environment and Vault. -/
  | getClient (name : String)
  | uuid4
  | statObject (key : String)
  | getObject (key : String)
  | putObject (key : String) (data : Bytes)
  | sftpStat (filename : String)
  | sftpRead (filename : String)
  | enqueue (job : Job)
  | addSeen (filename : String)
  | predict (imageBytes : Bytes)
  | drawOverlay (imageBytes : Bytes) (label : String) (confidence : Rat)
  deriving DecidableEq

namespace Io

@[reducible] def Answer : Io → Type
  | .cacheDelete _ => Unit
  | .cacheClose => Unit
  | .getClient _ => Unit
  | .uuid4 => String
  | .statObject _ => Unit
  | .getObject _ => Bytes
  | .putObject .. => Unit
  | .sftpStat _ => Nat
  | .sftpRead _ => Bytes
  | .enqueue _ => String
  | .addSeen _ => Unit
  | .predict _ => String × Rat
  | .drawOverlay .. => Bytes

/-- All operations can raise but the two that do not leave the process. -/
def fallible : Io → Bool
  | .uuid4 => false
  | .addSeen _ => false
  | _ => true

end Io

inductive Op where
  | tx (s : ServiceCall)
  | io (i : Io)

@[reducible] def Op.Answer : Op → Type
  | .tx s => Committed s.Result
  | .io i => i.Answer

abbrev Proc := Prog Op.Answer Exn

abbrev History := List (Prog.Done Op.Answer Exn)

def io (i : Io) : Proc i.Answer := Prog.call (Op.io i)

/-- A call of a service method: its transaction, and then the cache keys one by one. -/
def service (s : ServiceCall) : Proc s.Result := do
  let c ← (Prog.call (Op.tx s) : Proc (Committed s.Result))
  Prog.forEach c.deletes fun key => io (.cacheDelete key)
  pure c.result

/-- The image classifier and the drawing of overlays. Both raise for bytes that are no image. -/
structure Classifier where
  predict : Bytes → Option (String × Rat)
  drawOverlay : Bytes → String → Rat → Option Bytes

inductive Pid where
  | ingest (i : Nat)
  | job (n : Nat)
  deriving DecidableEq

structure RemoteFile where
  filename : String
  content : Bytes
  deriving DecidableEq

structure World where
  server : Server Tables Row Pid
  /-- The objects of the bucket. -/
  blobs : String → Option Bytes
  /-- The classify jobs that have been enqueued, in order. -/
  queue : List Job
  /-- The watched directory of the SFTP server. -/
  dropZone : Table String RemoteFile (·.filename)
  /-- `SFTPWatcher._seen`. -/
  seen : List String

/-- The failures of the services that a program depends on. -/
inductive Fail where
  | s3Error (code : String)
  | other (msg : String)
  deriving DecidableEq

def Fail.exn : Fail → Exn
  | .s3Error code => .s3Error code
  | .other msg => .infrastructure msg

/-- The answer of an operation and its effect, when nothing outside fails. -/
def perform (C : Classifier) (w : World) (g : Gen) : (i : Io) → Except Exn i.Answer × World
  | .cacheDelete _ => (.ok (), w)
  | .cacheClose => (.ok (), w)
  | .getClient _ => (.ok (), w)
  | .uuid4 => (.ok g.uuid, w)
  | .statObject key =>
    (if (w.blobs key).isSome then .ok () else .error (.s3Error "NoSuchKey"), w)
  | .getObject key => (match w.blobs key with
    | some data => .ok data
    | none => .error (.s3Error "NoSuchKey"), w)
  | .putObject key data => (.ok (), { w with blobs := Function.update w.blobs key (some data) })
  | .sftpStat filename => (match w.dropZone.find? filename with
    | some file => .ok file.content.length
    | none => .error (.infrastructure "No such file"), w)
  | .sftpRead filename => (match w.dropZone.find? filename with
    | some file => .ok file.content
    | none => .error (.infrastructure "No such file"), w)
  | .enqueue job => (.ok g.uuid, { w with queue := w.queue ++ [job] })
  | .addSeen filename => (.ok (), { w with seen := w.seen ++ [filename] })
  | .predict imageBytes => (match C.predict imageBytes with
    | some r => .ok r
    | none => .error (.infrastructure "cannot identify image file"), w)
  | .drawOverlay imageBytes label confidence =>
    (match C.drawOverlay imageBytes label confidence with
    | some overlayBytes => .ok overlayBytes
    | none => .error (.infrastructure "cannot identify image file"), w)

section
variable {C : Classifier} {w : World} {g : Gen} {imageBytes : Bytes}

theorem perform_predict {r : String × Rat} :
    (perform C w g (.predict imageBytes)).1 = .ok r ↔ C.predict imageBytes = some r := by
  rw [perform]
  cases C.predict imageBytes <;> simp

theorem perform_drawOverlay {label : String} {confidence : Rat} {overlayBytes : Bytes} :
    (perform C w g (.drawOverlay imageBytes label confidence)).1 = .ok overlayBytes ↔
      C.drawOverlay imageBytes label confidence = some overlayBytes := by
  rw [perform]
  cases C.drawOverlay imageBytes label confidence <;> simp

end

/-! ## Threads -/

inductive Thread (α : Type) where
  | run (H : History) (p : Proc α)
  /-- In the middle of the transaction of a service call. -/
  | tx (H : History) (s : ServiceCall) (t : Txn Tables Stmt Exn (Committed s.Result))
    (k : Except Exn (Committed s.Result) → Proc α)

/-- What the next step of a thread meets. -/
inductive Tick where
  | ok (g : Gen)
  | raise (f : Fail)

namespace Thread

variable {α : Type}

def hist : Thread α → History
  | .run H _ => H
  | .tx H _ _ _ => H

/-- The answer to the transaction of a service call has arrived. -/
def answer (H : History) (s : ServiceCall) (k : Except Exn (Committed s.Result) → Proc α)
    (r : Except Exn (Committed s.Result)) : Thread α :=
  .run (H ++ [⟨.tx s, r⟩]) (k r)

def ofReply (H : History) (s : ServiceCall) (k : Except Exn (Committed s.Result) → Proc α) :
    Reply Tables Stmt Exn (Committed s.Result) → Thread α
  | .running t => .tx H s t k
  | .committed c => answer H s k (.ok c)
  | .aborted e => answer H s k (.error e)

def step (C : Classifier) (pid : Pid) (w : World) : Thread α → Tick → Option (World × Thread α)
  | .run H (.op (.tx s) k), .ok g => some (w, .tx H s ⟨s.block g, []⟩ k)
  | .run H (.op (.tx s) k), .raise f => some (w, answer H s k (.error f.exn))
  | .run H (.op (.io i) k), .ok g =>
    some ((perform C w g i).2,
      .run (H ++ [⟨.io i, (perform C w g i).1⟩]) (k (perform C w g i).1))
  | .run H (.op (.io i) k), .raise f =>
    if i.fallible then some (w, .run (H ++ [⟨.io i, .error f.exn⟩]) (k (.error f.exn))) else none
  | .tx H s t k, .ok _ => (w.server.stmt postgres pid t).map fun (server, r) =>
    ({ w with server }, ofReply H s k r)
  | .tx H s _ k, .raise f =>
    some ({ w with server := w.server.release pid }, answer H s k (.error f.exn))
  | .run _ (.ret _), _ => none
  | .run _ (.raise _), _ => none

/-- What a step of a thread can do. -/
inductive Step (C : Classifier) (pid : Pid) (w : World) : Thread α → World → Thread α → Prop
  | begin {H : History} {s : ServiceCall} {k : Except Exn (Committed s.Result) → Proc α}
      (g : Gen) : Step C pid w (.run H (.op (.tx s) k)) w (.tx H s ⟨s.block g, []⟩ k)
  | refused {H : History} {s : ServiceCall} {k : Except Exn (Committed s.Result) → Proc α}
      (f : Fail) : Step C pid w (.run H (.op (.tx s) k)) w (answer H s k (.error f.exn))
  | io {H : History} {i : Io} {k : Except Exn i.Answer → Proc α} (g : Gen) :
      Step C pid w (.run H (.op (.io i) k)) (perform C w g i).2
        (.run (H ++ [⟨.io i, (perform C w g i).1⟩]) (k (perform C w g i).1))
  | fail {H : History} {i : Io} {k : Except Exn i.Answer → Proc α} (f : Fail) :
      i.fallible = true → Step C pid w (.run H (.op (.io i) k)) w
        (.run (H ++ [⟨.io i, .error f.exn⟩]) (k (.error f.exn)))
  | stmt {H : History} {s : ServiceCall} {t : Txn Tables Stmt Exn (Committed s.Result)}
      {k : Except Exn (Committed s.Result) → Proc α} {server : Server Tables Row Pid}
      {r : Reply Tables Stmt Exn (Committed s.Result)} :
      w.server.stmt postgres pid t = some (server, r) →
      Step C pid w (.tx H s t k) { w with server } (ofReply H s k r)
  | lost {H : History} {s : ServiceCall} {t : Txn Tables Stmt Exn (Committed s.Result)}
      {k : Except Exn (Committed s.Result) → Proc α} (f : Fail) :
      Step C pid w (.tx H s t k) { w with server := w.server.release pid }
        (answer H s k (.error f.exn))

variable {C : Classifier} {pid : Pid} {w w' : World} {th th' : Thread α} {tick : Tick}

theorem step_cases (h : th.step C pid w tick = some (w', th')) : Step C pid w th w' th' := by
  unfold step at h
  split at h
  · cases h; exact .begin _
  · cases h; exact .refused _
  · cases h; exact .io _
  · split at h
    · cases h; exact .fail _ ‹_›
    · cases h
  · simp only [Option.map_eq_some_iff] at h
    obtain ⟨⟨server, r⟩, hs, h⟩ := h
    cases h
    exact .stmt hs
  · cases h; exact .lost _
  · cases h
  · cases h

end Thread

end DocClassifier
