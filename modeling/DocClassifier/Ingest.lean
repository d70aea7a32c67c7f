import DocClassifier.Effects
import DocClassifier.Lib.Lists

/-!
# The ingest loops

`SFTPWatcher._poll` and `_process_file` with the callback of `app/workers/sftp_ingest.py`, and the
part of `POST /upload/` after the validation of the request.
-/

namespace DocClassifier

namespace BlobStorage

/-- `BlobStorage.exists`. -/
def blobExists (key : String) : Proc Bool := do
  match ← (io (.statObject key)).attempt with
  | .ok _ => pure true
  | .error (.s3Error _) => pure false
  | .error e => .raise e

def upload (key : String) (data : Bytes) : Proc String := do
  if data.length > MAX_FILE_BYTES then
    .raise (.valueError ("File too large: " ++ commas data.length ++ " bytes (hard cap " ++
      commas MAX_FILE_BYTES ++ ")"))
  else
    match ← (io (.putObject key data)).attempt with
    | .ok _ => pure key
    | .error (.s3Error exc) =>
      .raise (.runtimeError ("MinIO upload failed for key '" ++ key ++ "': " ++ exc))
    | .error e => .raise e

def download (key : String) : Proc Bytes := do
  match ← (io (.getObject key)).attempt with
  | .ok data => pure data
  | .error (.s3Error exc) =>
    .raise (.runtimeError ("MinIO download failed for key '" ++ key ++ "': " ++ exc))
  | .error e => .raise e

end BlobStorage

open BlobStorage

namespace SFTPWatcher

/-- `_list_new_files`, when the directory can be listed. -/
def listNewFiles (dropZone : Table String RemoteFile (·.filename)) (seen : List String) :
    List String :=
  (dropZone.rows.map (·.filename)).filter (· ∉ seen)

/-- `_sftp_download`. -/
def sftpDownload (filename : String) : Proc Bytes := do
  let size : Nat ← io (.sftpStat filename)
  if size > MAX_FILE_BYTES then
    .raise (.valueError ("Remote file too large: " ++ commas size ++ " bytes (cap " ++
      commas MAX_FILE_BYTES ++ ")"))
  else io (.sftpRead filename)

/-- `_process_file`. -/
def processFile (filename batchId requestId : String) : Proc Unit := do
  let blobKey := originalKey batchId filename
  let alreadyPresent ← blobExists blobKey
  if alreadyPresent then
    io (.addSeen filename)
  else
    match ← (sftpDownload filename).attempt with
    | .error _ => pure ()
    | .ok data =>
      match rejectReason filename data with
      | some _ =>
        let _ ← (upload (quarantineKey batchId filename) data).attempt
        io (.addSeen filename)
      | none =>
        match ← (upload blobKey data).attempt with
        | .error _ => pure ()
        | .ok _ =>
          match ← (io (.enqueue ⟨batchId, blobKey, requestId⟩)).attempt with
          -- The file is in MinIO but not queued. It is marked as seen all the same.
          | .error _ => io (.addSeen filename)
          | .ok _ => io (.addSeen filename)

/-- `sftp_ingest._create_batch`. -/
def createBatch (fileCount : Nat) : Proc String := do
  let batch : Batch ← (service (.createBatch fileCount none)).andFinally (io .cacheClose)
  pure batch.id

/-- `_poll` after it has listed the new files. -/
def poll (newFiles : List String) : Proc Unit := do
  if newFiles = [] then
    pure ()
  else
    let requestId : String ← io .uuid4
    let batchId ← createBatch newFiles.length
    Prog.forEach newFiles fun filename => processFile filename batchId requestId

end SFTPWatcher

/-! ## POST /upload/ -/

structure UploadFile where
  filename : Option String
  content : Bytes
  deriving DecidableEq

structure HTTPException where
  statusCode : Nat
  detail : String
  deriving DecidableEq

/-- `("." + name.rsplit(".", 1)[-1].lower()) if "." in name else ""`. -/
def uploadExtension (name : String) : String :=
  if '.' ∈ name.toList then
    "." ++ lower (String.ofList (name.toList.reverse.takeWhile (· ≠ '.')).reverse)
  else ""

/-- The checks of `upload_documents` before it creates the batch: the extensions of all files, and
then the contents one by one. -/
def validateUpload (uuid : String) (files : List UploadFile) :
    Except HTTPException (List (String × Bytes)) := do
  if files = [] then
    throw { statusCode := 422, detail := "No files provided." }
  match files.find? fun f => uploadExtension (f.filename.getD "") ∉ VALID_EXTENSIONS with
  | some f =>
    throw
      { statusCode := 422
        detail := "'" ++ f.filename.getD "" ++ "': only .tiff and .tif files are accepted." }
  | none =>
    files.mapM fun f =>
      let shown := f.filename.getD "None"
      if f.content = [] then
        throw { statusCode := 422, detail := "'" ++ shown ++ "' is empty." }
      else if f.content.length > MAX_FILE_BYTES then
        throw { statusCode := 422, detail := "'" ++ shown ++ "' exceeds the 100 MB size limit." }
      else
        let name := f.filename.getD ""
        pure (if name = "" then "upload_" ++ uuid ++ ".tiff" else name, f.content)

/-- A request that passes the validation has files, and none of them is too large. -/
theorem validateUpload_ok {uuid : String} {files : List UploadFile}
    {fileData : List (String × Bytes)} (h : validateUpload uuid files = .ok fileData) :
    fileData ≠ [] ∧ ∀ p ∈ fileData, p.2.length ≤ MAX_FILE_BYTES := by
  unfold validateUpload at h
  by_cases hfiles : files = []
  · rw [if_pos hfiles] at h
    cases h
  rw [if_neg hfiles] at h
  change (match files.find? _ with | some f => _ | none => _) = _ at h
  split at h
  · cases h
  · have hmap := mapM_ok (P := fun p : String × Bytes => p.2.length ≤ MAX_FILE_BYTES) ?_ h
    · refine ⟨?_, hmap.2⟩
      rintro rfl
      exact hfiles (List.length_eq_zero_iff.mp hmap.1.symm)
    · intro f p hf
      split at hf
      · cases hf
      · split at hf
        · cases hf
        · rename_i hsize
          cases hf
          exact Nat.not_lt.mp hsize

structure UploadedJob where
  filename : String
  blobKey : String
  jobId : String
  deriving DecidableEq

structure UploadResponse where
  batchId : String
  fileCount : Nat
  requestId : String
  jobs : List UploadedJob
  deriving DecidableEq

/-- `upload_documents` after its validation, for the names and contents it has read. -/
def uploadDocuments (actor : User) (fileData : List (String × Bytes)) : Proc UploadResponse := do
  let batch : Batch ← service (.createBatch fileData.length (some actor))
  let batchId := batch.id
  let requestId : String ← io .uuid4
  let _ ← io (.getClient "blob")
  let _ ← io (.getClient "queue")
  let jobs ← Prog.foldEach (fun jobs (filename, content) => do
    let blobKey := originalKey batchId filename
    let _ ← upload blobKey content
    let jobId : String ← io (.enqueue ⟨batchId, blobKey, requestId⟩)
    pure (jobs ++ [{ filename, blobKey, jobId }])) [] fileData
  pure { batchId, fileCount := fileData.length, requestId, jobs }

end DocClassifier
