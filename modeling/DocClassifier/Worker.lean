import DocClassifier.Ingest

/-!
# The inference worker

`classify` and `_persist_async` of `app/workers/inference_worker.py`.
-/

namespace DocClassifier
open BlobStorage

structure PersistArgs where
  batchId : String
  blobKey : String
  overlayKey : String
  filename : String
  label : String
  confidence : Rat
  requestId : String

structure ClassifyResult where
  label : String
  confidence : Rat
  batchId : String
  blobKey : String
  overlayKey : String
  deriving DecidableEq

/-- `try: p except InvalidStateTransition: log.debug(...)`. -/
def skipInvalidStateTransition {α : Type} (p : Proc α) : Proc Unit := do
  match ← p.attempt with
  | .ok _ => pure ()
  | .error (.invalidStateTransition _) => pure ()
  | .error e => .raise e

/-- `_persist_async`. -/
def persistAsync (a : PersistArgs) : Proc Unit :=
  Prog.andFinally (do
    skipInvalidStateTransition (service (.markProcessing a.batchId))
    let _ ← service (.savePrediction a.batchId
      { batchId := a.batchId, filename := a.filename, blobKey := a.blobKey,
        overlayKey := a.overlayKey, predictedClass := a.label, confidence := a.confidence })
    skipInvalidStateTransition (service (.markDone a.batchId))) (io .cacheClose)

def classify (job : Job) : Proc ClassifyResult := do
  let _ ← io (.getClient "blob")
  let _ ← io (.getClient "model")
  let imageBytes ← download job.blobKey
  let (label, confidence) ← (io (.predict imageBytes) : Proc (String × Rat))
  let filename := rsplitLast job.blobKey
  let overlayKey := overlayKey job.batchId filename
  let overlayBytes : Bytes ← io (.drawOverlay imageBytes label confidence)
  let _ ← upload overlayKey overlayBytes
  persistAsync
    { batchId := job.batchId, blobKey := job.blobKey, overlayKey, filename, label, confidence,
      requestId := job.requestId }
  pure { label, confidence, batchId := job.batchId, blobKey := job.blobKey, overlayKey }

end DocClassifier
