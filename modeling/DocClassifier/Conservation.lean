import DocClassifier.Objects

/-!
# Files and jobs

An ingest call stores the number of its files in the batch row before it touches any of them, and
each file then becomes a job or leaves through an exit of the loop. So the jobs of a batch are at
most as many as its files, and as many exactly when no file has left through an exit.
-/

namespace DocClassifier
open Transition BlobStorage Prog

/-- The jobs of a call, as a sublist of its files. -/
theorem enqueued_sublist {src : Source} {files : List String} {H : History} {b : String}
    (h : Along (contract (IngestMay src files)) H) (hb : ∀ job ∈ enqueued H, job.batchId = b) :
    ((enqueued H).map (·.blobKey)).Sublist (files.map (originalKey b)) := by
  refine h.inv (P := fun H => (∀ job ∈ enqueued H, job.batchId = b) →
    ((enqueued H).map (·.blobKey)).Sublist (files.map (originalKey b)))
    (fun _ => List.nil_sublist _) ?_ hb
  intro H d ih hmay _ hb
  rw [enqueued_append] at hb ⊢
  by_cases hd : enqueued [d] = []
  · rw [hd, List.append_nil] at hb ⊢
    exact ih hb
  · obtain ⟨job, hjob⟩ := List.exists_mem_of_ne_nil _ hd
    obtain ⟨id, rfl⟩ := mem_enqueued_single hjob
    obtain ⟨b', f, hm⟩ := hmay
    have hb' : b' = b := hm.batchId.symm.trans (hb job (List.mem_append_right _ hjob))
    subst hb'
    rw [List.map_append]
    have heq : (enqueued [⟨.io (.enqueue job), .ok id⟩]).map (·.blobKey) = [originalKey b' f] := by
      rw [← hm.blobKey]
      rfl
    rw [heq]
    exact hm.order

namespace Pipeline

/-- The number of jobs of a batch in the queue. -/
def jobsOf (s : Pipeline) (b : String) : Nat := s.world.queue.countP (·.batchId = b)

variable {C : Classifier} {s : Pipeline} {i : Nat} {c : IngestCall} {b : String}

theorem Sound.jobsOf_eq (H : s.Sound) (hc : s.calls[i]? = some c)
    (hb : batchOf c.thread.hist = some b) : s.jobsOf b = (enqueued c.thread.hist).length := by
  rw [← record_call hc] at hb ⊢
  rw [jobsOf, List.countP_eq_length_filter, H.queue.jobs i b hb]

theorem Sound.row (H : s.Sound) (hc : s.calls[i]? = some c)
    (hb : batchOf c.thread.hist = some b) : ∃ row, s.world.server.db.batches.find? b = some row ∧
      row.fileCount = c.files.length := by
  obtain ⟨n, actor, cm, hmem, rfl⟩ := mem_of_batchOf hb
  obtain ⟨H₁, H₂, hH⟩ := List.append_of_mem hmem
  obtain ⟨⟨-, actor', hs, -⟩, -⟩ := (H.kept.calls i c hc).along H₁ _ H₂ hH
  cases hs
  rw [← record_call hc] at hmem
  exact (H.batches.row i _ _ cm hmem).2

theorem call_of_batchOf (h : batchOf (s.record (.ingest i)) = some b) :
    ∃ c, s.calls[i]? = some c ∧ batchOf c.thread.hist = some b := by
  cases hc : s.calls[i]? with
  | none => simp [record, hc, batchOf] at h
  | some c => exact ⟨c, rfl, record_call hc ▸ h⟩

/-- Each batch has been created by a call. -/
theorem Sound.call_of_row (S : s.Sound) {row : Batch}
    (hrow : s.world.server.db.batches.find? b = some row) :
    ∃ (i : Nat) (c : IngestCall), s.calls[i]? = some c ∧ batchOf c.thread.hist = some b ∧
      row.fileCount = c.files.length := by
  obtain ⟨i, hi⟩ := S.batches.origin b (by simp [hrow])
  obtain ⟨c, hc, hb⟩ := call_of_batchOf hi
  obtain ⟨row', hrow', hn⟩ := S.row hc hb
  cases hrow.symm.trans hrow'
  exact ⟨i, c, hc, hb, hn⟩

theorem Sound.keys_sublist (H : s.Sound) (hc : s.calls[i]? = some c)
    (hb : batchOf c.thread.hist = some b) :
    ((enqueued c.thread.hist).map (·.blobKey)).Sublist (c.files.map (originalKey b)) := by
  have halong := (H.kept.calls i c hc).along
  exact enqueued_sublist halong (batchId_of_enqueued halong hb)

/-- Once the call of a batch has ended, the batch has at most as many jobs as files. When the call
has ended by itself, the numbers are equal if and only if none of its answers is an exit. -/
theorem jobsOf_le_fileCount (h : Reachable C s) (hc : s.calls[i]? = some c)
    (hb : batchOf c.thread.hist = some b) (hend : c.thread.ended = true) :
    ∃ row, s.world.server.db.batches.find? b = some row ∧ s.jobsOf b ≤ row.fileCount ∧
      (c.killed = false → (s.jobsOf b = row.fileCount ↔ ∀ d ∈ c.thread.hist, ¬ Exit d)) := by
  have H := h.sound
  obtain ⟨row, hrow, hn⟩ := H.row hc hb
  refine ⟨row, hrow, ?_, fun hk => ?_⟩
  · have hlen := (H.keys_sublist hc hb).length_le
    rw [List.length_map, List.length_map] at hlen
    rw [hn, H.jobsOf_eq hc hb]
    exact hlen
  · rw [hn, H.jobsOf_eq hc hb]
    exact ((H.kept.calls i c hc).ends hk hend hb).full

set_option maxRecDepth 100000 in
theorem jobsOf_le_fileCount_oneScan : ∃ s c row, Reachable letters s ∧ s.calls[0]? = some c ∧
    c.killed = false ∧ s.world.server.db.batches.find? "b" = some row ∧
    s.jobsOf "b" ≤ row.fileCount ∧
    (s.jobsOf "b" = row.fileCount ↔ ∀ d ∈ c.thread.hist, ¬ Exit d) := by
  have h : ((exec (step letters) (start .empty oneScan)
      (.poll :: .replicate 13 (.ingest 0 (ok "b")))).bind fun s => s.calls[0]?.map fun c =>
        (batchOf c.thread.hist, c.thread.ended, c.killed)) = some (some "b", true, false) := by
    decide
  obtain ⟨s, hs, h⟩ := Option.bind_eq_some_iff.mp h
  obtain ⟨c, hc, h⟩ := Option.map_eq_some_iff.mp h
  simp only [Prod.mk.injEq] at h
  have hr : Reachable letters s := ⟨_, _, _, exec_eq_some.mp hs⟩
  obtain ⟨row, hrow, hle, hiff⟩ := jobsOf_le_fileCount hr hc h.1 h.2.1
  exact ⟨s, c, row, hr, hc, h.2.2, hrow, hle, hiff h.2.2⟩

set_option maxRecDepth 100000 in
/-- The download of the only file of a poll fails: its batch is left with one file and no job. -/
theorem batch_without_jobs : ∃ s c row, Reachable letters s ∧ s.calls[0]? = some c ∧
    batchOf c.thread.hist = some "b" ∧ c.thread.ended = true ∧ c.killed = false ∧
    s.world.server.db.batches.find? "b" = some row ∧ row.fileCount = 1 ∧ s.jobsOf "b" = 0 := by
  have h : ((exec (step letters) (start .empty oneScan)
      (.poll :: .replicate 8 (.ingest 0 (ok "b")) ++
        [.ingest 0 (.raise (.other "Connection reset"))])).bind fun s =>
      s.calls[0]?.bind fun c => (s.world.server.db.batches.find? "b").map fun row =>
        (batchOf c.thread.hist, c.thread.ended, c.killed, row.fileCount, s.jobsOf "b")) =
      some (some "b", true, false, 1, 0) := by decide
  obtain ⟨s, hs, h⟩ := Option.bind_eq_some_iff.mp h
  obtain ⟨c, hc, h⟩ := Option.bind_eq_some_iff.mp h
  obtain ⟨row, hrow, h⟩ := Option.map_eq_some_iff.mp h
  simp only [Prod.mk.injEq] at h
  exact ⟨s, c, row, ⟨_, _, _, exec_eq_some.mp hs⟩, hc, h.1, h.2.1, h.2.2.1, hrow, h.2.2.2⟩

end Pipeline

end DocClassifier
