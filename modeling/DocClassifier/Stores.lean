import DocClassifier.Locks

/-!
# Batches, queue, objects and rows

What the stores of the pipeline hold is read off the records: each batch belongs to one ingest call,
the queue and the objects of a batch are those of its call, and the predictions are the rows that
the jobs have saved.
-/

namespace DocClassifier
open ReadCommitted Transition BlobStorage Prog

/-- What the commit of a service call does to the tables. -/
inductive Commit (db : Tables) : (s : ServiceCall) → Committed s.Result → Tables → Prop
  | createBatch {fileCount : Nat} {actor : Option User} {cm : Committed Batch} {e : AuditLog} :
      cm.result.fileCount = fileCount → cm.result.status = .pending →
      '/' ∉ cm.result.id.toList → db.batches.find? cm.result.id = none →
      Commit db (.createBatch fileCount actor) cm
        { db with batches := db.batches.insert cm.result, auditLogs := db.auditLogs ++ [e] }
  | markProcessing {batchId : String} {cm : Committed Batch} {e : AuditLog} :
      Commit db (.markProcessing batchId) cm
        { db with
          batches := db.batches.modify batchId (fun b => { b with status := .processing })
            fun _ => rfl
          auditLogs := db.auditLogs ++ [e] }
  | markDone {batchId : String} {cm : Committed Batch} {e : AuditLog} :
      Commit db (.markDone batchId) cm
        { db with
          batches := db.batches.modify batchId (fun b => { b with status := .done }) fun _ => rfl
          auditLogs := db.auditLogs ++ [e] }
  | savePrediction {batchId : String} {data : PredictionCreate} {cm : Committed Prediction} :
      cm.result.batchId = batchId → cm.result.filename = data.filename →
      cm.result.blobKey = data.blobKey → db.predictions.find? cm.result.id = none →
      Commit db (.savePrediction batchId data) cm
        { db with predictions := db.predictions.insert cm.result }

theorem commit_of_commits {s : ServiceCall} {g : Gen} {ws : List Stmt} {cm : Committed s.Result}
    {db : Tables} (h : (s.block g).Commits ws cm) (hf : ∀ w ∈ ws, FreshKey w db) :
    Commit db s cm (postgres.view db ws) := by
  cases s with
  | createBatch fileCount actor =>
    simp only [ServiceCall.block, BatchService.createBatch_eq, Tx.commits_exec,
      Tx.commits_ret] at h
    obtain ⟨-, -, rfl, -, -, rfl, rfl, rfl⟩ := h
    exact .createBatch rfl rfl g.plain (hf _ List.mem_cons_self)
  | markProcessing batchId =>
    obtain ⟨old, -, rfl⟩ := BatchTransitions.commits (m := .processing) h
    exact .markProcessing
  | markDone batchId =>
    obtain ⟨old, -, rfl⟩ := BatchTransitions.commits (m := .done) h
    exact .markDone
  | savePrediction batchId data =>
    simp only [ServiceCall.block, PredictionService.savePrediction_eq, Tx.commits_exec,
      Tx.commits_ret] at h
    obtain ⟨-, -, rfl, rfl, rfl⟩ := h
    exact .savePrediction rfl rfl rfl (hf _ List.mem_cons_self)

section
variable {db db' : Tables} {b : String}

theorem Commit.created {n : Nat} {actor : Option User} {cm : Committed Batch}
    (h : Commit db (.createBatch n actor) cm db') :
    cm.result.fileCount = n ∧ cm.result.status = .pending ∧ '/' ∉ cm.result.id.toList ∧
      db.batches.find? cm.result.id = none ∧ db'.batches = db.batches.insert cm.result := by
  cases h with
  | createBatch h1 h2 h3 h4 => exact ⟨h1, h2, h3, h4, rfl⟩

theorem Commit.saved {data : PredictionCreate} {cm : Committed Prediction}
    (h : Commit db (.savePrediction b data) cm db') :
    cm.result.batchId = b ∧ cm.result.filename = data.filename ∧
      cm.result.blobKey = data.blobKey ∧ db.predictions.find? cm.result.id = none ∧
      db'.predictions = db.predictions.insert cm.result ∧ db'.batches = db.batches := by
  cases h with
  | savePrediction h1 h2 h3 h4 => exact ⟨h1, h2, h3, h4, rfl, rfl⟩

theorem Commit.predictions {s : ServiceCall} {cm : Committed s.Result} (h : Commit db s cm db')
    (hs : ∀ b data, s ≠ .savePrediction b data) : db'.predictions = db.predictions := by
  cases h with
  | savePrediction => exact (hs _ _ rfl).elim
  | _ => rfl

end

theorem Effect.commit {C : Classifier} {w w' : World} {ws : List Stmt} {s : ServiceCall}
    {cm : Committed s.Result} (h : Effect C w ws ⟨.tx s, .ok cm⟩ w')
    (hf : ∀ w' ∈ ws, FreshKey w' w.server.db) :
    Commit w.server.db s cm w'.server.db ∧ w'.blobs = w.blobs ∧ w'.queue = w.queue := by
  cases h with
  | tx hc hdb => exact ⟨hdb ▸ commit_of_commits hc hf, rfl, rfl⟩

theorem Effect.db_cases {C : Classifier} {w w' : World} {ws : List Stmt}
    {d : Done Op.Answer Exn} (h : Effect C w ws d w') (hf : ∀ w' ∈ ws, FreshKey w' w.server.db) :
    w'.server.db = w.server.db ∨
      ∃ sc cm, d = ⟨.tx sc, .ok cm⟩ ∧ Commit w.server.db sc cm w'.server.db := by
  cases h with
  | error hdb => exact .inl hdb
  | io => exact .inl (by rw [perform_server])
  | tx hc hdb => exact .inr ⟨_, _, rfl, hdb ▸ commit_of_commits hc hf⟩

/-- Only `create_batch` adds a batch. -/
theorem Effect.new_batch {C : Classifier} {w w' : World} {ws : List Stmt} {d : Done Op.Answer Exn}
    {b : String} (h : Effect C w ws d w') (hf : ∀ w' ∈ ws, FreshKey w' w.server.db)
    (hb : w'.server.db.batches.find? b ≠ none) : w.server.db.batches.find? b ≠ none ∨
      ∃ n actor cm, d = ⟨.tx (.createBatch n actor), .ok cm⟩ ∧ cm.result.id = b := by
  rcases h.db_cases hf with hdb | ⟨sc, cm, rfl, hc⟩
  · exact .inl (hdb ▸ hb)
  generalize w'.server.db = db' at hc hb
  cases hc with
  | @createBatch n actor cm _ _ _ _ hnone =>
    by_cases hid : cm.result.id = b
    · exact .inr ⟨n, actor, cm, rfl, hid⟩
    · rw [Table.find?_insert hnone, if_neg hid] at hb
      exact .inl hb
  | markProcessing | markDone =>
    refine .inl fun hnone => hb ?_
    simp [Table.find?_modify, hnone]
  | savePrediction => exact .inl hb

/-! ## Batches -/

section
variable {H : History} {d : Done Op.Answer Exn} {b : String}

/-- A call creates its batch with its first transaction. -/
theorem batchOf_snoc (h : batchOf (H ++ [d]) = some b) : batchOf H = some b ∨ (txs H = [] ∧
    ∃ n actor cm, d = ⟨.tx (.createBatch n actor), .ok cm⟩ ∧ cm.result.id = b) := by
  simp only [batchOf, txs_append] at h ⊢
  cases hH : txs H with
  | cons t ts =>
    rw [hH] at h
    obtain ⟨s, r⟩ := t
    cases s <;> cases r <;> exact .inl h
  | nil =>
    rw [hH] at h
    obtain ⟨s | i, r⟩ := d
    · cases s with
      | createBatch n actor =>
        cases r with
        | ok cm => exact .inr ⟨rfl, n, actor, cm, rfl, by simpa using h⟩
        | error e => cases h
      | _ => cases h
    · cases h

theorem mem_of_batchOf (h : batchOf H = some b) :
    ∃ n actor cm, ⟨.tx (.createBatch n actor), .ok cm⟩ ∈ H ∧ cm.result.id = b := by
  induction H using List.reverseRecOn with
  | nil => cases h
  | append_singleton H d ih =>
    rcases batchOf_snoc h with h | ⟨-, n, actor, cm, rfl, hid⟩
    · obtain ⟨n, actor, cm, hmem, hid⟩ := ih h
      exact ⟨n, actor, cm, List.mem_append_left _ hmem, hid⟩
    · exact ⟨n, actor, cm, by simp, hid⟩

theorem batchOf_create {n : Nat} {actor : Option User} {cm : Committed Batch} (h : txs H = []) :
    batchOf (H ++ [⟨.tx (.createBatch n actor), .ok cm⟩]) = some cm.result.id := by
  simp [batchOf, h]

end

/-- The batch has a row, with its number of files. -/
def HasBatch (db : Tables) (b : String) (fileCount : Nat) : Prop :=
  ∃ row, db.batches.find? b = some row ∧ row.fileCount = fileCount

theorem HasBatch.commit {db db' : Tables} {s : ServiceCall} {cm : Committed s.Result} {b : String}
    {n : Nat} (h : HasBatch db b n) (hc : Commit db s cm db') : HasBatch db' b n := by
  obtain ⟨row, hrow, hn⟩ := h
  cases hc with
  | createBatch => exact ⟨row, Table.find?_insert_of_some hrow, hn⟩
  | @markProcessing batchId | @markDone batchId =>
    simp only [HasBatch, Table.find?_modify, hrow]
    split
    · exact ⟨_, rfl, hn⟩
    · exact ⟨row, rfl, hn⟩
  | savePrediction => exact ⟨row, hrow, hn⟩

namespace Pipeline

variable {C : Classifier} {s s' : Pipeline} {e : Event}

/-- The batches of the ingest calls are in the table, and no two calls share one. -/
structure Batches (s : Pipeline) : Prop where
  row : ∀ i n actor (cm : Committed Batch),
    ⟨.tx (.createBatch n actor), .ok cm⟩ ∈ s.record (.ingest i) →
    '/' ∉ cm.result.id.toList ∧ HasBatch s.world.server.db cm.result.id n
  unique : ∀ i j b, batchOf (s.record (.ingest i)) = some b →
    batchOf (s.record (.ingest j)) = some b → i = j
  origin : ∀ b, s.world.server.db.batches.find? b ≠ none →
    ∃ i, batchOf (s.record (.ingest i)) = some b

theorem Batches.hasBatch (H : s.Batches) {i : Nat} {b : String}
    (h : batchOf (s.record (.ingest i)) = some b) :
    '/' ∉ b.toList ∧ ∃ n, HasBatch s.world.server.db b n := by
  obtain ⟨n, actor, cm, hmem, rfl⟩ := mem_of_batchOf h
  obtain ⟨hslash, hrow⟩ := H.row i n actor cm hmem
  exact ⟨hslash, n, hrow⟩

theorem Batches.find?_ne_none (H : s.Batches) {i : Nat} {b : String}
    (h : batchOf (s.record (.ingest i)) = some b) :
    s.world.server.db.batches.find? b ≠ none := by
  intro hnone
  obtain ⟨-, n, row, hrow, -⟩ := H.hasBatch h
  cases hnone.symm.trans hrow

theorem Batches.start (users : Table String UserORM (·.id))
    (dropZone : Table String RemoteFile (·.filename)) : (start users dropZone).Batches :=
  ⟨nofun, nofun, fun _ hb => (hb rfl).elim⟩

theorem mem_record {pid p : Pid} {d x : Done Op.Answer Exn}
    (hrec : s'.record = Function.update s.record pid (s.record pid ++ [d]))
    (hx : x ∈ s'.record p) : x ∈ s.record p ∨ (p = pid ∧ x = d) := by
  rw [hrec, Function.update_apply] at hx
  split at hx
  · subst p
    rcases List.mem_append.mp hx with hx | hx
    · exact .inl hx
    · exact .inr ⟨rfl, List.mem_singleton.mp hx⟩
  · exact .inl hx

theorem batchOf_record {pid : Pid} {d : Done Op.Answer Exn} {i : Nat} {b : String}
    (hrec : s'.record = Function.update s.record pid (s.record pid ++ [d]))
    (hb : batchOf (s'.record (.ingest i)) = some b) : batchOf (s.record (.ingest i)) = some b ∨
      (.ingest i = pid ∧ txs (s.record pid) = [] ∧
        ∃ n actor cm, d = ⟨.tx (.createBatch n actor), .ok cm⟩ ∧ cm.result.id = b) := by
  rw [hrec, Function.update_apply] at hb
  split at hb
  · rename_i hp
    rcases batchOf_snoc hb with hb | ⟨htxs, h⟩
    · exact .inl (hp ▸ hb)
    · exact .inr ⟨hp, htxs, h⟩
  · exact .inl hb

theorem batchOf_grows {pid : Pid} {d : Done Op.Answer Exn} {i : Nat} {b : String}
    (hrec : s'.record = Function.update s.record pid (s.record pid ++ [d]))
    (hb : batchOf (s.record (.ingest i)) = some b) : batchOf (s'.record (.ingest i)) = some b := by
  rw [hrec, Function.update_apply]
  split
  · rename_i hp
    rw [← hp]
    exact batchOf_append hb
  · exact hb

end Pipeline

theorem Effect.hasBatch {C : Classifier} {w w' : World} {ws : List Stmt} {d : Done Op.Answer Exn}
    {b : String} {n : Nat} (h : Effect C w ws d w') (hf : ∀ w' ∈ ws, FreshKey w' w.server.db)
    (hb : HasBatch w.server.db b n) : HasBatch w'.server.db b n := by
  cases h with
  | error hdb => rwa [hdb]
  | io => rwa [perform_server]
  | tx hc hdb => exact hb.commit (hdb ▸ commit_of_commits hc hf)

namespace Pipeline

variable {C : Classifier} {s s' : Pipeline} {e : Event}

theorem Batches.step (H : s.Batches) (K : s.Kept) (L : s.Locked) (h : s.step C e = some s') :
    s'.Batches := by
  cases K.moves h with
  | silent hrec hdb =>
    refine ⟨?_, ?_, ?_⟩
    · rw [hrec, hdb]
      exact H.row
    · rw [hrec]
      exact H.unique
    · rw [hrec, hdb]
      exact H.origin
  | @answered pid d hrec hmay heff =>
    have hfresh := (L pid).2
    -- The id of a new batch differs from those of the other calls.
    have hnew : ∀ i b, batchOf (s'.record (.ingest i)) = some b →
        batchOf (s.record (.ingest i)) = some b ∨
          .ingest i = pid ∧ s.world.server.db.batches.find? b = none := by
      intro i b hb
      rcases batchOf_record hrec hb with hb | ⟨hp, -, n, actor, cm, rfl, rfl⟩
      · exact .inl hb
      · obtain ⟨-, -, -, hnone, -⟩ := (heff.commit hfresh).1.created
        exact .inr ⟨hp, hnone⟩
    refine ⟨fun i n actor cm hmem => ?_, fun i j b hi hj => ?_, fun b hb => ?_⟩
    · rcases mem_record hrec hmem with hmem | ⟨-, rfl⟩
      · obtain ⟨hslash, hrow⟩ := H.row i n actor cm hmem
        exact ⟨hslash, heff.hasBatch hfresh hrow⟩
      · obtain ⟨hn, -, hslash, hnone, hdb⟩ := (heff.commit hfresh).1.created
        exact ⟨hslash, cm.result, by rw [hdb, Table.find?_insert hnone, if_pos rfl], hn⟩
    · rcases hnew i b hi with hi | ⟨hi, hnone⟩
      · rcases hnew j b hj with hj | ⟨-, hnone⟩
        · exact H.unique i j b hi hj
        · exact (H.find?_ne_none hi hnone).elim
      · rcases hnew j b hj with hj | ⟨hj, -⟩
        · exact (H.find?_ne_none hj hnone).elim
        · exact Pid.ingest.inj (hi.trans hj.symm)
    · rcases heff.new_batch hfresh hb with hb | ⟨n, actor, cm, rfl, rfl⟩
      · obtain ⟨i, hi⟩ := H.origin b hb
        exact ⟨i, batchOf_grows hrec hi⟩
      · cases pid with
        | ingest i =>
          obtain ⟨c, hc, htxs, -⟩ := hmay
          refine ⟨i, ?_⟩
          rw [hrec, Function.update_self, record_call hc]
          exact batchOf_create htxs
        | job m =>
          obtain ⟨job, th, -, -, hnext, -⟩ := hmay
          generalize txs th.hist = ts at hnext
          cases hnext

end Pipeline

/-! ## The queue -/

section
variable {C : Classifier} {w w' : World} {ws : List Stmt} {d : Done Op.Answer Exn} {H : History}
  {src : Source} {files : List String}

theorem mem_enqueued_single {job : Job} (h : job ∈ enqueued [d]) :
    ∃ id, d = ⟨.io (.enqueue job), .ok id⟩ := by
  obtain ⟨id, hd⟩ := mem_enqueued.mp h
  exact ⟨id, (List.mem_singleton.mp hd).symm⟩

theorem enqueued_single (h : ∀ job id, d ≠ ⟨.io (.enqueue job), .ok id⟩) :
    enqueued [d] = [] := by
  refine List.eq_nil_iff_forall_not_mem.mpr fun job hjob => ?_
  obtain ⟨id, hd⟩ := mem_enqueued_single hjob
  exact h job id hd

theorem Effect.queue (h : Effect C w ws d w') : w'.queue = w.queue ++ enqueued [d] := by
  cases h with
  | error _ _ hq => rw [hq, enqueued_single (by rintro _ _ ⟨⟩), List.append_nil]
  | @io i g a =>
    cases i with
    | enqueue job => rfl
    | _ => exact (List.append_nil _).symm
  | tx => exact (List.append_nil _).symm

theorem enqueued_batchOf (h : Along (contract (IngestMay src files)) H) :
    ∀ job ∈ enqueued H, batchOf H = some job.batchId := by
  refine h.inv (P := fun H => ∀ job ∈ enqueued H, batchOf H = some job.batchId) nofun ?_
  intro H d ih hmay _ job hjob
  rw [enqueued_append] at hjob
  rcases List.mem_append.mp hjob with hjob | hjob
  · exact batchOf_append (ih job hjob)
  · obtain ⟨id, rfl⟩ := mem_enqueued_single hjob
    obtain ⟨b, f, hm⟩ := hmay
    rw [hm.batchId]
    exact batchOf_append hm.batch

/-- The jobs of a call are jobs of its batch. -/
theorem batchId_of_enqueued {b : String} (h : Along (contract (IngestMay src files)) H)
    (hb : batchOf H = some b) : ∀ job ∈ enqueued H, job.batchId = b := by
  intro job hjob
  have hb' := enqueued_batchOf h job hjob
  rw [hb] at hb'
  exact (Option.some.inj hb').symm

/-- There are no jobs before there is a batch. -/
theorem enqueued_of_batchOf_none (h : Along (contract (IngestMay src files)) H)
    (hb : batchOf H = none) :
    enqueued H = [] := by
  refine List.eq_nil_iff_forall_not_mem.mpr fun job hjob => ?_
  have hb' := enqueued_batchOf h job hjob
  rw [hb] at hb'
  cases hb'

theorem batchOf_of_txs (h : txs H = []) : batchOf H = none := by
  simp [batchOf, h]

end

namespace Pipeline

variable {C : Classifier} {s s' : Pipeline} {e : Event}

/-- The jobs of a batch are those its call has enqueued, in their order. -/
structure Queue (s : Pipeline) : Prop where
  batch : ∀ job ∈ s.world.queue, ∃ i, batchOf (s.record (.ingest i)) = some job.batchId
  jobs : ∀ i b, batchOf (s.record (.ingest i)) = some b →
    s.world.queue.filter (·.batchId = b) = enqueued (s.record (.ingest i))

theorem Queue.start (users : Table String UserORM (·.id))
    (dropZone : Table String RemoteFile (·.filename)) : (start users dropZone).Queue :=
  ⟨nofun, nofun⟩

theorem Kept.record_along (K : s.Kept) (i : Nat) :
    ∃ src files, Along (contract (IngestMay src files)) (s.record (.ingest i)) := by
  cases hc : s.calls[i]? with
  | none =>
    refine ⟨.sftp, [], ?_⟩
    have hrec : s.record (.ingest i) = [] := by simp [record, hc]
    rw [hrec]
    exact along_nil
  | some c => exact ⟨c.source, c.files, record_call hc ▸ (K.calls i c hc).along⟩

theorem May.enqueue {pid : Pid} {job : Job} (h : s.May pid (.io (.enqueue job))) :
    ∃ i, pid = .ingest i ∧ batchOf (s.record (.ingest i)) = some job.batchId := by
  cases pid with
  | ingest i =>
    obtain ⟨c, hc, b, f, hm⟩ := h
    refine ⟨i, rfl, ?_⟩
    rw [record_call hc, hm.batchId]
    exact hm.batch
  | job n =>
    obtain ⟨job', th, -, -, hm⟩ := h
    exact hm.elim

theorem Queue.step (H : s.Queue) (B : s.Batches) (K : s.Kept) (L : s.Locked)
    (h : s.step C e = some s') : s'.Queue := by
  cases K.moves h with
  | silent hrec _ _ hqueue =>
    refine ⟨?_, ?_⟩
    · rw [hrec, hqueue]
      exact H.batch
    · rw [hrec, hqueue]
      exact H.jobs
  | @answered pid d hrec hmay heff =>
    -- A job that is enqueued now belongs to the batch of the call that enqueues it.
    have hnew : ∀ job ∈ enqueued [d], ∃ i, pid = .ingest i ∧
        batchOf (s.record (.ingest i)) = some job.batchId := by
      intro job hjob
      obtain ⟨id, rfl⟩ := mem_enqueued_single hjob
      exact May.enqueue hmay
    refine ⟨fun job hjob => ?_, fun i b hb => ?_⟩
    · rw [heff.queue] at hjob
      rcases List.mem_append.mp hjob with hjob | hjob
      · obtain ⟨i, hi⟩ := H.batch job hjob
        exact ⟨i, batchOf_grows hrec hi⟩
      · obtain ⟨i, -, hi⟩ := hnew job hjob
        exact ⟨i, batchOf_grows hrec hi⟩
    · rw [heff.queue, List.filter_append]
      rcases batchOf_record hrec hb with hb | ⟨rfl, htxs, n, actor, cm, rfl, rfl⟩
      · rw [H.jobs i b hb, hrec, Function.update_apply]
        split
        · rename_i hp
          subst hp
          rw [enqueued_append, List.append_cancel_left_eq, List.filter_eq_self]
          intro job hjob
          obtain ⟨j, hj, hjb⟩ := hnew job hjob
          cases hj
          rw [hb] at hjb
          simpa using (Option.some.inj hjb).symm
        · rename_i hp
          have hnone : (enqueued [d]).filter (·.batchId = b) = [] := by
            refine List.filter_eq_nil_iff.mpr fun job hjob heq => ?_
            obtain ⟨j, hj, hjb⟩ := hnew job hjob
            have heq : job.batchId = b := by simpa using heq
            rw [heq] at hjb
            exact hp (by rw [hj, B.unique i j b hb hjb])
          rw [hnone, List.append_nil]
      · -- The batch is new, so there is no job of it.
        obtain ⟨-, -, -, hfree, -⟩ := (heff.commit (L _).2).1.created
        have hnone : s.world.queue.filter (·.batchId = cm.result.id) = [] := by
          refine List.filter_eq_nil_iff.mpr fun job hjob heq => ?_
          obtain ⟨j, hj⟩ := H.batch job hjob
          exact B.find?_ne_none hj ((show job.batchId = cm.result.id by simpa using heq) ▸ hfree)
        obtain ⟨src, files, halong⟩ := K.record_along i
        have hempty := enqueued_of_batchOf_none halong (batchOf_of_txs htxs)
        rw [hnone, hrec, Function.update_self, enqueued_append, hempty]
        rfl

end Pipeline

end DocClassifier
