import DocClassifier.Stores

/-!
# The predictions table

Up to their order, the rows of the predictions table are those that the executions of the jobs have
saved, and each row tells the batch, the file name and the key of its job.
-/

namespace DocClassifier
open ReadCommitted Transition BlobStorage Prog

/-- The rows that a history has saved. -/
def saves (H : History) : List Prediction :=
  H.filterMap fun
    | ⟨.tx (.savePrediction ..), .ok cm⟩ => some cm.result
    | _ => none

/-- The row of the job. -/
structure RowOf (job : Job) (p : Prediction) : Prop where
  batchId : p.batchId = job.batchId
  filename : p.filename = rsplitLast job.blobKey
  blobKey : p.blobKey = job.blobKey

section
variable {H D : History} {d : Done Op.Answer Exn}

@[simp] theorem saves_append : saves (H ++ D) = saves H ++ saves D := List.filterMap_append

theorem mem_saves {p : Prediction} : p ∈ saves H ↔
    ∃ batchId data cm, ⟨.tx (.savePrediction batchId data), .ok cm⟩ ∈ H ∧ cm.result = p := by
  simp only [saves, List.mem_filterMap]
  constructor
  · rintro ⟨⟨o, r⟩, hd, h⟩
    split at h
    · rename_i heq
      cases h
      cases heq
      exact ⟨_, _, _, hd, rfl⟩
    · cases h
  · rintro ⟨batchId, data, cm, hd, rfl⟩
    exact ⟨_, hd, rfl⟩

theorem mem_saves_single {p : Prediction} (h : p ∈ saves [d]) :
    ∃ batchId data cm, d = ⟨.tx (.savePrediction batchId data), .ok cm⟩ ∧ cm.result = p := by
  obtain ⟨batchId, data, cm, hd, hp⟩ := mem_saves.mp h
  exact ⟨batchId, data, cm, (List.mem_singleton.mp hd).symm, hp⟩

/-- Only the commit of `save_prediction` adds a row. -/
theorem Effect.rows {C : Classifier} {w w' : World} {ws : List Stmt} (h : Effect C w ws d w')
    (hf : ∀ w' ∈ ws, FreshKey w' w.server.db) :
    w'.server.db.predictions.rows = w.server.db.predictions.rows ++ saves [d] := by
  have hnil : (∀ b data cm, d ≠ ⟨.tx (.savePrediction b data), .ok cm⟩) → saves [d] = [] := by
    intro hne
    refine List.eq_nil_iff_forall_not_mem.mpr fun p hp => ?_
    obtain ⟨b, data, cm, hd, -⟩ := mem_saves_single hp
    exact hne b data cm hd
  cases h with
  | error hdb => rw [hdb, hnil (by rintro _ _ _ ⟨⟩), List.append_nil]
  | io => rw [perform_server, hnil nofun, List.append_nil]
  | @tx sc g cm server hc hdb =>
    have hcommit := hdb ▸ commit_of_commits hc hf
    cases sc with
    | savePrediction b data =>
      obtain ⟨-, -, -, hnone, hpred, -⟩ := hcommit.saved
      exact (congrArg Table.rows hpred).trans (Table.rows_insert hnone)
    | _ =>
      rw [hnil nofun, List.append_nil]
      exact congrArg Table.rows (hcommit.predictions nofun)

end

namespace Pipeline

variable {C : Classifier} {s s' : Pipeline} {e : Event}

/-- The rows are those that the jobs have saved. -/
structure Saved (s : Pipeline) : Prop where
  perm : s.world.server.db.predictions.rows.Perm
    ((List.range s.world.queue.length).flatMap fun n => saves (s.record (.job n)))
  row : ∀ n job, s.world.queue[n]? = some job → ∀ p ∈ saves (s.record (.job n)), RowOf job p

theorem Saved.start (users : Table String UserORM (·.id))
    (dropZone : Table String RemoteFile (·.filename)) : (start users dropZone).Saved :=
  ⟨.refl _, nofun⟩

theorem May.save {pid : Pid} {b : String} {data : PredictionCreate}
    (h : s.May pid (.tx (.savePrediction b data))) : ∃ n job, pid = .job n ∧
      s.world.queue[n]? = some job ∧ b = job.batchId ∧ SavedBy job data := by
  cases pid with
  | ingest i =>
    obtain ⟨c, hc, -, actor, hs, -⟩ := h
    cases hs
  | job n =>
    obtain ⟨job, th, hn, -, hnext, -⟩ := h
    generalize txs th.hist = ts at hnext
    cases hnext with
    | savePrediction _ hs => exact ⟨n, job, rfl, hn, rfl, hs⟩

theorem Kept.record_fresh (K : s.Kept) {n : Nat} (hn : s.world.queue.length ≤ n) :
    s.record (.job n) = [] := by
  rw [record, K.fresh n hn]
  rfl

theorem Saved.step (H : s.Saved) (K : s.Kept) (L : s.Locked) (h : s.step C e = some s') :
    s'.Saved := by
  cases K.moves h with
  | silent hrec hdb _ hqueue =>
    refine ⟨?_, ?_⟩
    · rw [hrec, hdb, hqueue]
      exact H.perm
    · rw [hrec, hqueue]
      exact H.row
  | @answered pid d hrec hmay heff =>
    have hrows := heff.rows (L pid).2
    have hrecord : ∀ n, saves (s'.record (.job n)) =
        saves (s.record (.job n)) ++ if .job n = pid then saves [d] else [] := by
      intro n
      rw [hrec, Function.update_apply]
      split
      · rename_i hp
        rw [saves_append, hp]
      · rw [List.append_nil]
    cases pid with
    | ingest i =>
      have hnone : saves [d] = [] := by
        refine List.eq_nil_iff_forall_not_mem.mpr fun p hp => ?_
        obtain ⟨b, data, cm, rfl, -⟩ := mem_saves_single hp
        obtain ⟨n, job, hpid, -⟩ := May.save hmay
        cases hpid
      have hsame : ∀ n, saves (s'.record (.job n)) = saves (s.record (.job n)) := by
        intro n
        rw [hrecord, if_neg nofun, List.append_nil]
      refine ⟨?_, fun n job hn p hp => ?_⟩
      · rw [hrows, hnone, List.append_nil, heff.queue, List.length_append,
          flatMap_range_add fun n hn => ?_]
        · simpa only [hsame] using H.perm
        · rw [hsame, K.record_fresh hn]
          rfl
      · rw [hsame] at hp
        have hlt : n < s.world.queue.length := by
          by_contra hge
          rw [K.record_fresh (Nat.not_lt.mp hge)] at hp
          cases hp
        rw [heff.queue, List.getElem?_append_left hlt] at hn
        exact H.row n job hn p hp
    | job m =>
      have hnone : enqueued [d] = [] := by
        refine List.eq_nil_iff_forall_not_mem.mpr fun job hjob => ?_
        obtain ⟨id, rfl⟩ := mem_enqueued_single hjob
        obtain ⟨i, hpid, -⟩ := May.enqueue hmay
        cases hpid
      have hqueue : s'.world.queue = s.world.queue := by
        rw [heff.queue, hnone, List.append_nil]
      obtain ⟨job, -, hjob, -⟩ := id hmay
      have hlt : m < s.world.queue.length := (List.getElem?_eq_some_iff.mp hjob).1
      refine ⟨?_, fun n job' hn p hp => ?_⟩
      · rw [hrows, hqueue]
        refine (H.perm.append_right _).trans (perm_flatMap_range hlt (fun k hk => ?_) ?_).symm
        · rw [hrecord, if_neg fun heq => hk (Pid.job.inj heq), List.append_nil]
        · rw [hrecord, if_pos rfl]
      · rw [hqueue] at hn
        rw [hrecord] at hp
        rcases List.mem_append.mp hp with hold | hnew
        · exact H.row n job' hn p hold
        · split at hnew
          · rename_i heq
            cases heq
            obtain ⟨b, data, cm, rfl, rfl⟩ := mem_saves_single hnew
            obtain ⟨k, job'', hpid, hk, rfl, hsaved⟩ := May.save hmay
            cases hpid
            rw [hn] at hk
            cases hk
            obtain ⟨h1, h2, h3, -⟩ := (heff.commit (L _).2).1.saved
            exact ⟨h1, h2.trans hsaved.filename, h3.trans hsaved.blobKey⟩
          · cases hnew

end Pipeline

end DocClassifier
