import DocClassifier.Statuses

/-!
# Batches do not affect each other

What the stores hold of a batch (`Holdings`) is changed only by the ingest call that has created it
and by its jobs. Whatever else happens (other polls and uploads, the jobs of other batches,
processes that are killed, jobs that are started, fail and are queued again) leaves it as it is.
-/

namespace DocClassifier
open ReadCommitted Transition BlobStorage Prog

theorem overlayKey_batch {b b' f f' : String} (hb : '/' ∉ b.toList) (hb' : '/' ∉ b'.toList)
    (h : overlayKey b f = overlayKey b' f') : b = b' := by
  have h' := congrArg String.toList h
  rw [overlayKey_toList, overlayKey_toList] at h'
  obtain ⟨h1, -⟩ := append_sep_inj hb hb' (List.append_cancel_left h')
  exact String.toList_inj.mp h1

/-- What the stores hold of a batch; its objects by their file names. -/
structure Holdings where
  row : Option Batch
  jobs : List Job
  predictions : List Prediction
  originals : String → Option Bytes
  quarantined : String → Option Bytes
  overlays : String → Option Bytes

namespace Pipeline

def holdings (s : Pipeline) (b : String) : Holdings where
  row := s.world.server.db.batches.find? b
  jobs := s.world.queue.filter (·.batchId = b)
  predictions := s.world.server.db.predictions.rows.filter (·.batchId = b)
  originals f := s.world.blobs (originalKey b f)
  quarantined f := s.world.blobs (quarantineKey b f)
  overlays f := s.world.blobs (overlayKey b f)

/-- The process that takes a step in the event. -/
def Event.pid : Event → Option Pid
  | .ingest i _ => some (.ingest i)
  | .job n _ => some (.job n)
  | _ => none

/-- The process works on the batch. -/
def WorksOn (s : Pipeline) (b : String) : Pid → Prop
  | .ingest i => batchOf (s.record (.ingest i)) = some b
  | .job n => (s.world.queue[n]?).map (·.batchId) = some b

/-- The event is a step of a process that works on the batch. -/
def Concerns (s : Pipeline) (b : String) (e : Event) : Prop := ∃ pid ∈ e.pid, s.WorksOn b pid

instance (s : Pipeline) (b : String) (pid : Pid) : Decidable (s.WorksOn b pid) :=
  match pid with
  | .ingest i => inferInstanceAs (Decidable (batchOf (s.record (.ingest i)) = some b))
  | .job n => inferInstanceAs (Decidable ((s.world.queue[n]?).map (·.batchId) = some b))

instance (s : Pipeline) (b : String) (e : Event) : Decidable (s.Concerns b e) :=
  match h : e.pid with
  | none => .isFalse (by simp [Concerns, h])
  | some pid => decidable_of_iff (s.WorksOn b pid) (by simp [Concerns, h])

variable {C : Classifier} {s s' : Pipeline} {e : Event} {b : String}

/-- A process performs something only in its own steps. -/
theorem record_of_ne (h : s.step C e = some s') {p : Pid} (hp : e.pid ≠ some p) :
    s'.record p = s.record p := by
  cases step_cases h with
  | drop | restartIdle => rfl
  | poll | upload => exact congrFun (record_addCall rfl) p
  | restart _ hc | cancel hc => exact congrFun (record_killCall hc) p
  | @ingest i tick c world thread hc ht =>
    have hrec : record { s with world, calls := s.calls.set i { c with thread } } =
      Function.update s.record (.ingest i) thread.hist := record_setCall hc
    rw [hrec, Function.update_of_ne]
    rintro rfl
    exact hp rfl
  | @job n tick th th' world hs ht =>
    rw [record_setJob, Function.update_of_ne]
    · rfl
    · rintro rfl
      exact hp rfl
  | @start n job hn hs =>
    rw [record_setJob, update_same]
    simp [record, JobRun.record, JobRun.hist, hs, Thread.hist]
  | @kill n th hs =>
    have hrec : ((s.release (.job n)).setJob n ⟨(s.jobs n).past ++ [th.hist], .failed⟩).record =
      Function.update s.record (.job n) _ := record_setJob
    rw [hrec, update_same]
    simp [record, JobRun.record, JobRun.hist, hs]
  | @retry n hs =>
    rw [record_setJob, update_same]
    simp [record, JobRun.record, JobRun.hist, hs]

/-- Only the process that takes the step adds an answer. -/
theorem pid_of_answer (h : s.step C e = some s') {pid : Pid} {d : Done Op.Answer Exn}
    (hrec : s'.record = Function.update s.record pid (s.record pid ++ [d])) : e.pid = some pid := by
  by_contra hne
  have hsame := record_of_ne h hne
  rw [hrec, Function.update_self] at hsame
  simp at hsame

section
variable {pid : Pid} {d : Done Op.Answer Exn}

/-- A process that does not work on the batch puts no object of it. -/
theorem Sound.stored_other (S : s.Sound) (hb : s.world.server.db.batches.find? b ≠ none)
    (hnot : ¬ s.WorksOn b pid) (hmay : s.May pid d.1) {f key : String}
    (hkey : KeyOf b f key ∨ key = overlayKey b f) : stored [d] key = none := by
  obtain ⟨j, hj⟩ := S.batches.origin b hb
  have hslash := (S.batches.hasBatch hj).1
  refine stored_none ?_
  rintro data rfl
  cases pid with
  | ingest i =>
    obtain ⟨c, hc, b', f', hturn, hkey'⟩ := hmay
    have hi : batchOf (s.record (.ingest i)) = some b' := record_call hc ▸ hturn.batch
    have hslash' := (S.batches.hasBatch hi).1
    rcases hkey with hkey | rfl
    · obtain rfl := hkey.batch hkey' hslash hslash'
      exact hnot hi
    · exact KeyOf.ne_overlayKey hkey' hslash' hslash rfl
  | job n =>
    obtain ⟨job, th, hn, -, hkey'⟩ := hmay
    obtain ⟨i, hi⟩ := S.queue.batch job (List.mem_of_getElem? hn)
    have hslash' := (S.batches.hasBatch hi).1
    have hkey' : key = overlayKey job.batchId (rsplitLast job.blobKey) := hkey'
    rcases hkey with hkey | hkey
    · exact hkey.ne_overlayKey hslash hslash' hkey'
    · have heq := overlayKey_batch hslash hslash' (hkey.symm.trans hkey')
      refine hnot ?_
      simp [WorksOn, hn, heq]

theorem Sound.holdings_answer (S : s.Sound) (hb : s.world.server.db.batches.find? b ≠ none)
    (hnot : ¬ s.WorksOn b pid) (hmay : s.May pid d.1)
    (heff : Effect C s.world (s.pending pid) d s'.world) : s'.holdings b = s.holdings b := by
  have hfresh := (S.locked pid).2
  have hobj : ∀ f key, (KeyOf b f key ∨ key = overlayKey b f) →
      s'.world.blobs key = s.world.blobs key := by
    intro f key hkey
    rw [heff.blobs, S.stored_other hb hnot hmay hkey, Option.none_or]
  have hjobs : (enqueued [d]).filter (·.batchId = b) = [] := by
    refine List.filter_eq_nil_iff.mpr fun job hjob heq => ?_
    obtain ⟨id, rfl⟩ := mem_enqueued_single hjob
    obtain ⟨i, rfl, hi⟩ := May.enqueue hmay
    exact hnot (hi.trans (congrArg some (by simpa using heq)))
  have hrows : (saves [d]).filter (·.batchId = b) = [] := by
    refine List.filter_eq_nil_iff.mpr fun p hp heq => ?_
    obtain ⟨b', data, cm, rfl, rfl⟩ := mem_saves_single hp
    obtain ⟨n, job, rfl, hn, rfl, -⟩ := May.save hmay
    have hid := (heff.commit hfresh).1.saved.1
    refine hnot ?_
    simp only [decide_eq_true_eq] at heq
    simp [WorksOn, hn, ← hid, heq]
  have hrow : s'.world.server.db.batches.find? b = s.world.server.db.batches.find? b := by
    rcases heff.db_cases hfresh with hdb | ⟨sc, cm, rfl, hc⟩
    · rw [hdb]
    -- A transition of the batch would be one of its own jobs.
    have hmark : ∀ m, ¬ MarkCall sc m b := by
      intro m hm
      cases pid with
      | ingest i =>
        obtain ⟨c, -, -, actor, rfl, -⟩ := hmay
        cases hm
      | job n =>
        obtain ⟨job, th, hn, -, hnext, -⟩ := hmay
        refine hnot ?_
        simp [WorksOn, hn, NextTx.markCall hnext hm]
    generalize s'.world.server.db = db' at hc
    cases hc with
    | @createBatch _ _ cm _ _ _ _ hnone =>
      refine Table.find?_insert_of_ne fun hid => hb ?_
      rw [← hid]
      exact hnone
    | @markProcessing batchId =>
      have hne : batchId ≠ b := by
        rintro rfl
        exact hmark _ .processing
      simp [Table.find?_modify, hne]
    | @markDone batchId =>
      have hne : batchId ≠ b := by
        rintro rfl
        exact hmark _ .done
      simp [Table.find?_modify, hne]
    | savePrediction => rfl
  simp only [holdings, Holdings.mk.injEq]
  refine ⟨hrow, ?_, ?_, funext fun f => hobj f _ (.inl (.inl rfl)),
    funext fun f => hobj f _ (.inl (.inr rfl)), funext fun f => hobj f _ (.inr rfl)⟩
  · rw [heff.queue, List.filter_append, hjobs, List.append_nil]
  · rw [heff.rows hfresh, List.filter_append, hrows, List.append_nil]

end

theorem Sound.holdings_step (S : s.Sound) (hb : s.world.server.db.batches.find? b ≠ none)
    (hnot : ¬ s.Concerns b e) (h : s.step C e = some s') : s'.holdings b = s.holdings b := by
  cases S.kept.moves h with
  | silent hrec hdb hblobs hqueue => simp only [holdings, hdb, hblobs, hqueue]
  | answered hrec hmay heff =>
    exact S.holdings_answer hb (fun hw => hnot ⟨_, pid_of_answer h hrec, hw⟩) hmay heff

/-- While neither its call nor its jobs take a step, nothing that is held of a batch changes. -/
theorem batches_apart (hr : Reachable C s) {es : List Event}
    (hb : s.world.server.db.batches.find? b ≠ none)
    (h : Run (Meeting (fun u e => ¬ u.Concerns b e) (Steps (Pipeline.step C))) s es s') :
    s'.holdings b = s.holdings b := by
  have hinv := h.inv (I := fun u => u.Sound ∧ u.holdings b = s.holdings b) ?_ ⟨hr.sound, rfl⟩
  · exact hinv.2
  rintro u e v ⟨S, heq⟩ ⟨hstep, hnot⟩
  have hrow : u.world.server.db.batches.find? b ≠ none := by
    rw [show u.world.server.db.batches.find? b = s.world.server.db.batches.find? b from
      congrArg Holdings.row heq]
    exact hb
  exact ⟨S.step hstep, (S.holdings_step hrow hnot hstep).trans heq⟩

/-- A second file arrives and is ingested by the next poll. -/
def nextPoll : List Event := .drop twoScans :: .poll :: .replicate 13 (.ingest 1 (ok "c"))

set_option maxRecDepth 100000 in
/-- The batch of a poll while the next poll ingests another file. -/
theorem batches_apart_nextPoll : ∃ s s' : Pipeline, Reachable letters s ∧
    s.world.server.db.batches.find? "b" ≠ none ∧ s'.world.queue.length = 2 ∧
    s'.holdings "b" = s.holdings "b" := by
  have h : ((exec (step letters) (start .empty oneScan) ingestOne).bind fun s =>
      (exec (fun u e => if ¬ u.Concerns "b" e then step letters u e else none) s nextPoll).map
        fun s' => ((s.world.server.db.batches.find? "b").isSome, s'.world.queue.length)) =
      some (true, 2) := by decide +kernel
  obtain ⟨s, hs, h⟩ := Option.bind_eq_some_iff.mp h
  obtain ⟨s', hs', h⟩ := Option.map_eq_some_iff.mp h
  simp only [Prod.mk.injEq] at h
  have hreach : Reachable letters s := ⟨_, _, _, exec_eq_some.mp hs⟩
  have hb : s.world.server.db.batches.find? "b" ≠ none := Option.isSome_iff_ne_none.mp h.1
  exact ⟨s, s', hreach, hb, h.2, batches_apart hreach hb (run_of_exec hs')⟩

end Pipeline

end DocClassifier
