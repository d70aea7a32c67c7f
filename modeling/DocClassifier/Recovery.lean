import DocClassifier.Provenance
import DocClassifier.WorkingJobs
import Mathlib.Algebra.Order.BigOperators.Group.List
import Mathlib.Algebra.Order.Group.Nat

/-!
# Recovery

Whatever has failed so far, no document that has been queued is lost: from every reachable state the
processes can be stopped, the failed jobs queued again and all jobs run, one after the other, until
every job has returned. Nothing is needed that the operators of the service do not have: restarts,
the requeueing of failed jobs, and services that work for a while.
-/

namespace DocClassifier
open ReadCommitted Transition BlobStorage Prog

/-! ## What the columns take -/

/-- The columns of `predictions` take the row of the job. -/
def Job.Storable (job : Job) : Prop :=
  ∀ text ∈ [rsplitLast job.blobKey, job.blobKey, overlayKey job.batchId (rsplitLast job.blobKey)],
    TakenByColumn text

instance (job : Job) : Decidable job.Storable :=
  inferInstanceAs (Decidable (∀ text ∈ [rsplitLast job.blobKey, job.blobKey,
    overlayKey job.batchId (rsplitLast job.blobKey)], TakenByColumn text))

theorem SavedBy.storable {job : Job} {data : PredictionCreate} {g : Gen} {b : String}
    (h : SavedBy job data) (hjob : job.Storable) :
    (PredictionService.newPrediction g b data).Storable := by
  rw [Prediction.Storable]
  dsimp only [PredictionService.newPrediction]
  rw [h.filename, h.blobKey, h.overlayKey]
  exact hjob

/-- The columns take the row that the next statement of the thread inserts into `predictions`. -/
def Thread.Storable {α : Type} : Thread α → Prop
  | .run .. => True
  | .tx _ _ t _ => ∀ p k, t.rest = .exec (.insertPrediction p) k → p.Storable

/-- A transition inserts no prediction. -/
theorem BatchTransitions.not_insertPrediction {m : Mark} {g : Gen} {b : String} {p : Prediction}
    {t : Txn Tables Stmt Exn (Committed Batch)} {k : Tables → Block (Committed Batch)}
    (h : Inside (m.block g b) t) : t.rest ≠ .exec (.insertPrediction p) k := by
  intro hr
  rcases phase_of_inside h with rfl | ⟨e, he⟩ | ⟨old, rfl⟩ | ⟨old, c, he⟩ | ⟨c, he⟩
  · rw [BatchService.transition_eq] at hr
    cases hr
  · cases he.symm.trans hr
  · cases hr
  · cases he.symm.trans hr
  · cases he.symm.trans hr

/-- A job inserts no row but its own. -/
theorem Thread.Keeps.storable {α : Type} {job : Job} {th : Thread α}
    {Q : History → Except Exn α → Prop} (H : th.Keeps (JobMay job) Q) (hjob : job.Storable) :
    th.Storable := by
  cases th with
  | run => trivial
  | tx hist s t =>
    obtain ⟨-, ⟨hnext, -⟩, ⟨g, hi⟩, -⟩ := H
    intro p k hr
    generalize txs hist = ts at hnext
    cases hnext with
    | markProcessing =>
      exact (BatchTransitions.not_insertPrediction (m := .processing) hi hr).elim
    | markDone => exact (BatchTransitions.not_insertPrediction (m := .done) hi hr).elim
    | savePrediction _ hsaved =>
      rcases save_inside hi with rfl | ⟨c, hc⟩
      · rw [PredictionService.savePrediction_eq] at hr
        obtain ⟨hp, -⟩ := Tx.exec.inj hr
        cases hp
        exact hsaved.storable hjob
      · cases hc.symm.trans hr

/-! ## Locks of processes that have stopped -/

/-- What a step of the process `pid` does to the locks it holds, and to those of others. -/
structure UseStep (pid : Pid) (s s' : Server Tables Row Pid) (ws ws' : List Stmt) : Prop where
  own : s.Uses postgres pid ws → s'.Uses postgres pid ws'
  other : ∀ j l, j ≠ pid → s.Uses postgres j l → s'.Uses postgres j l

section
variable {pid : Pid} {s s' : Server Tables Row Pid} {ws : List Stmt}

theorem UseStep.refl : UseStep pid s s ws ws := ⟨id, fun _ _ _ h => h⟩

theorem UseStep.release : UseStep pid s (s.release pid) ws [] :=
  ⟨fun _ => .released, fun _ _ _ h => h.release⟩

theorem UseStep.thread {α : Type} {C : Classifier} {w w' : World} {th th' : Thread α} {tick : Tick}
    (h : th.step C pid w tick = some (w', th')) :
    UseStep pid w.server w'.server th.pending th'.pending := by
  cases Thread.step_cases h with
  | begin | refused | fail => exact .refl
  | io => exact (perform_server C w _ _).symm ▸ .refl
  | @stmt H s t k server r hs =>
    refine ⟨fun H => ?_, fun j l hj H => H.other (Ne.symm hj) hs⟩
    have hown := H.own hs
    cases r <;> exact hown
  | lost => exact .release

end

namespace Pipeline

variable {C : Classifier} {s s' t : Pipeline} {e : Event}

/-- Every lock is held for a write that is pending. -/
def Used (s : Pipeline) : Prop := ∀ pid, s.world.server.Uses postgres pid (s.pending pid)

theorem Used.start (users : Table String UserORM (·.id))
    (dropZone : Table String RemoteFile (·.filename)) : (start users dropZone).Used := by
  intro pid k hk
  cases hk

theorem useStep (h : s.step C e = some s') : ∃ pid ws,
    s'.pending = Function.update s.pending pid ws ∧
      UseStep pid s.world.server s'.world.server (s.pending pid) ws := by
  have hsame : ∀ {server}, server = s.world.server → ∃ pid ws,
      s.pending = Function.update s.pending pid ws ∧
        UseStep pid s.world.server server (s.pending pid) ws := by
    rintro - rfl
    exact ⟨.ingest 0, _, (Function.update_eq_self _ _).symm, .refl⟩
  have hidle : ∀ {n}, (∀ th, (s.jobs n).state ≠ .running th) → s.pending (.job n) = [] := by
    intro n hs
    rw [pending, JobRun.pending]
    split
    · exact (hs _ ‹_›).elim
    · rfl
  cases step_cases h with
  | drop | restartIdle => exact hsame rfl
  | poll | upload =>
    obtain ⟨pid, ws, hp, hl⟩ := hsame rfl
    exact ⟨pid, ws, (pending_addCall rfl).trans hp, hl⟩
  | restart hi hc => exact ⟨_, _, pending_killCall hc, .release⟩
  | cancel hc => exact ⟨_, _, pending_killCall hc, .release⟩
  | @ingest i tick c world thread hc ht =>
    refine ⟨_, _, pending_setCall hc, ?_⟩
    rw [pending_call hc]
    exact .thread ht
  | @start n job hn hs =>
    refine ⟨_, _, pending_setJob, ?_⟩
    rw [hidle (n := n) (by simp [hs])]
    exact .refl
  | @job n tick th th' world hs ht =>
    refine ⟨_, _, pending_setJob, ?_⟩
    have hpend : s.pending (.job n) = th.pending := by simp [pending, JobRun.pending, hs]
    rw [hpend, JobRun.pending_next]
    exact .thread ht
  | @kill n th hs => exact ⟨_, _, pending_setJob, .release⟩
  | @retry n hs =>
    refine ⟨_, _, pending_setJob, ?_⟩
    rw [hidle (n := n) (by simp [hs])]
    exact .refl

theorem Used.step (H : s.Used) (h : s.step C e = some s') : s'.Used := by
  obtain ⟨pid, ws, hp, hl⟩ := useStep h
  intro j
  rw [hp]
  by_cases hj : j = pid
  · subst hj
    rw [Function.update_self]
    exact hl.own (H j)
  · rw [Function.update_of_ne hj]
    exact hl.other j _ hj (H j)

/-- No process is at work. -/
structure Stopped (s : Pipeline) : Prop where
  calls : ∀ (i : Nat) (c : IngestCall), s.calls[i]? = some c → c.thread.ended = true
  jobs : ∀ n th, (s.jobs n).state ≠ .running th

/-- Processes that have stopped hold no locks. -/
theorem Used.idle (H : s.Used) (hs : s.Stopped) : s.world.Idle := by
  have hnil : ∀ pid, s.pending pid = [] := by
    intro pid
    cases pid with
    | ingest i =>
      cases hc : s.calls[i]? with
      | none => simp [pending, hc]
      | some c =>
        rw [pending_call hc]
        have hend := hs.calls i c hc
        cases hth : c.thread with
        | run => rfl
        | tx =>
          rw [hth] at hend
          cases hend
    | job n =>
      rw [pending, JobRun.pending]
      split
      · exact (hs.jobs n _ ‹_›).elim
      · rfl
  funext k
  cases hk : s.world.server.locks k with
  | none => rfl
  | some pid =>
    obtain ⟨w, hw, -⟩ := H pid k hk
    rw [hnil] at hw
    cases hw

/-- What holds in every state that the pipeline reaches. -/
structure Consistent (C : Classifier) (s : Pipeline) : Prop where
  sound : s.Sound
  referenced : s.Referenced
  truthful : s.Truthful C
  statuses : s.Statuses

theorem Consistent.start (users : Table String UserORM (·.id))
    (dropZone : Table String RemoteFile (·.filename)) : (start users dropZone).Consistent C :=
  ⟨.start users dropZone, .start users dropZone, .start users dropZone, .start users dropZone⟩

theorem Consistent.step (H : s.Consistent C) (h : s.step C e = some s') : s'.Consistent C :=
  ⟨H.sound.step h, H.referenced.step H.sound.kept h, H.truthful.step H.sound h,
    H.statuses.step H.sound h⟩

theorem Consistent.reaches {allowed : Pipeline → Event → Prop} (H : s.Consistent C)
    (h : Reaches (Meeting allowed (Steps (Pipeline.step C))) s t) : t.Consistent C :=
  h.inv (fun _ _ _ H h => H.step h.1) H

theorem Used.reaches {allowed : Pipeline → Event → Prop} (U : s.Used)
    (h : Reaches (Meeting allowed (Steps (Pipeline.step C))) s t) : t.Used :=
  h.inv (fun _ _ _ H h => H.step h.1) U

/-- The columns take what the next step of the event inserts into `predictions`. -/
def Stores (s : Pipeline) : Event → Prop
  | .job n _ => ∀ th, (s.jobs n).state = .running th → th.Storable
  | _ => True

/-! ## What the operators do -/

/-- A restart of a process, a failed job queued again, or a step of a job that does not fail. -/
def Event.IsRecovery : Event → Prop
  | .restart | .cancel _ | .kill _ | .retry _ | .start _ => True
  | .job _ (.ok _) => True
  | _ => False

/-- Runs in which nothing new arrives and nothing fails, but the processes that are stopped. -/
abbrev Recovers (C : Classifier) : Pipeline → Pipeline → Prop :=
  Reaches (Meeting (fun s e => e.IsRecovery ∧ s.Stores e) (Steps (Pipeline.step C)))

theorem Reachable.consistent (h : Reachable C s) : s.Consistent C := by
  obtain ⟨users, dropZone, es, h⟩ := h
  exact h.inv (fun _ _ _ H h => H.step h) (.start users dropZone)

theorem Reachable.used (h : Reachable C s) : s.Used := by
  obtain ⟨users, dropZone, es, h⟩ := h
  exact h.inv (fun _ _ _ H h => H.step h) (Used.start users dropZone)

theorem Reachable.reaches {allowed : Pipeline → Event → Prop} (hs : Reachable C s)
    (h : Reaches (Meeting allowed (Steps (Pipeline.step C))) s t) : Reachable C t := by
  obtain ⟨es, h⟩ := h
  obtain ⟨users, dropZone, es', hrun⟩ := hs
  exact ⟨users, dropZone, es' ++ es, hrun.append h.of_meeting⟩

/-- The bucket, the queue and the tables are as before. -/
structure SameStores (s t : Pipeline) : Prop where
  queue : t.world.queue = s.world.queue
  blobs : t.world.blobs = s.world.blobs
  db : t.world.server.db = s.world.server.db

theorem SameStores.refl : s.SameStores s := ⟨rfl, rfl, rfl⟩

theorem SameStores.trans {u : Pipeline} (h : s.SameStores t) (h' : t.SameStores u) :
    s.SameStores u :=
  ⟨h'.queue.trans h.queue, h'.blobs.trans h.blobs, h'.db.trans h.db⟩

/-- The first call that is not at its end can be stopped. -/
theorem stop_call {i : Nat} {c : IngestCall} (hc : s.calls[i]? = some c)
    (hend : c.thread.ended = false)
    (hfirst : ∀ j c', j < i → s.calls[j]? = some c' → c'.thread.ended = true) :
    ∃ t, Recovers C s t ∧ s.SameStores t ∧ t.jobs = s.jobs ∧
      t.calls = s.calls.set i { c with thread := c.thread.kill, killed := true } := by
  rcases (by cases c.source <;> simp : c.source = .http ∨ c.source = .sftp) with hsrc | hsrc
  · have h : s.step C (.cancel i) = some (s.killCall i c) := by simp [Pipeline.step, hc, hsrc, hend]
    exact ⟨_, .single ⟨h, trivial, trivial⟩, ⟨rfl, rfl, rfl⟩, rfl, rfl⟩
  · have hactive : s.activePoll = some i := by
      obtain ⟨hlt, hget⟩ := List.getElem?_eq_some_iff.mp hc
      refine List.findIdx?_eq_some_iff_getElem.mpr ⟨hlt, ?_, fun j hj => ?_⟩
      · simp [hget, IngestCall.polling, hsrc, hend]
      · have hended := hfirst j _ hj (List.getElem?_eq_getElem (hj.trans hlt))
        simp [IngestCall.polling, hended]
    have h : s.step C .restart = some (s.killCall i c).forget := by
      simp [Pipeline.step, hactive, hc]
    exact ⟨_, .single ⟨h, trivial, trivial⟩, ⟨rfl, rfl, rfl⟩, rfl, rfl⟩

theorem stop_calls (s : Pipeline) (m : Nat) : ∃ t, Recovers C s t ∧ s.SameStores t ∧
    t.jobs = s.jobs ∧ t.calls.length = s.calls.length ∧
      ∀ (i : Nat) (c : IngestCall), i < m → t.calls[i]? = some c → c.thread.ended = true := by
  induction m with
  | zero => exact ⟨s, .refl, .refl, rfl, rfl, nofun⟩
  | succ m ih =>
    obtain ⟨t, hrun, hsame, hjobs, hlen, hended⟩ := ih
    by_cases hopen : ∃ c, t.calls[m]? = some c ∧ c.thread.ended = false
    · obtain ⟨c, hc, hend⟩ := hopen
      obtain ⟨u, hu, hsame', hjobs', hcalls⟩ := stop_call (C := C) hc hend fun j c' => hended j c'
      refine ⟨u, hrun.trans hu, hsame.trans hsame',
        hjobs'.trans hjobs, ?_, fun i c' hi hc' => ?_⟩
      · rw [hcalls, List.length_set, hlen]
      · rw [hcalls, getElem?_setCall hc] at hc'
        split at hc'
        · cases hc'
          rfl
        · exact hended i c' (by omega) hc'
    · refine ⟨t, hrun, hsame, hjobs, hlen, fun i c hi hc => ?_⟩
      rcases Nat.lt_succ_iff_lt_or_eq.mp hi with hi | rfl
      · exact hended i c hi hc
      · by_contra hend
        exact hopen ⟨c, hc, by simpa using hend⟩

theorem stop_jobs (s : Pipeline) (m : Nat) : ∃ t, Recovers C s t ∧ s.SameStores t ∧
    t.calls = s.calls ∧ (∀ n ≥ m, t.jobs n = s.jobs n) ∧
      ∀ n < m, ∀ th, (t.jobs n).state ≠ .running th := by
  induction m with
  | zero => exact ⟨s, .refl, .refl, rfl, fun _ _ => rfl, nofun⟩
  | succ m ih =>
    obtain ⟨t, hrun, hsame, hcalls, hlater, hstopped⟩ := ih
    by_cases hrunning : ∃ th, (t.jobs m).state = .running th
    · obtain ⟨th, hth⟩ := hrunning
      have h : t.step C (.kill m) =
          some ((t.release (.job m)).setJob m ⟨(t.jobs m).past ++ [th.hist], .failed⟩) := by
        simp [Pipeline.step, hth]
      refine ⟨_, hrun.trans (.single ⟨h, trivial, trivial⟩), hsame.trans ⟨rfl, rfl, rfl⟩, hcalls,
        fun n hn => ?_, fun n hn th' => ?_⟩
      · exact (Function.update_of_ne (by omega) _ _).trans (hlater n (by omega))
      · by_cases hne : n = m
        · subst hne
          simp [Pipeline.setJob]
        · have hjob : ((t.release (.job m)).setJob m
            ⟨(t.jobs m).past ++ [th.hist], .failed⟩).jobs n =
            t.jobs n := Function.update_of_ne hne _ _
          rw [hjob]
          exact hstopped n (by omega) th'
    · refine ⟨t, hrun, hsame, hcalls, fun n hn => hlater n (by omega), fun n hn th => ?_⟩
      rcases Nat.lt_succ_iff_lt_or_eq.mp hn with hn | rfl
      · exact hstopped n hn th
      · exact fun hth => hrunning ⟨th, hth⟩

/-- All processes can be stopped. -/
theorem Kept.stop (K : s.Kept) : ∃ t, Recovers C s t ∧ s.SameStores t ∧ t.Stopped := by
  obtain ⟨t, hrun, hsame, hjobs, hlen, hended⟩ := stop_calls (C := C) s s.calls.length
  obtain ⟨u, hrun', hsame', hcalls, hlater, hstopped⟩ := stop_jobs (C := C) t s.world.queue.length
  refine ⟨u, hrun.trans hrun', hsame.trans hsame',
    fun i c hc => ?_, fun n th hth => ?_⟩
  · rw [hcalls] at hc
    exact hended i c (hlen ▸ (List.getElem?_eq_some_iff.mp hc).1) hc
  · by_cases hn : n < s.world.queue.length
    · exact hstopped n hn th hth
    · rw [hlater n (Nat.not_lt.mp hn), hjobs, K.fresh n (Nat.not_lt.mp hn)] at hth
      cases hth

/-! ## One job after the other -/

theorem setJob_setJob {n : Nat} {j j' : JobRun} : (s.setJob n j).setJob n j' = s.setJob n j' := by
  simp [Pipeline.setJob]

/-- A job that is alone goes on to its end. -/
theorem run_job {n : Nat} {past : List History} {th : Thread ClassifyResult} {w : World}
    {ticks : List Tick} {H : History} {a : ClassifyResult} {b : World × Thread ClassifyResult}
    (hs : s.jobs n = ⟨past, .running th⟩) (hend : th.ended = false)
    (h : Run (Thread.Alone C (.job n)) (s.world, th) ticks b) (hb : b = (w, .run H (.ret a)))
    (hok : ∀ tick ∈ ticks, ∃ g, tick = .ok g) {job : Job}
    (hkeeps : th.Keeps (JobMay job) (JobEnds job)) (hjob : job.Storable) :
    Recovers C s ({ s with world := w }.setJob n ⟨past ++ [H], .returned⟩) := by
  induction ticks generalizing s th with
  | nil =>
    cases h
    cases hb
    cases hend
  | cons tick ticks ih =>
    obtain ⟨⟨w1, th1⟩, h1, h2⟩ := Run.cons_iff.mp h
    obtain ⟨⟨g, rfl⟩, hok'⟩ := List.forall_mem_cons.mp hok
    have hstate : (s.jobs n).state = .running th := by rw [hs]
    have hpast : (s.jobs n).past = past := by rw [hs]
    have hstep : s.step C (.job n (.ok g)) =
        some ({ s with world := w1 }.setJob n (.next past th1)) := by
      simp only [Pipeline.step, hstate, hpast, show th.step C (.job n) s.world (.ok g) =
        some (w1, th1) from h1, Option.map_some]
    have hstores : s.Stores (.job n (.ok g)) := by
      intro th' hth'
      cases hstate.symm.trans hth'
      exact hkeeps.storable hjob
    refine (Reaches.single ⟨hstep, trivial, hstores⟩).trans ?_
    cases hend1 : th1.ended with
    | false =>
      have hnext : JobRun.next past th1 = ⟨past, .running th1⟩ := by
        unfold JobRun.next
        split
        · cases hend1
        · cases hend1
        · rfl
      have hrest := @ih ({ s with world := w1 }.setJob n (.next past th1)) th1
        (by rw [hnext]; exact Function.update_self _ _ _) hend1 h2 hok' (hkeeps.step h1)
      exact (setJob_setJob (s := { s with world := w })) ▸ hrest
    | true =>
      -- An ended thread takes no step, so this was the last one.
      cases ticks with
      | nil =>
        cases h2
        cases hb
        exact .refl
      | cons tick' ticks =>
        obtain ⟨c, h3, -⟩ := Run.cons_iff.mp h2
        have hrun := Thread.step_running h3
        rw [hend1] at hrun
        cases hrun

/-- An id that no row has. -/
theorem exists_fresh {α : Type} {key : α → String} (t : Table String α key) :
    ∃ g : Gen, t.find? g.uuid = none := by
  obtain ⟨n, hn⟩ : ∃ n, ∀ a ∈ t.rows, (key a).length < n :=
    ⟨(t.rows.map fun a => (key a).length).sum + 1, fun a ha => Nat.lt_succ_of_le
      (List.single_le_sum (fun _ _ => Nat.zero_le _) _ (List.mem_map_of_mem ha))⟩
  have hplain : '/' ∉ (String.ofList (List.replicate n 'x')).toList := by simp
  refine ⟨⟨String.ofList (List.replicate n 'x'), 0, hplain⟩, Table.find?_eq_none.mpr ?_⟩
  intro a ha heq
  have hlt := hn a ha
  simp [heq] at hlt

/-- The service can classify the document of the job: the model can read it, the bucket takes its
overlay, and the columns of `predictions` take its row. -/
structure Fits (C : Classifier) (s : Pipeline) (job : Job) : Prop where
  image : ∀ data, s.world.blobs job.blobKey = some data → C.Fits data
  columns : job.Storable

theorem run_queued {n : Nat} {job : Job} {data : Bytes} (hidle : s.world.Idle)
    (hn : s.world.queue[n]? = some job) (hs : (s.jobs n).state = .queued)
    (hget : s.world.blobs job.blobKey = some data) (hfits : s.Fits C job)
    (hb : s.world.server.db.batches.find? job.batchId ≠ none) : ∃ H db overlayBytes,
      Recovers C s (Pipeline.setJob { s with world := { s.world.withDb db with
        blobs := Function.update s.world.blobs
          (overlayKey job.batchId (rsplitLast job.blobKey)) (some overlayBytes) } } n
        ⟨(s.jobs n).past ++ [H], .returned⟩) := by
  obtain ⟨g, hg⟩ := exists_fresh s.world.server.db.predictions
  obtain ⟨a, l', hinterp, db, overlayBytes, hw⟩ := @returns_classify C (fun _ => g) ⟨s.world, 0⟩ job
    data hget (hfits.image data hget) (fun _ => hg) hb
  obtain ⟨ticks, H, hok, halone⟩ :=
    @Thread.alone _ C (.job n) [] (fun _ => g) (classify job) ⟨s.world, 0⟩ hidle
  rw [hinterp] at halone
  refine ⟨H, db, overlayBytes, ?_⟩
  have hstart : s.step C (.start n) =
      some (s.setJob n { s.jobs n with state := .running (.run [] (classify job)) }) := by
    simp [Pipeline.step, hn, hs]
  have hkeeps : (Thread.run [] (classify job)).Keeps (JobMay job) (JobEnds job) :=
    ⟨along_nil, classify_spec job⟩
  have hrun := run_job (C := C) (s := s.setJob n
    { s.jobs n with state := .running (.run [] (classify job)) }) (Function.update_self _ _ _) rfl
    halone rfl hok hkeeps hfits.columns
  rw [← hw]
  refine (Reaches.single ⟨hstart, trivial, trivial⟩).trans ?_
  exact (setJob_setJob (s := { s with world := l'.world })) ▸ hrun

/-- A job that is queued, or that has failed, can be started. -/
theorem requeue {n : Nat} (hs : (s.jobs n).state = .queued ∨ (s.jobs n).state = .failed) :
    ∃ t, Recovers C s t ∧ t.world = s.world ∧ t.calls = s.calls ∧ (t.jobs n).state = .queued ∧
      ∀ m ≠ n, t.jobs m = s.jobs m := by
  rcases hs with hs | hs
  · exact ⟨s, .refl, rfl, rfl, hs, fun _ _ => rfl⟩
  · have h : s.step C (.retry n) = some (s.setJob n { s.jobs n with state := .queued }) := by
      simp [Pipeline.step, hs]
    refine ⟨_, .single ⟨h, trivial, trivial⟩, rfl, rfl, ?_,
      fun m hm => Function.update_of_ne hm _ _⟩
    simp [Pipeline.setJob]

/-- The jobs and their documents are as before, and so are the ingest calls. -/
structure SameDocuments (s t : Pipeline) : Prop where
  queue : t.world.queue = s.world.queue
  blobs : ∀ job ∈ s.world.queue, t.world.blobs job.blobKey = s.world.blobs job.blobKey
  calls : t.calls = s.calls

theorem SameDocuments.refl : s.SameDocuments s := ⟨rfl, fun _ _ => rfl, rfl⟩

theorem SameDocuments.fits {job : Job} (h : s.SameDocuments t) (hjob : job ∈ s.world.queue) :
    t.Fits C job ↔ s.Fits C job := by
  have hblob := h.blobs job hjob
  exact ⟨fun H => ⟨hblob ▸ H.image, H.columns⟩, fun H => ⟨hblob ▸ H.image, H.columns⟩⟩

theorem SameDocuments.trans {u : Pipeline} (h : s.SameDocuments t) (h' : t.SameDocuments u) :
    s.SameDocuments u :=
  ⟨h'.queue.trans h.queue, fun job hjob => (h'.blobs job (h.queue ▸ hjob)).trans (h.blobs job hjob),
    h'.calls.trans h.calls⟩

/-- One job is brought to its end, when no process is at work. -/
theorem recover_job (H : s.Consistent C) (U : s.Used) (hstop : s.Stopped) {n : Nat} {job : Job}
    (hn : s.world.queue[n]? = some job) (hfits : s.Fits C job) :
    ∃ t, Recovers C s t ∧ t.Stopped ∧ s.SameDocuments t ∧ (t.jobs n).state = .returned ∧
      ∀ m ≠ n, t.jobs m = s.jobs m := by
  have S := H.sound
  by_cases hret : (s.jobs n).state = .returned
  · exact ⟨s, .refl, hstop, .refl, hret, fun _ _ => rfl⟩
  have hwaits : (s.jobs n).state = .queued ∨ (s.jobs n).state = .failed := by
    cases hst : (s.jobs n).state with
    | queued => exact .inl rfl
    | failed => exact .inr rfl
    | returned => exact (hret hst).elim
    | running th => exact (hstop.jobs n th hst).elim
  obtain ⟨u, hu, hworld, hcalls, hqueued, hothers⟩ := requeue (C := C) hwaits
  have hmem := List.mem_of_getElem? hn
  obtain ⟨i, c, f, hjob⟩ := S.jobOf hmem
  obtain ⟨data, hget⟩ : ∃ data, s.world.blobs job.blobKey = some data := by
    obtain ⟨data, hput, -⟩ := hjob.stored
    rw [← record_call hjob.call] at hput
    exact Option.ne_none_iff_exists'.mp (H.referenced.put _ _ data hput)
  have hfits' : u.Fits C job := ⟨hworld ▸ hfits.image, hfits.columns⟩
  obtain ⟨_, db, overlayBytes, hrun⟩ := @run_queued C u n job data (hworld ▸ U.idle hstop)
    (hworld ▸ hn) hqueued (hworld ▸ hget) hfits' (hworld ▸ S.batch_of_job hn)
  have hown : ∀ {s : Pipeline} {j : JobRun}, (s.setJob n j).jobs n = j :=
    Function.update_self _ _ _
  have hother : ∀ {s : Pipeline} {j : JobRun} {m : Nat}, m ≠ n → (s.setJob n j).jobs m = s.jobs m :=
    fun hm => Function.update_of_ne hm _ _
  refine ⟨_, hu.trans hrun, ⟨fun j c' hc' => hstop.calls j c' (hcalls ▸ hc'), fun m th hth => ?_⟩,
    ⟨(congrArg (fun w => w.queue) hworld :), fun job' hjob' => ?_, hcalls⟩, ?_, fun m hm => ?_⟩
  · by_cases hm : m = n
    · subst hm
      rw [hown] at hth
      cases hth
    · rw [hother hm] at hth
      exact hstop.jobs m th (hothers m hm ▸ hth)
  · -- The overlay is not put over a document.
    obtain ⟨i', c', f', hjob'⟩ := S.jobOf hjob'
    have hslash := (S.batches.hasBatch (record_call hjob.call ▸ hjob.batch)).1
    have hslash' := (S.batches.hasBatch (record_call hjob'.call ▸ hjob'.batch)).1
    have hne : job'.blobKey ≠ overlayKey job.batchId (rsplitLast job.blobKey) := by
      rw [hjob'.blobKey]
      exact originalKey_ne_overlayKey hslash' hslash
    exact (Function.update_of_ne hne _ _).trans (congrArg (fun w => w.blobs job'.blobKey) hworld)
  · rw [hown]
  · exact (hother hm).trans (hothers m hm)

/-- The jobs whose documents fit are brought to their ends one after the other. -/
theorem recover_jobs (H : s.Consistent C) (U : s.Used) (hstop : s.Stopped) (m : Nat)
    (hm : m ≤ s.world.queue.length) :
    ∃ t, Recovers C s t ∧ t.Stopped ∧ s.SameDocuments t ∧
      ∀ n < m, ∀ job, s.world.queue[n]? = some job → s.Fits C job →
        (t.jobs n).state = .returned := by
  induction m with
  | zero => exact ⟨s, .refl, hstop, .refl, nofun⟩
  | succ m ih =>
    obtain ⟨t, hrun, hstop', hsame, hreturned⟩ := ih (by omega)
    have hjob : s.world.queue[m]? = some s.world.queue[m] := List.getElem?_eq_getElem hm
    have hmem := List.mem_of_getElem? hjob
    have hget : t.world.queue[m]? = some s.world.queue[m] := by
      rw [hsame.queue]
      exact hjob
    by_cases hfits : s.Fits C s.world.queue[m]
    · obtain ⟨u, hrun', hstop'', hsame', hret, hothers⟩ := recover_job (H.reaches hrun)
        (U.reaches hrun) hstop' hget ((hsame.fits hmem).mpr hfits)
      refine ⟨u, hrun.trans hrun', hstop'', hsame.trans hsame', fun n hn job hjob' hfits' => ?_⟩
      by_cases hne : n = m
      · exact hne ▸ hret
      · rw [hothers n hne]
        exact hreturned n (by omega) job hjob' hfits'
    · refine ⟨t, hrun, hstop', hsame, fun n hn job hjob' hfits' => ?_⟩
      rcases Nat.lt_succ_iff_lt_or_eq.mp hn with hn | rfl
      · exact hreturned n hn job hjob' hfits'
      · cases hjob.symm.trans hjob'
        exact (hfits hfits').elim

/-- A job that has returned has saved a row. -/
theorem Sound.row_of_returned (S : s.Sound) {n : Nat} {job : Job}
    (hn : s.world.queue[n]? = some job) (hret : (s.jobs n).state = .returned) :
    ∃ p ∈ s.world.server.db.predictions.rows,
      p.batchId = job.batchId ∧ p.blobKey = job.blobKey := by
  obtain ⟨H, hH, r, r', data, cm, -, -, -, htxs⟩ := (S.kept.jobs n job hn).returned hret
  have hd : (⟨.tx (.savePrediction job.batchId data), .ok cm⟩ : Done Op.Answer Exn) ∈ H :=
    mem_txs.mp (by simp [htxs])
  have hmem : cm.result ∈ saves (s.record (.job n)) :=
    mem_saves.mpr ⟨_, _, _, List.mem_append_left _ (List.mem_flatten.mpr ⟨H, hH, hd⟩), rfl⟩
  have hrow := S.saved.row n job hn _ hmem
  have hlt := List.mem_range.mpr (List.getElem?_eq_some_iff.mp hn).1
  exact ⟨cm.result, S.saved.perm.mem_iff.mpr (List.mem_flatMap.mpr ⟨n, hlt, hmem⟩), hrow.batchId,
    hrow.blobKey⟩

/-- The queue has been worked off, as far as the documents can be classified. -/
structure WorkedOff (C : Classifier) (s : Pipeline) : Prop where
  returned : ∀ n job, s.world.queue[n]? = some job → s.Fits C job → (s.jobs n).state = .returned
  classified : ∀ job ∈ s.world.queue, s.Fits C job →
    ∃ p ∈ s.world.server.db.predictions.rows, p.batchId = job.batchId ∧ p.blobKey = job.blobKey
  /-- A batch all of whose documents can be classified is `done`. -/
  done : ∀ b, 0 < s.jobsOf b → (∀ job ∈ s.world.queue, job.batchId = b → s.Fits C job) →
    s.world.server.db.statusOf b = some .done

theorem Consistent.workedOff (H : s.Consistent C) (h : ∀ n job, s.world.queue[n]? = some job →
    s.Fits C job → (s.jobs n).state = .returned) : s.WorkedOff C := by
  refine ⟨h, fun job hjob hfits => ?_, fun b hjobs hfits => ?_⟩
  · obtain ⟨n, hn⟩ := List.mem_iff_getElem?.mp hjob
    exact H.sound.row_of_returned hn (h n job hn hfits)
  · exact H.statuses.done H.sound hjobs fun n job hn hb =>
      h n job hn (hfits job (List.mem_of_getElem? hn) hb)

/-- Once the processes have stopped, the jobs are executed one after the other. -/
theorem Stopped.workedOff (hstop : s.Stopped) (H : s.Consistent C) (U : s.Used) :
    ∃ t, Recovers C s t ∧ s.SameDocuments t ∧ t.WorkedOff C := by
  obtain ⟨t, hrun, -, hsame, hreturned⟩ := recover_jobs H U hstop s.world.queue.length le_rfl
  refine ⟨t, hrun, hsame, (H.reaches hrun).workedOff fun n job hn hfits => ?_⟩
  rw [hsame.queue] at hn
  exact hreturned n (List.getElem?_eq_some_iff.mp hn).1 job hn
    ((hsame.fits (List.mem_of_getElem? hn)).mp hfits)

/-- The processes are stopped in `u`, and then the queue is worked off. -/
theorem Reachable.workedOff (hr : Reachable C s) : ∃ u t, Recovers C s u ∧ s.SameStores u ∧
    Recovers C u t ∧ u.SameDocuments t ∧ t.WorkedOff C := by
  obtain ⟨u, hrun, hsame, hstop⟩ := hr.sound.kept.stop (C := C)
  obtain ⟨t, hrun', hsame', hoff⟩ :=
    hstop.workedOff (hr.consistent.reaches hrun) (hr.used.reaches hrun)
  exact ⟨u, t, hrun, hsame, hrun', hsame', hoff⟩

end Pipeline

end DocClassifier
