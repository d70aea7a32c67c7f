import DocClassifier.FailureFree
import DocClassifier.DoneRows
import DocClassifier.Retries

/-!
# Exactly-once processing

In a run without failures every file of the drop zone is listed by one poll, becomes one job of its
batch and ends as one row of the predictions table.
-/

namespace DocClassifier
open ReadCommitted Transition Prog BlobStorage

/-- The execution in progress. -/
def JobState.thread : JobState → Option (Thread ClassifyResult)
  | .running th => some th
  | .queued | .returned | .failed => none

/-- The job has been executed at most once, and nothing has failed. -/
def JobRun.Clean (C : Classifier) (dropZone : Table String RemoteFile (·.filename)) (j : JobRun) :
    Prop :=
  match j.state with
  | .queued => j.past = []
  | .running th => j.past = [] ∧ JobGood C dropZone th.hist ∧ th.Sane
  | .returned => ∃ H, j.past = [H]
  | .failed => False

section
variable {C : Classifier} {dropZone dropZone' : Table String RemoteFile (·.filename)} {H : History}
  {x : Bytes}

theorem Content.mono (h : Content dropZone x)
    (hsub : ∀ file ∈ dropZone.rows, file ∈ dropZone'.rows) :
    Content dropZone' x := by
  obtain ⟨file, hfile, hx⟩ := h
  exact ⟨file, hsub file hfile, hx⟩

theorem IngestGood.mono (h : IngestGood dropZone H)
    (hsub : ∀ file ∈ dropZone.rows, file ∈ dropZone'.rows) : IngestGood dropZone' H :=
  ⟨h.calm, fun f x hx => (h.read f x hx).mono hsub⟩

theorem JobRun.Clean.mono {j : JobRun} (h : j.Clean C dropZone)
    (hsub : ∀ file ∈ dropZone.rows, file ∈ dropZone'.rows) : j.Clean C dropZone' := by
  rw [JobRun.Clean] at h ⊢
  split at h
  · exact h
  · obtain ⟨hpast, hgood, hsane⟩ := h
    exact ⟨hpast, ⟨hgood.calm, fun key x hx => (hgood.read key x hx).mono hsub, hgood.predicted⟩,
      hsane⟩
  · exact h
  · exact h

theorem JobRun.Clean.next {job : Job} {th : Thread ClassifyResult}
    (hgood : JobGood C dropZone th.hist)
    (hsane : th.Sane) (hkeeps : th.Keeps (JobMay job) (JobEnds job)) :
    (JobRun.next [] th).Clean C dropZone := by
  unfold JobRun.next
  split
  · exact ⟨_, rfl⟩
  · obtain ⟨d, hd, htrouble⟩ := hkeeps.2
    exact (hgood.calm d hd htrouble).elim
  · exact ⟨rfl, hgood, hsane⟩

end

theorem Thread.step_dropZone {α : Type} {C : Classifier} {pid : Pid} {w w' : World}
    {th th' : Thread α} {tick : Tick} (h : th.step C pid w tick = some (w', th')) :
    w'.dropZone = w.dropZone := by
  cases step_cases h with
  | @io H i => cases i <;> rfl
  | begin | refused | fail | stmt | lost => rfl

namespace Pipeline

/-- The events of a run without failures: valid files arrive, one process of the watcher polls, and
each job is executed once. No INSERT takes an id that is in use, and the model classifies each file,
with an overlay that is not over the size cap of the objects. -/
def FailureFree (C : Classifier) (s : Pipeline) : Event → Prop
  | .drop dropZone => (∀ file ∈ s.world.dropZone.rows, file ∈ dropZone.rows) ∧
    ∀ file ∈ dropZone.rows, ValidFile file ∧ C.Fits file.content
  | .poll | .start _ => True
  | .ingest i (.ok _) => ∀ c ∈ s.calls[i]?, c.thread.KeyFree s.world.server.db
  | .job n (.ok _) => ∀ th ∈ (s.jobs n).state.thread, th.KeyFree s.world.server.db
  | _ => False

instance (C : Classifier) (s : Pipeline) (e : Event) : Decidable (s.FailureFree C e) :=
  match e with
  | .drop dropZone => inferInstanceAs (Decidable ((∀ file ∈ s.world.dropZone.rows,
      file ∈ dropZone.rows) ∧ ∀ file ∈ dropZone.rows, ValidFile file ∧ C.Fits file.content))
  | .poll | .start _ => .isTrue trivial
  | .ingest i (.ok _) =>
    inferInstanceAs (Decidable (∀ c ∈ s.calls[i]?, c.thread.KeyFree s.world.server.db))
  | .job n (.ok _) =>
    inferInstanceAs (Decidable (∀ th ∈ (s.jobs n).state.thread, th.KeyFree s.world.server.db))
  | .ingest _ (.raise _) | .job _ (.raise _) | .restart | .upload .. | .cancel _ | .kill _
  | .retry _ => .isFalse id

/-- What holds after a run without failures. -/
structure Clean (C : Classifier) (s : Pipeline) : Prop where
  poll : ∀ (i : Nat) (c : IngestCall), s.calls[i]? = some c → c.source = .sftp ∧ c.killed = false
  valid : ∀ file ∈ s.world.dropZone.rows, ValidFile file ∧ C.Fits file.content
  listed : ∀ (i : Nat) (c : IngestCall), s.calls[i]? = some c → ∀ f ∈ c.files,
    ∃ file ∈ s.world.dropZone.rows, file.filename = f
  ingest : ∀ (i : Nat) (c : IngestCall), s.calls[i]? = some c →
    IngestGood s.world.dropZone c.thread.hist
  job : ∀ n, (s.jobs n).Clean C s.world.dropZone
  /-- The files of a poll that has ended are seen. -/
  ended : ∀ (i : Nat) (c : IngestCall), s.calls[i]? = some c → c.polling = false → ∀ f ∈ c.files,
    f ∈ s.world.seen
  /-- No two polls list the same file. -/
  apart : ∀ (i j : Nat) (c c' : IngestCall) (f : String), s.calls[i]? = some c →
    s.calls[j]? = some c' → f ∈ c.files → f ∈ c'.files → i = j

variable {C : Classifier} {s s' : Pipeline} {e : Event}

theorem Clean.start (users : Table String UserORM (·.id)) : (start users .empty).Clean C where
  poll := fun i c hc => by cases hc
  valid := fun file hfile => (List.not_mem_nil hfile).elim
  listed := fun i c hc => by cases hc
  ingest := fun i c hc => by cases hc
  job := fun n => rfl
  ended := fun i c hc => by cases hc
  apart := fun i j c c' f hc => by cases hc

/-- The object of a job holds the bytes of a file. -/
theorem Clean.blob_of_job (H : s.Clean C) (S : s.Sound) {n : Nat} {job : Job}
    (hn : s.world.queue[n]? = some job) :
    ∃ x, s.world.blobs job.blobKey = some x ∧ Content s.world.dropZone x := by
  have hjob := List.mem_of_getElem? hn
  obtain ⟨i, hi⟩ := S.queue.batch job hjob
  obtain ⟨c, hc, hb⟩ := call_of_batchOf hi
  have hmem : job ∈ enqueued (s.record (.ingest i)) := by
    rw [← S.queue.jobs i _ hi]
    exact List.mem_filter.mpr ⟨hjob, by simp⟩
  rw [record_call hc] at hmem
  obtain ⟨id, hid⟩ := mem_enqueued.mp hmem
  obtain ⟨H₁, H₂, hH⟩ := List.append_of_mem hid
  have halong := (S.kept.calls i c hc).along
  obtain ⟨⟨b, f, hm⟩, -⟩ := halong H₁ _ H₂ hH
  obtain ⟨data, hput, hread⟩ := hm.stored
  obtain ⟨hread, -⟩ := hread (H.poll i c hc).1
  have hsub : ∀ d ∈ H₁, d ∈ c.thread.hist := fun d hd => hH ▸ List.mem_append_left _ hd
  rw [(H.poll i c hc).1] at halong
  refine ⟨data, ?_, (H.ingest i c hc).read f data (hsub _ hread)⟩
  rw [hm.blobKey, ← stored_of_mem halong _ _ (hsub _ hput), ← record_call hc]
  exact S.objects.own i b f _ (hm.batchId ▸ hi) (.inl rfl)

theorem pollCall_polling (h : s.newFiles ≠ []) : s.pollCall.polling = true := by
  simp [IngestCall.polling, pollCall, SFTPWatcher.poll, h, Thread.ended, io, Prog.call]

/-- A poll that has ended without a failure has marked its files. -/
theorem marks_of_ended {c : IngestCall} {dropZone : Table String RemoteFile (·.filename)}
    (K : c.Kept) (hsrc : c.source = .sftp) (hk : c.killed = false) (hend : c.thread.ended = true)
    (hgood : IngestGood dropZone c.thread.hist) : ∀ f ∈ c.files, f ∈ marks c.thread.hist := by
  intro f hf
  have halong := K.along
  obtain ⟨r, hr⟩ := (K.keeps hk).ends hend
  cases hb : batchOf c.thread.hist with
  | none =>
    obtain ⟨d, hd, hexit⟩ := hr.early hb
    exact (hgood.calm d hd hexit).elim
  | some b =>
    have hends := hr.ends b hb
    have hjobs := batchId_of_enqueued halong hb
    have hkeys : (enqueued c.thread.hist).map (·.blobKey) = c.files.map (originalKey b) := by
      refine (enqueued_sublist halong hjobs).eq_of_length ?_
      rw [List.length_map, List.length_map]
      exact hends.full.mpr hgood.calm
    have hmem : originalKey b f ∈ (enqueued c.thread.hist).map (·.blobKey) := by
      rw [hkeys]
      exact List.mem_map_of_mem hf
    obtain ⟨job, hjob, hkey⟩ := List.mem_map.mp hmem
    obtain ⟨f', hkey', hmark⟩ := hends.marked hsrc job hjob
    obtain rfl := originalKey_filename (hkey.symm.trans hkey')
    exact mem_marks.mpr ⟨_, hmark⟩

theorem Clean.addCall (H : s.Clean C) {c : IngestCall} (hsrc : c.source = .sftp)
    (hk : c.killed = false) (hh : c.thread.hist = []) (hp : c.polling = true)
    (hidle : s.activePoll = none)
    (hfiles : ∀ f ∈ c.files, f ∉ s.world.seen ∧ ∃ file ∈ s.world.dropZone.rows, file.filename = f) :
    Clean C { s with calls := s.calls ++ [c] } := by
  -- The files of the earlier polls are seen, those of the new one are not.
  have hnew : ∀ (i : Nat) (a : IngestCall) (f : String), s.calls[i]? = some a → f ∈ a.files →
      f ∉ c.files := by
    intro i a f hi hf hf'
    exact (hfiles f hf').1 (H.ended i a hi (activePoll_none hidle hi) f hf)
  refine ⟨fun i a hi => ?_, H.valid, fun i a hi => ?_, fun i a hi => ?_, H.job, fun i a hi ha => ?_,
    fun i j a a' f hi hj hf hf' => ?_⟩
  · rw [getElem?_addCall] at hi
    split at hi
    · cases hi
      exact ⟨hsrc, hk⟩
    · exact H.poll i a hi
  · rw [getElem?_addCall] at hi
    split at hi
    · cases hi
      exact fun f hf => (hfiles f hf).2
    · exact H.listed i a hi
  · rw [getElem?_addCall] at hi
    split at hi
    · cases hi
      rw [hh]
      exact .nil
    · exact H.ingest i a hi
  · rw [getElem?_addCall] at hi
    split at hi
    · cases hi
      rw [hp] at ha
      cases ha
    · exact H.ended i a hi ha
  · rw [getElem?_addCall] at hi hj
    split at hi
    · split at hj
      · omega
      · cases hi
        exact (hnew j a' f hj hf' hf).elim
    · split at hj
      · cases hj
        exact (hnew i a f hi hf hf').elim
      · exact H.apart i j a a' f hi hj hf hf'

theorem Clean.setCall (H : s.Clean C) {world : World} {i : Nat} {c c' : IngestCall}
    (hc : s.calls[i]? = some c) (hsrc : c'.source = c.source) (hk : c'.killed = c.killed)
    (hfiles : c'.files = c.files) (hdrop : world.dropZone = s.world.dropZone)
    (hgood : IngestGood world.dropZone c'.thread.hist)
    (hseen : ∀ f ∈ s.world.seen, f ∈ world.seen)
    (hended : c'.polling = false → ∀ f ∈ c.files, f ∈ world.seen) :
    Clean C { s with world, calls := s.calls.set i c' } := by
  refine ⟨fun j a hj => ?_, hdrop ▸ H.valid, fun j a hj => ?_, fun j a hj => ?_, hdrop ▸ H.job,
    fun j a hj ha f hf => ?_, fun j j' a a' f hj hj' hf hf' => ?_⟩
  · rw [getElem?_setCall hc] at hj
    split at hj
    · cases hj
      exact ⟨hsrc.trans (H.poll i c hc).1, hk.trans (H.poll i c hc).2⟩
    · exact H.poll j a hj
  · rw [getElem?_setCall hc] at hj
    dsimp only
    rw [hdrop]
    split at hj
    · cases hj
      exact hfiles ▸ H.listed i c hc
    · exact H.listed j a hj
  · rw [getElem?_setCall hc] at hj
    split at hj
    · cases hj
      exact hgood
    · exact hdrop ▸ H.ingest j a hj
  · rw [getElem?_setCall hc] at hj
    split at hj
    · cases hj
      exact hended ha f (hfiles ▸ hf)
    · exact hseen f (H.ended j a hj ha f hf)
  · have hold : ∀ (k : Nat) (a : IngestCall), (s.calls.set i c')[k]? = some a → f ∈ a.files →
        ∃ a' : IngestCall, s.calls[k]? = some a' ∧ f ∈ a'.files := by
      intro k a hk hf
      rw [getElem?_setCall hc] at hk
      split at hk
      · rename_i hki
        cases hk
        exact ⟨c, hki ▸ hc, hfiles ▸ hf⟩
      · exact ⟨a, hk, hf⟩
    obtain ⟨b, hb, hfb⟩ := hold j a hj hf
    obtain ⟨b', hb', hfb'⟩ := hold j' a' hj' hf'
    exact H.apart j j' b b' f hb hb' hfb hfb'

theorem Clean.setJob (H : s.Clean C) {world : World} {n : Nat} {j : JobRun}
    (hdrop : world.dropZone = s.world.dropZone) (hseen : world.seen = s.world.seen)
    (hj : j.Clean C s.world.dropZone) : Clean C ({ s with world }.setJob n j) := by
  refine ⟨H.poll, ?_, ?_, ?_, fun m => ?_, ?_, H.apart⟩
  · exact hdrop ▸ H.valid
  · dsimp only [Pipeline.setJob]
    rw [hdrop]
    exact H.listed
  · dsimp only [Pipeline.setJob]
    rw [hdrop]
    exact H.ingest
  · dsimp only [Pipeline.setJob]
    rw [hdrop, Function.update_apply]
    split
    · exact hj
    · exact H.job m
  · dsimp only [Pipeline.setJob]
    rw [hseen]
    exact H.ended

theorem Clean.file (H : s.Clean C) {i : Nat} {c : IngestCall} (hc : s.calls[i]? = some c) :
    ∀ f ∈ c.files, ∃ file, s.world.dropZone.find? f = some file ∧ ValidFile file := by
  intro f hf
  obtain ⟨file, hfile, hname⟩ := H.listed i c hc f hf
  exact ⟨file, Table.find?_eq_some.mpr ⟨hfile, hname⟩, (H.valid file hfile).1⟩

theorem Clean.step (H : s.Clean C) (S : s.Sound) (W : s.Watch) (N : s.NonePresent)
    (h : s.step C e = some s') (he : s.FailureFree C e) : s'.Clean C := by
  have N' := N.step S h
  cases step_cases h with
  | @drop dropZone =>
    obtain ⟨hsub, hvalid⟩ := he
    refine ⟨H.poll, hvalid, fun i c hc f hf => ?_, fun i c hc => (H.ingest i c hc).mono hsub,
      fun n => (H.job n).mono hsub, H.ended, H.apart⟩
    obtain ⟨file, hfile, hname⟩ := H.listed i c hc f hf
    exact ⟨file, hsub file hfile, hname⟩
  | poll hidle hne =>
    refine H.addCall rfl rfl rfl (pollCall_polling hne) hidle fun f hf => ?_
    obtain ⟨hlist, hnot⟩ := List.mem_filter.mp hf
    obtain ⟨file, hfile, hname⟩ := List.mem_map.mp hlist
    exact ⟨by simpa using hnot, file, hfile, hname⟩
  | restartIdle | restart | upload | cancel | kill | retry => exact he.elim
  | @ingest i tick c world thread hc ht =>
    cases tick with
    | raise f => exact he.elim
    | ok g =>
      obtain ⟨hsrc, hk⟩ := H.poll i c hc
      obtain ⟨D, hD, hseen, -⟩ := Thread.step_grows ht
      have hkeeps := (S.kept.calls i c hc).keeps hk
      rw [hsrc] at hkeeps
      have hcall : (s.calls.set i { c with thread })[i]? = some { c with thread } := by
        rw [getElem?_setCall hc, if_pos rfl]
      have hdrop := Thread.step_dropZone ht
      have hgood : IngestGood world.dropZone thread.hist := by
        rw [hdrop]
        refine (H.ingest i c hc).step hkeeps (H.file hc) (fun key hmem => ?_)
          (he c (by simp [hc])) ht
        refine N' i key ?_
        rw [record_call hcall]
        exact hmem
      refine H.setCall hc rfl rfl rfl hdrop hgood (fun f hf => ?_) fun hp f hf => ?_
      · rw [hseen]
        exact List.mem_append_left _ hf
      · -- The poll ends with this step, so all its files have been marked.
        have hend : thread.ended = true := by
          cases hth : thread.ended with
          | true => rfl
          | false =>
            have hpoll := (IngestCall.polling_iff (c := { c with thread }) hth).mpr hsrc
            rw [hp] at hpoll
            cases hpoll
        have hpoll := (IngestCall.polling_iff (Thread.step_running ht)).mpr hsrc
        have hmark := marks_of_ended ((S.kept.calls i c hc).step ht).1 hsrc hk hend hgood f hf
        dsimp only at hmark
        rw [hseen]
        rw [hD, marks_append] at hmark
        rcases List.mem_append.mp hmark with hmark | hmark
        · exact List.mem_append_left _ ((W.active i c hc hpoll f).1 hmark)
        · exact List.mem_append_right _ hmark
  | @start n job hn hs =>
    refine H.setJob rfl rfl ?_
    have hjob := H.job n
    rw [JobRun.Clean, hs] at hjob
    exact ⟨hjob, .nil, trivial⟩
  | @job n tick th th' world hs ht =>
    cases tick with
    | raise f => exact he.elim
    | ok g =>
      have hlt := S.kept.lt (n := n) fun heq => by simp [heq] at hs
      have hn := List.getElem?_eq_getElem hlt
      have hkeeps := ((S.kept.jobs n _ hn).running th hs).1
      have hjob := H.job n
      rw [JobRun.Clean, hs] at hjob
      obtain ⟨hpast, hgood, hsane⟩ := hjob
      have hfit : ∀ x, Content s.world.dropZone x → C.Fits x := by
        rintro x ⟨file, hfile, rfl⟩
        exact (H.valid file hfile).2
      have hfree : th.KeyFree s.world.server.db := he th (by rw [hs]; rfl)
      obtain ⟨hgood', hsane'⟩ :=
        hgood.step hkeeps hsane (S.batch_of_job hn) (H.blob_of_job S hn) hfit hfree ht
      refine H.setJob (Thread.step_dropZone ht) (S.kept.job_step hs ht).1 ?_
      rw [hpast]
      exact .next hgood' hsane' (hkeeps.step ht)

end Pipeline

/-! ## From the files to the rows -/

namespace Pipeline

variable {C : Classifier} {s s' : Pipeline} {e : Event} {i : Nat} {c : IngestCall} {b f : String}

/-- Up to its order, the queue holds the jobs that the calls have enqueued. -/
def Queued (s : Pipeline) : Prop :=
  s.world.queue.Perm (s.calls.flatMap fun c => enqueued c.thread.hist)

theorem Queued.addCall (H : s.Queued) {c : IngestCall} (hh : c.thread.hist = []) :
    Queued { s with calls := s.calls ++ [c] } := by
  rw [Queued, List.flatMap_append, List.flatMap_singleton, hh, enqueued_nil, List.append_nil]
  exact H

theorem Queued.setCall (H : s.Queued) {world : World} {i : Nat} {c c' : IngestCall} {D : History}
    (hc : s.calls[i]? = some c) (hD : c'.thread.hist = c.thread.hist ++ D)
    (hq : world.queue = s.world.queue ++ enqueued D) :
    Queued { s with world, calls := s.calls.set i c' } := by
  have hadd : enqueued c'.thread.hist = enqueued c.thread.hist ++ enqueued D := by
    rw [hD, enqueued_append]
  rw [Queued, hq]
  exact (H.append_right _).trans
    (flatMap_set_perm (f := fun c => enqueued c.thread.hist) hc hadd).symm

theorem Queued.step (H : s.Queued) (K : s.Kept) (h : s.step C e = some s') : s'.Queued := by
  have hkill : ∀ {i : Nat} {c : IngestCall}, s.calls[i]? = some c → (s.killCall i c).Queued :=
    fun hc => H.setCall (D := []) hc (List.append_nil _).symm (List.append_nil _).symm
  cases step_cases h with
  | drop | restartIdle | start | kill | retry => exact H
  | poll | upload => exact H.addCall rfl
  | restart _ hc | cancel hc => exact hkill hc
  | ingest hc ht =>
    obtain ⟨D, hD, -, hqueue⟩ := Thread.step_grows ht
    exact H.setCall hc hD hqueue
  | job hs ht =>
    obtain ⟨-, hqueue⟩ := K.job_step hs ht
    rw [Queued, setJob]
    dsimp only
    rw [hqueue]
    exact H

/-- The id of the batch of the poll that first listed the file. -/
def listedIn (s : Pipeline) (f : String) : Option String :=
  (s.calls.find? (f ∈ ·.files)).bind fun c => batchOf c.thread.hist

/-- No file is unseen, and no job is queued or running. -/
def Idle (s : Pipeline) : Prop :=
  s.newFiles = [] ∧ ∀ n < s.world.queue.length,
    (s.jobs n).state = .returned ∨ (s.jobs n).state = .failed

theorem Clean.listedIn_eq (H : s.Clean C) (hc : s.calls[i]? = some c) (hf : f ∈ c.files) :
    s.listedIn f = batchOf c.thread.hist := by
  have hsome : (s.calls.find? (f ∈ ·.files)).isSome :=
    List.find?_isSome.mpr ⟨c, List.mem_of_getElem? hc, by simpa using hf⟩
  obtain ⟨a, ha⟩ := Option.isSome_iff_exists.mp hsome
  obtain ⟨j, hj⟩ := List.mem_iff_getElem?.mp (List.mem_of_find?_eq_some ha)
  have hfa : f ∈ a.files := by simpa using List.find?_some ha
  obtain rfl := H.apart i j c a f hc hj hf hfa
  cases hc.symm.trans hj
  rw [listedIn, ha]
  rfl

/-- When no file is unseen, each file of the drop zone has been marked by a poll that listed it. -/
theorem Watch.marked (W : s.Watch) (K : s.Kept) (hnew : s.newFiles = []) {file : RemoteFile}
    (hfile : file ∈ s.world.dropZone.rows) : ∃ (i : Nat) (c : IngestCall), s.calls[i]? = some c ∧
      file.filename ∈ c.files ∧ file.filename ∈ marks c.thread.hist := by
  have hseen : file.filename ∈ s.world.seen := by
    have hall := List.filter_eq_nil_iff.mp hnew file.filename (List.mem_map_of_mem hfile)
    simpa using hall
  obtain ⟨i, c, hc, hmark⟩ := W.seen _ hseen
  obtain ⟨-, hmem, -⟩ := accounted_of_mark (K.calls i c hc).along hmark
  exact ⟨i, c, hc, hmem, hmark⟩

/-- When no file is unseen, each poll has created its batch and enqueued the jobs of its files. -/
theorem Clean.enqueued_keys (H : s.Clean C) (S : s.Sound) (W : s.Watch) (hnew : s.newFiles = [])
    (hc : s.calls[i]? = some c) : ∃ b, batchOf c.thread.hist = some b ∧
      (enqueued c.thread.hist).map (·.blobKey) = c.files.map (originalKey b) := by
  have hkept := S.kept.calls i c hc
  have hsrc := (H.poll i c hc).1
  have hmarks : ∀ f ∈ c.files, f ∈ marks c.thread.hist := by
    intro f hf
    obtain ⟨file, hfile, rfl⟩ := H.listed i c hc f hf
    obtain ⟨j, a, hj, hfa, hmark⟩ := W.marked S.kept hnew hfile
    obtain rfl := H.apart i j c a _ hc hj hf hfa
    cases hc.symm.trans hj
    exact hmark
  obtain ⟨f₀, hf₀⟩ := List.exists_mem_of_ne_nil _ hkept.files
  obtain ⟨-, -, b, hb, -⟩ := accounted_of_mark hkept.along (hmarks f₀ hf₀)
  refine ⟨b, hb, (S.keys_sublist hc hb).eq_of_length_le ?_⟩
  have hsub : c.files.map (originalKey b) ⊆ (enqueued c.thread.hist).map (·.blobKey) := by
    intro key hkey
    obtain ⟨f, hf, rfl⟩ := List.mem_map.mp hkey
    obtain ⟨-, -, b', hb', hacc⟩ := accounted_of_mark hkept.along (hmarks f hf)
    cases hb.symm.trans hb'
    -- Of the ways to account for a file, the others are exits.
    have hcalm := (H.ingest i c hc).calm
    cases hacc with
    | present hp => exact (hcalm _ hp .present).elim
    | quarantined hread hrej => exact (hcalm _ hread (.rejected hrej)).elim
    | @queued data job r _ _ _ _ hkey henq =>
      cases r with
      | error e => exact (hcalm _ henq (.io nofun)).elim
      | ok id => exact List.mem_map.mpr ⟨job, mem_enqueued.mpr ⟨id, henq⟩, hkey⟩
  have hnodup : (c.files.map (originalKey b)).Nodup :=
    (hkept.nodup hsrc).map fun f f' => originalKey_filename
  exact List.Nodup.length_le_of_subset hnodup hsub

/-- A job that has returned has saved its row. -/
theorem Clean.saves_eq (H : s.Clean C) (S : s.Sound) {n : Nat} {job : Job}
    (hn : s.world.queue[n]? = some job) (hret : (s.jobs n).state = .returned) :
    ∃ p, saves (s.record (.job n)) = [p] ∧ RowOf job p := by
  have hkept := S.kept.jobs n job hn
  have hjob := H.job n
  rw [JobRun.Clean, hret] at hjob
  obtain ⟨h, hpast⟩ := hjob
  have hrec : s.record (.job n) = h := by
    simp [record, JobRun.record, JobRun.hist, hpast, hret]
  obtain ⟨h', hh', _, _, data, cm, -, -, -, htxs⟩ := hkept.returned hret
  obtain rfl : h' = h := by simpa [hpast] using hh'
  have hsave : (⟨.tx (.savePrediction job.batchId data), .ok cm⟩ : Done Op.Answer Exn) ∈ h' :=
    mem_txs.mp (by rw [htxs]; simp)
  have hmem : cm.result ∈ saves h' := mem_saves.mpr ⟨_, _, _, hsave, rfl⟩
  have hle := saves_length_le (hkept.past h' hh')
  have hone : saves h' = [cm.result] := by
    obtain ⟨p, hp⟩ := List.length_eq_one_iff.mp (le_antisymm hle (List.length_pos_of_mem hmem))
    rw [hp] at hmem ⊢
    rw [List.mem_singleton.mp hmem]
  refine ⟨cm.result, hrec ▸ hone, S.saved.row n job hn _ ?_⟩
  rw [hrec]
  exact hmem

/-- What a file and what a row tell: the name and the batch. -/
theorem Clean.files_perm (H : s.Clean C) (W : s.Watch) (K : s.Kept) (hnew : s.newFiles = []) :
    (s.calls.flatMap (·.files)).Perm (s.world.dropZone.rows.map (·.filename)) := by
  refine (List.perm_ext_iff_of_nodup ?_ s.world.dropZone.nodup).mpr fun f => ?_
  · refine List.nodup_flatMap.mpr ⟨fun c hc => ?_, List.pairwise_iff_getElem.mpr ?_⟩
    · obtain ⟨i, hi⟩ := List.mem_iff_getElem?.mp hc
      exact (K.calls i c hi).nodup (H.poll i c hi).1
    · intro i j hi hj hlt f hf hf'
      have heq := H.apart i j _ _ f (List.getElem?_eq_getElem hi)
        (List.getElem?_eq_getElem hj) hf hf'
      omega
  · rw [List.mem_flatMap, List.mem_map]
    constructor
    · rintro ⟨c, hc, hf⟩
      obtain ⟨i, hi⟩ := List.mem_iff_getElem?.mp hc
      exact H.listed i c hi f hf
    · rintro ⟨file, hfile, rfl⟩
      obtain ⟨i, c, hc, hf, -⟩ := W.marked K hnew hfile
      exact ⟨c, List.mem_of_getElem? hc, hf⟩

theorem Clean.jobs_perm (H : s.Clean C) (S : s.Sound) (W : s.Watch) (Q : s.Queued)
    (hnew : s.newFiles = []) :
    (s.world.queue.map fun job => (rsplitLast job.blobKey, some job.batchId)).Perm
      (s.world.dropZone.rows.map fun file => (file.filename, s.listedIn file.filename)) := by
  have hcall : ∀ c ∈ s.calls,
      (enqueued c.thread.hist).map (fun job => (rsplitLast job.blobKey, some job.batchId)) =
        c.files.map fun f => (f, s.listedIn f) := by
    intro c hc
    obtain ⟨i, hi⟩ := List.mem_iff_getElem?.mp hc
    obtain ⟨b, hb, hkeys⟩ := H.enqueued_keys S W hnew hi
    calc (enqueued c.thread.hist).map (fun job => (rsplitLast job.blobKey, some job.batchId))
        = ((enqueued c.thread.hist).map (·.blobKey)).map fun key => (rsplitLast key, some b) := by
          rw [List.map_map]
          refine List.map_congr_left fun job hjob => ?_
          have hb' := enqueued_batchOf (S.kept.calls i c hi).along job hjob
          rw [← hb', hb]
          rfl
      _ = c.files.map fun f => (f, s.listedIn f) := by
          rw [hkeys, List.map_map]
          refine List.map_congr_left fun f hf => ?_
          obtain ⟨file, hfile, rfl⟩ := H.listed i c hi f hf
          rw [H.listedIn_eq hi hf, hb, Function.comp_apply,
            rsplitLast_originalKey (H.valid file hfile).1.2.2.1]
  have hjobs : (s.world.queue.map fun job => (rsplitLast job.blobKey, some job.batchId)).Perm
      ((s.calls.flatMap (·.files)).map fun f => (f, s.listedIn f)) := by
    refine (Q.map _).trans (.of_eq ?_)
    rw [List.map_flatMap, List.map_flatMap]
    exact List.flatMap_congr hcall
  refine hjobs.trans (((H.files_perm W S.kept hnew).map _).trans (.of_eq ?_))
  exact List.map_map

theorem Idle.returned (h : s.Idle) (H : s.Clean C) {n : Nat} (hn : n < s.world.queue.length) :
    (s.jobs n).state = .returned := by
  rcases h.2 n hn with hret | hfail
  · exact hret
  · have hjob := H.job n
    rw [JobRun.Clean, hfail] at hjob
    exact hjob.elim

theorem Clean.rows_perm (H : s.Clean C) (S : s.Sound) (hidle : s.Idle) :
    (s.world.server.db.predictions.rows.map fun p => (p.filename, some p.batchId)).Perm
      (s.world.queue.map fun job => (rsplitLast job.blobKey, some job.batchId)) := by
  refine (S.saved.perm.map _).trans (.of_eq ?_)
  rw [List.map_flatMap]
  refine flatMap_range_eq_map fun n job hn => ?_
  obtain ⟨p, hp, hrow⟩ :=
    H.saves_eq S hn (hidle.returned H (List.getElem?_eq_some_iff.mp hn).1)
  rw [hp, List.map_singleton, hrow.filename, hrow.batchId]

theorem Clean.done (H : s.Clean C) (S : s.Sound) (W : s.Watch) (T : s.Statuses) (hidle : s.Idle)
    {row : Batch} (hrow : row ∈ s.world.server.db.batches.rows) : row.status = .done := by
  have hfind := Table.find?_eq_some.mpr ⟨hrow, rfl⟩
  obtain ⟨i, c, hc, hb, -⟩ := S.call_of_row hfind
  obtain ⟨b, hb', hkeys⟩ := H.enqueued_keys S W hidle.1 hc
  cases hb.symm.trans hb'
  have hpos : 0 < s.jobsOf row.id := by
    have hlen := congrArg List.length hkeys
    rw [List.length_map, List.length_map] at hlen
    rw [S.jobsOf_eq hc hb, hlen]
    exact List.length_pos_iff.mpr (S.kept.calls i c hc).files
  have hdone := T.done S hpos fun n job hn _ =>
    hidle.returned H (List.getElem?_eq_some_iff.mp hn).1
  simpa [Tables.statusOf, hfind] using hdone

/-- In a run without failures, once no file is unseen and no job is queued or running, the
predictions are one for each file of the drop zone, with its name and the batch of the poll that
listed it, and every batch is `done`. -/
theorem exactly_once {users : Table String UserORM (·.id)} {es : List Event}
    (h : Run (Meeting (FailureFree C) (Steps (Pipeline.step C))) (start users .empty) es s)
    (hidle : s.Idle) :
    (s.world.server.db.predictions.rows.map fun p => (p.filename, some p.batchId)).Perm
      (s.world.dropZone.rows.map fun file => (file.filename, s.listedIn file.filename)) ∧
    ∀ row ∈ s.world.server.db.batches.rows, row.status = .done := by
  have hinv : s.Sound ∧ s.Watch ∧ s.NonePresent ∧ s.Statuses ∧ s.Queued ∧ s.Clean C := by
    refine h.inv (I := fun s => s.Sound ∧ s.Watch ∧ s.NonePresent ∧ s.Statuses ∧ s.Queued ∧
      s.Clean C) ?_ ⟨.start users .empty, .start users .empty, .start users .empty,
        .start users .empty, .refl _, .start users⟩
    rintro s e t ⟨S, W, N, T, Q, H⟩ ⟨hstep, he⟩
    exact ⟨S.step hstep, W.step S.kept hstep, N.step S hstep, T.step S hstep, Q.step S.kept hstep,
      H.step S W N hstep he⟩
  obtain ⟨S, W, -, T, Q, H⟩ := hinv
  exact ⟨(H.rows_perm S hidle).trans (H.jobs_perm S W Q hidle.1), fun row => H.done S W T hidle⟩

set_option maxRecDepth 100000 in
/-- Two files of one poll, whose jobs overlap. -/
theorem exactly_once_twoScans : ∃ es s,
    Run (Meeting (FailureFree letters) (Steps (Pipeline.step letters))) (start .empty .empty) es s ∧
    s.Idle ∧ s.world.dropZone.rows = twoScans.rows ∧
    (s.world.server.db.predictions.rows.map fun p => (p.filename, some p.batchId)).Perm
      (s.world.dropZone.rows.map fun file => (file.filename, s.listedIn file.filename)) ∧
    ∀ row ∈ s.world.server.db.batches.rows, row.status = .done := by
  have h : (exec (fun s e => if s.FailureFree letters e then Pipeline.step letters s e else none)
      (start .empty .empty) (.drop twoScans :: .poll :: .replicate 19 (.ingest 0 (ok "b")) ++
        .start 0 :: .start 1 :: .replicate 19 (.job 0 (ok "p")) ++
        .replicate 16 (.job 1 (ok "q")) ++
        .replicate 8 (.job 0 (ok "p")) ++ .replicate 3 (.job 1 (ok "q")))).map
        (fun s => (s.newFiles, s.world.queue.length, (s.jobs 0).state.status,
          (s.jobs 1).state.status, s.world.dropZone.rows)) =
      some ([], 2, .finished, .finished, twoScans.rows) := by decide
  obtain ⟨s, hs, h⟩ := Option.map_eq_some_iff.mp h
  simp only [Prod.mk.injEq] at h
  obtain ⟨hnew, hlen, hfirst, hsecond, hzone⟩ := h
  have hidle : s.Idle := by
    refine ⟨hnew, fun n hn => .inl ?_⟩
    obtain rfl | rfl : n = 0 ∨ n = 1 := by omega
    · exact JobState.eq_of_status hfirst (by decide)
    · exact JobState.eq_of_status hsecond (by decide)
  have hrun := run_of_exec hs
  exact ⟨_, s, hrun, hidle, hzone, exactly_once hrun hidle⟩

/-! ## Files whose job fails -/

/-- An operation of a job that leaves the world as it is. -/
theorem exec_job_io {n : Nat} {past : List History} {H : History} {i : Io}
    {k : Except Exn i.Answer → Proc ClassifyResult} {g : Gen} {a : Except Exn i.Answer}
    {es : List Event} (ha : perform C s.world g i = (a, s.world)) :
    exec (Pipeline.step C) (s.setJob n ⟨past, .running (.run H (.op (.io i) k))⟩)
        (.job n (.ok g) :: es) =
      exec (Pipeline.step C) (s.setJob n (.next past (.run (H ++ [⟨.io i, a⟩]) (k a)))) es := by
  have hstep : (s.setJob n ⟨past, .running (.run H (.op (.io i) k))⟩).step C (.job n (.ok g)) =
      some (s.setJob n (.next past (.run (H ++ [⟨.io i, a⟩]) (k a)))) := by
    simp only [Pipeline.step, setJob, Function.update_self, Thread.step, ha, Option.map_some,
      Function.update_idem]
  rw [exec, hstep, Option.bind_some]

/-- A job whose overlay is larger than an object may be fails, and leaves the world as it was. -/
theorem classify_large {n : Nat} {job : Job} {x overlayBytes : Bytes} {label : String}
    {confidence : Rat} {g : Gen} (hn : s.world.queue[n]? = some job)
    (hs : (s.jobs n).state = .queued) (hx : s.world.blobs job.blobKey = some x)
    (hpredict : C.predict x = some (label, confidence))
    (hdraw : C.drawOverlay x label confidence = some overlayBytes)
    (hlarge : overlayBytes.length > MAX_FILE_BYTES) :
    ∃ past, exec (Pipeline.step C) s (.start n :: .replicate 5 (.job n (.ok g))) =
      some (s.setJob n ⟨past, .failed⟩) := by
  have hstart : s.step C (.start n) =
      some (s.setJob n ⟨(s.jobs n).past, .running (.run [] (classify job))⟩) := by
    simp only [Pipeline.step, hn, hs]
  have hget : perform C s.world g (.getObject job.blobKey) = (.ok x, s.world) := by
    simp [perform, hx]
  have hclass : perform C s.world g (.predict x) = (.ok (label, confidence), s.world) := by
    simp [perform, hpredict]
  have hdrawn : perform C s.world g (.drawOverlay x label confidence) =
      (.ok overlayBytes, s.world) := by
    simp [perform, hdraw]
  have hfail : ∀ (past : List History) (H : History) (f : String → Proc ClassifyResult),
      exec (Pipeline.step C) (s.setJob n (.next past (.run H
        (upload (overlayKey job.batchId (rsplitLast job.blobKey)) overlayBytes >>= f)))) [] =
      some (s.setJob n ⟨past ++ [H], .failed⟩) := by
    intro past H f
    rw [upload, if_pos hlarge]
    rfl
  rw [exec, hstart, Option.bind_some]
  exact ⟨_, (exec_job_io rfl).trans ((exec_job_io rfl).trans ((exec_job_io hget).trans
    ((exec_job_io hclass).trans ((exec_job_io hdrawn).trans (hfail _ _ _)))))⟩

/-- Nothing is left to do, and the file of `oneScan` has no row. -/
def Unfinished (s : Pipeline) : Prop :=
  s.Idle ∧ s.world.dropZone.rows = oneScan.rows ∧ s.world.server.db.predictions.rows = []

theorem unfinished_of_failed (hnew : s.newFiles = []) (hlen : s.world.queue.length = 1)
    (hfail : (s.jobs 0).state = .failed) (hzone : s.world.dropZone.rows = oneScan.rows)
    (hrows : s.world.server.db.predictions.rows = []) : s.Unfinished := by
  refine ⟨⟨hnew, fun n hn => .inr ?_⟩, hzone, hrows⟩
  obtain rfl : n = 0 := by omega
  exact hfail

set_option maxRecDepth 100000 in
/-- Every operation answers, but the overlay is larger than an object may be. -/
theorem unfinished_of_overlay {overlayBytes : Bytes} {label : String} {confidence : Rat}
    (hpredict : C.predict [73] = some (label, confidence))
    (hdraw : C.drawOverlay [73] label confidence = some overlayBytes)
    (hlarge : overlayBytes.length > MAX_FILE_BYTES) : ∃ s,
    Run (Steps (Pipeline.step C)) (start .empty .empty) (.drop oneScan :: .poll ::
      .replicate 13 (.ingest 0 (ok "b")) ++ .start 0 :: .replicate 5 (.job 0 (ok "p"))) s ∧
    s.Unfinished := by
  have hpoll : (exec (Pipeline.step C) (start .empty .empty)
      (.drop oneScan :: .poll :: .replicate 13 (.ingest 0 (ok "b")))).map
        (fun s => (s.newFiles, s.world.queue, (s.jobs 0).state.status,
          s.world.blobs "batches/b/original/a.tif", s.world.dropZone.rows,
          s.world.server.db.predictions.rows)) =
      some ([], [⟨"b", "batches/b/original/a.tif", "b"⟩],
        .queued, some [73], oneScan.rows, []) := rfl
  obtain ⟨s, hs, hpoll⟩ := Option.map_eq_some_iff.mp hpoll
  simp only [Prod.mk.injEq] at hpoll
  obtain ⟨hnew, hqueue, hq, hblob, hzone, hrows⟩ := hpoll
  have hqueued : (s.jobs 0).state = .queued := JobState.eq_of_status hq (by decide)
  obtain ⟨past, hjob⟩ := classify_large (n := 0) (g := ⟨"p", 0, by decide⟩)
    (by rw [hqueue]; rfl) hqueued hblob hpredict hdraw hlarge
  refine ⟨_, (exec_eq_some.mp hs).append (exec_eq_some.mp hjob), ?_⟩
  exact unfinished_of_failed hnew (congrArg List.length hqueue)
    (congrArg JobRun.state (Function.update_self 0 _ s.jobs)) hzone hrows

/-- A classifier whose overlays are larger than an object may be. -/
def hugeOverlays : Classifier :=
  ⟨fun _ => some ("letter", 1), fun _ _ _ => some (.replicate (MAX_FILE_BYTES + 1) 0)⟩

/-- A classifier that can read no image. -/
def unreadable : Classifier := ⟨fun _ => none, fun _ _ _ => none⟩

set_option maxRecDepth 100000 in
/-- A valid file is left without a row, although every operation is served, when its overlay is
larger than an object may be, and when the model cannot read it. -/
theorem valid_file_without_row : (∀ file ∈ oneScan.rows, ValidFile file) ∧
    (∃ s, Run (Steps (Pipeline.step hugeOverlays)) (start .empty .empty) (.drop oneScan :: .poll ::
      .replicate 13 (.ingest 0 (ok "b")) ++ .start 0 :: .replicate 5 (.job 0 (ok "p"))) s ∧
      s.Unfinished) ∧
    ∃ s, Run (Steps (Pipeline.step unreadable)) (start .empty .empty) (.drop oneScan ::
      ingestOne ++ .replicate 4 (.job 0 (ok "p"))) s ∧ s.Unfinished := by
  refine ⟨by decide, ?_, ?_⟩
  · exact unfinished_of_overlay (C := hugeOverlays) rfl rfl (by simp)
  · have h : (exec (Pipeline.step unreadable) (start .empty .empty) (.drop oneScan :: ingestOne ++
        .replicate 4 (.job 0 (ok "p")))).map
        (fun s => (s.newFiles, s.world.queue.length, (s.jobs 0).state.status,
          s.world.dropZone.rows, s.world.server.db.predictions.rows)) =
        some ([], 1, .failed, oneScan.rows, []) := rfl
    obtain ⟨s, hs, h⟩ := Option.map_eq_some_iff.mp h
    simp only [Prod.mk.injEq] at h
    obtain ⟨hnew, hlen, hfail, hzone, hrows⟩ := h
    have hfailed : (s.jobs 0).state = .failed := JobState.eq_of_status hfail (by decide)
    exact ⟨s, exec_eq_some.mp hs, unfinished_of_failed hnew hlen hfailed hzone hrows⟩

end Pipeline

end DocClassifier
