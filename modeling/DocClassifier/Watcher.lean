import DocClassifier.Conservation

/-!
# The seen files

`SFTPWatcher._seen` holds the files that the polls of the current process have marked. A poll in
progress works on files that were not seen when it began, and no other poll is in progress
(`Watch`).
-/

namespace DocClassifier
open ReadCommitted Transition BlobStorage Prog

/-- The files that a history has marked as seen. -/
def marks (H : History) : List String :=
  H.filterMap fun
    | ⟨.io (.addSeen f), _⟩ => some f
    | _ => none

section
variable {H D : History} {f : String}

@[simp] theorem marks_append : marks (H ++ D) = marks H ++ marks D := List.filterMap_append

theorem mem_marks : f ∈ marks H ↔ ∃ r, ⟨.io (.addSeen f), r⟩ ∈ H := by
  simp only [marks, List.mem_filterMap]
  constructor
  · rintro ⟨⟨o, r⟩, hd, h⟩
    split at h
    · rename_i heq
      cases h
      cases heq
      exact ⟨_, hd⟩
    · cases h
  · rintro ⟨r, hd⟩
    exact ⟨_, hd, rfl⟩

end

theorem marks_single {d : Done Op.Answer Exn} (h : ∀ f r, d ≠ ⟨.io (.addSeen f), r⟩) :
    marks [d] = [] := by
  refine List.eq_nil_iff_forall_not_mem.mpr fun f hf => ?_
  obtain ⟨r, hr⟩ := mem_marks.mp hf
  exact h f r (List.mem_singleton.mp hr).symm

/-- A step marks in `_seen` and enqueues what it adds to the history. -/
theorem Thread.step_grows {α : Type} {C : Classifier} {pid : Pid} {w w' : World}
    {th th' : Thread α} {tick : Tick} (h : th.step C pid w tick = some (w', th')) :
    ∃ D, th'.hist = th.hist ++ D ∧ w'.seen = w.seen ++ marks D ∧
      w'.queue = w.queue ++ enqueued D := by
  have hnil : ∀ {H : History}, H = H ++ [] ∧ w.seen = w.seen ++ marks [] ∧
      w.queue = w.queue ++ enqueued [] :=
    fun {H} => ⟨(List.append_nil H).symm, (List.append_nil _).symm, (List.append_nil _).symm⟩
  cases step_cases h with
  | begin => exact ⟨[], hnil⟩
  | refused | lost => exact ⟨_, rfl, (List.append_nil _).symm, (List.append_nil _).symm⟩
  | @io H i k g =>
    refine ⟨_, rfl, ?_⟩
    cases i with
    | addSeen f => exact ⟨rfl, (List.append_nil _).symm⟩
    | enqueue job => exact ⟨(List.append_nil _).symm, rfl⟩
    | _ =>
      refine ⟨(List.append_nil _).symm, ?_⟩
      rw [enqueued_single (by rintro _ _ ⟨⟩), List.append_nil]
      rfl
  | @fail H i k f hf =>
    refine ⟨_, rfl, ?_, ?_⟩
    · rw [marks_single, List.append_nil]
      rintro f' r ⟨⟩
      cases hf
    · cases i <;> exact (List.append_nil _).symm
  | @stmt H s t k server r hs =>
    cases r with
    | running => exact ⟨[], hnil⟩
    | committed | aborted =>
      exact ⟨_, rfl, (List.append_nil _).symm, (List.append_nil _).symm⟩

/-- Only polls mark files. -/
theorem marks_http {files : List String} {H : History}
    (h : Along (contract (IngestMay .http files)) H) : marks H = [] := by
  refine List.eq_nil_iff_forall_not_mem.mpr fun f hf => ?_
  obtain ⟨r, hr⟩ := mem_marks.mp hf
  obtain ⟨H₁, H₂, rfl⟩ := List.append_of_mem hr
  obtain ⟨⟨hsrc, -⟩, -⟩ := h H₁ _ H₂ rfl
  cases hsrc

theorem marks_job {job : Job} {H : History} (h : Along (contract (JobMay job)) H) :
    marks H = [] := by
  refine List.eq_nil_iff_forall_not_mem.mpr fun f hf => ?_
  obtain ⟨r, hr⟩ := mem_marks.mp hf
  obtain ⟨H₁, H₂, rfl⟩ := List.append_of_mem hr
  exact (h H₁ _ H₂ rfl).1.elim

theorem enqueued_job {job : Job} {H : History} (h : Along (contract (JobMay job)) H) :
    enqueued H = [] := by
  refine List.eq_nil_iff_forall_not_mem.mpr fun job' hjob => ?_
  obtain ⟨id, hid⟩ := mem_enqueued.mp hjob
  obtain ⟨H₁, H₂, rfl⟩ := List.append_of_mem hid
  exact (h H₁ _ H₂ rfl).1.elim

namespace Pipeline

variable {C : Classifier} {s s' : Pipeline} {e : Event}

/-- A job marks no file and enqueues nothing. -/
theorem Kept.job_step (K : s.Kept) {n : Nat} {tick : Tick} {th th' : Thread ClassifyResult}
    {world : World} (hs : (s.jobs n).state = .running th)
    (ht : th.step C (.job n) s.world tick = some (world, th')) :
    world.seen = s.world.seen ∧ world.queue = s.world.queue := by
  obtain ⟨D, hD, hseen, hqueue⟩ := Thread.step_grows ht
  have hlt := K.lt (n := n) fun heq => by simp [heq] at hs
  have hjob := K.jobs n _ (List.getElem?_eq_getElem hlt)
  have halong := ((hjob.running th hs).1.step ht).along
  have hmarks := marks_job halong
  have henq := enqueued_job halong
  rw [hD, marks_append] at hmarks
  rw [hD, enqueued_append] at henq
  rw [(List.append_eq_nil_iff.mp hmarks).2, List.append_nil] at hseen
  rw [(List.append_eq_nil_iff.mp henq).2, List.append_nil] at hqueue
  exact ⟨hseen, hqueue⟩

structure Watch (s : Pipeline) : Prop where
  /-- At most one poll is in progress. -/
  one : ∀ (i j : Nat) (c c' : IngestCall), s.calls[i]? = some c → s.calls[j]? = some c' →
    c.polling = true → c'.polling = true → i = j
  /-- Each seen file has been marked by a call. -/
  seen : ∀ f ∈ s.world.seen, ∃ (i : Nat) (c : IngestCall), s.calls[i]? = some c ∧
    f ∈ marks c.thread.hist
  /-- The files of the poll in progress that are seen are those it has marked itself. -/
  active : ∀ (i : Nat) (c : IngestCall), s.calls[i]? = some c → c.polling = true → ∀ f,
    (f ∈ marks c.thread.hist → f ∈ s.world.seen) ∧
      (f ∈ c.files → f ∈ s.world.seen → f ∈ marks c.thread.hist)

theorem Watch.start (users : Table String UserORM (·.id))
    (dropZone : Table String RemoteFile (·.filename)) : (start users dropZone).Watch := by
  refine ⟨fun i j c c' hc => ?_, fun f hf => (List.not_mem_nil hf).elim, fun i c hc => ?_⟩
  · cases hc
  · cases hc

theorem activePoll_none (h : s.activePoll = none) {i : Nat} {c : IngestCall}
    (hc : s.calls[i]? = some c) : c.polling = false := by
  have hall := List.findIdx?_eq_none_iff.mp h c (List.mem_of_getElem? hc)
  simpa using hall

theorem polling_activePoll {i : Nat} {c : IngestCall} (h : s.activePoll = some i)
    (hc : s.calls[i]? = some c) : c.polling = true := by
  obtain ⟨hlt, hp, -⟩ := List.findIdx?_eq_some_iff_getElem.mp h
  rw [List.getElem?_eq_getElem hlt] at hc
  cases hc
  exact hp

/-- A call is added that is no poll, or a poll of files that are not seen. -/
theorem Watch.addCall (H : s.Watch) {c : IngestCall} (hh : c.thread.hist = [])
    (h : c.polling = true → s.activePoll = none ∧ ∀ f ∈ c.files, f ∉ s.world.seen) :
    Watch { s with calls := s.calls ++ [c] } := by
  refine ⟨fun i j a b hi hj ha hb => ?_, fun f hf => ?_, fun i a hi ha f => ?_⟩
  · rw [getElem?_addCall] at hi hj
    split at hi
    · split at hj
      · omega
      · cases hi
        rw [activePoll_none (h ha).1 hj] at hb
        cases hb
    · split at hj
      · cases hj
        rw [activePoll_none (h hb).1 hi] at ha
        cases ha
      · exact H.one i j a b hi hj ha hb
  · obtain ⟨i, a, hi, hf⟩ := H.seen f hf
    refine ⟨i, a, ?_, hf⟩
    rw [getElem?_addCall, if_neg, hi]
    have hlt := (List.getElem?_eq_some_iff.mp hi).1
    omega
  · rw [getElem?_addCall] at hi
    split at hi
    · cases hi
      rw [hh]
      exact ⟨nofun, fun hf hs => ((h ha).2 f hf hs).elim⟩
    · exact H.active i a hi ha f

/-- A call whose history grows by `D` marks in `_seen` what `D` marks. -/
theorem Watch.setCall (H : s.Watch) {world : World} {i : Nat} {c c' : IngestCall} {D : History}
    (hc : s.calls[i]? = some c) (hD : c'.thread.hist = c.thread.hist ++ D)
    (hseen : world.seen = s.world.seen ++ marks D) (hfiles : c'.files = c.files)
    (hp : c'.polling = true → c.polling = true) (hm : c.polling = false → marks D = []) :
    Watch { s with world, calls := s.calls.set i c' } := by
  refine ⟨fun j k a b hj hk ha hb => ?_, fun f hf => ?_, fun j a hj ha f => ?_⟩
  · rw [getElem?_setCall hc] at hj hk
    split at hj
    · split at hk
      · omega
      · cases hj
        subst j
        exact H.one i k c b hc hk (hp ha) hb
    · split at hk
      · cases hk
        subst k
        exact H.one j i a c hj hc ha (hp hb)
      · exact H.one j k a b hj hk ha hb
  · have hown : f ∈ marks c'.thread.hist → ∃ (j : Nat) (a : IngestCall),
        (s.calls.set i c')[j]? = some a ∧ f ∈ marks a.thread.hist :=
      fun hf => ⟨i, c', by rw [getElem?_setCall hc, if_pos rfl], hf⟩
    dsimp only at hf
    rw [hseen] at hf
    rcases List.mem_append.mp hf with hf | hf
    · obtain ⟨j, a, hj, hf⟩ := H.seen f hf
      by_cases hji : j = i
      · subst j
        cases hc.symm.trans hj
        refine hown ?_
        rw [hD, marks_append]
        exact List.mem_append_left _ hf
      · exact ⟨j, a, by rw [getElem?_setCall hc, if_neg hji, hj], hf⟩
    · refine hown ?_
      rw [hD, marks_append]
      exact List.mem_append_right _ hf
  · rw [getElem?_setCall hc] at hj
    dsimp only
    rw [hseen]
    split at hj
    · cases hj
      obtain ⟨h1, h2⟩ := H.active i c hc (hp ha) f
      rw [hD, marks_append, hfiles]
      refine ⟨fun hf => ?_, fun hf hs => ?_⟩
      · rcases List.mem_append.mp hf with hf | hf
        · exact List.mem_append_left _ (h1 hf)
        · exact List.mem_append_right _ hf
      · rcases List.mem_append.mp hs with hs | hs
        · exact List.mem_append_left _ (h2 hf hs)
        · exact List.mem_append_right _ hs
    · rename_i hji
      have hidle : marks D = [] := by
        refine hm (Bool.eq_false_iff.mpr fun hcp => ?_)
        exact hji (H.one j i a c hj hc ha hcp)
      rw [hidle, List.append_nil]
      exact H.active j a hj ha f

theorem Watch.killCall (H : s.Watch) {i : Nat} {c : IngestCall} (hc : s.calls[i]? = some c) :
    (s.killCall i c).Watch :=
  H.setCall (D := []) hc (List.append_nil _).symm (List.append_nil _).symm rfl
    (by simp [IngestCall.polling, Thread.kill, Thread.ended]) fun _ => rfl

/-- Nothing is seen after a restart, and no poll is in progress. -/
theorem Watch.forget (H : s.Watch)
    (h : ∀ (i : Nat) (c : IngestCall), s.calls[i]? = some c → c.polling = false) :
    s.forget.Watch := by
  refine ⟨H.one, nofun, fun i c hc hp => ?_⟩
  rw [h i c hc] at hp
  cases hp

theorem IngestCall.polling_iff {c : IngestCall} (h : c.thread.ended = false) :
    c.polling = true ↔ c.source = .sftp := by
  simp [IngestCall.polling, h]

theorem Watch.step (H : s.Watch) (K : s.Kept) (h : s.step C e = some s') : s'.Watch := by
  cases step_cases h with
  | drop => exact ⟨H.one, H.seen, H.active⟩
  | poll hidle =>
    refine H.addCall rfl fun _ => ⟨hidle, fun f hf => ?_⟩
    have hf' := (List.mem_filter.mp hf).2
    simpa using hf'
  | restartIdle hidle => exact H.forget fun i c hc => activePoll_none hidle hc
  | @restart i c hi hc =>
    refine (H.killCall hc).forget fun j c' hj => ?_
    have hj' : (s.calls.set i _)[j]? = some c' := hj
    rw [getElem?_setCall hc] at hj'
    split at hj'
    · cases hj'
      simp [IngestCall.polling, Thread.kill, Thread.ended]
    · rename_i hji
      refine Bool.eq_false_iff.mpr fun hp => ?_
      exact hji (H.one j i c' c hj' hc hp (polling_activePoll hi hc))
  | upload => exact H.addCall rfl nofun
  | cancel hc => exact H.killCall hc
  | @ingest i tick c world thread hc ht =>
    obtain ⟨D, hD, hseen, -⟩ := Thread.step_grows ht
    have hend := Thread.step_running ht
    refine H.setCall hc hD hseen rfl (fun hp => ?_) fun hp => ?_
    · rw [IngestCall.polling_iff hend]
      have hp' : c.source = .sftp ∧ ¬ thread.ended = true := by simpa [IngestCall.polling] using hp
      exact hp'.1
    · have hsrc : c.source = .http := by
        cases hs : c.source with
        | http => rfl
        | sftp => simp [IngestCall.polling, hs, hend] at hp
      have halong := ((K.calls i c hc).step ht).1.along
      dsimp only at halong
      rw [hsrc] at halong
      have hnil := marks_http halong
      rw [hD, marks_append] at hnil
      exact (List.append_eq_nil_iff.mp hnil).2
  | start | kill | retry => exact ⟨H.one, H.seen, H.active⟩
  | @job n tick th th' world hs ht =>
    obtain ⟨hseen, -⟩ := K.job_step hs ht
    refine ⟨H.one, ?_, ?_⟩
    · dsimp only [setJob]
      rw [hseen]
      exact H.seen
    · dsimp only [setJob]
      rw [hseen]
      exact H.active

end Pipeline

/-! ## Files that are seen -/

theorem Accounted.append {b f : String} {H D : History} (h : Accounted b f H) :
    Accounted b f (H ++ D) := by
  cases h with
  | present h => exact .present (List.mem_append_left _ h)
  | queued h1 hr h2 hb hk h3 =>
    exact .queued (List.mem_append_left _ h1) hr (List.mem_append_left _ h2) hb hk
      (List.mem_append_left _ h3)
  | quarantined h1 hr h2 =>
    refine .quarantined (List.mem_append_left _ h1) hr (h2.imp_right ?_)
    rintro ⟨r, hput⟩
    exact ⟨r, List.mem_append_left _ hput⟩

theorem accounted_of_mark {src : Source} {files : List String} {H : History} {f : String}
    (h : Along (contract (IngestMay src files)) H) (hf : f ∈ marks H) :
    src = .sftp ∧ f ∈ files ∧ ∃ b, batchOf H = some b ∧ Accounted b f H := by
  obtain ⟨r, hr⟩ := mem_marks.mp hf
  obtain ⟨H₁, H₂, rfl⟩ := List.append_of_mem hr
  obtain ⟨⟨hsrc, hmem, b, hb, hacc⟩, -⟩ := h H₁ _ H₂ rfl
  exact ⟨hsrc, hmem, b, batchOf_append hb, hacc.append⟩

namespace Pipeline

variable {C : Classifier} {s s' : Pipeline} {e : Event}

/-- No poll finds an object under the key of a file that it has still to store: the key contains the
id of the poll's own batch. -/
def NonePresent (s : Pipeline) : Prop :=
  ∀ i key, ⟨.io (.statObject key), .ok ()⟩ ∉ s.record (.ingest i)

theorem NonePresent.start (users : Table String UserORM (·.id))
    (dropZone : Table String RemoteFile (·.filename)) : (start users dropZone).NonePresent :=
  fun _ _ => List.not_mem_nil

theorem NonePresent.step (H : s.NonePresent) (S : s.Sound) (h : s.step C e = some s') :
    s'.NonePresent := by
  cases S.kept.moves h with
  | silent hrec =>
    intro i key
    rw [hrec]
    exact H i key
  | @answered pid d hrec hmay heff =>
    intro i key hmem
    rcases mem_record hrec hmem with hmem | ⟨rfl, rfl⟩
    · exact H i key hmem
    obtain ⟨c, hc, hsrc, b, f, hturn, rfl⟩ := hmay
    generalize s'.world = w' at heff
    cases heff with
    | @io i g a ha =>
      -- The key holds what this call has put there, which is nothing so far.
      have hown := S.objects.own i b f (originalKey b f) (record_call hc ▸ hturn.batch) (.inl rfl)
      rw [record_call hc] at hown
      cases hs : stored c.thread.hist (originalKey b f) with
      | none => simp [perform, hown, hs] at ha
      | some data => exact (hturn.once hsrc _ _ _ (mem_of_stored hs)).1 rfl

theorem Reachable.watch (h : Reachable C s) : s.Watch ∧ s.NonePresent := by
  obtain ⟨users, dropZone, es, h⟩ := h
  have hinv : s.Sound ∧ s.Watch ∧ s.NonePresent := by
    refine h.inv (I := fun s => s.Sound ∧ s.Watch ∧ s.NonePresent) ?_
      ⟨.start users dropZone, .start users dropZone, .start users dropZone⟩
    rintro s e t ⟨hs, hw, hn⟩ hstep
    exact ⟨hs.step hstep, hw.step hs.kept hstep, hn.step hs hstep⟩
  exact hinv.2

/-- What a poll with the batch `b` has done with the file `f`, of which it has downloaded `data`. -/
inductive Handled (s : Pipeline) (f : String) : Prop
  | queued {i : Nat} {c : IngestCall} {b : String} {data : Bytes} {job : Job}
      {r : Except Exn String} : s.calls[i]? = some c → c.source = .sftp →
      batchOf c.thread.hist = some b →
      ⟨.io (.sftpRead f), .ok data⟩ ∈ c.thread.hist → rejectReason f data = none →
      s.world.blobs (originalKey b f) = some data →
      job.batchId = b → job.blobKey = originalKey b f →
      ⟨.io (.enqueue job), r⟩ ∈ c.thread.hist → (∀ id, r = .ok id → job ∈ s.world.queue) →
      Handled s f
  | quarantined {i : Nat} {c : IngestCall} {b reason : String} {data : Bytes} :
      s.calls[i]? = some c → c.source = .sftp → batchOf c.thread.hist = some b →
      ⟨.io (.sftpRead f), .ok data⟩ ∈ c.thread.hist → rejectReason f data = some reason →
      (data.length > MAX_FILE_BYTES ∨
        ∃ r, ⟨.io (.putObject (quarantineKey b f) data), r⟩ ∈ c.thread.hist ∧
          (r = .ok () → s.world.blobs (quarantineKey b f) = some data)) →
      Handled s f

theorem handled_of_mark (S : s.Sound) (hn : s.NonePresent) {i : Nat} {c : IngestCall}
    (hc : s.calls[i]? = some c) {f : String} (hf : f ∈ marks c.thread.hist) : s.Handled f := by
  have halong := (S.kept.calls i c hc).along
  obtain ⟨hsrc, -, b, hb, hacc⟩ := accounted_of_mark halong hf
  rw [hsrc] at halong
  have hb' : batchOf (s.record (.ingest i)) = some b := record_call hc ▸ hb
  have hblob : ∀ key data, KeyOf b f key →
      ⟨.io (.putObject key data), .ok ()⟩ ∈ c.thread.hist → s.world.blobs key = some data := by
    intro key data hkey hput
    rw [S.objects.own i b f key hb' hkey, record_call hc]
    exact stored_of_mem halong key data hput
  cases hacc with
  | present h => exact (hn i _ (record_call hc ▸ h)).elim
  | @queued data job r hread hreason hput hbatch hkey henq =>
    have hdata := hblob _ _ (.inl rfl) hput
    refine .queued hc hsrc hb hread hreason hdata hbatch hkey henq fun id hr => ?_
    subst hr
    have hjob : job ∈ enqueued (s.record (.ingest i)) :=
      record_call hc ▸ mem_enqueued.mpr ⟨id, henq⟩
    rw [← S.queue.jobs i b hb'] at hjob
    exact (List.mem_filter.mp hjob).1
  | quarantined hread hreason hput =>
    refine .quarantined hc hsrc hb hread hreason (hput.imp_right ?_)
    rintro ⟨r, hr⟩
    refine ⟨r, hr, fun hok => ?_⟩
    subst hok
    exact hblob _ _ (.inr rfl) hr

/-- Each file that is seen has been handled, and the next poll lists all others. -/
theorem seen_handled (h : Reachable C s) : (∀ f ∈ s.world.seen, s.Handled f) ∧
    ∀ file ∈ s.world.dropZone.rows, file.filename ∉ s.world.seen → ∀ s', s.step C .poll = some s' →
      ∃ c, s'.calls = s.calls ++ [c] ∧ file.filename ∈ c.files := by
  refine ⟨fun f hf => ?_, fun file hfile hnot s' hstep => ?_⟩
  · obtain ⟨hw, hn⟩ := h.watch
    obtain ⟨i, c, hc, hmark⟩ := hw.seen f hf
    exact handled_of_mark h.sound hn hc hmark
  · cases step_cases hstep with
    | poll =>
      refine ⟨_, rfl, List.mem_filter.mpr ⟨List.mem_map_of_mem hfile, ?_⟩⟩
      simpa using hnot

set_option maxRecDepth 100000 in
theorem seen_handled_oneScan : ∃ s, Reachable letters s ∧ "a.tif" ∈ s.world.seen ∧
    s.Handled "a.tif" := by
  have h : ((exec (step letters) (start .empty oneScan)
      (.poll :: .replicate 13 (.ingest 0 (ok "b")))).map (·.world.seen)) = some ["a.tif"] := by
    decide
  obtain ⟨s, hs, h⟩ := Option.map_eq_some_iff.mp h
  have hr : Reachable letters s := ⟨_, _, _, exec_eq_some.mp hs⟩
  have hseen : "a.tif" ∈ s.world.seen := by simp [h]
  exact ⟨s, hr, hseen, (seen_handled hr).1 _ hseen⟩

set_option maxRecDepth 100000 in
/-- The file is stored but its job is not enqueued: it is seen, with no job, not in quarantine. -/
theorem seen_without_job : ∃ s, Reachable letters s ∧ "a.tif" ∈ s.world.seen ∧
    s.world.queue = [] ∧ ∀ b, s.world.blobs (quarantineKey b "a.tif") = none := by
  have h : (exec (step letters) (start .empty oneScan)
      (.poll :: .replicate 11 (.ingest 0 (ok "b")) ++
      [.ingest 0 (.raise (.other "Connection refused")), .ingest 0 (ok "b")])).map (fun s =>
        (s.world.seen, s.world.queue, s.world.blobs)) =
      some (["a.tif"], [], Function.update (fun _ => none) (originalKey "b" "a.tif") (some [73])) :=
    rfl
  obtain ⟨s, hs, h⟩ := Option.map_eq_some_iff.mp h
  simp only [Prod.mk.injEq] at h
  obtain ⟨hseen, hqueue, hblobs⟩ := h
  refine ⟨s, ⟨_, _, _, exec_eq_some.mp hs⟩, by simp [hseen], hqueue, fun b => ?_⟩
  rw [hblobs, Function.update_of_ne]
  exact originalKey_ne_quarantineKey.symm

end Pipeline

end DocClassifier
