import DocClassifier.Working
import DocClassifier.Objects
import Mathlib.Logic.Function.Iterate

/-!
# Polls of an unchanged drop zone

With working services the first poll handles every file, and the later ones have nothing to do, as
long as no file is too large. `_sftp_download` raises for a file that is too large before
`_reject_reason` can send it to quarantine, so it is never marked as seen.
-/

namespace DocClassifier
open BlobStorage SFTPWatcher Prog

/-- A poll in the loop of `SFTPWatcher.run`, which logs its exceptions and goes on. -/
def pollCycle (C : Classifier) (gens : Nat → Gen) (l : Live) : Live :=
  ((poll (listNewFiles l.world.dropZone l.world.seen)).interp (working C gens) l).2

/-- The ids to come are not in use. -/
structure FreshIds (gens : Nat → Gen) (l : Live) : Prop where
  batch : ∀ n ≥ l.next, l.world.server.db.batches.find? (gens n).uuid = none
  original : ∀ n ≥ l.next, ∀ f, l.world.blobs (originalKey (gens n).uuid f) = none
  quarantine : ∀ n ≥ l.next, ∀ f, l.world.blobs (quarantineKey (gens n).uuid f) = none

/-- A non-empty TIFF file, by its name, of at most 100 MB. -/
def RemoteFile.Tiff (file : RemoteFile) : Prop :=
  file.content ≠ [] ∧ lower (PurePosixPath.suffix file.filename) ∈ VALID_EXTENSIONS ∧
    file.content.length ≤ MAX_FILE_BYTES

/-- The original of the file is stored, and one of `jobs` is for it. -/
structure Uploaded (w : World) (jobs : List Job) (b r : String) (file : RemoteFile) : Prop where
  original : w.blobs (originalKey b file.filename) = some file.content
  job : jobs.filter (·.blobKey = originalKey b file.filename) =
    [⟨b, originalKey b file.filename, r⟩]
  quarantine : w.blobs (quarantineKey b file.filename) = none

/-- The bytes of the file are in quarantine, and none of `jobs` is for it. -/
structure Quarantined (w : World) (jobs : List Job) (b : String) (file : RemoteFile) : Prop where
  quarantine : w.blobs (quarantineKey b file.filename) = some file.content
  job : jobs.filter (·.blobKey = originalKey b file.filename) = []
  original : w.blobs (originalKey b file.filename) = none

/-- The first poll uploads or quarantines every file and marks it as seen, and the later polls
change nothing. -/
structure Settles (C : Classifier) (gens : Nat → Gen) (l : Live) : Prop where
  classified : ∃ b r jobs, (pollCycle C gens l).world.queue = l.world.queue ++ jobs ∧
    ∀ file ∈ l.world.dropZone.rows,
      (file.Tiff → Uploaded (pollCycle C gens l).world jobs b r file) ∧
      (¬ file.Tiff → Quarantined (pollCycle C gens l).world jobs b file)
  seen : ∀ file ∈ l.world.dropZone.rows, file.filename ∈ (pollCycle C gens l).world.seen
  still : ∀ k, ((pollCycle C gens)^[k + 1] l).world = (pollCycle C gens l).world

/-! ## One file -/

/-- What `_process_file` does about a file. -/
def handled (b r : String) (w : World) (file : RemoteFile) : World :=
  if file.content.length > MAX_FILE_BYTES then w
  else match rejectReason file.filename file.content with
    | some _ =>
      { w with
        blobs := Function.update w.blobs (quarantineKey b file.filename) (some file.content)
        seen := w.seen ++ [file.filename] }
    | none =>
      { w with
        blobs := Function.update w.blobs (originalKey b file.filename) (some file.content)
        queue := w.queue ++ [⟨b, originalKey b file.filename, r⟩]
        seen := w.seen ++ [file.filename] }

section
variable {C : Classifier} {gens : Nat → Gen} {l : Live} {b r : String} {file : RemoteFile}

theorem returns_blobExists {key : String} {Q : Bool → Live → Prop}
    (habsent : l.world.blobs key = none) (hQ : Q false ⟨l.world, l.next + 1⟩) :
    Returns (working C gens) (blobExists key) l Q := by
  refine returns_bind.mpr (returns_attempt.mpr ?_)
  rw [interp_io, perform, habsent]
  exact returns_ret.mpr hQ

theorem returns_sftpDownload {Q : Bytes → Live → Prop}
    (hfile : l.world.dropZone.find? file.filename = some file)
    (hsize : file.content.length ≤ MAX_FILE_BYTES) (hQ : Q file.content ⟨l.world, l.next + 2⟩) :
    Returns (working C gens) (sftpDownload file.filename) l Q := by
  refine returns_bind.mpr (returns_io (a := file.content.length) ?_ ?_)
  · rw [perform, hfile]
  · rw [if_neg (Nat.not_lt.mpr hsize)]
    refine returns_io (a := file.content) ?_ hQ
    simp only [perform, hfile]

theorem interp_sftpDownload_large (hfile : l.world.dropZone.find? file.filename = some file)
    (hsize : file.content.length > MAX_FILE_BYTES) :
    ∃ e, (sftpDownload file.filename).interp (working C gens) l =
      (.error e, ⟨l.world, l.next + 1⟩) := by
  rw [sftpDownload, interp_bind, interp_io, perform, hfile]
  dsimp only
  rw [if_pos hsize]
  exact ⟨_, rfl⟩

theorem returns_processFile (hfile : l.world.dropZone.find? file.filename = some file)
    (habsent : l.world.blobs (originalKey b file.filename) = none) :
    Returns (working C gens) (processFile file.filename b r) l fun _ l' =>
      l'.world = handled b r l.world file := by
  refine returns_bind.mpr (returns_blobExists habsent (returns_bind.mpr ?_))
  rcases Nat.lt_or_ge MAX_FILE_BYTES file.content.length with hsize | hsize
  · obtain ⟨e, he⟩ := @interp_sftpDownload_large C gens ⟨l.world, l.next + 1⟩ file hfile hsize
    rw [returns_attempt, he, handled, if_pos hsize]
    exact returns_ret.mpr rfl
  · refine Returns.attempt (returns_sftpDownload hfile hsize ?_)
    rw [handled, if_neg (Nat.not_lt.mpr hsize)]
    dsimp only
    cases hreason : rejectReason file.filename file.content with
    | some reason =>
      refine returns_bind.mpr (Returns.attempt (returns_upload hsize ?_))
      exact returns_io rfl rfl
    | none =>
      refine returns_bind.mpr (Returns.attempt (returns_upload hsize ?_))
      refine returns_bind.mpr (Returns.attempt (returns_io rfl ?_))
      exact returns_io rfl rfl

end

/-! ## All files -/

/-- The jobs of a poll of `files`. -/
def newJobs (b r : String) (files : List RemoteFile) : List Job :=
  (files.filter fun file => rejectReason file.filename file.content = none).map fun file =>
    ⟨b, originalKey b file.filename, r⟩

/-- After the files `done` of a poll that began in the world `w₀`. -/
structure Polled (w₀ : World) (b r : String) (done : List RemoteFile) (w : World) : Prop where
  server : w.server = w₀.server
  dropZone : w.dropZone = w₀.dropZone
  seen : w.seen = w₀.seen ++
    (done.filter (·.content.length ≤ MAX_FILE_BYTES)).map (·.filename)
  queue : w.queue = w₀.queue ++ newJobs b r done
  original : ∀ file ∈ w₀.dropZone.rows, w.blobs (originalKey b file.filename) =
    if file ∈ done ∧ rejectReason file.filename file.content = none then some file.content else none
  quarantine : ∀ file ∈ w₀.dropZone.rows, w.blobs (quarantineKey b file.filename) =
    if file ∈ done ∧ file.content.length ≤ MAX_FILE_BYTES ∧
      rejectReason file.filename file.content ≠ none then some file.content else none

section
variable {w₀ w : World} {b r : String} {done : List RemoteFile} {file : RemoteFile}

theorem Polled.start (horiginal : ∀ f, w₀.blobs (originalKey b f) = none)
    (hquarantine : ∀ f, w₀.blobs (quarantineKey b f) = none) : Polled w₀ b r [] w₀ :=
  ⟨rfl, rfl, (List.append_nil _).symm, (List.append_nil _).symm, fun file _ => by simp [horiginal],
    fun file _ => by simp [hquarantine]⟩

theorem Polled.next (H : Polled w₀ b r done w) (hmem : file ∈ w₀.dropZone.rows) :
    Polled w₀ b r (done ++ [file]) (handled b r w file) := by
  have hother : ∀ file' ∈ w₀.dropZone.rows, file' ≠ file → file'.filename ≠ file.filename :=
    fun file' hf' hne hname => hne (w₀.dropZone.eq_of_key hf' hmem hname)
  rcases Nat.lt_or_ge MAX_FILE_BYTES file.content.length with hsize | hsize
  · -- A file that is too large is left alone.
    have hle := Nat.not_le.mpr hsize
    have hreason : rejectReason file.filename file.content ≠ none :=
      fun h => hle (rejectReason_eq_none.mp h).2.2
    rw [handled, if_pos hsize]
    refine ⟨H.server, H.dropZone, by simp [H.seen, hle], by simp [H.queue, newJobs, hreason],
      fun file' hf' => ?_, fun file' hf' => ?_⟩
    · rw [H.original file' hf']
      by_cases heq : file' = file
      · simp [heq, hreason]
      · simp [heq]
    · rw [H.quarantine file' hf']
      by_cases heq : file' = file
      · simp [heq, hle]
      · simp [heq]
  rw [handled, if_neg (Nat.not_lt.mpr hsize)]
  cases hreason : rejectReason file.filename file.content with
  | some reason =>
    refine ⟨H.server, H.dropZone, by simp [H.seen, hsize], by simp [H.queue, newJobs, hreason],
      fun file' hf' => ?_, fun file' hf' => ?_⟩
    · dsimp only
      rw [Function.update_of_ne originalKey_ne_quarantineKey, H.original file' hf']
      by_cases heq : file' = file
      · simp [heq, hreason]
      · simp [heq]
    · by_cases heq : file' = file
      · simp [heq, hsize, hreason]
      · have hkey : quarantineKey b file'.filename ≠ quarantineKey b file.filename :=
          fun h => hother file' hf' heq (quarantineKey_filename h)
        dsimp only
        rw [Function.update_of_ne hkey, H.quarantine file' hf']
        simp [heq]
  | none =>
    refine ⟨H.server, H.dropZone, by simp [H.seen, hsize], by simp [H.queue, newJobs, hreason],
      fun file' hf' => ?_, fun file' hf' => ?_⟩
    · by_cases heq : file' = file
      · simp [heq, hreason]
      · have hkey : originalKey b file'.filename ≠ originalKey b file.filename :=
          fun h => hother file' hf' heq (originalKey_filename h)
        dsimp only
        rw [Function.update_of_ne hkey, H.original file' hf']
        simp [heq]
    · dsimp only
      rw [Function.update_of_ne originalKey_ne_quarantineKey.symm, H.quarantine file' hf']
      by_cases heq : file' = file
      · simp [heq, hreason]
      · simp [heq]

end

section
variable {C : Classifier} {gens : Nat → Gen} {l : Live}

theorem listNewFiles_unseen (h : l.world.seen = []) :
    listNewFiles l.world.dropZone l.world.seen = l.world.dropZone.rows.map (·.filename) := by
  simp [listNewFiles, h]

/-- The first poll, when there are files. -/
theorem returns_poll (hseen : l.world.seen = []) (hfresh : FreshIds gens l)
    (hne : l.world.dropZone.rows ≠ []) :
    Returns (working C gens) (poll (listNewFiles l.world.dropZone l.world.seen)) l fun _ l' =>
      Polled (l.world.withDb (l.world.server.db.withBatch (gens (l.next + 1))
        l.world.dropZone.rows.length none)) (gens (l.next + 1)).uuid (gens l.next).uuid
        l.world.dropZone.rows l'.world := by
  rw [listNewFiles_unseen hseen, poll, if_neg (by simpa using hne), List.length_map]
  refine returns_bind.mpr (returns_io rfl ?_)
  have hid := hfresh.batch (l.next + 1) (Nat.le_succ _)
  refine returns_bind.mpr (returns_bind.mpr (Returns.andFinally ?_))
  refine returns_createBatch hid (fun _ h => by cases h) (returns_io rfl (returns_ret.mpr ?_))
  refine Returns.forEach (fun rest l' => ∃ done files, l.world.dropZone.rows = done ++ files ∧
    rest = files.map (·.filename) ∧
      Polled (l.world.withDb (l.world.server.db.withBatch (gens (l.next + 1))
        l.world.dropZone.rows.length none)) (gens (l.next + 1)).uuid (gens l.next).uuid
        done l'.world) ?_ ?_ ⟨[], _, rfl, rfl, ?_⟩
  · intro filename rest l' h
    obtain ⟨done, files, hrows, hrest, H⟩ := h
    cases files with
    | nil => cases hrest
    | cons file files =>
      obtain ⟨rfl, rfl⟩ := List.cons.inj hrest
      have hmem : file ∈ l.world.dropZone.rows := by simp [hrows]
      refine (returns_processFile ?_ ?_).mono fun _ l'' h'' => ?_
      · rw [H.dropZone]
        exact Table.find?_eq_some.mpr ⟨hmem, rfl⟩
      · refine (H.original file hmem).trans (if_neg fun h => ?_)
        have hnodup := List.Nodup.of_map _ l.world.dropZone.nodup
        rw [hrows] at hnodup
        exact (List.nodup_append.mp hnodup).2.2 file h.1 file List.mem_cons_self rfl
      · refine ⟨done ++ [file], files, by simp [hrows], rfl, ?_⟩
        rw [h'']
        exact H.next hmem
  · intro l' h
    obtain ⟨done, files, hrows, hrest, H⟩ := h
    obtain rfl := List.map_eq_nil_iff.mp hrest.symm
    rw [List.append_nil] at hrows
    rw [← hrows] at H
    exact H
  · exact Polled.start (hfresh.original _ (Nat.le_succ _)) (hfresh.quarantine _ (Nat.le_succ _))

/-- A poll of a drop zone whose files are all seen has nothing to do. -/
theorem pollCycle_of_seen (h : ∀ file ∈ l.world.dropZone.rows, file.filename ∈ l.world.seen) :
    pollCycle C gens l = l := by
  have hnone : listNewFiles l.world.dropZone l.world.seen = [] := by
    refine List.filter_eq_nil_iff.mpr fun f hf => ?_
    obtain ⟨file, hfile, rfl⟩ := List.mem_map.mp hf
    simpa using h file hfile
  rw [pollCycle, hnone]
  rfl

/-- The jobs of a file among those of a poll. -/
theorem filter_newJobs {rows : Table String RemoteFile (·.filename)} {b r : String}
    {file : RemoteFile} (hmem : file ∈ rows.rows) :
    (newJobs b r rows.rows).filter (·.blobKey = originalKey b file.filename) =
      if rejectReason file.filename file.content = none then
        [⟨b, originalKey b file.filename, r⟩] else [] := by
  have hfiles : rows.rows.filter
      ((fun job : Job => decide (job.blobKey = originalKey b file.filename)) ∘
        fun file => (⟨b, originalKey b file.filename, r⟩ : Job)) = [file] := by
    rw [← rows.filter_key hmem]
    refine List.filter_congr fun file' _ => ?_
    exact decide_eq_decide.mpr ⟨originalKey_filename, congrArg (originalKey b)⟩
  rw [newJobs, List.filter_map, List.filter_filter, List.filter_congr fun _ _ => Bool.and_comm _ _,
    ← List.filter_filter, hfiles, List.filter_cons, List.filter_nil]
  by_cases h : rejectReason file.filename file.content = none
  · rw [if_pos h, if_pos (decide_eq_true h)]
    rfl
  · rw [if_neg h, if_neg (by simpa using h)]
    rfl

/-- A poll handles every file that is not too large. -/
theorem Polled.classified {w₀ w : World} {b r : String} {file : RemoteFile}
    (H : Polled w₀ b r w₀.dropZone.rows w) (hmem : file ∈ w₀.dropZone.rows)
    (hsize : file.content.length ≤ MAX_FILE_BYTES) :
    (file.Tiff → Uploaded w (newJobs b r w₀.dropZone.rows) b r file) ∧
      (¬ file.Tiff → Quarantined w (newJobs b r w₀.dropZone.rows) b file) := by
  constructor
  · intro h
    have hreason := rejectReason_eq_none.mpr h
    refine ⟨?_, ?_, ?_⟩
    · rw [H.original file hmem, if_pos ⟨hmem, hreason⟩]
    · rw [filter_newJobs hmem, if_pos hreason]
    · rw [H.quarantine file hmem, if_neg fun h => h.2.2 hreason]
  · intro h
    have hreason : rejectReason file.filename file.content ≠ none :=
      fun h' => h (rejectReason_eq_none.mp h')
    refine ⟨?_, ?_, ?_⟩
    · rw [H.quarantine file hmem, if_pos ⟨hmem, hsize, hreason⟩]
    · rw [filter_newJobs hmem, if_neg hreason]
    · rw [H.original file hmem, if_neg fun h => hreason h.2]

theorem Polled.mem_seen {w₀ w : World} {b r : String} {file : RemoteFile}
    (H : Polled w₀ b r w₀.dropZone.rows w) (hseen : w₀.seen = [])
    (hmem : file ∈ w₀.dropZone.rows) :
    file.filename ∈ w.seen ↔ file.content.length ≤ MAX_FILE_BYTES := by
  rw [H.seen, hseen, List.nil_append]
  constructor
  · intro h
    obtain ⟨file', hf', hname⟩ := List.mem_map.mp h
    obtain ⟨hf', hsize⟩ := List.mem_filter.mp hf'
    obtain rfl := w₀.dropZone.eq_of_key hf' hmem hname
    exact of_decide_eq_true hsize
  · exact fun h => List.mem_map.mpr ⟨file, List.mem_filter.mpr ⟨hmem, decide_eq_true h⟩, rfl⟩

theorem polled_pollCycle (hseen : l.world.seen = []) (hfresh : FreshIds gens l)
    (hne : l.world.dropZone.rows ≠ []) :
    Polled (l.world.withDb (l.world.server.db.withBatch (gens (l.next + 1))
      l.world.dropZone.rows.length none)) (gens (l.next + 1)).uuid (gens l.next).uuid
      l.world.dropZone.rows (pollCycle C gens l).world := by
  obtain ⟨_, l', hrun, hpolled⟩ := returns_poll (C := C) hseen hfresh hne
  rw [pollCycle, hrun]
  exact hpolled

/-- Polls of an unchanged drop zone settle after the first if and only if no file is too large. -/
theorem settles_iff (hseen : l.world.seen = []) (hfresh : FreshIds gens l) :
    Settles C gens l ↔
      ∀ file ∈ l.world.dropZone.rows, file.content.length ≤ MAX_FILE_BYTES := by
  constructor
  · intro H file hfile
    have H' := polled_pollCycle (C := C) hseen hfresh (List.ne_nil_of_mem hfile)
    exact (H'.mem_seen hseen hfile).mp (H.seen file hfile)
  · intro hsize
    by_cases hne : l.world.dropZone.rows = []
    · have hstill : pollCycle C gens l = l := by
        apply pollCycle_of_seen
        rw [hne]
        exact nofun
      refine ⟨⟨"", "", [], ?_, ?_⟩, ?_, fun k => ?_⟩
      · rw [hstill, List.append_nil]
      · rw [hne]
        exact nofun
      · rw [hne]
        exact nofun
      · rw [Function.iterate_fixed hstill, hstill]
    · have H := polled_pollCycle (C := C) hseen hfresh hne
      have hmarked : ∀ file ∈ l.world.dropZone.rows,
          file.filename ∈ (pollCycle C gens l).world.seen :=
        fun file hfile => (H.mem_seen hseen hfile).mpr (hsize file hfile)
      have hstill : pollCycle C gens (pollCycle C gens l) = pollCycle C gens l := by
        apply pollCycle_of_seen
        rw [H.dropZone]
        exact hmarked
      refine ⟨⟨_, _, _, H.queue, fun file hfile => H.classified hfile (hsize file hfile)⟩, hmarked,
        fun k => ?_⟩
      rw [Function.iterate_succ_apply, Function.iterate_fixed hstill]

/-- Nothing has been ingested yet, so every id is free. -/
theorem freshIds_start {users : Table String UserORM (·.id)}
    {dropZone : Table String RemoteFile (·.filename)} :
    FreshIds gens ⟨(Pipeline.start users dropZone).world, 0⟩ :=
  ⟨fun _ _ => rfl, fun _ _ _ => rfl, fun _ _ _ => rfl⟩

end

theorem settles_iff_oneScan : Settles Pipeline.letters (fun _ => ⟨"b", 0, by decide⟩)
    ⟨(Pipeline.start .empty Pipeline.oneScan).world, 0⟩ := by
  refine (settles_iff rfl freshIds_start).mpr fun file hfile => ?_
  rw [List.mem_singleton.mp hfile]
  decide

/-- One byte more than the hard cap. -/
def largeScan : Table String RemoteFile (·.filename) :=
  ⟨[⟨"a.tif", List.replicate (MAX_FILE_BYTES + 1) 0⟩], List.nodup_singleton _⟩

/-- The large file is not marked as seen. -/
theorem not_settles_largeScan : ¬ Settles Pipeline.letters (fun _ => ⟨"b", 0, by decide⟩)
    ⟨(Pipeline.start .empty largeScan).world, 0⟩ := by
  intro H
  have hmem : ⟨"a.tif", List.replicate (MAX_FILE_BYTES + 1) 0⟩ ∈ largeScan.rows :=
    List.mem_singleton_self _
  have H' := @polled_pollCycle Pipeline.letters (fun _ => ⟨"b", 0, by decide⟩)
    ⟨(Pipeline.start .empty largeScan).world, 0⟩ rfl freshIds_start (List.cons_ne_nil _ _)
  have hsize := (H'.mem_seen rfl hmem).mp (H.seen _ hmem)
  rw [List.length_replicate] at hsize
  omega

end DocClassifier
