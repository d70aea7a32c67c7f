import DocClassifier.Lib.Handlers
import DocClassifier.Watcher

/-!
# The files of a poll apart

Every call of a poll may return a value or raise. What a poll does about a file is what
`_process_file` does about it on its own, whatever happens to the other files, as long as no file
but the last raises from `BlobStorage.exists`: of the calls of `_process_file` this one alone is not
in a `try`.
-/

namespace DocClassifier
open BlobStorage SFTPWatcher Prog

/-- An outcome, a value or an exception, for every operation. -/
structure Outcomes where
  answer : (o : Op) → Except Exn o.Answer
  answers : ∀ o, Answers ⟨o, answer o⟩

/-- The operation is about the file `f` of the batch `b`. -/
def Concerns (b f : String) : Op → Prop
  | .io (.statObject key) => key = originalKey b f
  | .io (.putObject key _) => KeyOf b f key
  | .io (.sftpStat filename) => filename = f
  | .io (.sftpRead filename) => filename = f
  | .io (.addSeen filename) => filename = f
  | .io (.enqueue job) => job.blobKey = originalKey b f
  | _ => False

/-- The effects on a file: its objects, its jobs and its membership in `_seen`. -/
structure FileEffects where
  original : Option Bytes
  quarantined : Option Bytes
  jobs : List Job
  seen : Bool
  deriving DecidableEq

def fileEffects (b f : String) (H : History) : FileEffects where
  original := stored H (originalKey b f)
  quarantined := stored H (quarantineKey b f)
  jobs := (enqueued H).filter (·.blobKey = originalKey b f)
  seen := f ∈ marks H

/-- The poll has attempted the file, and the effects on it are those of `_process_file` alone with
the outcomes of that file. -/
structure Isolated (o : Outcomes) (files : List String) (b r f : String) : Prop where
  attempted : ∃ d ∈ (poll files).trace o.answer, d.1 = .io (.statObject (originalKey b f))
  effects : ∀ o' : Outcomes, (∀ op, Concerns b f op → o'.answer op = o.answer op) →
    fileEffects b f ((poll files).trace o.answer) =
      fileEffects b f ((processFile f b r).trace o'.answer)

/-- `BlobStorage.exists` does not raise for the file `f`. -/
def ExistsReturns (o : Outcomes) (b f : String) : Prop :=
  ∀ e, o.answer (.io (.statObject (originalKey b f))) = .error e → ∃ code, e = .s3Error code

section
variable {H D : History} {b f g : String} {op : Op}

theorem Concerns.unique (hf : Concerns b f op) (hg : Concerns b g op) : f = g := by
  rcases op with s | i
  · exact hf.elim
  cases i with
  | statObject key =>
    change key = _ at hf hg
    exact originalKey_filename (hf.symm.trans hg)
  | putObject key data =>
    change KeyOf _ _ _ at hf hg
    rcases hf with hf | hf
    · rcases hg with hg | hg
      · exact originalKey_filename (hf.symm.trans hg)
      · exact (originalKey_ne_quarantineKey (hf.symm.trans hg)).elim
    · rcases hg with hg | hg
      · exact (originalKey_ne_quarantineKey (hg.symm.trans hf)).elim
      · exact quarantineKey_filename (hf.symm.trans hg)
  | sftpStat filename | sftpRead filename | addSeen filename => exact Eq.trans (Eq.symm hf) hg
  | enqueue job => exact originalKey_filename (Eq.trans (Eq.symm hf) hg)
  | _ => exact hf.elim

/-- Operations that are not about a file have no effects on it. -/
theorem fileEffects_of_not_concerns (hD : ∀ d ∈ D, ¬ Concerns b f d.1) :
    fileEffects b f D = ⟨none, none, [], false⟩ := by
  have hstored : ∀ key, KeyOf b f key → stored D key = none := by
    intro key hkey
    exact stored_eq_none fun data hput => hD _ hput hkey
  have hjobs : (enqueued D).filter (·.blobKey = originalKey b f) = [] := by
    apply List.filter_eq_nil_iff.mpr
    intro job hjob hkey
    obtain ⟨id, hd⟩ := mem_enqueued.mp hjob
    have hconcerns : job.blobKey = originalKey b f := by simpa using hkey
    exact hD _ hd hconcerns
  have hseen : f ∉ marks D := by
    intro hf
    obtain ⟨r, hd⟩ := mem_marks.mp hf
    exact hD _ hd rfl
  simp only [fileEffects, hstored _ (.inl rfl), hstored _ (.inr rfl), hjobs, hseen, decide_false]

theorem fileEffects_append_right (hD : ∀ d ∈ D, ¬ Concerns b f d.1) :
    fileEffects b f (H ++ D) = fileEffects b f H := by
  have h := fileEffects_of_not_concerns hD
  simp only [fileEffects, FileEffects.mk.injEq, decide_eq_false_iff_not] at h
  obtain ⟨h1, h2, h3, h4⟩ := h
  simp only [fileEffects, stored_append, enqueued_append, marks_append, List.filter_append, h1, h2,
    h3, Option.none_or, List.append_nil, List.mem_append, h4, or_false]

theorem fileEffects_append_left (hD : ∀ d ∈ D, ¬ Concerns b f d.1) :
    fileEffects b f (D ++ H) = fileEffects b f H := by
  have h := fileEffects_of_not_concerns hD
  simp only [fileEffects, FileEffects.mk.injEq, decide_eq_false_iff_not] at h
  obtain ⟨h1, h2, h3, h4⟩ := h
  simp only [fileEffects, stored_append, enqueued_append, marks_append, List.filter_append, h1, h2,
    h3, Option.or_none, List.nil_append, List.mem_append, h4, false_or]

end

section
variable {o : Outcomes} {b f r : String} {H : History}

/-- The operations of `_process_file` are about its file, and it returns when `exists` does. -/
theorem processFile_concerns : Spec ⟨fun d => d.2 = o.answer d.1, fun _ => Concerns b f⟩
    (fun _ res => ExistsReturns o b f → res = .ok ()) H (processFile f b r) := by
  have hmark : ∀ {H}, Spec ⟨fun d => d.2 = o.answer d.1, fun _ => Concerns b f⟩
      (fun _ res => ExistsReturns o b f → res = .ok ()) H (io (.addSeen f)) := by
    intro H
    refine spec_io.mpr ⟨rfl, fun r hr _ => ?_⟩
    rcases r with e | ⟨⟩
    · have h := o.answers (.io (.addSeen f))
      rw [← hr] at h
      cases h
    · rfl
  rw [processFile, spec_bind]
  refine spec_blobExists rfl hmark (fun code => ?_) fun e he hr h => ?_
  swap
  · obtain ⟨code, hcode⟩ := h e hr.symm
    exact (he code hcode).elim
  dsimp only
  rw [if_neg (by decide), spec_bind, spec_attempt, sftpDownload, spec_bind]
  refine spec_io.mpr ⟨rfl, fun r _ => ?_⟩
  rcases r with e | size
  · exact fun _ => rfl
  dsimp only
  split
  · exact fun _ => rfl
  refine spec_io.mpr ⟨rfl, fun r _ => ?_⟩
  rcases r with e | data
  · exact fun _ => rfl
  dsimp only
  split
  · rw [spec_bind, spec_attempt]
    exact spec_upload (.inr rfl) (fun _ _ => hmark) (fun _ => hmark) fun _ _ => hmark
  · rw [spec_bind, spec_attempt]
    refine spec_upload (.inl rfl) (fun _ _ _ => rfl) (fun _ => ?_) fun _ _ _ => rfl
    dsimp only
    rw [spec_bind, spec_attempt]
    refine spec_io.mpr ⟨rfl, fun r _ => ?_⟩
    cases r with
    | ok | error => exact hmark

theorem concerns_of_trace : ∀ d ∈ (processFile f b r).trace o.answer, Concerns b f d.1 :=
  (processFile_concerns (H := [])).trace_may fun _ => rfl

theorem result_processFile (h : ExistsReturns o b f) :
    (processFile f b r).result o.answer = .ok () :=
  (processFile_concerns (H := [])).trace (fun _ => rfl) h

theorem result_processFile_error (h : ¬ ExistsReturns o b f) :
    ∃ e, (processFile f b r).result o.answer = .error e := by
  simp only [ExistsReturns, not_forall] at h
  obtain ⟨e, he, hcode⟩ := h
  refine ⟨e, ?_⟩
  rw [processFile, result_bind, blobExists, result_bind, result_attempt, io, result_call, he]
  cases e with
  | s3Error code => exact (hcode ⟨code, rfl⟩).elim
  | _ => rfl

theorem trace_processFile :
    ∃ d ∈ (processFile f b r).trace o.answer, d.1 = .io (.statObject (originalKey b f)) := by
  rw [processFile, trace_bind, blobExists, trace_bind, trace_attempt, io, trace_call]
  exact ⟨_, List.mem_append_left _ (List.mem_append_left _ (List.mem_singleton_self _)), rfl⟩

/-- The operations that create the batch are about no file. -/
theorem createBatch_concerns {n : Nat} :
    ∀ d ∈ (createBatch n).trace o.answer, ¬ Concerns b f d.1 := by
  have h : Spec ⟨fun _ => True, fun _ op => ¬ Concerns b f op⟩ (fun _ _ => True) []
      (createBatch n) := by
    rw [createBatch, spec_bind, spec_andFinally]
    refine spec_service id (fun _ _ => id) (fun cm D hD => ?_) (fun cm D key e hD => ?_) fun e => ?_
    all_goals
      refine spec_io.mpr ⟨id, fun r _ => ?_⟩
      cases r with
      | ok | error => trivial
  exact h.trace_may fun _ => trivial

end

section
variable {o : Outcomes} {files : List String} {b f r : String}

/-- The operations of a poll: before its loop they are about no file. -/
theorem trace_poll (hr : o.answer (.io .uuid4) = .ok r)
    (hb : (createBatch files.length).result o.answer = .ok b) (hne : files ≠ []) :
    ∃ D : History, (∀ f, ∀ d ∈ D, ¬ Concerns b f d.1) ∧ (poll files).trace o.answer =
      D ++ (forEach files fun filename => processFile filename b r).trace o.answer := by
  refine ⟨⟨.io .uuid4, o.answer (.io .uuid4)⟩ :: (createBatch files.length).trace o.answer,
    fun f d hd => ?_, ?_⟩
  · rcases List.mem_cons.mp hd with rfl | hd
    · exact id
    · exact createBatch_concerns d hd
  · rw [poll, if_neg hne, trace_bind, io, trace_call, result_call, hr]
    dsimp only
    rw [trace_bind, hb]
    rfl

/-- When `exists` returns for all files but the last, the poll performs the operations of all. -/
theorem isolated_of_existsReturns (hr : o.answer (.io .uuid4) = .ok r)
    (hb : (createBatch files.length).result o.answer = .ok b) (hn : files.Nodup)
    (h : ∀ f ∈ files.dropLast, ExistsReturns o b f) (hf : f ∈ files) :
    Isolated o files b r f := by
  obtain ⟨D, hD, hpoll⟩ := trace_poll hr hb (List.ne_nil_of_mem hf)
  rw [trace_forEach fun g hg => result_processFile (h g hg)] at hpoll
  obtain ⟨before, after, rfl⟩ := List.append_of_mem hf
  have hother : ∀ g ∈ before ++ after, ∀ d ∈ (processFile g b r).trace o.answer,
      ¬ Concerns b f d.1 := by
    intro g hg d hd hc
    obtain rfl := (concerns_of_trace d hd).unique hc
    rw [List.nodup_middle, List.nodup_cons] at hn
    exact hn.1 hg
  constructor
  · obtain ⟨d, hd, hop⟩ := trace_processFile (o := o) (b := b) (f := f) (r := r)
    refine ⟨d, ?_, hop⟩
    rw [hpoll]
    exact List.mem_append_right _ (List.mem_flatMap.mpr ⟨f, hf, hd⟩)
  · intro o' ho'
    have hsame : (processFile f b r).trace o'.answer = (processFile f b r).trace o.answer :=
      (trace_congr fun d hd => ho' d.1 (concerns_of_trace d hd)).1
    rw [hsame, hpoll, fileEffects_append_left (hD f), List.flatMap_append, List.flatMap_cons,
      fileEffects_append_left, fileEffects_append_right]
    · intro d hd
      obtain ⟨g, hg, hd⟩ := List.mem_flatMap.mp hd
      exact hother g (List.mem_append_right _ hg) d hd
    · intro d hd
      obtain ⟨g, hg, hd⟩ := List.mem_flatMap.mp hd
      exact hother g (List.mem_append_left _ hg) d hd

/-- When `exists` raises, the poll does not attempt the files after. -/
theorem not_attempted {before after : List String} (hr : o.answer (.io .uuid4) = .ok r)
    (hb : (createBatch (before ++ f :: after).length).result o.answer = .ok b)
    (hn : (before ++ f :: after).Nodup) (h : ¬ ExistsReturns o b f) {g : String} (hg : g ∈ after) :
    ∀ d ∈ (poll (before ++ f :: after)).trace o.answer, ¬ Concerns b g d.1 := by
  intro d hd hc
  obtain ⟨D, hD, hpoll⟩ := trace_poll hr hb (List.append_ne_nil_of_right_ne_nil _
    (List.cons_ne_nil _ _))
  obtain ⟨e, he⟩ := result_processFile_error (r := r) h
  rw [hpoll] at hd
  rcases List.mem_append.mp hd with hd | hd
  · exact hD g d hd hc
  · obtain ⟨f', hf', hd⟩ :=
      trace_forEach_error (f := fun filename => processFile filename b r) he hd
    obtain rfl := (concerns_of_trace d hd).unique hc
    rw [List.append_cons] at hn
    exact (List.nodup_append.mp hn).2.2 f' hf' f' hg rfl

/-- The files of a poll are isolated if and only if `exists` raises for none but the last. -/
theorem isolated_iff {dropZone : Table String RemoteFile (·.filename)} {seen : List String}
    (hr : o.answer (.io .uuid4) = .ok r)
    (hb : (createBatch (listNewFiles dropZone seen).length).result o.answer = .ok b) :
    (∀ f ∈ listNewFiles dropZone seen, Isolated o (listNewFiles dropZone seen) b r f) ↔
      ∀ f ∈ (listNewFiles dropZone seen).dropLast, ExistsReturns o b f := by
  have hn : (listNewFiles dropZone seen).Nodup := dropZone.nodup.filter _
  constructor
  · intro h f hf
    by_contra hnot
    obtain ⟨before, after, hsplit⟩ := List.append_of_mem hf
    have hne := List.ne_nil_of_mem (List.dropLast_subset _ hf)
    have hfiles := List.dropLast_append_getLast hne
    rw [hsplit, List.append_assoc, List.cons_append] at hfiles
    obtain ⟨d, hd, hop⟩ := (h _ (List.getLast_mem hne)).attempted
    rw [← hfiles] at hn hb hd
    refine not_attempted hr hb hn hnot (List.mem_append_right _ (List.mem_singleton_self _)) d hd ?_
    rw [hop]
    rfl
  · exact fun h f hf => isolated_of_existsReturns hr hb hn h hf

/-- Everything works but `stat_object`, which answers by `stat`. -/
def statOutcomes (stat : String → Exn) : Outcomes where
  answer
    | .tx (.createBatch fileCount _) => .ok ⟨⟨"b", .pending, fileCount, 0⟩, []⟩
    | .tx (.markProcessing _) | .tx (.markDone _) | .tx (.savePrediction ..) =>
      .error (.infrastructure "")
    | .io (.statObject key) => .error (stat key)
    | .io .uuid4 => .ok "r"
    | .io (.sftpStat _) => .ok 1
    | .io (.sftpRead _) | .io (.getObject _) | .io (.drawOverlay ..) => .ok [73]
    | .io (.predict _) => .ok ("letter", 1)
    | .io (.enqueue _) => .ok "j"
    | .io (.cacheDelete _) | .io .cacheClose | .io (.getClient _) | .io (.putObject ..)
    | .io (.addSeen _) => .ok ()
  answers
    | .tx _ => trivial
    | .io i => by cases i <;> trivial

/-- The connection to MinIO is refused for one key. -/
def refusedFor (key : String) : Outcomes :=
  statOutcomes fun k =>
    if k = key then .infrastructure "connection refused" else .s3Error "NoSuchKey"

open Pipeline (twoScans)

theorem isolated_iff_lastRefused :
    Isolated (refusedFor "batches/b/original/b.tif") (listNewFiles twoScans []) "b" "r" "a.tif" ∧
    Isolated (refusedFor "batches/b/original/b.tif") (listNewFiles twoScans [])
      "b" "r" "b.tif" := by
  have h : ∀ f ∈ listNewFiles twoScans [],
      Isolated (refusedFor "batches/b/original/b.tif") (listNewFiles twoScans []) "b" "r" f := by
    refine (isolated_iff rfl rfl).mpr fun f hf e he => ?_
    obtain rfl : f = "a.tif" := List.mem_singleton.mp hf
    cases he
    exact ⟨_, rfl⟩
  exact ⟨h _ (by decide), h _ (by decide)⟩

/-- The connection is refused for the first of two files, and the second is not attempted. -/
theorem not_isolated_firstRefused : ¬ ∀ f ∈ listNewFiles twoScans [],
    Isolated (refusedFor "batches/b/original/a.tif") (listNewFiles twoScans []) "b" "r" f := by
  intro h
  have hb := (h "b.tif" (by decide)).effects _ fun _ _ => rfl
  have hseen := congrArg FileEffects.seen hb
  revert hseen
  decide

end

end DocClassifier
