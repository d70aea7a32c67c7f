import DocClassifier.IngestHistories

/-!
# The loops of the ingest calls

The two loops keep one invariant, `Ingested`: what the rounds so far have enqueued, stored and
marked as seen. A call that ends by itself has enqueued as many jobs as it has files if and only if
none of its answers is an exit.
-/

namespace DocClassifier
open BlobStorage Prog

section
variable {src : Source} {files : List String} {H D : History} {b f : String}

/-- After the rounds of the files `before`. -/
structure Ingested (src : Source) (b : String) (before : List String) (H : History) : Prop where
  batch : batchOf H = some b
  order : ((enqueued H).map (·.blobKey)).Sublist (before.map (originalKey b))
  full : (enqueued H).length = before.length ↔ ∀ d ∈ H, ¬ Exit d
  puts : ∀ key data r, ⟨.io (.putObject key data), r⟩ ∈ H →
    ∃ f ∈ before, key = originalKey b f ∨ key = quarantineKey b f
  seen : ∀ f r, ⟨.io (.addSeen f), r⟩ ∈ H → f ∈ before
  marked : src = .sftp → ∀ job ∈ enqueued H, ∃ f, job.blobKey = originalKey b f ∧
    ⟨.io (.addSeen f), .ok ()⟩ ∈ H

/-- At the end of an ingest call that has created a batch. -/
structure IngestEnds (src : Source) (files : List String) (H : History) (b : String) : Prop where
  full : (enqueued H).length = files.length ↔ ∀ d ∈ H, ¬ Exit d
  marked : src = .sftp → ∀ job ∈ enqueued H, ∃ f, job.blobKey = originalKey b f ∧
    ⟨.io (.addSeen f), .ok ()⟩ ∈ H

/-- The operations before the loop. -/
def Preliminary (H : History) : Prop := ∀ d ∈ H, (∃ s, d.1 = .tx s) ∨ Aside d.1

theorem Preliminary.enqueued (h : Preliminary H) : DocClassifier.enqueued H = [] := by
  refine enqueued_eq_nil fun d hd job hj => ?_
  rcases h d hd with ⟨s, hs⟩ | ha
  · rw [hj] at hs
    cases hs
  · rw [hj] at ha
    exact ha

theorem Ingested.start (h : Preliminary H) (hb : batchOf H = some b) (hexit : ∀ d ∈ H, ¬ Exit d) :
    Ingested src b [] H := by
  refine ⟨hb, by simp [h.enqueued], by simpa [h.enqueued] using hexit, fun key data r hd => ?_,
    fun f r hd => ?_, fun _ job hj => ?_⟩
  · rcases h _ hd with ⟨s, hs⟩ | ha
    · cases hs
    · exact ha.elim
  · rcases h _ hd with ⟨s, hs⟩ | ha
    · cases hs
    · exact ha.elim
  · rw [h.enqueued] at hj
    cases hj

theorem IngestEnds.early (h : Preliminary H) (hexit : ∃ d ∈ H, Exit d) (hne : files ≠ []) :
    IngestEnds src files H b := by
  obtain ⟨d, hd, hd'⟩ := hexit
  refine ⟨⟨fun hl => ?_, fun hn => (hn d hd hd').elim⟩, fun _ job hj => ?_⟩
  · rw [h.enqueued] at hl
    exact (hne (List.length_eq_zero_iff.mp hl.symm)).elim
  · rw [h.enqueued] at hj
    cases hj

/-- The loop may go on with the next file. -/
theorem Ingested.turn {before rest : List String} (h : Ingested src b before H)
    (hfiles : files = before ++ f :: rest) (hn : src = .sftp → files.Nodup) :
    Turn src files H b f := by
  refine ⟨h.batch, by simp [hfiles], fun hs key data r hd => ?_⟩
  obtain ⟨f', hf', hkey⟩ := h.puts key data r hd
  have hnot : f' ≠ f := by
    rintro rfl
    have hnd := hn hs
    rw [hfiles] at hnd
    exact (List.nodup_append.mp hnd).2.2 f' hf' f' List.mem_cons_self rfl
  rcases hkey with rfl | rfl
  · exact ⟨fun heq => hnot (originalKey_filename heq), originalKey_ne_quarantineKey⟩
  · exact ⟨fun heq => originalKey_ne_quarantineKey heq.symm,
      fun heq => hnot (quarantineKey_filename heq)⟩

theorem Ingested.unseen {before rest : List String} (h : Ingested src b before H)
    (hfiles : files = before ++ f :: rest) (hn : files.Nodup) : ∀ r, ⟨.io (.addSeen f), r⟩ ∉ H := by
  intro r hd
  rw [hfiles] at hn
  exact (List.nodup_append.mp hn).2.2 f (h.seen f r hd) f List.mem_cons_self rfl

theorem Ingested.next_order {before rest : List String} (h : Ingested src b before H)
    (hfiles : files = before ++ f :: rest) :
    ((DocClassifier.enqueued H).map (·.blobKey) ++ [originalKey b f]).Sublist
      (files.map (originalKey b)) := by
  rw [hfiles, List.map_append, List.map_cons]
  exact h.order.append (List.singleton_sublist.mpr List.mem_cons_self)

theorem Ingested.round {before : List String} (h : Ingested src b before H) (hD : Round src b f D) :
    Ingested src b (before ++ [f]) (H ++ D) := by
  refine ⟨batchOf_append h.batch, ?_, ?_, fun key data r hd => ?_, fun f' r hd => ?_,
    fun hs job hj => ?_⟩
  · rw [enqueued_append, List.map_append, List.map_append]
    rcases hD.enqueued with ⟨job, hjob, hkey, -⟩ | ⟨hnone, -⟩
    · rw [hjob, List.map_singleton, List.map_singleton, hkey]
      exact h.order.append (List.Sublist.refl _)
    · rw [hnone, List.map_nil, List.append_nil]
      exact h.order.trans (List.sublist_append_left _ _)
  · have hlen := h.order.length_le
    rw [List.length_map, List.length_map] at hlen
    rw [enqueued_append, List.length_append, List.length_append, List.length_singleton]
    rcases hD.enqueued with ⟨job, hjob, -, hexit⟩ | ⟨hnone, d, hd, hexit⟩
    · rw [hjob, List.length_singleton, Nat.add_right_cancel_iff, h.full]
      constructor
      · intro hH d hd
        rcases List.mem_append.mp hd with hd | hd
        · exact hH d hd
        · exact hexit d hd
      · exact fun hH d hd => hH d (List.mem_append_left _ hd)
    · rw [hnone, List.length_nil]
      constructor
      · intro heq
        omega
      · intro hH
        exact (hH d (List.mem_append_right _ hd) hexit).elim
  · rcases List.mem_append.mp hd with hd | hd
    · obtain ⟨f', hf', hkey⟩ := h.puts key data r hd
      exact ⟨f', List.mem_append_left _ hf', hkey⟩
    · exact ⟨f, by simp, hD.puts key data r hd⟩
  · rcases List.mem_append.mp hd with hd | hd
    · exact List.mem_append_left _ (h.seen f' r hd)
    · rw [hD.seen f' r hd]
      simp
  · rw [enqueued_append] at hj
    rcases List.mem_append.mp hj with hj | hj
    · obtain ⟨f', hkey, hd⟩ := h.marked hs job hj
      exact ⟨f', hkey, List.mem_append_left _ hd⟩
    · rcases hD.enqueued with ⟨job', hjob, hkey, -⟩ | ⟨hnone, -⟩
      · have hmark := hD.marked hs (by simp [hjob])
        rw [hjob] at hj
        obtain rfl := List.mem_singleton.mp hj
        exact ⟨f, hkey, List.mem_append_right _ hmark⟩
      · rw [hnone] at hj
        cases hj

theorem Ingested.ends (h : Ingested src b files H) : IngestEnds src files H b := ⟨h.full, h.marked⟩

/-- An exception has left the loop. -/
theorem Ingested.aborted {before : List String} (h : Ingested src b before H)
    (hlen : before.length ≤ files.length) (hexit : ∃ d ∈ H, Exit d) :
    IngestEnds src files H b := by
  obtain ⟨d, hd, hd'⟩ := hexit
  have hle := h.order.length_le
  rw [List.length_map, List.length_map] at hle
  refine ⟨⟨fun hl => ?_, fun hn => (hn d hd hd').elim⟩, h.marked⟩
  exact (h.full.mp (by omega) d hd hd').elim

/-- The rule of both loops. -/
theorem ingestLoop_spec {γ α : Type} (name : γ → String) {step : α → γ → Proc α} {a : α}
    {fs : List γ} (hfiles : files = fs.map name) (hstart : Ingested src b [] H)
    (hround : ∀ H a before f rest, fs = before ++ f :: rest →
      Ingested src b (before.map name) H →
      Spec (contract (IngestMay src files)) (RoundEnds src b (name f) H) H (step a f)) :
    Spec (contract (IngestMay src files))
      (fun H _ => batchOf H = some b ∧ IngestEnds src files H b) H
      (foldEach step a fs) := by
  refine spec_foldEach (fun H _ rest => ∃ before, fs = before ++ rest ∧
    Ingested src b (before.map name) H) ?_ ?_ ⟨[], rfl, hstart⟩
  · rintro H a f rest ⟨before, hfs, hI⟩
    refine (hround H a before f rest hfs hI).mono fun H' r hr => ?_
    obtain ⟨D, rfl, hD, hexit⟩ := hr
    have hnext := hI.round hD
    cases r with
    | ok a => exact ⟨before ++ [f], by simp [hfs], by simpa using hnext⟩
    | error e =>
      obtain ⟨d, hd, hd'⟩ := hexit e rfl
      refine ⟨hnext.batch, hnext.aborted ?_ ⟨d, List.mem_append_right _ hd, hd'⟩⟩
      simp [hfiles, hfs]
  · rintro H a ⟨before, hfs, hI⟩
    rw [List.append_nil] at hfs
    subst hfs hfiles
    exact ⟨hI.batch, hI.ends⟩

theorem Preliminary.nil : Preliminary [] := fun _ hd => (List.not_mem_nil hd).elim

theorem Preliminary.deletes (hD : ∀ d ∈ D, IsDelete d) : Preliminary D := by
  intro d hd
  obtain ⟨key, rfl⟩ := hD d hd
  exact .inr trivial

theorem Preliminary.append (hH : Preliminary H) (hD : Preliminary D) : Preliminary (H ++ D) := by
  intro d hd
  rcases List.mem_append.mp hd with hd | hd
  · exact hH d hd
  · exact hD d hd

theorem Preliminary.cons {d : Done Op.Answer Exn} (hd : (∃ s, d.1 = .tx s) ∨ Aside d.1)
    (hD : Preliminary D) : Preliminary (d :: D) := by
  intro d' hd'
  rcases List.mem_cons.mp hd' with rfl | hd'
  · exact hd
  · exact hD d' hd'

theorem not_exit_delete (hD : ∀ d ∈ D, IsDelete d) : ∀ d ∈ D, ¬ Exit d := by
  rintro d hd hexit
  obtain ⟨key, rfl⟩ := hD d hd
  cases hexit

/-- At the end of an ingest call. -/
structure CallEnds (src : Source) (files : List String) {α : Type} (H : History)
    (_ : Except Exn α) :
    Prop where
  early : batchOf H = none → ∃ d ∈ H, Exit d
  ends : ∀ b, batchOf H = some b → IngestEnds src files H b

theorem CallEnds.of_exit {α : Type} {r : Except Exn α} (h : Preliminary H) (hexit : ∃ d ∈ H, Exit d)
    (hne : files ≠ []) : CallEnds src files H r := ⟨fun _ => hexit, fun _ _ => .early h hexit hne⟩

theorem CallEnds.of_ends {α : Type} {r : Except Exn α} (hb : batchOf H = some b)
    (h : IngestEnds src files H b) : CallEnds src files H r := by
  refine ⟨fun hnone => ?_, fun b' hb' => ?_⟩
  · rw [hb] at hnone
    cases hnone
  · rw [hb] at hb'
    cases hb'
    exact h

theorem spec_sftpCreateBatch {Q : History → Except Exn String → Prop} (hH : Preliminary H)
    (htxs : txs H = [])
    (herr : ∀ H' e, Preliminary H' → (∃ d ∈ H', Exit d) → Q H' (.error e))
    (hok : ∀ D b, Preliminary (H ++ D) → batchOf (H ++ D) = some b → (∀ d ∈ D, ¬ Exit d) →
      Q (H ++ D) (.ok b)) :
    Spec (contract (IngestMay src files)) Q H (SFTPWatcher.createBatch files.length) := by
  have hclose : ∀ r, Preliminary [⟨.io .cacheClose, r⟩] := fun r => .cons (.inr trivial) .nil
  rw [SFTPWatcher.createBatch, spec_bind, spec_andFinally]
  refine spec_service ⟨htxs, none, rfl, fun _ => rfl⟩ (fun _ _ => trivial) (fun cm D hD => ?_)
    (fun cm D key e hD => ?_) fun e => ?_
  · have hpre : Preliminary (H ++ ⟨.tx (.createBatch files.length none), .ok cm⟩ :: D) :=
      hH.append (.cons (.inl ⟨_, rfl⟩) (.deletes hD))
    refine spec_io.mpr ⟨trivial, fun r _ => ?_⟩
    cases r with
    | error e =>
      have hexit : Exit ⟨.io .cacheClose, .error e⟩ := .io fun _ h => by cases h
      exact herr _ _ (hpre.append (hclose _)) ⟨_, by simp, hexit⟩
    | ok =>
      rw [List.append_assoc]
      refine hok _ _ ?_ ?_ fun d hd hexit => ?_
      · rw [← List.append_assoc]
        exact hpre.append (hclose _)
      · simp [batchOf, htxs]
      · simp only [List.cons_append, List.mem_cons, List.mem_append, List.not_mem_nil,
          or_false] at hd
        rcases hd with rfl | hd | rfl
        · cases hexit
        · exact not_exit_delete hD d hd hexit
        · cases hexit
  · have hpre : Preliminary (H ++ ⟨.tx (.createBatch files.length none), .ok cm⟩ ::
        (D ++ [⟨.io (.cacheDelete key), .error e⟩])) :=
      hH.append (.cons (.inl ⟨_, rfl⟩)
        ((Preliminary.deletes hD).append (.cons (.inr trivial) .nil)))
    have hexit : Exit ⟨.io (.cacheDelete key), .error e⟩ := .io fun _ h => by cases h
    refine spec_io.mpr ⟨trivial, fun r _ => ?_⟩
    cases r <;> exact herr _ _ (hpre.append (hclose _)) ⟨_, by simp, hexit⟩
  · have hpre : Preliminary (H ++ [⟨.tx (.createBatch files.length none), .error e⟩]) :=
      hH.append (.cons (.inl ⟨_, rfl⟩) .nil)
    have hexit : Exit ⟨.tx (.createBatch files.length none), .error e⟩ := .tx
    refine spec_io.mpr ⟨trivial, fun r _ => ?_⟩
    cases r <;> exact herr _ _ (hpre.append (hclose _)) ⟨_, by simp, hexit⟩

theorem poll_spec (hne : files ≠ []) (hn : files.Nodup) :
    Spec (contract (IngestMay .sftp files)) (CallEnds .sftp files) [] (SFTPWatcher.poll files) := by
  rw [SFTPWatcher.poll, if_neg hne, spec_bind]
  refine spec_io.mpr ⟨trivial, fun r hr => ?_⟩
  rcases r with e | requestId
  · cases hr
  dsimp only
  rw [spec_bind]
  refine spec_sftpCreateBatch (.cons (.inr trivial) .nil) rfl
    (fun H' e hpre hexit => .of_exit hpre hexit hne) fun D b hpre hb hD => ?_
  refine (ingestLoop_spec id (List.map_id files).symm (.start hpre hb ?_)
    fun H a before f rest hfs hI => ?_).mono fun H' r hr => .of_ends hr.1 hr.2
  · intro d hd hexit
    rcases List.mem_cons.mp hd with rfl | hd
    · cases hexit
    · exact hD d hd hexit
  · rw [List.map_id] at hI
    exact processFile_spec (hI.turn hfs fun _ => hn) (hI.unseen hfs hn) (hI.next_order hfs)

/-- The call has created its batch, and nothing has failed yet. -/
structure Begun (b : String) (H : History) : Prop where
  pre : Preliminary H
  batch : batchOf H = some b
  clean : ∀ d ∈ H, ¬ Exit d

theorem Begun.io (h : Begun b H) {i : Io} {Q : History → Except Exn i.Answer → Prop}
    (hi : Aside (.io i)) (hmay : IngestMay src files H (.io i)) (hs : ∀ key, i ≠ .statObject key)
    (hclean : ∀ a, ¬ Exit ⟨.io i, .ok a⟩)
    (herr : ∀ H' e, Preliminary H' → (∃ d ∈ H', Exit d) → Q H' (.error e))
    (hok : ∀ D a, Begun b (H ++ D) → Q (H ++ D) (.ok a)) :
    Spec (contract (IngestMay src files)) Q H (DocClassifier.io i) := by
  refine spec_io.mpr ⟨hmay, fun r _ => ?_⟩
  have hpre : Preliminary (H ++ [⟨.io i, r⟩]) := h.pre.append (.cons (.inr hi) .nil)
  cases r with
  | error e =>
    have hexit : Exit ⟨.io i, .error e⟩ := .io hs
    exact herr _ _ hpre ⟨_, by simp, hexit⟩
  | ok a =>
    refine hok _ a ⟨hpre, batchOf_append h.batch, ?_⟩
    exact List.forall_mem_append.mpr ⟨h.clean, List.forall_mem_singleton.mpr (hclean a)⟩

theorem uploadDocuments_spec {actor : User} {fileData : List (String × Bytes)}
    (hne : fileData ≠ []) (hsmall : ∀ p ∈ fileData, p.2.length ≤ MAX_FILE_BYTES) :
    Spec (contract (IngestMay .http (fileData.map (·.1)))) (CallEnds .http (fileData.map (·.1))) []
      (uploadDocuments actor fileData) := by
  have hne' : fileData.map (·.1) ≠ [] := by simpa using hne
  have hlen : fileData.length = (fileData.map (·.1)).length := List.length_map _ |>.symm
  rw [uploadDocuments, spec_bind]
  refine spec_service ⟨rfl, some actor, by rw [hlen], nofun⟩ (fun _ _ => trivial)
    (fun cm D hD => ?_)
    (fun cm D key e hD => ?_) fun e => ?_
  · rw [List.nil_append]
    have hpre : Preliminary (⟨.tx (.createBatch fileData.length (some actor)), .ok cm⟩ :: D) :=
      .cons (.inl ⟨_, rfl⟩) (.deletes hD)
    have hbegun : Begun cm.result.id
        (⟨.tx (.createBatch fileData.length (some actor)), .ok cm⟩ :: D) := by
      refine ⟨hpre, rfl, fun d hd hexit => ?_⟩
      rcases List.mem_cons.mp hd with rfl | hd
      · cases hexit
      · exact not_exit_delete hD d hd hexit
    have herr : ∀ H' e, Preliminary H' → (∃ d ∈ H', Exit d) →
        CallEnds .http (fileData.map (·.1)) H' (.error e : Except Exn UploadResponse) :=
      fun H' e hpre hexit => .of_exit hpre hexit hne'
    dsimp only
    rw [spec_bind]
    refine hbegun.io trivial trivial nofun nofun herr fun D1 requestId h1 => ?_
    dsimp only
    rw [spec_bind]
    refine h1.io trivial trivial nofun nofun herr fun D2 _ h2 => ?_
    dsimp only
    rw [spec_bind]
    refine h2.io trivial trivial nofun nofun herr fun D3 _ h3 => ?_
    dsimp only
    rw [spec_bind]
    refine (ingestLoop_spec Prod.fst rfl (.start h3.pre h3.batch h3.clean)
      fun H a before f rest hfs hI => ?_).mono fun H' r hr => ?_
    · have hfiles : fileData.map (·.1) = before.map (·.1) ++ f.1 :: rest.map (·.1) := by
        simp [hfs]
      exact uploadRound_spec (hI.turn hfiles nofun) (hsmall f (by simp [hfs]))
        (hI.next_order hfiles)
    · cases r with
      | ok | error => exact .of_ends hr.1 hr.2
  · refine .of_exit (.cons (.inl ⟨_, rfl⟩)
      ((Preliminary.deletes hD).append (.cons (.inr trivial) .nil))) ?_ hne'
    have hexit : Exit ⟨.io (.cacheDelete key), .error e⟩ := .io fun _ h => by cases h
    exact ⟨_, by simp, hexit⟩
  · exact .of_exit (.cons (.inl ⟨_, rfl⟩) .nil) ⟨_, List.mem_cons_self, .tx⟩ hne'

end

end DocClassifier
