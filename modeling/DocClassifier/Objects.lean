import DocClassifier.Predictions

/-!
# The objects of a batch

The original and the quarantine keys of a batch hold what its ingest call has put there last: no
other call and no job writes to them.
-/

namespace DocClassifier
open ReadCommitted Transition BlobStorage Prog

/-- What a history has last put under a key. -/
def stored (H : History) (key : String) : Option Bytes :=
  (H.filterMap fun
    | ⟨.io (.putObject key' data), .ok _⟩ => if key' = key then some data else none
    | _ => none).getLast?

/-- The keys under which an ingest call may store the file `f` of the batch `b`. -/
def KeyOf (b f key : String) : Prop := key = originalKey b f ∨ key = quarantineKey b f

section
variable {H D : History} {d : Done Op.Answer Exn} {b b' f f' key : String} {data : Bytes}
  {src : Source} {files : List String}

theorem KeyOf.batch (h : KeyOf b f key) (h' : KeyOf b' f' key) (hb : '/' ∉ b.toList)
    (hb' : '/' ∉ b'.toList) : b = b' := by
  rcases h with rfl | rfl
  · rcases h' with h' | h'
    · exact (originalKey_inj hb hb' h').1
    · exact (originalKey_ne_quarantineKey h').elim
  · rcases h' with h' | h'
    · exact (originalKey_ne_quarantineKey h'.symm).elim
    · exact (quarantineKey_inj hb hb' h').1

theorem KeyOf.ne_overlayKey (h : KeyOf b f key) (hb : '/' ∉ b.toList) (hb' : '/' ∉ b'.toList) :
    key ≠ overlayKey b' f' := by
  rcases h with rfl | rfl
  · exact originalKey_ne_overlayKey hb hb'
  · exact fun heq => overlayKey_ne_quarantineKey heq.symm

theorem stored_append : stored (H ++ D) key = (stored D key).or (stored H key) := by
  simp [stored]

theorem mem_of_stored (h : stored H key = some data) :
    ⟨.io (.putObject key data), .ok ()⟩ ∈ H := by
  obtain ⟨⟨o, r⟩, hd, h⟩ := List.mem_filterMap.mp (List.mem_of_getLast? h)
  split at h
  · rename_i heq
    split at h
    · cases h
      cases heq
      subst key
      exact hd
    · cases h
  · cases h

theorem stored_put : stored [⟨.io (.putObject key data), .ok ()⟩] key = some data := by
  simp [stored]

theorem stored_put_of_ne {key' : String} (h : key' ≠ key) :
    stored [⟨.io (.putObject key' data), .ok ()⟩] key = none := by
  simp [stored, h]

/-- A history without a put has stored nothing. -/
theorem stored_eq_none (h : ∀ data, ⟨.io (.putObject key data), .ok ()⟩ ∉ H) :
    stored H key = none := by
  cases hs : stored H key with
  | none => rfl
  | some data => exact (h data (mem_of_stored hs)).elim

theorem stored_single (h : stored [d] key = some data) :
    d = ⟨.io (.putObject key data), .ok ()⟩ := (List.mem_singleton.mp (mem_of_stored h)).symm

theorem stored_none (h : ∀ data, d ≠ ⟨.io (.putObject key data), .ok ()⟩) :
    stored [d] key = none := by
  cases hs : stored [d] key with
  | none => rfl
  | some data => exact (h data (stored_single hs)).elim

theorem Effect.blobs {C : Classifier} {w w' : World} {ws : List Stmt} (h : Effect C w ws d w') :
    w'.blobs key = (stored [d] key).or (w.blobs key) := by
  cases h with
  | error _ hblobs => rw [hblobs, stored_none (by rintro _ ⟨⟩), Option.none_or]
  | @io i g a =>
    cases i with
    | putObject key' data =>
      by_cases hk : key = key'
      · subst hk
        rw [stored_put, Option.some_or]
        exact Function.update_self _ _ _
      · rw [stored_none, Option.none_or]
        · exact Function.update_of_ne hk _ _
        · rintro data' ⟨⟩
          exact hk rfl
    | _ =>
      rw [stored_none (by rintro _ ⟨⟩), Option.none_or]
      rfl
  | tx => rw [stored_none (by rintro _ ⟨⟩), Option.none_or]

/-- A call puts objects only under the keys of its batch. -/
theorem puts_batchOf (h : Along (contract (IngestMay src files)) H) :
    ∀ key data r, ⟨.io (.putObject key data), r⟩ ∈ H →
      ∃ b f, batchOf H = some b ∧ KeyOf b f key := by
  refine h.inv (P := fun H => ∀ key data r, ⟨.io (.putObject key data), r⟩ ∈ H →
    ∃ b f, batchOf H = some b ∧ KeyOf b f key) nofun ?_
  intro H d ih hmay _ key data r hd
  rcases List.mem_append.mp hd with hd | hd
  · obtain ⟨b, f, hb, hkey⟩ := ih key data r hd
    exact ⟨b, f, batchOf_append hb, hkey⟩
  · obtain rfl := List.mem_singleton.mp hd
    obtain ⟨b, f, hturn, hkey⟩ := hmay
    exact ⟨b, f, batchOf_append hturn.batch, hkey⟩

/-- A poll puts an object only once. -/
theorem stored_of_mem (h : Along (contract (IngestMay .sftp files)) H) :
    ∀ key data, ⟨.io (.putObject key data), .ok ()⟩ ∈ H → stored H key = some data := by
  refine h.inv (P := fun H => ∀ key data, ⟨.io (.putObject key data), .ok ()⟩ ∈ H →
    stored H key = some data) nofun ?_
  intro H d ih hmay _ key data hd
  rw [stored_append]
  rcases List.mem_append.mp hd with hold | hnew
  · rw [ih key data hold, stored_none, Option.none_or]
    rintro data' rfl
    obtain ⟨b, f, hturn, hkey⟩ := hmay
    have honce := hturn.once rfl key data (.ok ()) hold
    rcases hkey with hkey | hkey
    · exact honce.1 hkey
    · exact honce.2 hkey
  · rw [← List.mem_singleton.mp hnew, stored_put, Option.some_or]

end

namespace Pipeline

variable {C : Classifier} {s s' : Pipeline} {e : Event}

/-- The keys of a batch hold what its call has put there. -/
structure Objects (s : Pipeline) : Prop where
  own : ∀ i b f key, batchOf (s.record (.ingest i)) = some b → KeyOf b f key →
    s.world.blobs key = stored (s.record (.ingest i)) key
  other : ∀ key, s.world.blobs key ≠ none → ∃ i b f, batchOf (s.record (.ingest i)) = some b ∧
    (KeyOf b f key ∨ key = overlayKey b f)

theorem Objects.start (users : Table String UserORM (·.id))
    (dropZone : Table String RemoteFile (·.filename)) : (start users dropZone).Objects :=
  ⟨nofun, fun _ h => (h rfl).elim⟩

/-- Who may put an object. -/
theorem May.put (Q : s.Queue) {pid : Pid} {key : String} {data : Bytes}
    (h : s.May pid (.io (.putObject key data))) :
    ∃ i b f, batchOf (s.record (.ingest i)) = some b ∧
      ((pid = .ingest i ∧ KeyOf b f key) ∨ key = overlayKey b f) := by
  cases pid with
  | ingest i =>
    obtain ⟨c, hc, b, f, hturn, hkey⟩ := h
    exact ⟨i, b, f, record_call hc ▸ hturn.batch, .inl ⟨rfl, hkey⟩⟩
  | job n =>
    obtain ⟨job, th, hn, -, hkey⟩ := h
    obtain ⟨i, hi⟩ := Q.batch job (List.mem_of_getElem? hn)
    exact ⟨i, _, _, hi, .inr hkey⟩

theorem Objects.step (H : s.Objects) (Q : s.Queue) (B : s.Batches) (K : s.Kept) (L : s.Locked)
    (h : s.step C e = some s') : s'.Objects := by
  cases K.moves h with
  | silent hrec _ hblobs =>
    refine ⟨?_, ?_⟩
    · rw [hrec, hblobs]
      exact H.own
    · rw [hrec, hblobs]
      exact H.other
  | @answered pid d hrec hmay heff =>
    refine ⟨fun i b f key hb hkey => ?_, fun key hkey => ?_⟩
    · rw [heff.blobs]
      rcases batchOf_record hrec hb with hb | ⟨rfl, htxs, n, actor, cm, rfl, rfl⟩
      · rw [H.own i b f key hb hkey, hrec, Function.update_apply]
        split
        · rename_i hp
          rw [← hp, stored_append]
        · rename_i hp
          -- Nobody else puts an object under this key.
          rw [stored_none, Option.none_or]
          rintro data rfl
          obtain ⟨j, b', f', hj, hput⟩ := May.put Q hmay
          have hslash := (B.hasBatch hb).1
          have hslash' := (B.hasBatch hj).1
          rcases hput with ⟨rfl, hkey'⟩ | hkey'
          · obtain rfl := hkey.batch hkey' hslash hslash'
            exact hp (by rw [B.unique i j b hb hj])
          · exact hkey.ne_overlayKey hslash hslash' hkey'
      · obtain ⟨-, -, hslash, hfree, -⟩ := (heff.commit (L _).2).1.created
        have hblob : s.world.blobs key = none := by
          by_contra hne
          obtain ⟨j, b', f', hj, hput⟩ := H.other key hne
          have hslash' := (B.hasBatch hj).1
          rcases hput with hkey' | hkey'
          · exact B.find?_ne_none hj (hkey.batch hkey' hslash hslash' ▸ hfree)
          · exact hkey.ne_overlayKey hslash hslash' hkey'
        obtain ⟨src, files, halong⟩ := K.record_along i
        have hnone : stored (s.record (.ingest i)) key = none := by
          cases hs : stored (s.record (.ingest i)) key with
          | none => rfl
          | some data =>
            obtain ⟨b', f', hb', -⟩ := puts_batchOf halong _ _ _ (mem_of_stored hs)
            rw [batchOf_of_txs htxs] at hb'
            cases hb'
        rw [hblob, hrec, Function.update_self, stored_append, hnone]
    · rw [heff.blobs] at hkey
      cases hs : stored [d] key with
      | none =>
        rw [hs, Option.none_or] at hkey
        obtain ⟨i, b, f, hb, hk⟩ := H.other key hkey
        exact ⟨i, b, f, batchOf_grows hrec hb, hk⟩
      | some data =>
        rw [stored_single hs] at hmay
        obtain ⟨i, b, f, hb, hk⟩ := May.put Q hmay
        exact ⟨i, b, f, batchOf_grows hrec hb, hk.imp_left And.right⟩

/-! ## Reachable states -/

/-- The states that a deployment can reach. -/
def Reachable (C : Classifier) (s : Pipeline) : Prop :=
  ∃ users dropZone es, Run (Steps (step C)) (start users dropZone) es s

/-- What holds of the stores of every reachable state. -/
structure Sound (s : Pipeline) : Prop where
  kept : s.Kept
  locked : s.Locked
  batches : s.Batches
  queue : s.Queue
  saved : s.Saved
  objects : s.Objects

theorem Sound.start (users : Table String UserORM (·.id))
    (dropZone : Table String RemoteFile (·.filename)) : (start users dropZone).Sound where
  kept := .start users dropZone
  locked := .start users dropZone
  batches := .start users dropZone
  queue := .start users dropZone
  saved := .start users dropZone
  objects := .start users dropZone

theorem Sound.step (H : s.Sound) (h : s.step C e = some s') : s'.Sound where
  kept := H.kept.step h
  locked := H.locked.step h
  batches := H.batches.step H.kept H.locked h
  queue := H.queue.step H.batches H.kept H.locked h
  saved := H.saved.step H.kept H.locked h
  objects := H.objects.step H.queue H.batches H.kept H.locked h

theorem Sound.run {es : List Event} (H : s.Sound) (h : Run (Steps (Pipeline.step C)) s es s') :
    s'.Sound :=
  h.inv (fun _ _ _ H h => H.step h) H

theorem Reachable.sound (h : Reachable C s) : s.Sound := by
  obtain ⟨users, dropZone, es, h⟩ := h
  exact (Sound.start users dropZone).run h

/-! ## A small deployment -/

/-- A classifier that finds letters only and draws nothing. -/
def letters : Classifier :=
  ⟨fun _ => some ("letter", 1), fun imageBytes _ _ => some imageBytes⟩

def oneScan : Table String RemoteFile (·.filename) :=
  ⟨[⟨"a.tif", [73]⟩], List.nodup_singleton "a.tif"⟩

def twoScans : Table String RemoteFile (·.filename) :=
  ⟨[⟨"a.tif", [73]⟩, ⟨"b.tif", [77]⟩], by decide⟩

/-- The users of a deployment with one admin. -/
def uploaders : Table String UserORM (·.id) :=
  ⟨[{ id := "ada", email := "ada@x", hashedPassword := "", role := .admin, createdAt := 0 }],
    List.nodup_singleton "ada"⟩

def uploader : User :=
  { id := "ada", email := "ada@x", role := .admin, isActive := true, createdAt := 0 }

/-- The next step succeeds, with the given id where it takes one. -/
def ok (uuid : String) (plain : '/' ∉ uuid.toList := by decide) : Tick := .ok ⟨uuid, 0, plain⟩

end Pipeline

end DocClassifier
