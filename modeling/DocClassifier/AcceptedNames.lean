import DocClassifier.FileNames

/-!
# Accepted names

The two validators disagree exactly on names that are nothing but an extension, such as `.tif`; two
accepted names share an overlay key exactly when dropping the extensions leaves one base; and the
worker reads a name back from its key exactly when it has no slash.
-/

namespace DocClassifier

open LastSplit BlobStorage PurePosixPath

variable {f f' : String} {data : Bytes}

theorem length_of_extension {base ext : List Char} (hn : f.toList = base ++ ext)
    (hext : IsExtension (String.ofList ext)) : 1 < f.toList.length := by
  obtain ⟨e, rfl, hne, -, -⟩ := hext.split
  have hpos := List.length_pos_iff.2 hne
  rw [hn, List.length_append, List.length_cons]
  omega

theorem name_of_length (hf : '/' ∉ f.toList) (hlen : 1 < f.toList.length) : name f = f := by
  refine name_of_not_slash hf ?_ ?_
  · rintro rfl
    exact absurd hlen (by decide)
  · rintro rfl
    exact absurd hlen (by decide)

theorem name_of_ne_empty (hf : '/' ∉ f.toList) (hne : name f ≠ "") : name f = f := by
  refine name_of_not_slash hf ?_ ?_
  · rintro rfl
    exact hne (by decide)
  · rintro rfl
    exact hne (by decide)

/-- Without slashes the upload route also accepts names that are all extension. -/
theorem uploadExtension_suffix_iff (hf : '/' ∉ f.toList) :
    uploadExtension f ∈ VALID_EXTENSIONS ↔ IsExtension (suffix f) ∨ IsExtension f := by
  rw [uploadExtension_iff, suffix_extension_iff]
  constructor
  · rintro ⟨base, ext, hn, hext⟩
    by_cases hbase : base = []
    · refine .inr ?_
      rw [hbase, List.nil_append] at hn
      rwa [← String.ofList_toList (s := f), hn]
    · have hname := name_of_length hf (length_of_extension hn hext)
      exact .inl ⟨base, ext, hbase, by rw [hname, hn], hext⟩
  · rintro (⟨base, ext, hbase, hn, hext⟩ | hext)
    · have hname : name f = f := by
        refine name_of_ne_empty hf fun hempty => ?_
        rw [hempty] at hn
        exact List.append_ne_nil_of_left_ne_nil hbase _ hn.symm
      exact ⟨base, ext, by rw [← hn, hname], hext⟩
    · exact ⟨[], f.toList, rfl, by rwa [String.ofList_toList]⟩

/-- A name that is all extension has no suffix. -/
theorem not_suffix_of_isExtension (hf : '/' ∉ f.toList) (h : IsExtension f) :
    ¬ IsExtension (suffix f) := by
  intro hs
  obtain ⟨base, ext, hbase, hn, hext⟩ := suffix_extension_iff.1 hs
  rw [← String.ofList_toList (s := f)] at h
  have hname := name_of_length hf (length_of_extension (List.nil_append _).symm h)
  obtain ⟨e, he, -, hdot, -⟩ := h.split
  obtain ⟨e', rfl, -, hdot', -⟩ := hext.split
  have heq : [] ++ '.' :: e = base ++ '.' :: e' := by
    rw [List.nil_append, ← he, ← hn, hname]
  exact hbase (split_inj hdot hdot' heq).1.symm

/-- The two ingest paths agree on a document, unless its name is all extension. -/
theorem validators_agree_iff (hf : '/' ∉ f.toList) (data : Bytes) :
    (UploadAccepts f data ↔ rejectReason f data = none) ↔
      (data = [] ∨ MAX_FILE_BYTES < data.length ∨ ¬ IsExtension f) := by
  rw [uploadAccepts_iff, rejectReason_eq_none, uploadExtension_suffix_iff hf]
  change (data ≠ [] ∧ _ ∧ _ ↔ data ≠ [] ∧ IsExtension (suffix f) ∧ _) ↔ _
  by_cases hdata : data = []
  · exact iff_of_true (iff_of_false (fun h => h.1 hdata) (fun h => h.1 hdata)) (.inl hdata)
  by_cases hsize : data.length ≤ MAX_FILE_BYTES
  · by_cases hext : IsExtension f
    · refine iff_of_false ?_ ?_
      · intro h
        exact not_suffix_of_isExtension hf hext (h.1 ⟨hdata, .inr hext, hsize⟩).2.1
      · rintro (h | h | h)
        · exact hdata h
        · exact Nat.not_lt.2 hsize h
        · exact h hext
    · exact iff_of_true (by rw [or_iff_left hext]) (.inr (.inr hext))
  · refine iff_of_true (iff_of_false ?_ ?_) (.inr (.inl (Nat.not_le.1 hsize)))
    · exact fun h => hsize h.2.2
    · exact fun h => hsize h.2.2

theorem validators_agree_on_scan :
    UploadAccepts "scan.TIF" [77] ↔ rejectReason "scan.TIF" [77] = none :=
  (validators_agree_iff (by decide) [77]).2 (.inr (.inr (by decide)))

theorem validators_disagree : ¬ ∀ (f : String) (data : Bytes), '/' ∉ f.toList →
    (UploadAccepts f data ↔ rejectReason f data = none) := by
  intro h
  have hup : UploadAccepts ".tif" [77] :=
    uploadAccepts_iff.2 ⟨by decide, by decide, by decide⟩
  exact absurd ((h ".tif" [77] (by decide)).1 hup) (by decide)

/-! ## Overlay keys -/

/-- A name that one of the two validators lets through, with some content. -/
def Accepted (f : String) : Prop :=
  ∃ data, rejectReason f data = none ∨ UploadAccepts f data

/-- `stem` drops `ext` from the last component `base ++ ext` of an accepted name: an accepted
extension after a base, and nothing when the component is all extension. -/
def StemDrops (base ext : String) : Prop :=
  (base ≠ "" ∧ IsExtension ext) ∨ (ext = "" ∧ IsExtension base)

theorem stem_of_stemDrops {base ext : String} (hn : name f = base ++ ext)
    (h : StemDrops base ext) : stem f = base := by
  rcases h with ⟨hbase, hext⟩ | ⟨rfl, hext⟩
  · rw [← String.ofList_toList (s := ext)] at hext
    have hn' : (name f).toList = base.toList ++ ext.toList := by
      rw [hn, String.toList_append]
    have hne : base.toList ≠ [] := fun h => hbase (String.toList_inj.1 h)
    rw [(suffix_stem_of_extension hne hn' hext).2, String.ofList_toList]
  · rw [String.append_empty] at hn
    rw [stem_of_all_extension (hn ▸ hext), hn]

theorem stemDrops_of_split {base ext : List Char} (hn : (name f).toList = base ++ ext)
    (hext : IsExtension (String.ofList ext)) :
    ∃ dropped, name f = stem f ++ dropped ∧ StemDrops (stem f) dropped := by
  by_cases hbase : base = []
  · rw [hbase, List.nil_append] at hn
    rw [← hn, String.ofList_toList] at hext
    have hstem := stem_of_all_extension hext
    exact ⟨"", by rw [hstem, String.append_empty], .inr ⟨rfl, hstem.symm ▸ hext⟩⟩
  · have hstem := (suffix_stem_of_extension hbase hn hext).2
    refine ⟨String.ofList ext, ?_, .inl ⟨?_, hext⟩⟩
    · rw [hstem, ← String.ofList_append, ← hn, String.ofList_toList]
    · rw [hstem]
      exact fun h => hbase (by simpa using congrArg String.toList h)

theorem Accepted.stemDrops (h : Accepted f) :
    ∃ dropped, name f = stem f ++ dropped ∧ StemDrops (stem f) dropped := by
  obtain ⟨data, h | h⟩ := h
  · obtain ⟨base, ext, -, hn, hext⟩ := suffix_extension_iff.1 (rejectReason_eq_none.1 h).2.1
    exact stemDrops_of_split hn hext
  · obtain ⟨base, ext, hn, hext⟩ := uploadExtension_iff.1 (uploadAccepts_iff.1 h).2.1
    obtain ⟨e, rfl, hne, -, hslash⟩ := hext.split
    have hlast : afterLast '/' f.toList = afterLast '/' base ++ '.' :: e := by
      rw [hn]
      exact afterLast_append fun hm => (List.mem_cons.1 hm).elim (by decide) hslash
    have hname : name f = String.ofList (afterLast '/' base ++ '.' :: e) := by
      rw [← hlast]
      refine name_of_afterLast ?_ ?_
      · rw [hlast]
        exact List.append_ne_nil_of_right_ne_nil _ (List.cons_ne_nil _ _)
      · intro hone
        have hlen := congrArg List.length (hlast.symm.trans hone)
        have hpos := List.length_pos_iff.2 hne
        rw [List.length_append, List.length_cons, List.length_singleton] at hlen
        omega
    exact stemDrops_of_split (by rw [hname, String.toList_ofList]) hext

theorem overlayKey_eq_iff {b : String} : overlayKey b f = overlayKey b f' ↔ stem f = stem f' := by
  constructor
  · intro h
    have h' := congrArg String.toList h
    rw [overlayKey_toList, overlayKey_toList] at h'
    simpa [String.toList_inj] using h'
  · intro h
    rw [overlayKey, overlayKey, h]

/-- Overlays are kept apart, unless two last components are one base with accepted extensions. -/
theorem overlayKey_ne_iff (hf : Accepted f) (hf' : Accepted f') (b : String) :
    overlayKey b f ≠ overlayKey b f' ↔
      ¬ ∃ base ext ext', name f = base ++ ext ∧ name f' = base ++ ext' ∧
        StemDrops base ext ∧ StemDrops base ext' := by
  refine not_congr (overlayKey_eq_iff.trans ?_)
  constructor
  · intro h
    obtain ⟨ext, hn, hd⟩ := hf.stemDrops
    obtain ⟨ext', hn', hd'⟩ := hf'.stemDrops
    rw [← h] at hn' hd'
    exact ⟨stem f, ext, ext', hn, hn', hd, hd'⟩
  · rintro ⟨base, ext, ext', hn, hn', hd, hd'⟩
    rw [stem_of_stemDrops hn hd, stem_of_stemDrops hn' hd']

private theorem accepted_of_upload (hext : uploadExtension f ∈ VALID_EXTENSIONS) : Accepted f :=
  ⟨[77], .inr (uploadAccepts_iff.2 ⟨by decide, hext, by decide⟩)⟩

theorem overlayKey_ne_two_scans : ¬ ∃ base ext ext', name "a.tif" = base ++ ext ∧
    name "b.TIFF" = base ++ ext' ∧ StemDrops base ext ∧ StemDrops base ext' :=
  (overlayKey_ne_iff (accepted_of_upload (by decide)) (accepted_of_upload (by decide)) "1").1
    (by decide)

/-- Two scans of one request, told apart by the length of the extension only. -/
theorem overlays_collide : ¬ ∀ (b f f' : String), Accepted f → Accepted f' → f ≠ f' →
    overlayKey b f ≠ overlayKey b f' := by
  intro h
  exact h "1" "a.tif" "a.tiff" (accepted_of_upload (by decide)) (accepted_of_upload (by decide))
    (by decide) (by decide)

/-! ## The name the worker reads back -/

/-- `rsplit("/", 1)` on the key of an original gives the uploaded name, unless that has a slash. -/
theorem rsplitLast_originalKey_iff (b f : String) :
    rsplitLast (originalKey b f) = f ↔ '/' ∉ f.toList := by
  have hkey : (originalKey b f).toList =
      ("batches/".toList ++ (b.toList ++ '/' :: "original".toList)) ++ '/' :: f.toList := by
    rw [originalKey_toList]
    simp only [List.append_assoc, List.cons_append]
  rw [← afterLast_append_cons_eq_iff (c := '/') (b := f.toList), ← hkey, ← String.toList_inj,
    rsplitLast, String.toList_ofList]
  rfl

/-- A multipart name may be a path; the directories are lost on the way to the worker. -/
theorem worker_loses_directories : ¬ ∀ (b f : String), Accepted f →
    rsplitLast (originalKey b f) = f := by
  intro h
  exact absurd (h "1" "x/a.tif" (accepted_of_upload (by decide))) (by decide)

end DocClassifier
