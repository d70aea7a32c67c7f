import DocClassifier.Lib.LastSplit
import DocClassifier.Ingest

/-!
# File names

Which names the two ingest paths accept, and what the worker and `overlay_key` make of them. The
watcher reads the suffix with `PurePosixPath.suffix`, `POST /upload/` splits at the last dot; both
are described by writing a name as `base ++ ext` with an accepted extension `ext`.
-/

namespace DocClassifier

open LastSplit BlobStorage

/-- An accepted extension, in any letter case. -/
def IsExtension (ext : String) : Prop := lower ext ∈ VALID_EXTENSIONS

instance : DecidablePred IsExtension := fun ext =>
  inferInstanceAs (Decidable (lower ext ∈ VALID_EXTENSIONS))

theorem toLower_eq_dot {c : Char} (h : c.toLower = '.') : c = '.' := by
  unfold Char.toLower at h
  split at h
  · rename_i hc
    -- Lowering a capital gives a letter.
    have h32 : c.val + 32 = 46 := congrArg Char.val h
    have h65 : 65 ≤ c.val := hc.1
    have h90 : c.val ≤ 90 := hc.2
    have hnat := congrArg UInt32.toNat h32
    rw [UInt32.le_iff_toNat_le] at h65 h90
    simp at hnat h65 h90
    omega
  · exact h

theorem isExtension_iff {ext : List Char} : IsExtension (String.ofList ext) ↔
    ext.map Char.toLower ∈ [".tiff".toList, ".tif".toList] := by
  simp only [IsExtension, lower, VALID_EXTENSIONS, String.toList_ofList, List.mem_cons,
    List.not_mem_nil, or_false, ← String.toList_inj]

/-- An accepted extension is a dot and at least one other character, none of them a dot or slash. -/
theorem IsExtension.split {ext : List Char} (h : IsExtension (String.ofList ext)) :
    ∃ e, ext = '.' :: e ∧ e ≠ [] ∧ '.' ∉ e ∧ '/' ∉ e := by
  have h := isExtension_iff.1 h
  cases ext with
  | nil => exact absurd h (by decide)
  | cons c e =>
    rw [List.map_cons] at h
    have hmem : c.toLower = '.' ∧ e.map Char.toLower ∈ ["tiff".toList, "tif".toList] := by
      rcases List.mem_cons.1 h with h | h
      · obtain ⟨h1, h2⟩ := List.cons.inj h
        exact ⟨h1, by rw [h2]; decide⟩
      · obtain ⟨h1, h2⟩ := List.cons.inj (List.mem_singleton.1 h)
        exact ⟨h1, by rw [h2]; decide⟩
    have hno : ∀ x : Char, (∀ w ∈ ["tiff".toList, "tif".toList], x.toLower ∉ w) → x ∉ e :=
      fun x hx hxe => hx _ hmem.2 (List.mem_map_of_mem hxe)
    refine ⟨e, by rw [toLower_eq_dot hmem.1], ?_, hno '.' (by decide), hno '/' (by decide)⟩
    rintro rfl
    exact absurd hmem.2 (by decide)

/-! ## The parts of a name -/

namespace PurePosixPath

/-- The last component is what follows the last slash, when that is a proper name. -/
theorem name_of_afterLast {f : String} (h : afterLast '/' f.toList ≠ [])
    (h' : afterLast '/' f.toList ≠ ['.']) : name f = String.ofList (afterLast '/' f.toList) := by
  obtain ⟨parts, hparts⟩ :=
    List.getLast?_eq_some_iff.1 (getLast?_splitOn (c := '/') (l := f.toList))
  rw [name, hparts, List.filter_append, List.filter_singleton]
  simp [h, h']

theorem name_of_not_slash {f : String} (h : '/' ∉ f.toList) (hne : f ≠ "") (hdot : f ≠ ".") :
    name f = f := by
  have hlast := afterLast_of_not_mem h
  rw [name_of_afterLast, hlast, String.ofList_toList]
  · rw [hlast]
    exact fun hnil => hne (String.toList_inj.1 hnil)
  · rw [hlast]
    exact fun hone => hdot (String.toList_inj.1 hone)

theorem rfindDot_append {n : String} {base e : List Char} (hn : n.toList = base ++ '.' :: e)
    (he : '.' ∉ e) : rfindDot n = if base ≠ [] ∧ e ≠ [] then some base.length else none := by
  have hmem : '.' ∈ base ++ '.' :: e := List.mem_append_right _ List.mem_cons_self
  have hlen : (base ++ '.' :: e).length - 1 - e.length = base.length := by
    rw [List.length_append, List.length_cons]
    omega
  have hpos : (0 < base.length ∧ base.length < (base ++ '.' :: e).length - 1) ↔
      base ≠ [] ∧ e ≠ [] := by
    rw [List.length_append, List.length_cons, ← List.length_pos_iff, ← List.length_pos_iff]
    omega
  simp only [rfindDot, hn, idxOf_reverse he, hlen, hmem, true_and, hpos]

theorem rfindDot_of_not_mem {n : String} (h : '.' ∉ n.toList) : rfindDot n = none := by
  simp only [rfindDot, h, false_and, if_false]

theorem suffix_of_dot {f : String} {i : Nat} (h : rfindDot (name f) = some i) :
    suffix f = String.ofList ((name f).toList.drop i) := by
  unfold suffix
  rw [h]

theorem suffix_of_no_dot {f : String} (h : rfindDot (name f) = none) : suffix f = "" := by
  unfold suffix
  rw [h]

/-- The base of a name with an accepted extension is its stem, and the extension its suffix. -/
theorem suffix_stem_of_extension {f : String} {base ext : List Char} (hbase : base ≠ [])
    (hn : (name f).toList = base ++ ext) (hext : IsExtension (String.ofList ext)) :
    suffix f = String.ofList ext ∧ stem f = String.ofList base := by
  obtain ⟨e, rfl, hne, he, -⟩ := hext.split
  have hdot := rfindDot_append hn he
  rw [if_pos ⟨hbase, hne⟩] at hdot
  rw [suffix_of_dot hdot, hn, List.drop_left]
  unfold stem
  rw [hdot]
  dsimp only
  rw [hn, List.take_left]
  exact ⟨rfl, rfl⟩

/-- A name that is all extension has no suffix. -/
theorem stem_of_all_extension {f : String} (hext : IsExtension (name f)) : stem f = name f := by
  rw [← String.ofList_toList (s := name f)] at hext
  obtain ⟨e, hn, -, he, -⟩ := hext.split
  have hdot := @rfindDot_append _ [] e hn he
  rw [if_neg (fun h => h.1 rfl)] at hdot
  unfold stem
  rw [hdot]

theorem suffix_extension_iff {f : String} : IsExtension (suffix f) ↔
    ∃ base ext, base ≠ [] ∧ (name f).toList = base ++ ext ∧ IsExtension (String.ofList ext) := by
  constructor
  · intro h
    by_cases hdot : '.' ∈ (name f).toList
    · obtain ⟨base, e, hn, he⟩ := exists_split hdot
      have hr := rfindDot_append hn he
      by_cases hb : base ≠ [] ∧ e ≠ []
      · rw [if_pos hb] at hr
        have hs : suffix f = String.ofList ('.' :: e) := by
          rw [suffix_of_dot hr, hn, List.drop_left]
        exact ⟨base, '.' :: e, hb.1, hn, hs ▸ h⟩
      · rw [if_neg hb] at hr
        rw [suffix_of_no_dot hr] at h
        exact absurd h (by decide)
    · rw [suffix_of_no_dot (rfindDot_of_not_mem hdot)] at h
      exact absurd h (by decide)
  · rintro ⟨base, ext, hbase, hn, hext⟩
    rw [(suffix_stem_of_extension hbase hn hext).1]
    exact hext

end PurePosixPath

open PurePosixPath

theorem dot_append_lower (e : List Char) :
    "." ++ lower (String.ofList e) = lower (String.ofList ('.' :: e)) := by
  rw [← String.toList_inj]
  simp only [lower, String.toList_append, String.toList_ofList]
  rfl

theorem uploadExtension_iff {f : String} : uploadExtension f ∈ VALID_EXTENSIONS ↔
    ∃ base ext, f.toList = base ++ ext ∧ IsExtension (String.ofList ext) := by
  have hlast : ∀ base e : List Char, f.toList = base ++ '.' :: e → '.' ∉ e →
      uploadExtension f = lower (String.ofList ('.' :: e)) := by
    intro base e hn he
    have hdot : '.' ∈ f.toList := hn ▸ List.mem_append_right _ List.mem_cons_self
    rw [uploadExtension, if_pos hdot, hn, ← dot_append_lower]
    exact congrArg (fun e => "." ++ lower (String.ofList e)) (afterLast_append_cons he)
  constructor
  · intro h
    by_cases hdot : '.' ∈ f.toList
    · obtain ⟨base, e, hn, he⟩ := exists_split hdot
      rw [hlast base e hn he] at h
      exact ⟨base, '.' :: e, hn, h⟩
    · rw [uploadExtension, if_neg hdot] at h
      exact absurd h (by decide)
  · rintro ⟨base, ext, hn, hext⟩
    obtain ⟨e, rfl, -, he, -⟩ := hext.split
    rw [hlast base e hn he]
    exact hext

/-! ## The checks of POST /upload/ -/

/-- What `upload_documents` checks of each file. -/
structure UploadFile.Ok (f : UploadFile) : Prop where
  extension : uploadExtension (f.filename.getD "") ∈ VALID_EXTENSIONS
  nonempty : f.content ≠ []
  size : f.content.length ≤ MAX_FILE_BYTES

/-- The name of an accepted file is never replaced by a generated one. -/
theorem UploadFile.Ok.name_ne {f : UploadFile} (h : f.Ok) : f.filename.getD "" ≠ "" := by
  intro hname
  have hext := h.extension
  rw [hname] at hext
  exact absurd hext (by decide)

theorem validateUpload_of_ok {uuid : String} {files : List UploadFile} (hne : files ≠ [])
    (h : ∀ f ∈ files, f.Ok) : validateUpload uuid files =
      .ok (files.map fun f => (f.filename.getD "", f.content)) := by
  have hfind : files.find? (fun f => uploadExtension (f.filename.getD "") ∉ VALID_EXTENSIONS) =
      none := by
    rw [List.find?_eq_none]
    intro f hf
    simpa using (h f hf).extension
  simp only [validateUpload, if_neg hne, hfind]
  refine mapM_eq_ok fun f hf => ?_
  have hok := h f hf
  simp only [hok.nonempty, if_false, Nat.not_lt.2 hok.size, hok.name_ne]
  rfl

theorem validateUpload_of_not_ok {uuid : String} {files : List UploadFile}
    (h : files = [] ∨ ∃ f ∈ files, ¬ f.Ok) :
    ∃ e, validateUpload uuid files = .error e ∧ e.statusCode = 422 := by
  unfold validateUpload
  by_cases hne : files = []
  · rw [if_pos hne]
    exact ⟨_, rfl, rfl⟩
  rw [if_neg hne]
  beta_reduce
  split
  · exact ⟨_, rfl, rfl⟩
  · rename_i hfind
    obtain ⟨f, hf, hbad⟩ := h.resolve_left hne
    rw [List.find?_eq_none] at hfind
    have hext : uploadExtension (f.filename.getD "") ∈ VALID_EXTENSIONS := by
      simpa using hfind f hf
    refine mapM_eq_error ?_ ⟨f, hf, ?_⟩
    · intro a e ha
      split at ha
      · cases ha
        rfl
      · split at ha
        · cases ha
          rfl
        · cases ha
    · intro b hb
      split at hb
      · cases hb
      · rename_i hnil
        split at hb
        · cases hb
        · rename_i hsize
          exact hbad ⟨hext, hnil, Nat.not_lt.1 hsize⟩

/-- What is read from a request that passes the validation. -/
theorem validateUpload_data {uuid : String} {files : List UploadFile}
    {fileData : List (String × Bytes)} (h : validateUpload uuid files = .ok fileData) :
    fileData = files.map fun f => (f.filename.getD "", f.content) := by
  by_cases hbad : files = [] ∨ ∃ f ∈ files, ¬ f.Ok
  · obtain ⟨e, he, -⟩ := @validateUpload_of_not_ok uuid files hbad
    rw [h] at he
    cases he
  · rw [not_or] at hbad
    have hok : ∀ f ∈ files, f.Ok := fun f hf => not_not.mp fun hf' => hbad.2 ⟨f, hf, hf'⟩
    rw [validateUpload_of_ok hbad.1 hok] at h
    exact (Except.ok.inj h).symm

/-- A request that consists of one file is accepted. -/
def UploadAccepts (filename : String) (data : Bytes) : Prop :=
  ∀ uuid, ∃ fileData, validateUpload uuid [⟨some filename, data⟩] = .ok fileData

theorem uploadAccepts_iff {filename : String} {data : Bytes} : UploadAccepts filename data ↔
    data ≠ [] ∧ uploadExtension filename ∈ VALID_EXTENSIONS ∧ data.length ≤ MAX_FILE_BYTES := by
  constructor
  · intro h
    by_cases hok : UploadFile.Ok ⟨some filename, data⟩
    · exact ⟨hok.nonempty, hok.extension, hok.size⟩
    · obtain ⟨fileData, hv⟩ := h ""
      obtain ⟨e, he, -⟩ := @validateUpload_of_not_ok "" _
        (.inr ⟨_, List.mem_singleton_self _, hok⟩)
      rw [hv] at he
      cases he
  · rintro ⟨hne, hext, hsize⟩ uuid
    refine ⟨_, validateUpload_of_ok (List.cons_ne_nil _ _) fun f hf => ?_⟩
    rw [List.mem_singleton.1 hf]
    exact ⟨hext, hne, hsize⟩

end DocClassifier
