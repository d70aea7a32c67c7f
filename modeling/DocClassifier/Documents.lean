import DocClassifier.Lib.Lists
import Mathlib.Tactic.Common

/-!
# Documents and their keys

File names as `pathlib.PurePosixPath` and `str.rsplit` read them, the object keys of
`app/infra/blob.py`, and the validation of `_reject_reason` in `app/infra/sftp_watcher.py`. Python's
`lower` is modelled on ASCII letters; no other letter lowers to one of `.tif` and `.tiff`.
-/

namespace DocClassifier

abbrev Bytes := List UInt8

def MAX_FILE_BYTES : Nat := 100 * 1024 * 1024

def VALID_EXTENSIONS : List String := [".tiff", ".tif"]

/-- `s.lower()`. -/
def lower (s : String) : String := String.ofList (s.toList.map Char.toLower)

/-- `s.rsplit("/", 1)[-1]`. -/
def rsplitLast (s : String) : String :=
  String.ofList (s.toList.reverse.takeWhile (· ≠ '/')).reverse

namespace PurePosixPath

/-- The last component that is neither empty nor `.`, or the empty string. -/
def name (s : String) : String :=
  let parts := (s.toList.splitOn '/').filter fun part => part ≠ [] ∧ part ≠ ['.']
  String.ofList (parts.getLast?.getD [])

/-- The length of the part of a name before its last dot, when that dot is neither its first nor
its last character. -/
def rfindDot (name : String) : Option Nat :=
  let i := name.toList.length - 1 - name.toList.reverse.idxOf '.'
  if '.' ∈ name.toList ∧ 0 < i ∧ i < name.toList.length - 1 then some i else none

def suffix (s : String) : String :=
  match rfindDot (name s) with
  | some i => String.ofList ((name s).toList.drop i)
  | none => ""

def stem (s : String) : String :=
  match rfindDot (name s) with
  | some i => String.ofList ((name s).toList.take i)
  | none => name s

end PurePosixPath

/-- The digits of a number from the last one on, with a comma after every third. -/
def groupDigits : List Char → List Char
  | a :: b :: c :: d :: digits => a :: b :: c :: ',' :: groupDigits (d :: digits)
  | digits => digits

/-- `f"{n:,}"`. -/
def commas (n : Nat) : String := String.ofList (groupDigits (Nat.toDigits 10 n).reverse).reverse

/-- `_reject_reason`. -/
def rejectReason (filename : String) (data : Bytes) : Option String :=
  let suffix := lower (PurePosixPath.suffix filename)
  if data = [] then some "zero-byte file"
  else if suffix ∉ VALID_EXTENSIONS then
    some ("unsupported extension '" ++ suffix ++ "' (accepted: .tiff, .tif)")
  else if data.length > MAX_FILE_BYTES then
    some ("file too large: " ++ commas data.length ++ " bytes (cap " ++ commas MAX_FILE_BYTES ++
      ")")
  else none

/-- The documents that are accepted. -/
theorem rejectReason_eq_none {filename : String} {data : Bytes} :
    rejectReason filename data = none ↔ data ≠ [] ∧
      lower (PurePosixPath.suffix filename) ∈ VALID_EXTENSIONS ∧
        data.length ≤ MAX_FILE_BYTES := by
  simp only [rejectReason]
  split
  · simp_all
  · split
    · simp_all
    · split <;> simp_all

/-! ## Object keys -/

namespace BlobStorage

def originalKey (batchId filename : String) : String :=
  "batches/" ++ batchId ++ "/original/" ++ filename

def overlayKey (batchId filename : String) : String :=
  "batches/" ++ batchId ++ "/overlay/" ++ PurePosixPath.stem filename ++ ".png"

def quarantineKey (batchId filename : String) : String :=
  "quarantine/" ++ batchId ++ "/" ++ filename

end BlobStorage

open BlobStorage

variable {b b' f f' : String}

theorem originalKey_toList : (originalKey b f).toList =
    "batches/".toList ++ (b.toList ++ '/' :: ("original".toList ++ '/' :: f.toList)) := by
  simp [originalKey, String.toList_append]

theorem overlayKey_toList : (overlayKey b f).toList = "batches/".toList ++
    (b.toList ++ '/' :: ("overlay".toList ++ '/' ::
      ((PurePosixPath.stem f).toList ++ ".png".toList))) := by
  simp [overlayKey, String.toList_append]

theorem quarantineKey_toList :
    (quarantineKey b f).toList = "quarantine/".toList ++ (b.toList ++ '/' :: f.toList) := by
  simp [quarantineKey, String.toList_append]

/-- Within a batch the key of an original determines its file name. -/
theorem originalKey_filename (h : originalKey b f = originalKey b f') : f = f' := by
  have h' := congrArg String.toList h
  rw [originalKey_toList, originalKey_toList] at h'
  simpa [String.toList_inj] using h'

theorem originalKey_inj (hb : '/' ∉ b.toList) (hb' : '/' ∉ b'.toList)
    (h : originalKey b f = originalKey b' f') : b = b' ∧ f = f' := by
  have h' := congrArg String.toList h
  rw [originalKey_toList, originalKey_toList] at h'
  obtain ⟨h1, -⟩ := append_sep_inj hb hb' (List.append_cancel_left h')
  rw [String.toList_inj] at h1
  subst h1
  exact ⟨rfl, originalKey_filename h⟩

theorem originalKey_ne_overlayKey (hb : '/' ∉ b.toList) (hb' : '/' ∉ b'.toList) :
    originalKey b f ≠ overlayKey b' f' := by
  intro h
  have h' := congrArg String.toList h
  rw [originalKey_toList, overlayKey_toList] at h'
  obtain ⟨-, h2⟩ := append_sep_inj hb hb' (List.append_cancel_left h')
  obtain ⟨h3, -⟩ := append_sep_inj (by decide) (by decide) h2
  exact absurd h3 (by decide)

theorem quarantineKey_filename (h : quarantineKey b f = quarantineKey b f') : f = f' := by
  have h' := congrArg String.toList h
  rw [quarantineKey_toList, quarantineKey_toList] at h'
  simpa [String.toList_inj] using h'

theorem quarantineKey_inj (hb : '/' ∉ b.toList) (hb' : '/' ∉ b'.toList)
    (h : quarantineKey b f = quarantineKey b' f') : b = b' ∧ f = f' := by
  have h' := congrArg String.toList h
  rw [quarantineKey_toList, quarantineKey_toList] at h'
  obtain ⟨h1, h2⟩ := append_sep_inj hb hb' (List.append_cancel_left h')
  exact ⟨String.toList_inj.mp h1, String.toList_inj.mp h2⟩

theorem originalKey_ne_quarantineKey : originalKey b f ≠ quarantineKey b' f' := by
  intro h
  have h' := congrArg (fun s => s.toList.head?) h
  simp [originalKey_toList, quarantineKey_toList] at h'

theorem overlayKey_ne_quarantineKey : overlayKey b f ≠ quarantineKey b' f' := by
  intro h
  have h' := congrArg (fun s => s.toList.head?) h
  simp [overlayKey_toList, quarantineKey_toList] at h'

/-- The worker reads the file name of a slash-free name back from the key. -/
theorem rsplitLast_originalKey (hf : '/' ∉ f.toList) : rsplitLast (originalKey b f) = f := by
  have h : (originalKey b f).toList.reverse = f.toList.reverse ++
      '/' :: ("batches/".toList ++ (b.toList ++ '/' :: "original".toList)).reverse := by
    simp [originalKey_toList]
  have hall : ∀ c ∈ f.toList.reverse, decide (c ≠ '/') = true := by
    intro c hc
    have hne : c ≠ '/' := fun heq => hf (heq ▸ List.mem_reverse.mp hc)
    simpa using hne
  rw [rsplitLast, h, List.takeWhile_append_of_pos hall]
  simp

example : commas MAX_FILE_BYTES = "104,857,600" := by decide

example : PurePosixPath.suffix "scan.TIF" = ".TIF" ∧ PurePosixPath.stem ".tif" = ".tif" := by
  decide

end DocClassifier
