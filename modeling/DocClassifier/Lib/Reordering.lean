import Mathlib.Data.List.Sort

/-!
# Folds over a reordered list

A list may be read in another order as long as the elements with the same key keep theirs
(`SameByKey`). A fold over it gives the same for what depends on the elements of one key only
(`SameByKey.foldl`). Sorting is such a reordering if the elements of each key are in order already
(`sameByKey_mergeSort`).
-/

variable {α β γ κ : Type} [DecidableEq κ] {key : α → κ} {l l' : List α}

/-- Each key has the same elements in both lists, in the same order. -/
def SameByKey (key : α → κ) (l l' : List α) : Prop :=
  ∀ k, l'.filter (key · = k) = l.filter (key · = k)

/-- What is seen of a fold when only the elements with the key `k` change it. -/
theorem obs_foldl_filter {f : β → α → β} (obs : β → γ) (k : κ)
    (hcongr : ∀ b b' a, obs b = obs b' → obs (f b a) = obs (f b' a))
    (hskip : ∀ b a, key a ≠ k → obs (f b a) = obs b) {b b' : β} (h : obs b = obs b') :
    obs ((l.filter (key · = k)).foldl f b) = obs (l.foldl f b') := by
  induction l generalizing b b' with
  | nil => exact h
  | cons a l ih =>
    rw [List.filter_cons]
    split
    · exact ih (hcongr b b' a h)
    · rename_i hk
      exact ih (h.trans (hskip b' a (by simpa using hk)).symm)

theorem SameByKey.foldl {f : β → α → β} (h : SameByKey key l l') (obs : β → γ) (k : κ)
    (hcongr : ∀ b b' a, obs b = obs b' → obs (f b a) = obs (f b' a))
    (hskip : ∀ b a, key a ≠ k → obs (f b a) = obs b) (b : β) :
    obs (l'.foldl f b) = obs (l.foldl f b) := by
  have hfold (l : List α) : obs ((l.filter (key · = k)).foldl f b) = obs (l.foldl f b) :=
    obs_foldl_filter obs k hcongr hskip rfl
  rw [← hfold l, ← hfold l', h k]

/-- Sorting by `rank` keeps the order of the elements of a key that come in the order of `rank`. -/
theorem sameByKey_mergeSort {rank : α → Nat}
    (h : ∀ k, (l.filter (key · = k)).Pairwise (rank · ≤ rank ·)) :
    SameByKey key l (l.mergeSort (rank · ≤ rank ·)) := by
  intro k
  have hsorted : (l.filter (key · = k)).Sublist (l.mergeSort (rank · ≤ rank ·)) := by
    refine List.sublist_mergeSort (fun a b c => ?_) (fun a b => ?_)
      ((h k).imp (decide_eq_true ·)) List.filter_sublist
    · simpa using le_trans
    · simpa using le_total (rank a) (rank b)
  have hsub := hsorted.filter (key · = k)
  simp only [List.filter_filter, Bool.and_self] at hsub
  have hlen := ((List.mergeSort_perm l (rank · ≤ rank ·)).filter (key · = k)).length_eq
  exact (hsub.eq_of_length hlen.symm).symm
