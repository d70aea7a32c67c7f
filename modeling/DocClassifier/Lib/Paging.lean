import Mathlib.Data.List.NodupEquivFin
import Mathlib.Order.WellFounded
import Mathlib.Tactic.Common

/-!
# Pages of a list that grows

A client reads the pages of a list one after the other, and the list grows between the reads. An
element never comes to stand further ahead, so the client does not miss it: when it has left the
page that is read next, it is on the page after that. It may be read twice, but no more is read than
the last list has.
-/

namespace Paging

variable {α : Type*} {L : Nat → List α} {l l' : List α} {n i j k : Nat} {x : α}

/-- The `i`-th page of `n` elements. -/
def page (n i : Nat) (l : List α) : List α := (l.drop (i * n)).take n

theorem length_page : (page n i l).length = min n (l.length - i * n) := by
  rw [page, List.length_take, List.length_drop]

theorem page_map {β : Type*} (f : α → β) : page n i (l.map f) = (page n i l).map f := by
  rw [page, page, List.map_take, List.map_drop]

theorem mem_page (h : l[j]? = some x) (hi : i * n ≤ j) (hj : j < i * n + n) : x ∈ page n i l := by
  refine List.mem_of_getElem? (i := j - i * n) ?_
  rw [page, List.getElem?_take, if_pos (by omega), List.getElem?_drop, Nat.add_sub_cancel' hi, h]

theorem mem_of_mem_page (h : x ∈ page n i l) : x ∈ l :=
  List.mem_of_mem_drop (List.mem_of_mem_take h)

/-- The pages that are read. -/
def pages (n k : Nat) (L : Nat → List α) : List α :=
  (List.range k).flatMap fun i => page n i (L i)

theorem pages_succ : pages n (k + 1) L = pages n k L ++ page n k (L k) := by
  rw [pages, pages, List.range_succ, List.flatMap_append, List.flatMap_singleton]

/-- An element of a list does not stand further ahead in a list that has grown. -/
theorem exists_getElem?_of_sublist (h : l.Sublist l') (hj : l[j]? = some x) :
    ∃ j', j ≤ j' ∧ l'[j']? = some x := by
  obtain ⟨f, hf⟩ := List.sublist_iff_exists_orderEmbedding_getElem?_eq.mp h
  exact ⟨f j, f.strictMono.le_apply, (hf j).symm.trans hj⟩

/-- What has not been read yet stands on a later page. -/
theorem mem_pages_or_later (hL : ∀ i < k, (L i).Sublist (L (i + 1))) (hx : x ∈ L 0) (hi : i ≤ k) :
    x ∈ pages n i L ∨ ∃ j, i * n ≤ j ∧ (L i)[j]? = some x := by
  induction i with
  | zero =>
    obtain ⟨j, hj⟩ := List.getElem?_of_mem hx
    exact .inr ⟨j, by omega, hj⟩
  | succ i ih =>
    rw [pages_succ, List.mem_append]
    rcases ih (by omega) with hread | ⟨j, hij, hj⟩
    · exact .inl (.inl hread)
    · by_cases hlt : j < i * n + n
      · exact .inl (.inr (mem_page hj hij hlt))
      · obtain ⟨j', hjj', hj'⟩ := exists_getElem?_of_sublist (hL i (by omega)) hj
        exact .inr ⟨j', by rw [Nat.succ_mul]; omega, hj'⟩

/-- Nothing is missed, when the last page has room left. -/
theorem mem_pages (hL : ∀ i < k, (L i).Sublist (L (i + 1))) (hk : (page n k (L k)).length < n)
    (hx : x ∈ L 0) : x ∈ pages n (k + 1) L := by
  rw [pages_succ, List.mem_append]
  rcases mem_pages_or_later hL hx le_rfl with hread | ⟨j, hij, hj⟩
  · exact .inl hread
  · obtain ⟨hlt, -⟩ := List.getElem?_eq_some_iff.mp hj
    rw [length_page] at hk
    exact .inr (mem_page hj hij (by omega))

/-- No more is read than the last list has. -/
theorem length_pages_le (hL : ∀ i < k, (L i).Sublist (L (i + 1))) :
    (pages n (k + 1) L).length ≤ min ((k + 1) * n) (L k).length := by
  induction k with
  | zero =>
    rw [pages_succ, pages]
    simp [length_page]
  | succ k ih =>
    have hle := (hL k (by omega)).length_le
    have := ih fun i hi => hL i (by omega)
    rw [pages_succ, List.length_append, length_page]
    simp only [Nat.succ_mul] at this ⊢
    omega

/-- When nothing has been added, everything is read once. -/
theorem pages_perm (hL : ∀ i < k, (L i).Sublist (L (i + 1))) (hk : (page n k (L k)).length < n)
    (hl : (L 0).Nodup) (heq : (L k).length = (L 0).length) :
    (pages n (k + 1) L).Perm (L 0) := by
  have hsub : (L 0).Subperm (pages n (k + 1) L) :=
    List.subperm_of_subset hl fun x hx => mem_pages hL hk hx
  refine (hsub.perm_of_length_le ?_).symm
  have := length_pages_le (n := n) hL
  omega

end Paging
