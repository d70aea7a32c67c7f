import Mathlib.Data.List.Basic

/-!
# The last occurrence of a separator

A list that has the separator `c` is `a ++ c :: b` for exactly one `b` without `c`, the part after
the last `c`; `exists_split` and `split_inj` say so. `afterLast` computes that part.
-/

namespace LastSplit

variable {α : Type*} [DecidableEq α] {c : α} {a a' b b' l : List α}

/-- What follows the last `c`, or the whole list when it has none. -/
def afterLast (c : α) (l : List α) : List α := (l.reverse.takeWhile (· ≠ c)).reverse

private theorem takeWhile_reverse (h : c ∉ b) (l : List α) :
    (b.reverse ++ l).takeWhile (· ≠ c) = b.reverse ++ l.takeWhile (· ≠ c) := by
  refine List.takeWhile_append_of_pos fun x hx => ?_
  exact decide_eq_true fun hxc => h (hxc ▸ List.mem_reverse.1 hx)

theorem afterLast_append_cons (h : c ∉ b) : afterLast c (a ++ c :: b) = b := by
  rw [afterLast, List.reverse_append, List.reverse_cons, List.append_assoc, takeWhile_reverse h]
  simp

theorem afterLast_of_not_mem (h : c ∉ l) : afterLast c l = l := by
  have hall := takeWhile_reverse h []
  rw [List.append_nil, List.takeWhile_nil, List.append_nil] at hall
  rw [afterLast, hall, List.reverse_reverse]

theorem afterLast_append (h : c ∉ b) : afterLast c (a ++ b) = afterLast c a ++ b := by
  rw [afterLast, List.reverse_append, takeWhile_reverse h, List.reverse_append,
    List.reverse_reverse, afterLast]

theorem exists_split (h : c ∈ l) : ∃ a b, l = a ++ c :: b ∧ c ∉ b := by
  induction l with
  | nil => cases h
  | cons x l ih =>
    by_cases hl : c ∈ l
    · obtain ⟨a, b, rfl, hb⟩ := ih hl
      exact ⟨x :: a, b, rfl, hb⟩
    · rcases List.mem_cons.1 h with rfl | h
      · exact ⟨[], l, rfl, hl⟩
      · exact absurd h hl

theorem not_mem_afterLast : c ∉ afterLast c l := by
  by_cases h : c ∈ l
  · obtain ⟨a, b, rfl, hb⟩ := exists_split h
    rw [afterLast_append_cons hb]
    exact hb
  · rw [afterLast_of_not_mem h]
    exact h

theorem split_inj (hb : c ∉ b) (hb' : c ∉ b') (h : a ++ c :: b = a' ++ c :: b') :
    a = a' ∧ b = b' := by
  have hbb : b = b' := by
    rw [← afterLast_append_cons (a := a) hb, h, afterLast_append_cons hb']
  subst hbb
  exact ⟨List.append_cancel_right h, rfl⟩

/-- The part after the last `c` is all of a list exactly when there is no `c`. -/
theorem afterLast_append_cons_eq_iff : afterLast c (a ++ c :: b) = b ↔ c ∉ b :=
  ⟨fun h => h ▸ not_mem_afterLast, afterLast_append_cons⟩

theorem idxOf_reverse (h : c ∉ b) : (a ++ c :: b).reverse.idxOf c = b.length := by
  rw [List.reverse_append, List.reverse_cons, List.append_assoc,
    List.idxOf_append_of_notMem (fun hm => h (List.mem_reverse.1 hm))]
  simp

theorem getLast?_splitOn : (l.splitOn c).getLast? = some (afterLast c l) := by
  by_cases h : c ∈ l
  · obtain ⟨a, b, rfl, hb⟩ := exists_split h
    rw [List.splitOn_append_cons_self, List.splitOn_eq_singleton hb, afterLast_append_cons hb,
      List.getLast?_append]
    rfl
  · rw [List.splitOn_eq_singleton h, afterLast_of_not_mem h]
    rfl

end LastSplit
