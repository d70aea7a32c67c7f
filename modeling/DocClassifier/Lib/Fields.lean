import Mathlib.Data.List.DropRight

/-!
# Fields between separators

A line is a list of fields with blanks around them and separators between them (`Spells`). `strip`
takes the blanks away, and `spells_iff` says that the stripped pieces between the separators are the
only fields that a line spells. It makes no difference to strip the line first
(`map_strip_splitOn`).
-/

namespace Fields

variable {α : Type*} {p : α → Bool} {l f pre post : List α}

/-- The list without the blanks at its two ends. -/
def strip (p : α → Bool) (l : List α) : List α := (l.dropWhile p).rdropWhile p

/-- There is no blank at either end. -/
def Trimmed (p : α → Bool) (f : List α) : Prop :=
  (∀ x ∈ f.head?, p x = false) ∧ ∀ x ∈ f.getLast?, p x = false

/-- The list is `f` with blanks around it. -/
structure Around (p : α → Bool) (f l : List α) : Prop where
  trimmed : Trimmed p f
  blanks : ∃ pre post, l = pre ++ f ++ post ∧ (∀ x ∈ pre, p x = true) ∧ ∀ x ∈ post, p x = true

theorem strip_append_left (h : ∀ x ∈ pre, p x = true) : strip p (pre ++ l) = strip p l := by
  rw [strip, strip, List.dropWhile_append_of_pos h]

theorem rdropWhile_append_right (h : ∀ x ∈ post, p x = true) :
    (l ++ post).rdropWhile p = l.rdropWhile p := by
  rw [List.rdropWhile, List.rdropWhile, List.reverse_append,
    List.dropWhile_append_of_pos fun x hx => h x (List.mem_reverse.mp hx)]

theorem strip_append_right (h : ∀ x ∈ post, p x = true) : strip p (l ++ post) = strip p l := by
  induction l with
  | nil =>
    rw [List.nil_append, ← List.append_nil post, strip_append_left h]
  | cons x l ih =>
    cases hx : p x with
    | true =>
      have hblank : ∀ y ∈ [x], p y = true := fun y hy => List.mem_singleton.mp hy ▸ hx
      have hl := strip_append_left (l := l) hblank
      have hr := strip_append_left (l := l ++ post) hblank
      exact hr.trans (ih.trans hl.symm)
    | false =>
      have hx' : ¬ p x = true := by simp [hx]
      rw [strip, strip, List.cons_append, List.dropWhile_cons_of_neg hx',
        List.dropWhile_cons_of_neg hx', ← List.cons_append, rdropWhile_append_right h]

theorem strip_of_trimmed (h : Trimmed p f) : strip p f = f := by
  have hhead : f.dropWhile p = f := by
    cases f with
    | nil => rfl
    | cons x f => exact List.dropWhile_cons_of_neg (by simp [h.1 x rfl])
  rw [strip, hhead, List.rdropWhile_eq_self_iff]
  intro hne
  simp [h.2 _ (List.getLast?_eq_some_getLast hne)]

theorem trimmed_strip : Trimmed p (strip p l) := by
  constructor
  · intro x hx
    have hpre : strip p l <+: l.dropWhile p := List.rdropWhile_prefix p _
    cases hs : strip p l with
    | nil =>
      rw [hs] at hx
      cases hx
    | cons y ys =>
      rw [hs] at hx hpre
      cases hx
      obtain ⟨zs, hzs⟩ := hpre
      have hhead := List.head?_dropWhile_not p l
      rw [← hzs] at hhead
      simpa using hhead
  · intro x hx
    have hne : strip p l ≠ [] := by
      intro h
      rw [h] at hx
      cases hx
    have hlast := List.rdropWhile_last_not p (l.dropWhile p) hne
    rw [List.getLast?_eq_some_getLast hne] at hx
    cases hx
    exact Bool.eq_false_iff.mpr hlast

theorem around_strip : Around p (strip p l) l := by
  refine ⟨trimmed_strip, l.takeWhile p, (l.dropWhile p).rtakeWhile p, ?_, ?_, ?_⟩
  · rw [List.append_assoc, strip, List.rdropWhile_append_rtakeWhile,
      List.takeWhile_append_dropWhile]
  · intro x hx
    exact List.mem_takeWhile_imp hx
  · intro x hx
    exact List.mem_rtakeWhile_imp hx

/-- `strip` finds the only list that a list has blanks around. -/
theorem strip_eq_iff : strip p l = f ↔ Around p f l := by
  constructor
  · rintro rfl
    exact around_strip
  · intro ⟨htrimmed, pre, post, hl, hpre, hpost⟩
    rw [hl, strip_append_right hpost, strip_append_left hpre, strip_of_trimmed htrimmed]

theorem Around.append_left (h : Around p f l) (hpre : ∀ x ∈ pre, p x = true) :
    Around p f (pre ++ l) := by
  rw [← strip_eq_iff, strip_append_left hpre, strip_eq_iff]
  exact h

theorem Around.append_right (h : Around p f l) (hpost : ∀ x ∈ post, p x = true) :
    Around p f (l ++ post) := by
  rw [← strip_eq_iff, strip_append_right hpost, strip_eq_iff]
  exact h

/-- A field starts with the first element of the list that is not a blank. -/
theorem Around.head? {x : α} (h : Around p f (x :: l)) (hx : p x = false) :
    f.head? = some x := by
  obtain ⟨-, pre, post, hl, hpre, hpost⟩ := h
  cases pre with
  | cons y pre =>
    cases hl
    rw [hpre x List.mem_cons_self] at hx
    cases hx
  | nil =>
    cases f with
    | cons y f =>
      cases hl
      rfl
    | nil =>
      rw [List.nil_append, List.nil_append] at hl
      rw [hpost x (hl ▸ List.mem_cons_self)] at hx
      cases hx

/-! ## Lines -/

/-- A line is a field with blanks around it, or such a field, a separator and a line. -/
inductive Spells (p : α → Bool) (c : α) : List α → List (List α) → Prop
  | last {f q : List α} : c ∉ q → Around p f q → Spells p c q [f]
  | cons {f q l : List α} {fs : List (List α)} : c ∉ q → Around p f q → Spells p c l fs →
      Spells p c (q ++ c :: l) (f :: fs)

variable {c : α} {fs : List (List α)}

theorem not_mem_of_blank (hc : p c = false) (h : ∀ x ∈ pre, p x = true) : c ∉ pre := by
  intro hmem
  rw [h c hmem] at hc
  cases hc

theorem Spells.head? {x : α} (h : Spells p c (x :: l) (f :: fs)) (hx : p x = false) (hxc : x ≠ c) :
    f.head? = some x := by
  generalize hline : x :: l = line at h
  cases h with
  | last _ hf =>
    subst hline
    exact hf.head? hx
  | @cons _ q _ _ _ hf _ =>
    cases q with
    | nil =>
      cases hline
      exact absurd rfl hxc
    | cons y q =>
      cases hline
      exact hf.head? hx

theorem Spells.append_left (hc : p c = false) (hpre : ∀ x ∈ pre, p x = true)
    (h : Spells p c l fs) : Spells p c (pre ++ l) fs := by
  have hcpre := not_mem_of_blank hc hpre
  cases h with
  | last hq hf => exact .last (by simp [hcpre, hq]) (hf.append_left hpre)
  | cons hq hf htail =>
    rw [← List.append_assoc]
    exact .cons (by simp [hcpre, hq]) (hf.append_left hpre) htail

theorem Spells.append_right (hc : p c = false) (hpost : ∀ x ∈ post, p x = true)
    (h : Spells p c l fs) : Spells p c (l ++ post) fs := by
  have hcpost := not_mem_of_blank hc hpost
  induction h with
  | last hq hf => exact .last (by simp [hcpost, hq]) (hf.append_right hpost)
  | cons hq hf _ ih =>
    rw [List.append_assoc, List.cons_append]
    exact .cons hq hf ih

variable [DecidableEq α]

theorem Spells.map_strip (h : Spells p c l fs) : (l.splitOn c).map (strip p) = fs := by
  induction h with
  | last hq hf => rw [List.splitOn_eq_singleton hq, List.map_singleton, strip_eq_iff.mpr hf]
  | cons hq hf _ ih =>
    rw [List.splitOn_append_cons_self_of_not_mem hq, List.map_cons, strip_eq_iff.mpr hf, ih]

theorem spells_map_strip (l : List α) : Spells p c l ((l.splitOn c).map (strip p)) := by
  induction hn : l.length using Nat.strong_induction_on generalizing l with
  | h n ih =>
    by_cases hc : c ∈ l
    · obtain ⟨q, l', rfl, hq⟩ := List.eq_append_cons_of_mem hc
      rw [List.splitOn_append_cons_self_of_not_mem hq, List.map_cons]
      refine .cons hq around_strip (ih l'.length ?_ l' rfl)
      rw [← hn, List.length_append, List.length_cons]
      omega
    · rw [List.splitOn_eq_singleton hc]
      exact .last hc around_strip

/-- Splitting at the separators and stripping the pieces reads a line. -/
theorem spells_iff : Spells p c l fs ↔ (l.splitOn c).map (strip p) = fs := by
  constructor
  · exact Spells.map_strip
  · rintro rfl
    exact spells_map_strip l

/-- The blanks around a line belong to its outer fields. -/
theorem map_strip_splitOn (hc : p c = false) :
    ((strip p l).splitOn c).map (strip p) = (l.splitOn c).map (strip p) := by
  obtain ⟨-, pre, post, hl, hpre, hpost⟩ := around_strip (p := p) (l := l)
  have hspells := ((spells_map_strip (strip p l)).append_left hc hpre).append_right hc hpost
  rw [← hl] at hspells
  exact hspells.map_strip.symm

end Fields
