import Mathlib.Data.List.Nodup
import Mathlib.Tactic.Common

/-!
# Tables with a primary key

A `Table` is a list of rows in insertion order together with the proof that no two rows have the
same key. Each operation comes with the equation of `find?` after it, and no proof about a table
needs more than these equations.
-/

structure Table (κ α : Type) (key : α → κ) where
  rows : List α
  nodup : (rows.map key).Nodup

namespace Table

variable {κ α : Type} {key : α → κ} [DecidableEq κ]

def empty : Table κ α key := ⟨[], List.nodup_nil⟩

/-- The row with key `k`. -/
def find? (t : Table κ α key) (k : κ) : Option α := t.rows.find? fun a => key a = k

/-- Add a row at the end. A row whose key is taken is not added. -/
def insert (t : Table κ α key) (a : α) : Table κ α key :=
  if h : key a ∈ t.rows.map key then t
  else ⟨t.rows ++ [a], by simpa using List.Nodup.concat h t.nodup⟩

/-- Change the row with key `k` by a function that keeps keys. -/
def modify (t : Table κ α key) (k : κ) (f : α → α) (hf : ∀ a, key (f a) = key a) :
    Table κ α key where
  rows := t.rows.map fun a => if key a = k then f a else a
  nodup := by
    have h : (key ∘ fun a => if key a = k then f a else a) = key := by
      funext a
      simp only [Function.comp]
      split <;> simp [hf]
    rw [List.map_map, h]
    exact t.nodup

/-- Remove the row with key `k`. -/
def erase (t : Table κ α key) (k : κ) : Table κ α key where
  rows := t.rows.filter fun a => key a ≠ k
  nodup := t.nodup.sublist (List.filter_sublist.map key)

omit [DecidableEq κ] in
theorem ext_rows {t t' : Table κ α key} (h : t.rows = t'.rows) : t = t' := by
  cases t
  cases t'
  cases h
  rfl

/-- Change every row by a function that keeps keys. -/
def map (t : Table κ α key) (f : α → α) (hf : ∀ a, key (f a) = key a) : Table κ α key where
  rows := t.rows.map f
  nodup := by
    have h : key ∘ f = key := funext hf
    rw [List.map_map, h]
    exact t.nodup

variable {t : Table κ α key} {a b : α} {k k' : κ} {f : α → α} {hf : ∀ a, key (f a) = key a}

theorem find?_key (h : t.find? k = some a) : key a = k := by
  simpa using List.find?_some h

theorem find?_mem (h : t.find? k = some a) : a ∈ t.rows := List.mem_of_find?_eq_some h

theorem find?_eq_none : t.find? k = none ↔ ∀ a ∈ t.rows, key a ≠ k := by
  simp [find?]

omit [DecidableEq κ] in
/-- The key determines the row. -/
theorem eq_of_key (ha : a ∈ t.rows) (hb : b ∈ t.rows) (h : key a = key b) : a = b :=
  List.inj_on_of_nodup_map t.nodup ha hb h

/-- The row found is the only one with its key. -/
theorem find?_eq_some : t.find? k = some a ↔ a ∈ t.rows ∧ key a = k := by
  refine ⟨fun h => ⟨find?_mem h, find?_key h⟩, ?_⟩
  rintro ⟨ha, rfl⟩
  cases h : t.find? (key a) with
  | none => exact (find?_eq_none.mp h a ha rfl).elim
  | some b =>
    rw [eq_of_key (find?_mem h) ha (find?_key h)]

@[simp] theorem find?_empty : (empty : Table κ α key).find? k = none := rfl

theorem rows_insert (h : t.find? (key a) = none) : (t.insert a).rows = t.rows ++ [a] := by
  have h' : key a ∉ t.rows.map key := by
    simpa using find?_eq_none.mp h
  simp [insert, h']

theorem find?_insert (h : t.find? (key a) = none) :
    (t.insert a).find? k = if key a = k then some a else t.find? k := by
  rw [find?, rows_insert h, List.find?_append, List.find?_singleton]
  by_cases hk : key a = k
  · subst hk
    rw [find?] at h
    simp [h]
  · simp [hk, find?]

theorem insert_of_taken (h : t.find? (key a) ≠ none) : t.insert a = t := by
  have hmem : key a ∈ t.rows.map key := by
    by_contra hn
    refine h (find?_eq_none.mpr fun b hb heq => hn ?_)
    exact heq ▸ List.mem_map_of_mem hb
  rw [insert, dif_pos hmem]

theorem find?_insert_of_ne (hk : key a ≠ k) : (t.insert a).find? k = t.find? k := by
  by_cases h : t.find? (key a) = none
  · rw [find?_insert h, if_neg hk]
  · rw [insert_of_taken h]

theorem find?_insert_of_some (h : t.find? k = some b) : (t.insert a).find? k = some b := by
  by_cases hk : key a = k
  · subst hk
    rw [insert_of_taken (by simp [h]), h]
  · rw [find?_insert_of_ne hk, h]

theorem find?_modify :
    (t.modify k f hf).find? k' = if k = k' then (t.find? k').map f else t.find? k' := by
  have h : ((fun a => decide (key a = k')) ∘ fun a => if key a = k then f a else a) =
      fun a => decide (key a = k') := by
    funext a
    simp only [Function.comp]
    split <;> simp [hf]
  rw [find?, modify, List.find?_map, h]
  change (t.find? k').map _ = _
  cases ht : t.find? k' with
  | none => simp
  | some a =>
    have ha := find?_key ht
    by_cases hk : k = k'
    · simp [hk, ha]
    · simp [hk, ha, Ne.symm hk]

theorem find?_modify_of_ne (hk : k ≠ k') : (t.modify k f hf).find? k' = t.find? k' :=
  find?_modify.trans (if_neg hk)

theorem find?_erase : (t.erase k).find? k' = if k = k' then none else t.find? k' := by
  simp only [find?, erase, List.find?_filter]
  split
  · subst k'
    simp
  · rename_i hk
    congr 1
    funext a
    by_cases ha : key a = k' <;> simp [ha, Ne.symm hk]

theorem find?_erase_of_ne (hk : k ≠ k') : (t.erase k).find? k' = t.find? k' :=
  find?_erase.trans (if_neg hk)

omit [DecidableEq κ] in
theorem rows_map : (t.map f hf).rows = t.rows.map f := rfl

theorem find?_map : (t.map f hf).find? k = (t.find? k).map f := by
  have h : ((fun a => decide (key a = k)) ∘ f) = fun a => decide (key a = k) := by
    funext a
    simp only [Function.comp, hf]
  rw [find?, map, List.find?_map, h, find?]

theorem map_insert : (t.insert a).map f hf = (t.map f hf).insert (f a) := by
  by_cases h : t.find? (key a) = none
  · have h' : (t.map f hf).find? (key (f a)) = none := by
      rw [find?_map, hf, h]
      rfl
    refine ext_rows ?_
    rw [rows_insert h', rows_map, rows_map, rows_insert h, List.map_append]
    rfl
  · have h' : (t.map f hf).find? (key (f a)) ≠ none := by
      rw [find?_map, hf]
      exact fun hnone => h (Option.map_eq_none_iff.1 hnone)
    rw [insert_of_taken h, insert_of_taken h']

theorem map_modify {g : α → α} {hg : ∀ a, key (g a) = key a} (h : ∀ a, f (g a) = g (f a)) :
    (t.modify k g hg).map f hf = (t.map f hf).modify k g hg := by
  refine ext_rows ?_
  simp only [map, modify, List.map_map]
  refine List.map_congr_left fun a _ => ?_
  simp only [Function.comp, hf]
  split
  · exact h a
  · rfl

theorem map_erase : (t.erase k).map f hf = (t.map f hf).erase k := by
  refine ext_rows ?_
  have h : ((fun a => decide (key a ≠ k)) ∘ f) = fun a => decide (key a ≠ k) := by
    funext a
    simp only [Function.comp, hf]
  change (t.rows.filter fun a => key a ≠ k).map f = (t.rows.map f).filter fun a => key a ≠ k
  rw [List.filter_map, h]

theorem mem_rows_insert (h : a ∈ t.rows) : a ∈ (t.insert b).rows := by
  rw [insert]
  split
  · exact h
  · exact List.mem_append_left _ h

theorem mem_rows_erase (h : a ∈ t.rows) (hk : key a ≠ k) : a ∈ (t.erase k).rows :=
  List.mem_filter.mpr ⟨h, by simpa using hk⟩

/-- The rows with the key of a row. -/
theorem filter_key (h : a ∈ t.rows) : t.rows.filter (fun b => key b = key a) = [a] := by
  have hnodup := t.nodup
  obtain ⟨before, after, hrows⟩ := List.append_of_mem h
  rw [hrows, List.map_append, List.map_cons, List.nodup_middle, List.nodup_cons,
    List.mem_append, not_or] at hnodup
  have hnone : ∀ l : List α, key a ∉ l.map key → l.filter (fun b => key b = key a) = [] := by
    intro l hl
    refine List.filter_eq_nil_iff.mpr fun b hb hk => hl (List.mem_map.mpr ⟨b, hb, ?_⟩)
    exact of_decide_eq_true hk
  rw [hrows, List.filter_append, List.filter_cons, if_pos (by simp), hnone before hnodup.1.1,
    hnone after hnodup.1.2, List.nil_append]

/-- A change of a row that a filter drops before and after it is not seen through the filter. -/
theorem filter_modify {p : α → Bool}
    (h : ∀ a ∈ t.rows, key a = k → p a = false ∧ p (f a) = false) :
    (t.modify k f hf).rows.filter p = t.rows.filter p := by
  have hfilter : t.rows.filter (p ∘ fun a => if key a = k then f a else a) = t.rows.filter p := by
    refine List.filter_congr fun a ha => ?_
    simp only [Function.comp]
    split
    · rename_i hk
      rw [(h a ha hk).1, (h a ha hk).2]
    · rfl
  rw [modify, List.filter_map, hfilter]
  refine (List.map_congr_left fun a ha => ?_).trans (List.map_id _)
  obtain ⟨ha, hp⟩ := List.mem_filter.mp ha
  refine if_neg fun hk => ?_
  rw [(h a ha hk).1] at hp
  cases hp

end Table
