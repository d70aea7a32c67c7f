import Mathlib.Data.List.Forall2
import Mathlib.Data.List.Induction

/-!
# Lists

Facts about lists that the domain modules share: families of lists that are indexed by numbers or by
the elements of a list, windows, maps with a function that may fail, prefixes and separators.
-/

/-! ## Families of lists -/

/-- Adding to one member of a family adds to its concatenation. -/
theorem perm_flatMap_range {α : Type} {f f' : Nat → List α} {l : List α} {m n : Nat}
    (hn : n < m) (hsame : ∀ k, k ≠ n → f' k = f k) (hadd : f' n = f n ++ l) :
    ((List.range m).flatMap f').Perm ((List.range m).flatMap f ++ l) := by
  induction m with
  | zero => omega
  | succ m ih =>
    rw [List.range_succ, List.flatMap_append, List.flatMap_append, List.flatMap_singleton,
      List.flatMap_singleton]
    by_cases hm : m = n
    · subst hm
      have hpre : (List.range m).flatMap f' = (List.range m).flatMap f :=
        List.flatMap_congr fun k hk => hsame k (by have := List.mem_range.mp hk; omega)
      rw [hpre, hadd, List.append_assoc]
    · rw [hsame m hm]
      have hperm := (ih (by omega)).append_right (f m)
      rw [List.append_assoc] at hperm ⊢
      exact hperm.trans (List.Perm.append_left _ List.perm_append_comm)

theorem flatMap_range_add {α : Type} {f : Nat → List α} {m k : Nat}
    (h : ∀ n, m ≤ n → f n = []) : (List.range (m + k)).flatMap f = (List.range m).flatMap f := by
  induction k with
  | zero => rfl
  | succ k ih =>
    rw [← Nat.add_assoc, List.range_succ, List.flatMap_append, ih, List.flatMap_singleton,
      h _ (Nat.le_add_right m k), List.append_nil]

/-- In a family of lists only one of which matters, there are as many elements as in that one. -/
theorem countP_flatMap_range_le {α : Type} {f : Nat → List α} {P : α → Bool} {n : Nat}
    (h : ∀ m, m ≠ n → (f m).countP P = 0) (k : Nat) :
    ((List.range k).flatMap f).countP P ≤ if n < k then (f n).countP P else 0 := by
  induction k with
  | zero => exact Nat.zero_le _
  | succ k ih =>
    rw [List.range_succ, List.flatMap_append, List.flatMap_singleton, List.countP_append]
    by_cases hk : k = n
    · subst hk
      rw [if_neg (Nat.lt_irrefl k)] at ih
      rw [if_pos (Nat.lt_succ_self k)]
      omega
    · rw [h k hk]
      split at ih
      · rw [if_pos (by omega)]
        exact ih
      · exact (Nat.le_zero.mp ih).symm ▸ Nat.zero_le _

/-- If each element of a list is matched by one of its values, there are as many of them. -/
theorem countP_le_flatMap {α β : Type} {l : List α} {f : Nat → List β} {P : α → Bool} {Q : β → Bool}
    (h : ∀ n a, l[n]? = some a → P a → ∃ b ∈ f n, Q b) :
    l.countP P ≤ ((List.range l.length).flatMap f).countP Q := by
  induction l using List.reverseRecOn with
  | nil => exact Nat.zero_le _
  | append_singleton l a ih =>
    have hih := ih fun n a' hn =>
      h n a' (by rw [List.getElem?_append_left (List.getElem?_eq_some_iff.mp hn).1, hn])
    rw [List.length_append, List.length_singleton, List.range_succ, List.flatMap_append,
      List.flatMap_singleton, List.countP_append, List.countP_append]
    refine Nat.add_le_add hih ?_
    rw [List.countP_singleton]
    split
    · rename_i hP
      obtain ⟨b, hb, hQ⟩ := h l.length a (by simp) hP
      exact List.countP_pos_iff.mpr ⟨b, hb, hQ⟩
    · exact Nat.zero_le _

/-- Adding to what one member of a list maps to. -/
theorem flatMap_set_perm {α β : Type} {l : List α} {i : Nat} {a a' : α} {f : α → List β}
    {D : List β} (hi : l[i]? = some a) (hadd : f a' = f a ++ D) :
    ((l.set i a').flatMap f).Perm (l.flatMap f ++ D) := by
  induction l generalizing i with
  | nil => cases hi
  | cons x l ih =>
    cases i with
    | zero =>
      obtain rfl : x = a := by simpa using hi
      rw [List.set_cons_zero, List.flatMap_cons, List.flatMap_cons, hadd, List.append_assoc,
        List.append_assoc]
      exact List.Perm.append_left _ List.perm_append_comm
    | succ i =>
      rw [List.set_cons_succ, List.flatMap_cons, List.flatMap_cons, List.append_assoc]
      exact List.Perm.append_left _ (ih hi)

/-- A family with one value for each element of a list. -/
theorem flatMap_range_eq_map {α β : Type} {l : List α} {f : Nat → List β} {g : α → β}
    (h : ∀ n a, l[n]? = some a → f n = [g a]) : (List.range l.length).flatMap f = l.map g := by
  induction l using List.reverseRecOn with
  | nil => rfl
  | append_singleton l a ih =>
    have hih := ih fun n a' hn =>
      h n a' (by rw [List.getElem?_append_left (List.getElem?_eq_some_iff.mp hn).1, hn])
    rw [List.length_append, List.length_singleton, List.range_succ, List.flatMap_append,
      List.flatMap_singleton, hih, h l.length a (by simp), List.map_append, List.map_singleton]

/-- Two lists that have the same image are related position by position when the second is related
to its own image. -/
theorem forall₂_of_map_eq {α β γ : Type} {as : List α} {bs : List β} {g : α → γ} {g' : β → γ}
    {P : γ → β → Prop} (h : as.map g = bs.map g') :
    List.Forall₂ (fun a b => P (g a) b) as bs ↔ ∀ b ∈ bs, P (g' b) b := by
  rw [← List.forall₂_map_left_iff, h, List.forall₂_map_left_iff, List.forall₂_same]

/-! ## Windows of a list -/

section
variable {α : Type} {l : List α} {skip limit skip' limit' : Nat}

theorem length_window : ((l.drop skip).take limit).length = min limit (l.length - skip) := by
  rw [List.length_take, List.length_drop]

/-- A window that is not empty tells where it starts. -/
theorem skip_eq_of_window (hl : l.Nodup) (hskip : skip < l.length) (hlimit : 1 ≤ limit)
    (h : (l.drop skip).take limit = (l.drop skip').take limit') : skip = skip' := by
  have hlen := congrArg List.length h
  rw [length_window, length_window] at hlen
  have hhead := congrArg (·[0]?) h
  simp only [List.getElem?_take, List.getElem?_drop, Nat.add_zero] at hhead
  rw [if_pos (by omega), if_pos (by omega)] at hhead
  exact (List.getElem?_inj hskip hl).mp hhead

end

/-! ## Maps that may fail -/

theorem mapM_ok {ε α β : Type} {f : α → Except ε β} {P : β → Prop} (hf : ∀ a b, f a = .ok b → P b)
    {l : List α} {out : List β} (h : l.mapM f = .ok out) :
    out.length = l.length ∧ ∀ b ∈ out, P b := by
  induction l generalizing out with
  | nil =>
    cases h
    exact ⟨rfl, nofun⟩
  | cons a l ih =>
    rw [List.mapM_cons] at h
    cases ha : f a with
    | error e =>
      rw [ha] at h
      cases h
    | ok b =>
      cases hl : l.mapM f with
      | error e =>
        rw [ha, hl] at h
        cases h
      | ok bs =>
        rw [ha, hl] at h
        cases h
        obtain ⟨hlen, hall⟩ := ih hl
        refine ⟨by simp [hlen], fun b' hb' => ?_⟩
        rcases List.mem_cons.mp hb' with rfl | hb'
        · exact hf a _ ha
        · exact hall b' hb'

theorem mapM_eq_ok {ε α β : Type} {f : α → Except ε β} {g : α → β} {l : List α}
    (h : ∀ a ∈ l, f a = .ok (g a)) : l.mapM f = .ok (l.map g) := by
  induction l with
  | nil => rfl
  | cons a l ih =>
    rw [List.mapM_cons, h a List.mem_cons_self, ih fun x hx => h x (List.mem_cons_of_mem _ hx)]
    rfl

theorem mapM_eq_error {ε α β : Type} {f : α → Except ε β} {P : ε → Prop} {l : List α}
    (hP : ∀ a e, f a = .error e → P e) (h : ∃ a ∈ l, ∀ b, f a ≠ .ok b) :
    ∃ e, l.mapM f = .error e ∧ P e := by
  induction l with
  | nil =>
    obtain ⟨a, ha, -⟩ := h
    cases ha
  | cons a l ih =>
    rw [List.mapM_cons]
    cases ha : f a with
    | error e => exact ⟨e, rfl, hP a e ha⟩
    | ok b =>
      obtain ⟨x, hx, hbad⟩ := h
      rcases List.mem_cons.1 hx with rfl | hx
      · exact absurd ha (hbad b)
      · obtain ⟨e, he, hPe⟩ := ih ⟨x, hx, hbad⟩
        rw [he]
        exact ⟨e, rfl, hPe⟩

/-! ## Prefixes and separators -/

theorem getElem?_extend {α : Type} {l l' : List α} {n : Nat} (h : l <+: l') (hn : n < l.length) :
    l'[n]? = l[n]? := by
  obtain ⟨r, rfl⟩ := h
  exact List.getElem?_append_left hn

/-- What stands before the first separator is determined by the whole list. -/
theorem append_sep_inj {α : Type} {c : α} {xs ys rs ss : List α} (hx : c ∉ xs) (hy : c ∉ ys)
    (h : xs ++ c :: rs = ys ++ c :: ss) : xs = ys ∧ rs = ss := by
  induction xs generalizing ys with
  | nil =>
    cases ys with
    | nil => exact ⟨rfl, (List.cons.inj h).2⟩
    | cons y ys => exact (hy ((List.cons.inj h).1 ▸ List.mem_cons_self)).elim
  | cons x xs ih =>
    cases ys with
    | nil => exact (hx ((List.cons.inj h).1 ▸ List.mem_cons_self)).elim
    | cons y ys =>
      obtain ⟨rfl, h'⟩ := List.cons.inj h
      obtain ⟨rfl, hr⟩ := ih (fun hm => hx (List.mem_cons_of_mem _ hm))
        (fun hm => hy (List.mem_cons_of_mem _ hm)) h'
      exact ⟨rfl, hr⟩

theorem mem_intercalate {α : Type} {sep c : α} {ls : List (List α)}
    (h : c ∈ [sep].intercalate ls) : c = sep ∨ ∃ l ∈ ls, c ∈ l := by
  induction ls with
  | nil => cases h
  | cons l ls ih =>
    cases ls with
    | nil => exact .inr ⟨l, List.mem_cons_self, by simpa [List.intercalate] using h⟩
    | cons l' ls =>
      rw [List.intercalate_cons_cons] at h
      rcases List.mem_append.mp h with h | h
      · rcases List.mem_append.mp h with h | h
        · exact .inr ⟨l, List.mem_cons_self, h⟩
        · exact .inl (List.mem_singleton.mp h)
      · rcases ih h with h | ⟨k, hk, h⟩
        · exact .inl h
        · exact .inr ⟨k, List.mem_cons_of_mem _ hk, h⟩
