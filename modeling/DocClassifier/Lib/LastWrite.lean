import Mathlib.Data.List.Induction
import Mathlib.Logic.Function.Basic

/-!
# A store after a list of writes

A write is a key with a value, and the store holds the last value that was written to a key. No
write is lost (`written_eq_iff`) if and only if the writes to one key all have the same value.
-/

variable {κ α : Type} [DecidableEq κ]

/-- What the store holds after the writes `ws`. -/
def written (ws : List (κ × α)) : κ → Option α :=
  ws.foldl (fun m w => Function.update m w.1 (some w.2)) fun _ => none

section
variable {ws : List (κ × α)} {w : κ × α} {k : κ} {a : α}

theorem written_snoc : written (ws ++ [w]) = Function.update (written ws) w.1 (some w.2) :=
  List.foldl_append

/-- What the store holds has been written. -/
theorem mem_of_written (h : written ws k = some a) : (k, a) ∈ ws := by
  induction ws using List.reverseRecOn with
  | nil => cases h
  | append_singleton ws w ih =>
    rw [written_snoc, Function.update_apply] at h
    split at h
    · rename_i hk
      cases h
      rw [hk]
      exact List.mem_append_right _ (List.mem_singleton_self w)
    · exact List.mem_append_left _ (ih h)

/-- A key that has been written holds some value. -/
theorem written_of_mem (h : w ∈ ws) : ∃ a, written ws w.1 = some a := by
  induction ws using List.reverseRecOn with
  | nil => cases h
  | append_singleton ws v ih =>
    rw [written_snoc, Function.update_apply]
    split
    · exact ⟨v.2, rfl⟩
    · rename_i hk
      rcases List.mem_append.mp h with h | h
      · exact ih h
      · exact (hk (congrArg Prod.fst (List.mem_singleton.mp h))).elim

theorem written_eq_iff : (∀ w ∈ ws, written ws w.1 = some w.2) ↔
    ∀ w ∈ ws, ∀ v ∈ ws, w.1 = v.1 → w.2 = v.2 := by
  constructor
  · intro h w hw v hv hk
    have hw' := h w hw
    rw [hk, h v hv] at hw'
    exact (Option.some.inj hw').symm
  · intro h w hw
    obtain ⟨a, ha⟩ := written_of_mem hw
    rw [ha, h w hw _ (mem_of_written ha) rfl]

end
