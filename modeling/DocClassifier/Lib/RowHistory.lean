import DocClassifier.Lib.Run
import Mathlib.Data.Option.Basic

/-!
# The history of a row

A row of a store has a part that is fixed when the row is made, and a value that events set. When
each step keeps the fixed part of the row, or makes the row, the row that is there after a run was
there at the start or was made by an event of the run, and its value is the one that was set last
(`Run.stemsFrom`).
-/

namespace Transition

section
variable {σ ε ρ φ ν : Type*} (get : σ → Option ρ) (fixed : ρ → φ) (value : ρ → ν)
  (made : ε → ρ → Prop) (sets : ε → Option ν)

/-- Where the row `p` comes from that is there after the events `es` from the state `s`. -/
inductive StemsFrom (s : σ) (es : List ε) (p : ρ) : Prop
  | kept {q : ρ} : get s = some q → fixed p = fixed q →
      value p = (es.filterMap sets).getLast?.getD (value q) → StemsFrom s es p
  | made {e : ε} {q : ρ} : e ∈ es → made e q → fixed p = fixed q →
      (es.filterMap sets).getLast? = some (value p) → StemsFrom s es p

end

variable {σ ε ρ φ ν : Type*} {get : σ → Option ρ} {fixed : ρ → φ} {value : ρ → ν}
  {made : ε → ρ → Prop} {sets : ε → Option ν} {s t : σ} {e : ε}
  {es es' : List ε} {p : ρ}

theorem StemsFrom.of_kept (h : get s = some p) (hv : es.filterMap sets = []) :
    StemsFrom get fixed value made sets s es p := .kept h rfl (by rw [hv]; rfl)

/-- One step. -/
theorem StemsFrom.of_step
    (h : (∃ q, get s = some q ∧ fixed p = fixed q ∧ value p = (sets e).getD (value q)) ∨
      made e p ∧ sets e = some (value p)) : StemsFrom get fixed value made sets s [e] p := by
  rcases h with ⟨q, hq, hf, hv⟩ | ⟨hm, hv⟩
  · refine .kept hq hf ?_
    cases hs : sets e <;> simp [hs, hv]
  · exact .made (List.mem_singleton_self e) hm rfl (by simp [hv])

theorem StemsFrom.append (H : StemsFrom get fixed value made sets t es' p)
    (h : ∀ q, get t = some q → StemsFrom get fixed value made sets s es q) :
    StemsFrom get fixed value made sets s (es ++ es') p := by
  have hlast : ((es ++ es').filterMap sets).getLast? =
      ((es'.filterMap sets).getLast?).or (es.filterMap sets).getLast? := by
    rw [List.filterMap_append, List.getLast?_append]
  cases H with
  | made he hq hf hv =>
    exact .made (List.mem_append_right _ he) hq hf (by rw [hlast, hv, Option.some_or])
  | @kept q hq hf hv =>
    cases h q hq with
    | @kept r hr hf' hv' =>
      refine .kept hr (hf.trans hf') ?_
      rw [hlast, hv, hv']
      cases (es'.filterMap sets).getLast? <;> rfl
    | made he hr hf' hv' =>
      refine .made (List.mem_append_left _ he) hr (hf.trans hf') ?_
      rw [hlast, hv, hv']
      cases (es'.filterMap sets).getLast? <;> rfl

variable (get) in
/-- The row after a run of states in which `f` is the store. -/
theorem Run.stemsFrom {τ : Type*} (f : τ → σ) {R : τ → ε → τ → Prop} {x y : τ}
    (hstep : ∀ x e y p, R x e y → get (f y) = some p →
      StemsFrom get fixed value made sets (f x) [e] p)
    (h : Run R x es y) (hp : get (f y) = some p) :
    StemsFrom get fixed value made sets (f x) es p := by
  induction h with
  | nil => exact .of_kept hp rfl
  | cons hs _ ih => exact (ih hp).append fun q => hstep _ _ _ q hs

end Transition
