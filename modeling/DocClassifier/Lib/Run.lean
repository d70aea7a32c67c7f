import Mathlib.Logic.Basic

/-!
# Runs of a labelled transition relation

`Run R s es t`: the events `es`, taken in order, lead from `s` to `t` by steps of `R`. The rule
used everywhere is `Run.inv`: a property that every step keeps holds at the end of a run. A partial
step function is read as a relation by `Steps`, and `exec` computes its runs. `Reaches` forgets the
events.
-/

namespace Transition

inductive Run {σ ε : Type*} (R : σ → ε → σ → Prop) : σ → List ε → σ → Prop
  | nil {s : σ} : Run R s [] s
  | cons {s t u : σ} {e : ε} {es : List ε} : R s e t → Run R t es u → Run R s (e :: es) u

variable {σ ε : Type*} {R R' : σ → ε → σ → Prop} {s t u : σ} {e : ε} {es es' : List ε}

namespace Run

theorem single (h : R s e t) : Run R s [e] t := .cons h .nil

theorem append (h : Run R s es t) (h' : Run R t es' u) : Run R s (es ++ es') u := by
  induction h with
  | nil => exact h'
  | cons hs _ ih => exact .cons hs (ih h')

theorem snoc (h : Run R s es t) (h' : R t e u) : Run R s (es ++ [e]) u :=
  h.append (single h')

theorem split (h : Run R s (es ++ es') u) : ∃ t, Run R s es t ∧ Run R t es' u := by
  induction es generalizing s with
  | nil => exact ⟨s, .nil, h⟩
  | cons e es ih =>
    cases h with
    | cons hs h =>
      obtain ⟨t, h1, h2⟩ := ih h
      exact ⟨t, .cons hs h1, h2⟩

theorem cons_iff : Run R s (e :: es) u ↔ ∃ t, R s e t ∧ Run R t es u := by
  constructor
  · intro h
    cases h with
    | cons hs h => exact ⟨_, hs, h⟩
  · rintro ⟨t, hs, h⟩
    exact .cons hs h

theorem mono (hR : ∀ s e t, R s e t → R' s e t) (h : Run R s es t) : Run R' s es t := by
  induction h with
  | nil => exact .nil
  | cons hs _ ih => exact .cons (hR _ _ _ hs) ih

/-- The steps of a run are taken in states that have what every step keeps. -/
theorem mono_inv {I : σ → Prop} (hI : ∀ s e t, I s → R s e t → I t)
    (hR : ∀ s e t, I s → R s e t → R' s e t) (h : Run R s es t) (hs : I s) : Run R' s es t := by
  induction h with
  | nil => exact .nil
  | cons h _ ih => exact .cons (hR _ _ _ hs h) (ih (hI _ _ _ hs h))

/-- Each event of a run is the event of a step. -/
theorem of_mem (h : Run R s es t) (he : e ∈ es) : ∃ u v, R u e v := by
  induction h with
  | nil => cases he
  | cons hs _ ih =>
    rcases List.mem_cons.mp he with rfl | he
    · exact ⟨_, _, hs⟩
    · exact ih he

/-- A change of the events that every step admits can be made along a run. -/
theorem map {f : ε → ε} (hf : ∀ s e t, R s e t → R s (f e) t) (h : Run R s es t) :
    Run R s (es.map f) t := by
  induction h with
  | nil => exact .nil
  | cons hs _ ih => exact .cons (hf _ _ _ hs) ih

/-- A property that every step keeps holds at the end of every run from a state that has it. -/
theorem inv {I : σ → Prop} (hstep : ∀ s e t, I s → R s e t → I t) (h : Run R s es t)
    (hs : I s) : I t := by
  induction h with
  | nil => exact hs
  | cons hR _ ih => exact ih (hstep _ _ _ hs hR)

end Run

/-- A partial step function read as a transition relation. -/
def Steps (f : σ → ε → Option σ) (s : σ) (e : ε) (t : σ) : Prop := f s e = some t

/-- The steps of `R` that are taken in a state and with an event that meet `C`. -/
def Meeting (C : σ → ε → Prop) (R : σ → ε → σ → Prop) (s : σ) (e : ε) (t : σ) : Prop :=
  R s e t ∧ C s e

theorem Run.of_meeting {C : σ → ε → Prop} (h : Run (Meeting C R) s es t) : Run R s es t :=
  h.mono fun _ _ _ h => h.1

/-- A run meets `C` when each of its steps does. -/
theorem Run.meeting {C : σ → ε → Prop} (h : Run R s es t)
    (hC : ∀ es₁ e es₂ u v, es = es₁ ++ e :: es₂ → Run R s es₁ u → R u e v → C u e) :
    Run (Meeting C R) s es t := by
  induction h with
  | nil => exact .nil
  | @cons s u t e es hs _ ih =>
    refine .cons ⟨hs, hC [] e es s u rfl .nil hs⟩ (ih ?_)
    intro es₁ e' es₂ v w hes h1 h2
    exact hC (e :: es₁) e' es₂ v w (by rw [hes]; rfl) (.cons hs h1) h2

/-- Some run leads from `s` to `t`. -/
def Reaches (R : σ → ε → σ → Prop) (s t : σ) : Prop := ∃ es, Run R s es t

namespace Reaches

theorem refl : Reaches R s s := ⟨[], .nil⟩

theorem single (h : R s e t) : Reaches R s t := ⟨[e], .single h⟩

theorem trans (h : Reaches R s t) (h' : Reaches R t u) : Reaches R s u := by
  obtain ⟨es, h⟩ := h
  obtain ⟨es', h'⟩ := h'
  exact ⟨es ++ es', h.append h'⟩

/-- Along a sequence of states of which each is reached from the one before. -/
theorem chain {f : Nat → σ} {i j k : Nat} (h : ∀ i < k, Reaches R (f i) (f (i + 1))) (hij : i ≤ j)
    (hjk : j ≤ k) : Reaches R (f i) (f j) := by
  induction hij with
  | refl => exact .refl
  | step _ ih => exact (ih (Nat.le_of_succ_le hjk)).trans (h _ hjk)

theorem mono (hR : ∀ s e t, R s e t → R' s e t) (h : Reaches R s t) : Reaches R' s t := by
  obtain ⟨es, h⟩ := h
  exact ⟨es, h.mono hR⟩

theorem inv {I : σ → Prop} (hstep : ∀ s e t, I s → R s e t → I t) (h : Reaches R s t) (hs : I s) :
    I t := by
  obtain ⟨es, h⟩ := h
  exact h.inv hstep hs

end Reaches

/-- Take the events of a list in order; `none` when one of them is not enabled. -/
def exec (f : σ → ε → Option σ) : σ → List ε → Option σ
  | s, [] => some s
  | s, e :: es => (f s e).bind fun t => exec f t es

theorem exec_eq_some {f : σ → ε → Option σ} :
    exec f s es = some t ↔ Run (Steps f) s es t := by
  induction es generalizing s with
  | nil =>
    simp only [exec, Option.some.injEq]
    exact ⟨fun h => h ▸ .nil, fun h => by cases h; rfl⟩
  | cons e es ih =>
    simp only [exec, Option.bind_eq_some_iff]
    constructor
    · rintro ⟨u, hu, h⟩
      exact .cons hu (ih.mp h)
    · intro h
      cases h with
      | cons hs h => exact ⟨_, hs, ih.mpr h⟩

/-- The events determine where a step function leads. -/
theorem Run.unique {f : σ → ε → Option σ} (h : Run (Steps f) s es t) (h' : Run (Steps f) s es u) :
    t = u := by
  have h1 := exec_eq_some.mpr h
  rw [exec_eq_some.mpr h'] at h1
  exact (Option.some.inj h1).symm

/-- A computed run whose steps are all checked to meet `C`. -/
theorem run_of_exec {f : σ → ε → Option σ} {C : σ → ε → Prop} [∀ s e, Decidable (C s e)]
    (h : exec (fun s e => if C s e then f s e else none) s es = some t) :
    Run (Meeting C (Steps f)) s es t := by
  refine (exec_eq_some.mp h).mono fun s e t hs => ?_
  simp only [Steps, ite_eq_iff, reduceCtorEq, and_false, or_false] at hs
  exact ⟨hs.2, hs.1⟩

end Transition
