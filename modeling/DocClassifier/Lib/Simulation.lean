import DocClassifier.Lib.Run

/-!
# Forward simulation with stuttering

Related states stay related when the concrete system takes a step, after at most one step of the
abstract system. The relation may say things that the concrete state has forgotten (history), so the
abstract run is found along with the concrete one.
-/

namespace Transition

variable {σ ε α δ : Type*} {R : σ → ε → σ → Prop} {A : α → δ → α → Prop} {Q : σ → α → Prop}

/-- A step from related states leaves them related, or an abstract step makes them so. -/
def Simulated (R : σ → ε → σ → Prop) (A : α → δ → α → Prop) (Q : σ → α → Prop) : Prop :=
  ∀ s e s' a, Q s a → R s e s' → Q s' a ∨ ∃ d a', A a d a' ∧ Q s' a'

/-- The abstract run has at most as many steps. -/
theorem Simulated.run {s s' : σ} {a : α} {es : List ε} (H : Simulated R A Q) (h : Run R s es s')
    (hs : Q s a) :
    ∃ ds a', ds.length ≤ es.length ∧ Run A a ds a' ∧ Q s' a' := by
  induction h generalizing a with
  | nil => exact ⟨[], a, Nat.le_refl _, .nil, hs⟩
  | @cons s t u e es hst _ ih =>
    rcases H s e t a hs hst with ht | ⟨d, a', hd, ht⟩
    · obtain ⟨ds, a', hlen, hrun, hu⟩ := ih ht
      exact ⟨ds, a', Nat.le_succ_of_le hlen, hrun, hu⟩
    · obtain ⟨ds, a'', hlen, hrun, hu⟩ := ih ht
      exact ⟨d :: ds, a'', Nat.succ_le_succ hlen, .cons hd hrun, hu⟩

end Transition
