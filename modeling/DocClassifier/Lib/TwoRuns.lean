import DocClassifier.Lib.ReadCommitted
import Mathlib.Data.List.Forall2

/-!
# Two runs of a transaction block

Two tables are alike (`R`) when they differ only in what must stay secret, and two writes are alike
(`S`) when they differ only there. `Tx.Alike` says that two blocks issue alike statements, whatever
alike tables they see, and that they answer the same; its constructors and the rules for `bind` and
`query` are all a proof about a block needs. On a backend that respects the two relations, such
blocks run on alike tables give equal answers and alike tables (`Tx.Alike.run`).
-/

namespace ReadCommitted

variable {T W K ε α β : Type} {R : T → T → Prop} {S : W → W → Prop}

/-- Alike writes check alike and keep tables alike. -/
structure Backend.Respects (B : Backend T W K ε) (R : T → T → Prop) (S : W → W → Prop) : Prop where
  apply : ∀ {w w' t t'}, S w w' → R t t' → R (B.apply w t) (B.apply w' t')
  check : ∀ {w w' t t'}, S w w' → R t t' → B.check w t = B.check w' t'

theorem Backend.Respects.view {B : Backend T W K ε} (h : B.Respects R S) {ws ws' : List W}
    (hws : List.Forall₂ S ws ws') {db db' : T} (hdb : R db db') :
    R (B.view db ws) (B.view db' ws') := by
  induction hws generalizing db db' with
  | nil => exact hdb
  | cons hw _ ih => exact ih (h.apply hw hdb)

namespace Tx

inductive Alike (R : T → T → Prop) (S : W → W → Prop) : Tx T W ε α → Tx T W ε α → Prop
  | ret {a : α} : Alike R S (.ret a) (.ret a)
  | raise {e : ε} : Alike R S (.raise e) (.raise e)
  | select {k k' : T → Tx T W ε α} : (∀ t t', R t t' → Alike R S (k t) (k' t')) →
      Alike R S (.select k) (.select k')
  | exec {w w' : W} {k k' : T → Tx T W ε α} : S w w' →
      (∀ t t', R t t' → Alike R S (k t) (k' t')) → Alike R S (.exec w k) (.exec w' k')

namespace Alike

variable {p p' : Tx T W ε α}

theorem bind {q q' : α → Tx T W ε β} (hp : Alike R S p p') (hq : ∀ a, Alike R S (q a) (q' a)) :
    Alike R S (p >>= q) (p' >>= q') := by
  induction hp with
  | ret => exact hq _
  | raise => exact .raise
  | select _ ih => exact .select fun t t' ht => ih t t' ht
  | exec hw _ ih => exact .exec hw fun t t' ht => ih t t' ht

theorem query {q q' : T → α} (h : ∀ t t', R t t' → q t = q' t') :
    Alike R S (Tx.query q : Tx T W ε α) (Tx.query q') := by
  refine .select fun t t' ht => ?_
  rw [h t t' ht]
  exact .ret

/-- Alike blocks on alike tables, with the same fault, answer the same and leave alike tables. -/
theorem run {B : Backend T W K ε} (hB : B.Respects R S) (hp : Alike R S p p') {db db' : T}
    (hdb : R db db') (f : Fault ε) {ws ws' : List W} (hws : List.Forall₂ S ws ws') :
    (p.run B db f ws).1 = (p'.run B db' f ws').1 ∧
      R (p.run B db f ws).2 (p'.run B db' f ws').2 := by
  induction hp generalizing f ws ws' with
  | ret =>
    rcases f with - | ⟨- | n, e⟩
    · exact ⟨rfl, hB.view hws hdb⟩
    · exact ⟨rfl, hdb⟩
    · exact ⟨rfl, hB.view hws hdb⟩
  | raise =>
    rw [Tx.run_raise, Tx.run_raise]
    exact ⟨rfl, hdb⟩
  | select _ ih =>
    have hview := hB.view hws hdb
    rcases f with - | ⟨- | n, e⟩
    · exact ih _ _ hview none hws
    · exact ⟨rfl, hdb⟩
    · exact ih _ _ hview (some (n, e)) hws
  | @exec w w' k k' hw _ ih =>
    have hview := hB.view hws hdb
    have hws' : List.Forall₂ S (ws ++ [w]) (ws' ++ [w']) :=
      List.rel_append hws (.cons hw .nil)
    have hview' := hB.view hws' hdb
    rcases f with - | ⟨- | n, e⟩
    · simp only [Tx.run, hB.check hw hview]
      split
      · exact ⟨rfl, hdb⟩
      · exact ih _ _ hview' none hws'
    · exact ⟨rfl, hdb⟩
    · simp only [Tx.run, hB.check hw hview]
      split
      · exact ⟨rfl, hdb⟩
      · exact ih _ _ hview' (some (n, e)) hws'

end Alike

end Tx

end ReadCommitted
