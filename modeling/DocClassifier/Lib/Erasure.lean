import DocClassifier.Lib.Sessions

/-!
# What a transaction block does not see

`f` erases a part of the tables. A block is oblivious to that part when its answers to what it reads
are the same on the erased tables, and when all its writes satisfy `P`: the writes that can be made
before the erasure or after it. Such a block takes the same steps on a server whose tables are
erased (`Server.stmt_erase`).
-/

namespace ReadCommitted

variable {T W K ε α β ι : Type}

/-- The writes that satisfy `P` commute with the erasure. -/
structure Backend.Erases (B : Backend T W K ε) (f : T → T) (P : W → Prop) : Prop where
  apply : ∀ w t, P w → B.apply w (f t) = f (B.apply w t)
  check : ∀ w t, P w → B.check w (f t) = B.check w t

theorem Backend.Erases.view {B : Backend T W K ε} {f : T → T} {P : W → Prop} (H : B.Erases f P)
    {ws : List W} (hws : ∀ w ∈ ws, P w) (t : T) : B.view (f t) ws = f (B.view t ws) := by
  induction ws generalizing t with
  | nil => rfl
  | cons w ws ih =>
    rw [Backend.view_cons, Backend.view_cons, H.apply w t (hws w List.mem_cons_self)]
    exact ih (fun w' hw => hws w' (List.mem_cons_of_mem _ hw)) _

namespace Tx

/-- Every write of the block satisfies `P`. -/
inductive Writes (P : W → Prop) : Tx T W ε α → Prop
  | ret {a : α} : Writes P (.ret a)
  | raise {e : ε} : Writes P (.raise e)
  | select {k : T → Tx T W ε α} : (∀ t, Writes P (k t)) → Writes P (.select k)
  | exec {w : W} {k : T → Tx T W ε α} : P w → (∀ t, Writes P (k t)) → Writes P (.exec w k)

/-- The block goes on in the same way when `f` has erased what it reads. -/
inductive Oblivious (f : T → T) (P : W → Prop) : Tx T W ε α → Prop
  | ret {a : α} : Oblivious f P (.ret a)
  | raise {e : ε} : Oblivious f P (.raise e)
  | select {k : T → Tx T W ε α} : (∀ t, k (f t) = k t) → (∀ t, Oblivious f P (k t)) →
      Oblivious f P (.select k)
  | exec {w : W} {k : T → Tx T W ε α} : P w → (∀ t, k (f t) = k t) →
      (∀ t, Oblivious f P (k t)) → Oblivious f P (.exec w k)

variable {P : W → Prop} {p : Tx T W ε α} {ws : List W} {a : α}

theorem Writes.map {g : α → β} (h : p.Writes P) : (p >>= fun a => pure (g a)).Writes P := by
  induction h with
  | ret => exact .ret
  | raise => exact .raise
  | select _ ih => exact .select ih
  | exec hw _ ih => exact .exec hw ih

theorem Writes.commits (h : p.Writes P) (hc : p.Commits ws a) : ∀ w ∈ ws, P w := by
  induction h generalizing ws with
  | ret =>
    cases hc
    exact nofun
  | raise => cases hc
  | select _ ih =>
    cases hc with
    | select t hc => exact ih t hc
  | exec hw _ ih =>
    cases hc with
    | exec t hc =>
      intro w' hw'
      rcases List.mem_cons.mp hw' with rfl | hw'
      · exact hw
      · exact ih t hc w' hw'

end Tx

section
variable {B : Backend T W K ε} {f : T → T} {P : W → Prop}

/-- What a block in progress is oblivious to. -/
theorem Inside.oblivious {p : Tx T W ε α} {t : Txn T W ε α} (H : Inside p t)
    (hp : p.Oblivious f P) : t.rest.Oblivious f P ∧ ∀ w ∈ t.pending, P w := by
  induction H with
  | start => exact ⟨hp, nofun⟩
  | select t _ ih =>
    obtain ⟨hrest, hws⟩ := ih
    cases hrest with
    | select _ hk => exact ⟨hk t, hws⟩
  | exec t _ ih =>
    obtain ⟨hrest, hws⟩ := ih
    cases hrest with
    | exec hw _ hk => exact ⟨hk t,
      List.forall_mem_append.mpr ⟨hws, List.forall_mem_singleton.mpr hw⟩⟩

def Server.erase (f : T → T) (s : Server T K ι) : Server T K ι := { s with db := f s.db }

variable [DecidableEq ι] [DecidableEq K] {s : Server T K ι} {i : ι} {t : Txn T W ε α}

/-- A statement of an oblivious block does the same on a server whose tables are erased. -/
theorem Server.stmt_erase (hB : B.Erases f P) (hrest : t.rest.Oblivious f P)
    (hws : ∀ w ∈ t.pending, P w) :
    (s.erase f).stmt B i t = (s.stmt B i t).map fun (s', r) => (s'.erase f, r) := by
  have hview := hB.view hws s.db
  obtain ⟨rest, ws⟩ := t
  dsimp only at hrest hws hview
  cases hrest with
  | ret =>
    rw [Server.stmt, Server.stmt]
    dsimp only [Server.erase]
    rw [hview]
    rfl
  | raise => rfl
  | select hk =>
    rw [Server.stmt, Server.stmt]
    dsimp only [Server.erase]
    rw [hview, hk]
    rfl
  | @exec w k hw hk =>
    have hws' : ∀ w' ∈ ws ++ [w], P w' :=
      List.forall_mem_append.mpr ⟨hws, List.forall_mem_singleton.mpr hw⟩
    have hview' := hB.view hws' s.db
    have hcheck : B.check w (B.view (f s.db) ws) = B.check w (B.view s.db ws) := by
      rw [hview, hB.check _ _ hw]
    have hblocked : (s.erase f).blocked i (B.row w) = s.blocked i (B.row w) := by
      cases B.row w <;> rfl
    have hlock : (s.erase f).lock i (B.row w) = (s.lock i (B.row w)).erase f := by
      cases B.row w <;> rfl
    rw [Server.stmt, Server.stmt]
    dsimp only
    rw [hblocked]
    split
    · rfl
    · have hdb : (s.erase f).db = f s.db := rfl
      rw [hdb, hcheck]
      split
      · rfl
      · rw [hlock, hview', hk]
        rfl

end

end ReadCommitted
