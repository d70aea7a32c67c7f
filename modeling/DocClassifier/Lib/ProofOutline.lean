import DocClassifier.Lib.Sessions

/-!
# Proof outlines of transaction blocks

A logic for blocks that run at the same time under READ COMMITTED. A session knows something about
the committed tables and those that were committed before, `φ`, and the others commit between its
statements. What it knows must be stable: the others commit only what the guarantee `G` allows, and
they cannot write a row that the session has locked. An outline (`Tx.Outline`) says at every
statement what is known after it, and at the end that the block keeps to the guarantee and that its
postcondition `Q` holds of the tables that it commits on.

`Sys.refines` is what outlines are for: when every session has one, the committed tables are those
of a machine in which each session writes in one step, at its commit, as its postcondition says. The
postcondition may speak about an earlier version (`Timeline.Had`): a SELECT that has locked nothing
may have been answered from one.
-/

namespace ReadCommitted
open Transition

variable {T W K ε α β ι : Type}

/-! ## Timelines -/

/-- The committed tables, and those that were committed before, the latest first. -/
structure Timeline (T : Type) where
  db : T
  past : List T := []

namespace Timeline
variable {v : Timeline T} {p q : T → Prop}

def commit (v : Timeline T) (db : T) : Timeline T := ⟨db, v.db :: v.past⟩

/-- `p` is true of the committed tables, or it was at an earlier time. -/
def Had (v : Timeline T) (p : T → Prop) : Prop := ∃ t ∈ v.db :: v.past, p t

theorem Had.now (h : p v.db) : v.Had p := ⟨v.db, List.mem_cons_self, h⟩

theorem Had.commit (h : v.Had p) (db : T) : (v.commit db).Had p := by
  obtain ⟨t, ht, hp⟩ := h
  exact ⟨t, List.mem_cons_of_mem _ ht, hp⟩

theorem Had.imp (h : v.Had p) (hpq : ∀ t, p t → q t) : v.Had q := by
  obtain ⟨t, ht, hp⟩ := h
  exact ⟨t, ht, hpq t hp⟩

/-- A version that was seen. -/
theorem Had.of_eq {t : T} (h : v.Had (· = t)) (hp : p t) : v.Had p :=
  h.imp fun _ ht => ht ▸ hp

/-- Without an earlier version. -/
theorem Had.of_nil {db : T} (h : (⟨db, []⟩ : Timeline T).Had p) : p db := by
  obtain ⟨t, ht, hp⟩ := h
  cases List.mem_singleton.mp ht
  exact hp

end Timeline

/-! ## Outlines -/

section
variable (B : Backend T W K ε) (G : T → List W → Prop)

/-- No row is locked by a write of each list. -/
def Backend.Apart (ws ws' : List W) : Prop :=
  ∀ w ∈ ws, ∀ w' ∈ ws', ∀ k, B.row w = some k → B.row w' ≠ some k

/-- What a session that has executed `ws` knows stays true when another one commits. -/
def Backend.Stable (ws : List W) (φ : Timeline T → Prop) : Prop :=
  ∀ v ws', G v.db ws' → B.Apart ws ws' → φ v → φ (v.commit (B.view v.db ws'))

/-- The block, of which `ws` has been executed, commits on tables with `Q` if it starts from `φ`. -/
def Tx.Outline (Q : Timeline T → List W → α → Prop) :
    List W → (Timeline T → Prop) → Tx T W ε α → Prop
  | ws, φ, .ret a => ∀ v, φ v → G v.db ws ∧ Q v ws a
  | _, _, .raise _ => True
  | ws, φ, .select k => ∀ v, φ v →
    ∃ ψ, B.Stable G ws ψ ∧ ψ v ∧ Tx.Outline Q ws ψ (k (B.view v.db ws))
  | ws, φ, .exec w k => ∀ v, φ v → B.check w (B.view v.db ws) = none →
    ∃ ψ, B.Stable G (ws ++ [w]) ψ ∧ ψ v ∧
      Tx.Outline Q (ws ++ [w]) ψ (k (B.view v.db (ws ++ [w])))

end

variable {B : Backend T W K ε} {G : T → List W → Prop}

/-! ## Stable assertions -/

namespace Backend.Stable
variable {ws ws' : List W} {φ ψ : Timeline T → Prop}

theorem const (p : Prop) : B.Stable G ws fun _ => p := fun _ _ _ _ h => h

theorem and (H : B.Stable G ws φ) (H' : B.Stable G ws ψ) : B.Stable G ws fun v => φ v ∧ ψ v :=
  fun v ws' hG hws h => ⟨H v ws' hG hws h.1, H' v ws' hG hws h.2⟩

/-- What was true at some time stays so. -/
theorem had (p : T → Prop) : B.Stable G ws (·.Had p) := fun _ _ _ _ h => h.commit _

/-- More locks are better. -/
theorem append (H : B.Stable G ws φ) (ws' : List W) : B.Stable G (ws ++ ws') φ :=
  fun v ws'' hG hws => H v ws'' hG fun w hw => hws w (List.mem_append_left _ hw)

/-- The others do less. -/
theorem mono {G' : T → List W → Prop} (H : B.Stable G ws φ) (hG : ∀ db ws, G' db ws → G db ws) :
    B.Stable G' ws φ := fun v ws' hG' => H v ws' (hG v.db ws' hG')

/-- What the guarantee keeps is stable without any lock. -/
theorem of_guarantee
    (h : ∀ v ws', G v.db ws' → φ v → φ (v.commit (B.view v.db ws'))) : B.Stable G ws φ :=
  fun v ws' hG _ => h v ws' hG

end Backend.Stable

/-! ## The rules -/

namespace Tx.Outline
variable {Q : Timeline T → List W → α → Prop} {ws : List W} {φ : Timeline T → Prop}

/-- A SELECT that tells which tables it has seen. -/
theorem see {k : T → Tx T W ε α} (hφ : B.Stable G ws φ)
    (h : ∀ v, φ v → (k (B.view v.db ws)).Outline B G Q ws fun v' => φ v' ∧ v'.Had (· = v.db)) :
    (Tx.select k).Outline B G Q ws φ :=
  fun v hv => ⟨_, hφ.and (.had (· = v.db)), ⟨hv, .now rfl⟩, h v hv⟩

/-- A SELECT from which `ψ` is learnt. -/
theorem learn {k : T → Tx T W ε α} {ψ : Timeline T → Timeline T → Prop}
    (hψ : ∀ v, B.Stable G ws (ψ v)) (hv : ∀ v, φ v → ψ v v)
    (h : ∀ v, φ v → (k (B.view v.db ws)).Outline B G Q ws (ψ v)) :
    (Tx.select k).Outline B G Q ws φ := fun v hφ => ⟨ψ v, hψ v, hv v hφ, h v hφ⟩

/-- A write after which nothing more is known. -/
theorem exec {w : W} {k : T → Tx T W ε α} (hφ : B.Stable G ws φ)
    (h : ∀ v, φ v → B.check w (B.view v.db ws) = none →
      (k (B.view v.db (ws ++ [w]))).Outline B G Q (ws ++ [w]) φ) :
    (Tx.exec w k).Outline B G Q ws φ :=
  fun v hv hc => ⟨φ, hφ.append _, hv, h v hv hc⟩

/-- The rule of consequence: what is guaranteed may be more, and what is known at the start too. -/
theorem consequence {G' : T → List W → Prop} {Q' : Timeline T → List W → α → Prop}
    {p : Tx T W ε α} {φ' : Timeline T → Prop} (h : p.Outline B G Q ws φ) (hφ : ∀ v, φ' v → φ v)
    (hG : ∀ db ws, G' db ws → G db ws)
    (hQ : ∀ v ws a, G v.db ws → Q v ws a → G' v.db ws ∧ Q' v ws a) :
    p.Outline B G' Q' ws φ' := by
  induction p generalizing ws φ φ' with
  | ret a => exact fun v hv => hQ v ws a (h v (hφ v hv)).1 (h v (hφ v hv)).2
  | raise e => trivial
  | select k ih =>
    intro v hv
    obtain ⟨ψ, hψ, hψv, h⟩ := h v (hφ v hv)
    exact ⟨ψ, hψ.mono hG, hψv, ih _ h fun _ h => h⟩
  | exec w k ih =>
    intro v hv hc
    obtain ⟨ψ, hψ, hψv, h⟩ := h v (hφ v hv) hc
    exact ⟨ψ, hψ.mono hG, hψv, ih _ h fun _ h => h⟩

/-- A function of the result of a block. -/
theorem map {Q : Timeline T → List W → β → Prop} {p : Tx T W ε α} {f : α → β}
    (h : p.Outline B G (fun v ws a => Q v ws (f a)) ws φ) :
    (p >>= fun a => pure (f a)).Outline B G Q ws φ := by
  induction p generalizing ws φ with
  | ret a => exact h
  | raise e => trivial
  | select k ih =>
    intro v hv
    obtain ⟨ψ, hψ, hψv, h⟩ := h v hv
    exact ⟨ψ, hψ, hψv, ih _ h⟩
  | exec w k ih =>
    intro v hv hc
    obtain ⟨ψ, hψ, hψv, h⟩ := h v hv hc
    exact ⟨ψ, hψ, hψv, ih _ h⟩

end Tx.Outline

/-! ## Sessions -/

/-- The session `i` holds the locks of its writes and is at a point of its outline. -/
def Server.Knows (B : Backend T W K ε) (G : T → List W → Prop) (Q : Timeline T → List W → α → Prop)
    (s : Server T K ι) (v : Timeline T) (i : ι) (t : Txn T W ε α) : Prop :=
  s.Holds B i t.pending ∧
    ∃ φ, B.Stable G t.pending φ ∧ φ v ∧ t.rest.Outline B G Q t.pending φ

namespace Server.Knows
variable {Q : Timeline T → List W → α → Prop} {s s' : Server T K ι} {v : Timeline T} {i j : ι}
  {t t' : Txn T W ε α}

theorem start {p : Tx T W ε α} {I : Timeline T → Prop}
    (hI : ∀ v ws, G v.db ws → I v → I (v.commit (B.view v.db ws))) (hv : I v)
    (h : p.Outline B G Q [] I) : s.Knows B G Q v i ⟨p, []⟩ :=
  ⟨nofun, I, .of_guarantee hI, hv, h⟩

/-- The locks are kept and nothing is committed. -/
theorem of_holds (H : s.Knows B G Q v i t) (h : s'.Holds B i t.pending) :
    s'.Knows B G Q v i t := ⟨h, H.2⟩

/-- Both sessions hold the locks of their writes. -/
theorem apart {u : Txn T W ε α} {Q' : Timeline T → List W → α → Prop} (H : s.Knows B G Q v i t)
    (Hj : s.Knows B G Q' v j u) (hij : j ≠ i) : B.Apart t.pending u.pending := by
  intro w hw w' hw' k hk hk'
  have heq := (H.1 w hw k hk).symm.trans (Hj.1 w' hw' k hk')
  exact hij (Option.some.inj heq).symm

variable [DecidableEq ι] [DecidableEq K]

theorem own (H : s.Knows B G Q v i t) (hv : v.db = s.db)
    (h : s.stmt B i t = some (s', .running t')) : s'.Knows B G Q v i t' := by
  obtain ⟨hl, φ, -, hφv, hp⟩ := H
  have hl' := hl.own h
  cases stmt_cases h with
  | select hr =>
    rw [hr] at hp
    obtain ⟨ψ, hψ, hψv, hk⟩ := hp _ hφv
    exact ⟨hl', ψ, hψ, hψv, hv ▸ hk⟩
  | exec hr _ hc =>
    rw [hr] at hp
    obtain ⟨ψ, hψ, hψv, hk⟩ := hp _ hφv (hv ▸ hc)
    exact ⟨hl', ψ, hψ, hψv, hv ▸ hk⟩

theorem committed {a : α} (H : s.Knows B G Q v i t) (hv : v.db = s.db)
    (h : s.stmt B i t = some (s', .committed a)) :
    s'.db = B.view v.db t.pending ∧ G v.db t.pending ∧ Q v t.pending a := by
  obtain ⟨-, φ, -, hφv, hp⟩ := H
  obtain ⟨ht, hdb⟩ := stmt_committed h
  rw [ht] at hp
  exact ⟨hv ▸ hdb, hp _ hφv⟩

/-- Another session commits. -/
theorem other_commits {u : Txn T W ε α} {a : α} {Q' : Timeline T → List W → α → Prop}
    (H : s.Knows B G Q v i t) (Hj : s.Knows B G Q' v j u) (hij : j ≠ i) (hv : v.db = s.db)
    (h : s.stmt B j u = some (s', .committed a)) :
    s'.Knows B G Q (v.commit (B.view v.db u.pending)) i t := by
  obtain ⟨-, hG, -⟩ := Hj.committed hv h
  have hapart := H.apart Hj hij
  obtain ⟨hi, φ, hφ, hφv, hp⟩ := H
  exact ⟨hi.other hij h, φ, hφ, hφ _ _ hG hapart hφv, hp⟩

end Server.Knows

/-- A step of the machine in which sessions write at their commits. -/
def Atomic (B : Backend T W K ε) (Q : ι → Timeline T → List W → α → Prop) (v : Timeline T)
    (c : ι × α) (v' : Timeline T) : Prop :=
  ∃ ws, Q c.1 v ws c.2 ∧ v' = v.commit (B.view v.db ws)

namespace Sys

/-- The session that the event `e` has committed, when it has led to `s`. -/
def newlyCommitted (s : Sys T W K ε α ι) : Event ι ε → List (ι × α)
  | .stmt i => match s.session i with
    | .done (.ok a) => [(i, a)]
    | _ => []
  | .begin _ | .fail .. => []

/-- The sessions that commit in a run with their answers, in the order of their commits. -/
def commits [DecidableEq ι] [DecidableEq K] (B : Backend T W K ε) (prog : ι → Tx T W ε α)
    (s : Sys T W K ε α ι) : List (Event ι ε) → List (ι × α)
  | [] => []
  | e :: es => match s.step B prog e with
    | some s' => s'.newlyCommitted e ++ s'.commits B prog es
    | none => []

section
variable [DecidableEq ι] [DecidableEq K] {prog : ι → Tx T W ε α}
  {Q : ι → Timeline T → List W → α → Prop} {s s' : Sys T W K ε α ι} {e : Event ι ε}
  {es es' : List (Event ι ε)} {v : Timeline T} {cs : List (ι × α)} {I : Timeline T → Prop}

theorem commits_append (h : Run (Steps (Sys.step B prog)) s es s') :
    s.commits B prog (es ++ es') = s.commits B prog es ++ s'.commits B prog es' := by
  induction h with
  | nil => rfl
  | cons hs _ ih =>
    simp only [List.cons_append, commits, show Sys.step B prog _ _ = _ from hs, ih,
      List.append_assoc]

/-! ## The sessions that have committed -/

/-- `cs` are the sessions that have committed, each once. -/
structure Recorded (s : Sys T W K ε α ι) (cs : List (ι × α)) : Prop where
  nodup : (cs.map (·.1)).Nodup
  mem : ∀ i a, (i, a) ∈ cs ↔ s.session i = .done (.ok a)

omit [DecidableEq ι] [DecidableEq K] in
theorem recorded_start (db : T) : (start db : Sys T W K ε α ι).Recorded [] :=
  ⟨List.nodup_nil, fun _ _ => ⟨nofun, nofun⟩⟩

omit [DecidableEq K] in
/-- A session that was not done does something other than commit. -/
theorem Recorded.quiet {i : ι} {x : Session T W ε α} {server : Server T K ι}
    (H : s.Recorded cs) (hi : ∀ r, s.session i ≠ .done r) (hx : ∀ a, x ≠ .done (.ok a)) :
    Recorded ⟨server, Function.update s.session i x⟩ cs := by
  refine ⟨H.nodup, fun j a => ?_⟩
  rw [H.mem]
  simp only [Function.update_apply]
  split
  · rename_i hji
    subst hji
    exact iff_of_false (hi _) (hx a)
  · rfl

omit [DecidableEq K] in
theorem Recorded.commit {i : ι} {a : α} {server : Server T K ι} (H : s.Recorded cs)
    (hi : ∀ r, s.session i ≠ .done r) :
    Recorded ⟨server, Function.update s.session i (.done (.ok a))⟩ (cs ++ [(i, a)]) := by
  have hnot : ∀ b, (i, b) ∉ cs := fun b hb => hi _ ((H.mem i b).mp hb)
  refine ⟨?_, fun j b => ?_⟩
  · rw [List.map_append, List.nodup_append]
    refine ⟨H.nodup, List.pairwise_singleton _ _, ?_⟩
    rintro _ hj _ hi' rfl
    obtain ⟨⟨j, b⟩, hb, rfl⟩ := List.mem_map.mp hj
    obtain rfl := List.mem_singleton.mp hi'
    exact hnot b hb
  · simp only [List.mem_append, List.mem_singleton, Prod.mk.injEq, H.mem, Function.update_apply]
    split
    · rename_i hji
      subst hji
      simp [hi, eq_comm]
    · rename_i hji
      simp [hji]

theorem Recorded.step (H : s.Recorded cs) (h : s.step B prog e = some s') :
    s'.Recorded (cs ++ s'.newlyCommitted e) := by
  cases step_cases h with
  | @begin i hi =>
    rw [newlyCommitted, List.append_nil]
    exact H.quiet (by simp [hi]) (by simp)
  | @fail i e t hi =>
    rw [newlyCommitted, List.append_nil]
    exact H.quiet (by simp [hi]) (by simp)
  | @stmt i t server r hi hs =>
    have hdone : ∀ r, s.session i ≠ .done r := by simp [hi]
    simp only [newlyCommitted, Function.update_self]
    cases r with
    | running | aborted =>
      rw [Session.ofReply, List.append_nil]
      exact H.quiet hdone (by simp)
    | committed a => exact H.commit hdone

theorem Recorded.run (H : s.Recorded cs) (h : Run (Steps (Sys.step B prog)) s es s') :
    s'.Recorded (cs ++ s.commits B prog es) := by
  induction h generalizing cs with
  | nil =>
    rw [commits, List.append_nil]
    exact H
  | @cons s u s' e es hs _ ih =>
    have hs' : s.step B prog e = some u := hs
    rw [commits, hs', ← List.append_assoc]
    exact ih (H.step hs)

/-! ## The machine that is refined -/

/-- The invariant holds, and every active session is at a point of its outline. -/
structure Outlined (B : Backend T W K ε) (G : T → List W → Prop) (I : Timeline T → Prop)
    (Q : ι → Timeline T → List W → α → Prop) (v : Timeline T) (s : Sys T W K ε α ι) : Prop where
  db : v.db = s.server.db
  inv : I v
  knows : ∀ i t, s.session i = .active t → s.server.Knows B G (Q i) v i t

/-- A step that commits nothing. -/
theorem Outlined.quiet (hprog : ∀ i, (prog i).Outline B G (Q i) [] I)
    (hI : ∀ v ws, G v.db ws → I v → I (v.commit (B.view v.db ws))) (H : s.Outlined B G I Q v)
    (h : s.step B prog e = some s') (hdb : s'.server.db = s.server.db) :
    s'.Outlined B G I Q v := by
  refine ⟨H.db.trans hdb.symm, H.inv, fun j u hu => ?_⟩
  cases step_cases h with
  | @begin i hi =>
    simp only [Function.update_apply] at hu
    split at hu
    · cases hu
      subst j
      exact .start hI H.inv (hprog i)
    · exact H.knows j u hu
  | @fail i e t hi =>
    simp only [Function.update_apply] at hu
    split at hu
    · cases hu
    · rename_i hne
      exact (H.knows j u hu).of_holds ((H.knows j u hu).1.release (Ne.symm hne))
  | @stmt i t server r hi hs =>
    simp only [Function.update_apply] at hu
    split at hu
    · subst j
      cases r with
      | running t' =>
        cases hu
        exact (H.knows i t hi).own H.db hs
      | committed | aborted => cases hu
    · rename_i hne
      exact (H.knows j u hu).of_holds ((H.knows j u hu).1.other (Ne.symm hne) hs)

theorem Outlined.step (hI : ∀ v ws, G v.db ws → I v → I (v.commit (B.view v.db ws)))
    (hprog : ∀ i, (prog i).Outline B G (Q i) [] I) (H : s.Outlined B G I Q v)
    (h : s.step B prog e = some s') :
    ∃ v', s'.Outlined B G I Q v' ∧ Run (Atomic B Q) v (s'.newlyCommitted e) v' := by
  cases step_cases h with
  | «begin» => exact ⟨v, H.quiet hprog hI h rfl, .nil⟩
  | fail => exact ⟨v, H.quiet hprog hI h rfl, .nil⟩
  | @stmt i t server r hi hs =>
    simp only [newlyCommitted, Function.update_self]
    cases r with
    | running t' => exact ⟨v, H.quiet hprog hI h (Server.stmt_running_db hs), .nil⟩
    | aborted e => exact ⟨v, H.quiet hprog hI h (Server.stmt_aborted_db hs), .nil⟩
    | committed a =>
      obtain ⟨hdb, hG, hQ⟩ := (H.knows i t hi).committed H.db hs
      refine ⟨v.commit (B.view v.db t.pending), ⟨hdb.symm, hI _ _ hG H.inv, fun j u hu => ?_⟩,
        .single ⟨_, hQ, rfl⟩⟩
      simp only [Function.update_apply] at hu
      split at hu
      · cases hu
      · rename_i hne
        exact (H.knows j u hu).other_commits (H.knows i t hi) (Ne.symm hne) H.db hs

/-- From any point of a run on, the sessions write at their commits. -/
theorem Outlined.run (hI : ∀ v ws, G v.db ws → I v → I (v.commit (B.view v.db ws)))
    (hprog : ∀ i, (prog i).Outline B G (Q i) [] I) (H : s.Outlined B G I Q v)
    (h : Run (Steps (Sys.step B prog)) s es s') :
    ∃ v', s'.Outlined B G I Q v' ∧ Run (Atomic B Q) v (s.commits B prog es) v' := by
  induction h generalizing v with
  | nil => exact ⟨v, H, .nil⟩
  | @cons s u s' e es hs _ ih =>
    have hs' : s.step B prog e = some u := hs
    obtain ⟨v₁, H₁, h₁⟩ := H.step hI hprog hs
    obtain ⟨v₂, H₂, h₂⟩ := ih H₁
    rw [commits, hs']
    exact ⟨v₂, H₂, h₁.append h₂⟩

omit [DecidableEq ι] [DecidableEq K] in
theorem outlined_start {db : T} (hdb : I ⟨db, []⟩) :
    (start db : Sys T W K ε α ι).Outlined B G I Q ⟨db, []⟩ := ⟨rfl, hdb, nofun⟩

/-- Sessions that have outlines write one at a time, in the order of their commits, and keep the
invariant that the outlines start from. -/
theorem refines {db : T} (hI : ∀ v ws, G v.db ws → I v → I (v.commit (B.view v.db ws)))
    (hprog : ∀ i, (prog i).Outline B G (Q i) [] I)
    (h : Run (Steps (Sys.step B prog)) (start db) es s) (hdb : I ⟨db, []⟩) :
    ∃ v, s.Outlined B G I Q v ∧ Run (Atomic B Q) ⟨db, []⟩ ((start db).commits B prog es) v ∧
      s.Recorded ((start db).commits B prog es) := by
  obtain ⟨v, H, hrun⟩ := (outlined_start hdb).run hI hprog h
  exact ⟨v, H, hrun, (recorded_start db).run h⟩

end

end Sys

end ReadCommitted
