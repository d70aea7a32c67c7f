import DocClassifier.RelabelHistory
import Mathlib.Data.List.Induction

/-!
# Who may relabel what

In a serial run from an empty table of predictions, every prediction is the row that a
`save_prediction` call has inserted, apart from its relabeled class, and a relabeled class comes
from the last successful `relabel` call on the row. So what the checks of that call let through
holds of the row as it is now.
-/

namespace DocClassifier
open ReadCommitted Transition

/-- `c` is a `relabel` call whose transaction commits on `t`. -/
structure RelabelsRow (t : Tables) (c : Call × Gen × Fault Exn) (id : String)
    (update : PredictionRelabel) (actor : User) : Prop where
  call : c.1 = .relabel id update actor
  commits : c.1.commits c.2.1 c.2.2 t = true

/-- What a `relabel` call does to the predictions. -/
structure RelabelStep (t : Tables) (c : Call × Gen × Fault Exn) (t' : Tables) : Prop where
  otherRows : ∀ id update actor, c.1 = .relabel id update actor → ∀ other, other ≠ id →
    t'.predictions.find? other = t.predictions.find? other
  allowed : ∀ id update actor, RelabelsRow t c id update actor → actor.role ≠ .auditor ∧
    ∃ p, t.predictions.find? id = some p ∧
      t'.predictions.find? id = some { p with relabeledClass := some update.relabeledClass } ∧
      (actor.role = .reviewer → p.confidence < 7 / 10)

/-- The guards of a `relabel` call that has committed, and what it has set. -/
theorem Call.Done.of_relabel {g : Gen} {t t' : Tables} {id : String} {update : PredictionRelabel}
    {actor : User} {keys : List String} (h : (Call.relabel id update actor).Done g t keys t') :
    actor.role ∈ [Role.admin, Role.reviewer] ∧ ∃ p, t.predictions.find? id = some p ∧
      ¬ (actor.role = .reviewer ∧ p.confidence ≥ 7 / 10) ∧
      t'.predictions = t.predictions.modify id
        (fun p => { p with relabeledClass := some update.relabeledClass }) fun _ => rfl := by
  cases h with
  | relabel hr hp hconf => exact ⟨hr, _, hp, hconf, rfl⟩
  | transition htr => cases htr

theorem relabelStep (t : Tables) (c : Call × Gen × Fault Exn) :
    RelabelStep t c (c.1.serve c.2.1 c.2.2 t) := by
  rcases c.1.commits_cases c.2.1 c.2.2 t with ⟨hc, heq⟩ | ⟨hc, keys, hdone⟩
  · refine ⟨fun _ _ _ _ _ _ => by rw [heq], fun _ _ _ h => ?_⟩
    cases hc.symm.trans h.commits
  refine ⟨fun id update actor hcall other hne => ?_, fun id update actor h => ?_⟩
  · rw [hcall] at hdone ⊢
    obtain ⟨-, p, -, -, hset⟩ := hdone.of_relabel
    rw [hset, Table.find?_modify, if_neg hne.symm]
  · rw [h.call] at hdone ⊢
    obtain ⟨hr, p, hp, hconf, hset⟩ := hdone.of_relabel
    refine ⟨?_, p, hp, ?_, fun hrev => ?_⟩
    · intro haud
      simp [haud] at hr
    · rw [hset, Table.find?_modify, if_pos rfl, hp, Option.map_some]
    · by_contra hlt
      exact hconf ⟨hrev, Rat.not_lt.mp hlt⟩

/-! ## Where a row comes from -/

/-- A `save_prediction` call of the run has inserted the row, up to its relabeled class. -/
def SavedIn (t : Tables) (calls : List (Call × Gen × Fault Exn)) (p : Prediction) : Prop :=
  ∃ before c after batchId data, calls = before ++ c :: after ∧
    c.1 = .savePrediction batchId data ∧
    c.1.commits c.2.1 c.2.2 (serveAll t before) = true ∧
    p = { PredictionService.newPrediction c.2.1 batchId data with
      relabeledClass := p.relabeledClass }

/-- The last successful `relabel` call of the run on `id`. -/
def LastRelabel (t : Tables) (calls : List (Call × Gen × Fault Exn)) (id : String)
    (update : PredictionRelabel) (actor : User) : Prop :=
  ∃ before c after, calls = before ++ c :: after ∧
    RelabelsRow (serveAll t before) c id update actor ∧
    relabels id (serveAll t (before ++ [c])) after = []

/-- Everything about a row that the run explains. -/
structure Explained (t : Tables) (calls : List (Call × Gen × Fault Exn)) (p : Prediction) :
    Prop where
  saved : SavedIn t calls p
  relabeled : ∀ cls, p.relabeledClass = some cls → ∃ update actor, update.relabeledClass = cls ∧
    LastRelabel t calls p.id update actor ∧ actor.role ≠ .auditor ∧
    (actor.role = .reviewer → p.confidence < 7 / 10)

section
variable {t : Tables} {calls : List (Call × Gen × Fault Exn)} {c : Call × Gen × Fault Exn}
  {p : Prediction} {id : String} {update : PredictionRelabel} {actor : User}

theorem SavedIn.later (H : SavedIn t calls p) : SavedIn t (calls ++ [c]) p := by
  obtain ⟨before, s, after, batchId, data, rfl, hrest⟩ := H
  exact ⟨before, s, after ++ [c], batchId, data, by simp, hrest⟩

theorem SavedIn.relabel (H : SavedIn t calls p) (cls : String) :
    SavedIn t calls { p with relabeledClass := some cls } := by
  obtain ⟨before, s, after, batchId, data, hcalls, hs, hcommits, hp⟩ := H
  refine ⟨before, s, after, batchId, data, hcalls, hs, hcommits, ?_⟩
  rw [hp]

theorem LastRelabel.later (H : LastRelabel t calls id update actor)
    (hc : relabels id (serveAll t calls) [c] = []) :
    LastRelabel t (calls ++ [c]) id update actor := by
  obtain ⟨before, r, after, rfl, hr, hafter⟩ := H
  refine ⟨before, r, after ++ [c], by simp, hr, ?_⟩
  rw [relabels_append, hafter, ← serveAll_append, List.append_assoc]
  exact hc

theorem Explained.later (H : Explained t calls p)
    (hc : relabels p.id (serveAll t calls) [c] = []) : Explained t (calls ++ [c]) p := by
  refine ⟨H.saved.later, fun cls hcls => ?_⟩
  obtain ⟨update, actor, hupdate, hlast, hallowed⟩ := H.relabeled cls hcls
  exact ⟨update, actor, hupdate, hlast.later hc, hallowed⟩

/-- Only `save_prediction` makes a row. -/
theorem Call.Done.savedRow {g : Gen} {c : Call} {t' : Tables} {keys : List String}
    (h : c.Done g t keys t') (hnone : t.predictions.find? id = none)
    (hp : t'.predictions.find? id = some p) :
    ∃ batchId data, c = .savePrediction batchId data ∧
      p = PredictionService.newPrediction g batchId data := by
  cases h with
  | @savePrediction batchId data hid hb =>
    have hid' : t.predictions.find? (PredictionService.newPrediction g batchId data).id = none
      := hid
    rw [Table.find?_insert hid'] at hp
    split at hp
    · cases hp
      exact ⟨batchId, data, rfl, rfl⟩
    · cases hnone.symm.trans hp
  | relabel => simp [Table.find?_modify, hnone] at hp
  | createUser | changeRole | deleteUser | createBatch | transition =>
    cases hnone.symm.trans hp

theorem Call.eq_relabel {c : Call} {cls : String} (h : c.relabels? id = some cls) :
    ∃ update actor, c = .relabel id update actor ∧ update.relabeledClass = cls := by
  cases c with
  | relabel predictionId update actor =>
    simp only [Call.relabels?, Option.ite_none_right_eq_some, Option.some.injEq] at h
    obtain ⟨rfl, rfl⟩ := h
    exact ⟨update, actor, rfl, rfl⟩
  | _ => cases h

theorem RelabelsRow.of_relabels {cls : String} {rest : List String}
    (h : relabels id t [c] = cls :: rest) :
    ∃ update actor, RelabelsRow t c id update actor ∧ update.relabeledClass = cls := by
  simp only [relabels, List.append_nil] at h
  split at h
  · rename_i hc
    have hcls : c.1.relabels? id = some cls := by
      cases hr : c.1.relabels? id with
      | none => simp [hr] at h
      | some cls' =>
        simp only [hr, Option.toList_some, List.cons.injEq] at h
        rw [h.1]
    obtain ⟨update, actor, hcall, hupdate⟩ := Call.eq_relabel hcls
    exact ⟨update, actor, ⟨hcall, hc⟩, hupdate⟩
  · cases h

/-- The row of a successful `relabel` call. -/
theorem Explained.relabel {q : Prediction} (H : Explained t calls q)
    (hr : RelabelsRow (serveAll t calls) c q.id update actor)
    (hq : (serveAll t calls).predictions.find? q.id = some q) :
    Explained t (calls ++ [c]) { q with relabeledClass := some update.relabeledClass } := by
  refine ⟨(H.saved.relabel _).later, fun cls hcls => ?_⟩
  cases hcls
  obtain ⟨haud, q', hq', -, hconf⟩ := (relabelStep (serveAll t calls) c).allowed _ _ _ hr
  cases hq.symm.trans hq'
  exact ⟨update, actor, rfl, ⟨calls, c, [], rfl, hr, rfl⟩, haud, hconf⟩

theorem explained_step (H : ∀ p, (serveAll t calls).predictions.find? p.id = some p →
      Explained t calls p)
    (hp : (serveAll t (calls ++ [c])).predictions.find? p.id = some p) :
    Explained t (calls ++ [c]) p := by
  rw [serveAll_append, serveAll_cons] at hp
  change (c.1.serve c.2.1 c.2.2 (serveAll t calls)).predictions.find? p.id = some p at hp
  cases hq : (serveAll t calls).predictions.find? p.id with
  | none =>
    -- A new row.
    rcases c.1.commits_cases c.2.1 c.2.2 (serveAll t calls) with ⟨-, heq⟩ | ⟨hc, keys, hdone⟩
    · rw [heq, hq] at hp
      cases hp
    · obtain ⟨batchId, data, hcall, rfl⟩ := hdone.savedRow hq hp
      exact ⟨⟨calls, c, [], batchId, data, rfl, hcall, hc, rfl⟩, nofun⟩
  | some q =>
    rcases served_cases hq c with ⟨cls, hr, hp', -⟩ | ⟨hr, hp', -⟩
    · obtain ⟨update, actor, hrow, rfl⟩ := RelabelsRow.of_relabels (hr [])
      have hid := Table.find?_key hq
      rw [← hid] at hq hrow
      cases hp.symm.trans hp'
      exact (H q hq).relabel hrow hq
    · cases hp.symm.trans hp'
      exact (H p hq).later (hr [])

/-- Every row of a run from an empty table is explained by the run. -/
theorem explained (hempty : t.predictions.rows = []) (calls : List (Call × Gen × Fault Exn))
    (hp : (serveAll t calls).predictions.find? p.id = some p) : Explained t calls p := by
  induction calls using List.reverseRecOn generalizing p with
  | nil =>
    have hmem := Table.find?_mem hp
    simp [serveAll, hempty] at hmem
  | append_singleton calls c ih => exact explained_step (fun _ => ih) hp

end

/-- The relabel policy over serial runs of the service calls, from tables without predictions. -/
theorem relabel_policy (t : Tables) (calls : List (Call × Gen × Fault Exn)) :
    let initial := { t with predictions := .empty }
    Run (fun u c v => Served u c v ∧ RelabelStep u c v) initial calls (serveAll initial calls) ∧
      ∀ p ∈ (serveAll initial calls).predictions.rows,
        SavedIn initial calls p ∧ (∀ cls, p.relabeledClass = some cls → cls ∈ CLASSES) ∧
        (p.relabeledClass.isSome → 7 / 10 ≤ p.confidence → ∃ update actor,
          actor.role = .admin ∧ LastRelabel initial calls p.id update actor) := by
  intro initial
  refine ⟨(serveAll_run initial calls).mono fun u c v h => ⟨h, h ▸ relabelStep u c⟩, ?_⟩
  intro p hp
  have H : Explained initial calls p := explained rfl calls (Table.find?_eq_some.mpr ⟨hp, rfl⟩)
  refine ⟨H.saved, fun cls hcls => ?_, fun hsome hconf => ?_⟩
  · obtain ⟨update, actor, rfl, -⟩ := H.relabeled cls hcls
    exact update.mustBeValidClass
  · obtain ⟨cls, hcls⟩ := Option.isSome_iff_exists.mp hsome
    obtain ⟨update, actor, -, hlast, haud, hrev⟩ := H.relabeled cls hcls
    refine ⟨update, actor, ?_, hlast⟩
    cases hrole : actor.role with
    | admin => rfl
    | reviewer => exact absurd hconf (Rat.not_le.mpr (hrev hrole))
    | auditor => exact absurd hrole haud

end DocClassifier
