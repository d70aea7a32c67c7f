import DocClassifier.Calls

/-!
# The relabel entries of a prediction

A relabel entry says `from` and `to`. The service writes the predicted class into `from`, also when
the prediction has been relabeled before, so the entries of a prediction form a chain only as long
as no relabel but the last one changes the label (`relabelHistory_iff`).
-/

namespace DocClassifier
open ReadCommitted Transition

/-- The label in effect. -/
def Prediction.label (p : Prediction) : String := p.relabeledClass.getD p.predictedClass

def Tables.labelOf (t : Tables) (id : String) : Option String :=
  (t.predictions.find? id).map (·.label)

/-- `from` and `to` of the relabel entries of a prediction, in order. -/
def relabelLog (id : String) (log : List AuditLog) : List (Option String × Option String) :=
  (log.filter fun e => e.action = "relabel" ∧ e.target = "prediction:" ++ id).map fun e =>
    (e.detail "from", e.detail "to")

section
variable {id : String} {log log' : List AuditLog} {e : AuditLog}

@[simp] theorem relabelLog_append :
    relabelLog id (log ++ log') = relabelLog id log ++ relabelLog id log' := by
  simp [relabelLog]

/-- An entry of another action is not in the history. -/
theorem relabelLog_append_of_ne (h : e.action ≠ "relabel") :
    relabelLog id (log ++ [e]) = relabelLog id log := by
  have hnil : relabelLog id [e] = [] := by simp [relabelLog, h]
  rw [relabelLog_append, hnil, List.append_nil]

/-- `ON DELETE SET NULL` does not touch what the entries say. -/
@[simp] theorem relabelLog_setNull {userId : String} :
    relabelLog id (log.map (·.setNull userId)) = relabelLog id log := by
  simp only [relabelLog, List.filter_map, List.map_map]
  rfl

theorem relabelLog_relabeled {g : Gen} {pred : Prediction} {predictionId : String}
    {update : PredictionRelabel} {actor : User} :
    relabelLog id [PredictionService.relabeled g pred predictionId update actor] =
      if predictionId = id then [(some pred.predictedClass, some update.relabeledClass)]
      else [] := by
  have hfrom : (PredictionService.relabeled g pred predictionId update actor).detail "from" =
    some pred.predictedClass := rfl
  have hto : (PredictionService.relabeled g pred predictionId update actor).detail "to" =
    some update.relabeledClass := rfl
  split
  · rename_i h
    subst h
    simp [relabelLog, PredictionService.relabeled, ← hfrom, ← hto]
  · rename_i h
    simp [relabelLog, PredictionService.relabeled, h]

end

/-- The class that a call gives to the prediction `id`. -/
def Call.relabels? (id : String) : Call → Option String
  | .relabel predictionId update _ =>
    if predictionId = id then some update.relabeledClass else none
  | _ => none

/-- The classes that the successful relabel calls of a serial run give to `id`, in order. -/
def relabels (id : String) (t : Tables) : List (Call × Gen × Fault Exn) → List String
  | [] => []
  | c :: calls =>
    (if c.1.commits c.2.1 c.2.2 t then (c.1.relabels? id).toList else []) ++
      relabels id (c.1.serve c.2.1 c.2.2 t) calls

theorem relabels_append {id : String} {t : Tables} {calls calls' : List (Call × Gen × Fault Exn)} :
    relabels id t (calls ++ calls') = relabels id t calls ++
      relabels id (serveAll t calls) calls' := by
  induction calls generalizing t with
  | nil => rfl
  | cons c calls ih => simp only [List.cons_append, relabels, ih, serveAll_cons, List.append_assoc]

/-- A relabel entry for `id` that is appended between `t` and `t'` says which label it has replaced
and which one it has set. -/
def FromIsLabel (id : String) (t t' : Tables) : Prop :=
  ∀ e, relabelLog id t'.auditLogs = relabelLog id t.auditLogs ++ [e] →
    e = (t.labelOf id, t'.labelOf id)

/-! ## One call -/

section
variable {id : String} {g : Gen} {t t' : Tables} {c : Call} {keys : List String}
  {p : Prediction}

/-- A call that relabels `id` records the predicted class and the new one. -/
theorem Call.Done.relabels_some {cls : String} (h : c.Done g t keys t')
    (hc : c.relabels? id = some cls) (hp : t.predictions.find? id = some p) :
    t'.predictions.find? id = some { p with relabeledClass := some cls } ∧
      relabelLog id t'.auditLogs =
        relabelLog id t.auditLogs ++ [(some p.predictedClass, some cls)] := by
  cases h with
  | relabel hr hpred hconf =>
    simp only [Call.relabels?, Option.ite_none_right_eq_some, Option.some.injEq] at hc
    obtain ⟨rfl, rfl⟩ := hc
    rw [hp] at hpred
    cases hpred
    exact ⟨by simp [Table.find?_modify, hp], by simp [relabelLog_relabeled]⟩
  | transition htr => cases c <;> first | cases hc | cases htr
  | createUser | changeRole | deleteUser | createBatch | savePrediction => cases hc

/-- The other calls leave the prediction and its entries alone. -/
theorem Call.Done.relabels_none (h : c.Done g t keys t') (hc : c.relabels? id = none)
    (hp : t.predictions.find? id = some p) :
    t'.predictions.find? id = some p ∧
      relabelLog id t'.auditLogs = relabelLog id t.auditLogs := by
  cases h with
  | relabel hr hpred hconf =>
    simp only [Call.relabels?, ite_eq_right_iff, reduceCtorEq, imp_false] at hc
    exact ⟨by simp [Table.find?_modify, hc, hp], by simp [relabelLog_relabeled, hc]⟩
  | savePrediction => exact ⟨Table.find?_insert_of_some hp, rfl⟩
  | deleteUser =>
    refine ⟨hp, ?_⟩
    rw [relabelLog_setNull]
    exact relabelLog_append_of_ne (by simp [UserService.userDeleted])
  | createUser => exact ⟨hp, relabelLog_append_of_ne (by simp [UserService.userCreate])⟩
  | changeRole => exact ⟨hp, relabelLog_append_of_ne (by simp [UserService.roleChange])⟩
  | createBatch => exact ⟨hp, relabelLog_append_of_ne (by simp [BatchService.batchCreated])⟩
  | transition => exact ⟨hp, relabelLog_append_of_ne (by simp [BatchService.stateChange])⟩

theorem FromIsLabel.of_eq (h : relabelLog id t'.auditLogs = relabelLog id t.auditLogs) :
    FromIsLabel id t t' := by
  intro e he
  rw [h] at he
  exact absurd (List.self_eq_append_right.mp he) (by simp)

theorem fromIsLabel_iff {from' to' : Option String}
    (h : relabelLog id t'.auditLogs = relabelLog id t.auditLogs ++ [(from', to')]) :
    FromIsLabel id t t' ↔ from' = t.labelOf id ∧ to' = t'.labelOf id := by
  simp [FromIsLabel, h, eq_comm]

end

/-! ## A serial run -/

/-- Each relabel entry for `id` of the run starts from the label in effect, so from where the one
before it has ended. -/
structure RelabelHistory (id : String) (t : Tables) (calls : List (Call × Gen × Fault Exn)) :
    Prop where
  fromIsLabel : Run (fun u c v => Served u c v ∧ FromIsLabel id u v) t calls (serveAll t calls)
  chain : ((relabelLog id (serveAll t calls).auditLogs).drop
    (relabelLog id t.auditLogs).length).IsChain fun e e' => e'.1 = e.2

section
variable {id : String} {t : Tables} {p : Prediction}

/-- A step that relabels `id`, and a step that does not. -/
theorem served_cases (hp : t.predictions.find? id = some p) (c : Call × Gen × Fault Exn) :
    (∃ cls, (∀ calls, relabels id t (c :: calls) =
        cls :: relabels id (c.1.serve c.2.1 c.2.2 t) calls) ∧
      (c.1.serve c.2.1 c.2.2 t).predictions.find? id =
        some { p with relabeledClass := some cls } ∧
      relabelLog id (c.1.serve c.2.1 c.2.2 t).auditLogs =
        relabelLog id t.auditLogs ++ [(some p.predictedClass, some cls)]) ∨
    ((∀ calls, relabels id t (c :: calls) = relabels id (c.1.serve c.2.1 c.2.2 t) calls) ∧
      (c.1.serve c.2.1 c.2.2 t).predictions.find? id = some p ∧
      relabelLog id (c.1.serve c.2.1 c.2.2 t).auditLogs = relabelLog id t.auditLogs) := by
  rcases c.1.commits_cases c.2.1 c.2.2 t with ⟨hc, heq⟩ | ⟨hc, keys, hdone⟩
  · refine .inr ⟨fun calls => by simp [relabels, hc], ?_, ?_⟩
    · rw [heq, hp]
    · rw [heq]
  cases hr : c.1.relabels? id with
  | some cls =>
    exact .inl ⟨cls, fun calls => by simp [relabels, hc, hr], hdone.relabels_some hr hp⟩
  | none => exact .inr ⟨fun calls => by simp [relabels, hr], hdone.relabels_none hr hp⟩

/-- The entries of a run all start from the predicted class. -/
theorem relabelLog_serveAll (hp : t.predictions.find? id = some p)
    (calls : List (Call × Gen × Fault Exn)) :
    relabelLog id (serveAll t calls).auditLogs = relabelLog id t.auditLogs ++
      (relabels id t calls).map fun cls => (some p.predictedClass, some cls) := by
  induction calls generalizing t p with
  | nil => simp [serveAll, relabels]
  | cons c calls ih =>
    rw [serveAll_cons]
    rcases served_cases hp c with ⟨cls, hr, hp', hlog⟩ | ⟨hr, hp', hlog⟩
    · rw [ih hp', hlog, hr calls]
      simp
    · rw [ih hp', hlog, hr calls]

theorem fromIsLabel_run_iff (hp : t.predictions.find? id = some p)
    (calls : List (Call × Gen × Fault Exn)) :
    Run (fun u c v => Served u c v ∧ FromIsLabel id u v) t calls (serveAll t calls) ↔
      ∀ label ∈ (p.relabeledClass.toList ++ relabels id t calls).dropLast,
        label = p.predictedClass := by
  induction calls generalizing t p with
  | nil =>
    simp only [relabels, List.append_nil]
    refine iff_of_true .nil ?_
    cases p.relabeledClass <;> simp
  | cons c calls ih =>
    rw [serveAll_cons, Served.run_cons]
    rcases served_cases hp c with ⟨cls, hr, hp', hlog⟩ | ⟨hr, hp', hlog⟩
    · -- The entry is right exactly if the label in effect is the predicted class.
      rw [fromIsLabel_iff hlog, ih hp', hr calls, List.dropLast_append_cons,
        List.forall_mem_append]
      refine and_congr ?_ (by rfl)
      simp only [Tables.labelOf, hp, hp', Option.map_some, Option.some.injEq, Prediction.label]
      cases p.relabeledClass <;> simp [eq_comm]
    · have hfrom : FromIsLabel id t (c.1.serve c.2.1 c.2.2 t) := .of_eq hlog
      rw [ih hp', hr calls]
      exact and_iff_right hfrom

/-- Entries that start from `k` form a chain when all but the last one end there. -/
theorem isChain_from {k : String} {classes : List String} (h : ∀ cls ∈ classes.dropLast, cls = k) :
    (classes.map fun cls => (some k, some cls)).IsChain fun e e' => e'.1 = e.2 := by
  induction classes with
  | nil => exact .nil
  | cons cls classes ih =>
    cases classes with
    | nil => exact .singleton _
    | cons cls' classes =>
      rw [List.dropLast_cons_cons, List.forall_mem_cons] at h
      exact .cons_cons (by rw [h.1]) (ih h.2)

/-- The history of a prediction is a chain if and only if every label that one of the relabels has
replaced is the predicted class. -/
theorem relabelHistory_iff (hp : t.predictions.find? id = some p)
    (calls : List (Call × Gen × Fault Exn)) :
    RelabelHistory id t calls ↔
      ∀ label ∈ (p.relabeledClass.toList ++ relabels id t calls).dropLast,
        label = p.predictedClass := by
  constructor
  · intro h
    exact (fromIsLabel_run_iff hp calls).mp h.fromIsLabel
  · intro h
    refine ⟨(fromIsLabel_run_iff hp calls).mpr h, ?_⟩
    rw [relabelLog_serveAll hp, List.drop_left]
    apply isChain_from
    cases hr : p.relabeledClass with
    | none => simpa [hr] using h
    | some cls =>
      intro label hlabel
      have hne : relabels id t calls ≠ [] := by
        intro hnil
        simp [hnil] at hlabel
      rw [hr, List.dropLast_append_of_ne_nil hne] at h
      exact h label (List.mem_append_right _ hlabel)

/-- A run changes nothing of a prediction but its relabeled class, which is the last one given. -/
theorem find?_serveAll (hp : t.predictions.find? id = some p)
    (calls : List (Call × Gen × Fault Exn)) :
    (serveAll t calls).predictions.find? id =
      some { p with relabeledClass := (relabels id t calls).getLast?.or p.relabeledClass } := by
  induction calls generalizing t p with
  | nil => exact hp
  | cons c calls ih =>
    rw [serveAll_cons]
    rcases served_cases hp c with ⟨cls, hr, hp', -⟩ | ⟨hr, hp', -⟩
    · rw [ih hp', hr calls, List.getLast?_cons]
      cases (relabels id (c.1.serve c.2.1 c.2.2 t) calls).getLast? <;> rfl
    · rw [ih hp', hr calls]

/-- Each successful relabel appends one entry, from the predicted class to the class it sets. -/
theorem relabel_entries (hp : t.predictions.find? id = some p)
    (calls : List (Call × Gen × Fault Exn)) :
    (relabelLog id (serveAll t calls).auditLogs = relabelLog id t.auditLogs ++
        (relabels id t calls).map fun cls => (some p.predictedClass, some cls)) ∧
      (serveAll t calls).predictions.find? id =
        some { p with relabeledClass := (relabels id t calls).getLast?.or p.relabeledClass } ∧
      (RelabelHistory id t calls ↔
        ∀ label ∈ (p.relabeledClass.toList ++ relabels id t calls).dropLast,
          label = p.predictedClass) :=
  ⟨relabelLog_serveAll hp calls, find?_serveAll hp calls, relabelHistory_iff hp calls⟩

end

/-- A prediction with the label "letter", and an admin. -/
def letterSaved : Tables :=
  { users := ⟨[⟨"ada", "ada@x", "", .admin, true, 0⟩], List.nodup_singleton "ada"⟩
    batches := ⟨[⟨"b", .done, 1, 0⟩], List.nodup_singleton "b"⟩
    predictions :=
      ⟨[⟨"p", "b", "a.tif", "", "", "letter", 1 / 2, none, 0⟩], List.nodup_singleton "p"⟩ }

def relabelByAda (update : PredictionRelabel) : Call × Gen × Fault Exn :=
  (.relabel "p" update ⟨"ada", "ada@x", .admin, true, 0⟩, .noId 1, none)

def toMemo : Call × Gen × Fault Exn := relabelByAda ⟨"memo", by decide⟩
def toForm : Call × Gen × Fault Exn := relabelByAda ⟨"form", by decide⟩

/-- Both entries start from "letter", and the label in effect is the last one set. -/
theorem relabel_entries_memoForm :
    relabelLog "p" (serveAll letterSaved [toMemo, toForm]).auditLogs =
        [(some "letter", some "memo"), (some "letter", some "form")] ∧
      (serveAll letterSaved [toMemo, toForm]).labelOf "p" = some "form" ∧
      ¬ RelabelHistory "p" letterSaved [toMemo, toForm] := by
  have hp : letterSaved.predictions.find? "p" =
    some ⟨"p", "b", "a.tif", "", "", "letter", 1 / 2, none, 0⟩ := rfl
  obtain ⟨hlog, hrow, hiff⟩ := relabel_entries hp [toMemo, toForm]
  refine ⟨hlog.trans (by decide), ?_, fun h => ?_⟩
  · rw [Tables.labelOf, hrow]
    decide
  · exact absurd (hiff.mp h) (by decide)

/-- The second entry starts from "letter" although the label in effect is "memo". -/
theorem not_relabelHistory_twice : ¬ RelabelHistory "p" letterSaved [toMemo, toForm] := by
  intro h
  have hchain := h.chain
  revert hchain
  decide

end DocClassifier
