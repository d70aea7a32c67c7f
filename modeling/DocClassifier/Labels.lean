import DocClassifier.ConcurrentCalls
import DocClassifier.Lib.Erasure
import DocClassifier.Objects

/-!
# The pipeline does not see the labels

Reviewers put labels on predictions while the pipeline is at work. No service call of the pipeline
reads a label, so the pipeline does the same on tables from which the labels are erased
(`Pipeline.step_unlabeled`).
-/

namespace DocClassifier
open ReadCommitted Transition Prog

def Tables.unlabeled (t : Tables) : Tables :=
  { t with predictions := t.predictions.map Prediction.unlabeled fun _ => rfl }

theorem Tables.find?_unlabeled {t : Tables} {id : String} :
    t.unlabeled.predictions.find? id = (t.predictions.find? id).map Prediction.unlabeled :=
  @Table.find?_map _ _ _ _ t.predictions id Prediction.unlabeled fun _ => rfl

/-- The write puts no label on a prediction. -/
def Stmt.KeepsLabels : Stmt → Prop
  | .relabel .. => False
  | .insertPrediction p => p.relabeledClass = none
  | _ => True

theorem Prediction.unlabeled_of_none {p : Prediction} (h : p.relabeledClass = none) :
    p.unlabeled = p := by
  rw [Prediction.unlabeled, ← h]

theorem postgres_erases : postgres.Erases Tables.unlabeled Stmt.KeepsLabels where
  apply w t hw := by
    cases w with
    | relabel => exact hw.elim
    | insertPrediction p =>
      have hp : p.unlabeled = p := Prediction.unlabeled_of_none hw
      have hinsert : (t.predictions.insert p).map Prediction.unlabeled (fun _ => rfl) =
          (t.predictions.map Prediction.unlabeled fun _ => rfl).insert p.unlabeled :=
        Table.map_insert
      rw [hp] at hinsert
      exact congrArg (fun predictions => { t with predictions }) hinsert.symm
    | _ => rfl
  check w t hw := by
    cases w with
    | relabel => exact hw.elim
    | insertPrediction p =>
      have hbatches : t.unlabeled.batches = t.batches := rfl
      simp [checkStmt, Tables.find?_unlabeled, hbatches]
    | _ => rfl

theorem transition_oblivious {g : Gen} {b : String} {newStatus : BatchStatus}
    {allowed : List BatchStatus} : (BatchService.transition g b newStatus allowed).Oblivious
      Tables.unlabeled Stmt.KeepsLabels := by
  rw [BatchService.transition_eq]
  refine .select (fun _ => rfl) fun t => ?_
  split
  · exact .raise
  · split
    · exact .raise
    · refine .exec trivial (fun _ => rfl) fun t => ?_
      split
      · exact .raise
      · exact .exec trivial (fun _ => rfl) fun _ => .ret

/-- The service calls of the pipeline neither read nor write a label. -/
theorem ServiceCall.oblivious (s : ServiceCall) (g : Gen) :
    (s.block g).Oblivious Tables.unlabeled Stmt.KeepsLabels := by
  cases s with
  | createBatch =>
    exact .exec trivial (fun _ => rfl) fun _ => .exec trivial (fun _ => rfl) fun _ => .ret
  | markProcessing | markDone => exact transition_oblivious
  | savePrediction => exact .exec rfl (fun _ => rfl) fun _ => .ret

def World.unlabeled (w : World) : World := { w with server := w.server.erase Tables.unlabeled }

theorem perform_unlabeled (C : Classifier) (w : World) (g : Gen) (i : Io) :
    perform C w.unlabeled g i = ((perform C w g i).1, (perform C w g i).2.unlabeled) := by
  cases i <;> rfl

namespace Thread

variable {α : Type} {C : Classifier} {pid : Pid} {w w' : World} {th th' : Thread α} {tick : Tick}

/-- The transaction in progress is one of a service call. -/
def InCall : Thread α → Prop
  | .run .. => True
  | .tx _ s t _ => ∃ g, Inside (s.block g) t

theorem Keeps.inCall {may : History → Op → Prop} {Q : History → Except Exn α → Prop}
    (H : th.Keeps may Q) : th.InCall := by
  cases th with
  | run => trivial
  | tx => exact H.2.2.1

theorem inCall_of_ended (h : th.ended = true) : th.InCall := by
  cases th with
  | run => trivial
  | tx => cases h

theorem step_unlabeled (H : th.InCall) : th.step C pid w.unlabeled tick =
    (th.step C pid w tick).map fun (w', th') => (w'.unlabeled, th') := by
  cases th with
  | run hist p =>
    cases p with
    | ret | raise => cases tick <;> rfl
    | op o k =>
      cases o with
      | tx s => cases tick <;> rfl
      | io i =>
        cases tick with
        | ok g =>
          simp only [step, perform_unlabeled, Option.map_some]
        | raise f =>
          simp only [step]
          split <;> rfl
  | tx hist s t k =>
    obtain ⟨g, hi⟩ := H
    obtain ⟨hrest, hws⟩ := hi.oblivious (s.oblivious g)
    cases tick with
    | raise f => rfl
    | ok g =>
      simp only [step, World.unlabeled, Server.stmt_erase postgres_erases hrest hws, Option.map_map]
      rfl

end Thread

namespace Pipeline

variable {C : Classifier} {s s' : Pipeline} {e : Event}

def unlabeled (s : Pipeline) : Pipeline := { s with world := s.world.unlabeled }

theorem Kept.inCall (K : s.Kept) {i : Nat} {c : IngestCall} (hc : s.calls[i]? = some c) :
    c.thread.InCall := by
  have H := K.calls i c hc
  cases hk : c.killed with
  | false => exact (H.keeps hk).inCall
  | true => exact Thread.inCall_of_ended (H.dead hk)

theorem Kept.job_inCall (K : s.Kept) {n : Nat} {th : Thread ClassifyResult}
    (hs : (s.jobs n).state = .running th) : th.InCall := by
  by_cases hn : n < s.world.queue.length
  · exact ((K.jobs n _ (List.getElem?_eq_getElem hn)).running th hs).1.inCall
  · rw [K.fresh n (Nat.not_lt.mp hn)] at hs
    cases hs

theorem step_unlabeled (K : s.Kept) : s.unlabeled.step C e = (s.step C e).map unlabeled := by
  have hactive : s.unlabeled.activePoll = s.activePoll := rfl
  have hcalls : s.unlabeled.calls = s.calls := rfl
  have hjobs : s.unlabeled.jobs = s.jobs := rfl
  have hworld : s.unlabeled.world = s.world.unlabeled := rfl
  have hqueue : s.unlabeled.world.queue = s.world.queue := rfl
  cases e with
  | drop => rfl
  | poll =>
    rw [step, step, apply_ite (Option.map unlabeled)]
    rfl
  | restart =>
    simp only [step, hactive, hcalls]
    cases s.activePoll with
    | none => rfl
    | some i =>
      dsimp only
      cases s.calls[i]? <;> rfl
  | upload actor uuid files =>
    simp only [step]
    cases validateUpload uuid files <;> rfl
  | cancel i =>
    simp only [step, hcalls]
    cases s.calls[i]? with
    | none => rfl
    | some c =>
      dsimp only
      rw [apply_ite (Option.map unlabeled)]
      rfl
  | ingest i tick =>
    simp only [step, hcalls]
    cases hc : s.calls[i]? with
    | none => rfl
    | some c =>
      simp only [hworld, Thread.step_unlabeled (K.inCall hc), Option.map_map]
      rfl
  | start n =>
    simp only [step, hqueue, hjobs]
    cases s.world.queue[n]? with
    | none => rfl
    | some job => cases (s.jobs n).state <;> rfl
  | job n tick =>
    simp only [step, hjobs]
    cases hs : (s.jobs n).state with
    | running th =>
      simp only [hworld, Thread.step_unlabeled (K.job_inCall hs), Option.map_map]
      rfl
    | queued | failed | returned => rfl
  | kill n | retry n =>
    simp only [step, hjobs]
    cases (s.jobs n).state <;> rfl

end Pipeline

end DocClassifier
