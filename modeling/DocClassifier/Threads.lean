import DocClassifier.IngestLoops
import DocClassifier.BatchTransitions

/-!
# What a step of a thread does

Two views of a step. `Thread.Keeps` says that the thread keeps to the contract of its program, and
every step preserves it. `Effect` says what the answer that a step adds to the history has done to
the tables, the objects and the queue.
-/

namespace DocClassifier
open ReadCommitted Prog

namespace Thread

variable {α : Type}

/-- The thread keeps to its contract, and `Q` will hold at its end. -/
def Keeps (may : History → Op → Prop) (Q : History → Except Exn α → Prop) : Thread α → Prop
  | .run H p => Along (contract may) H ∧ Spec (contract may) Q H p
  | .tx H s t k => Along (contract may) H ∧ may H (.tx s) ∧ (∃ g, Inside (s.block g) t) ∧
      ∀ r, Spec (contract may) Q (H ++ [⟨.tx s, r⟩]) (k r)

/-- The writes of the transaction in progress. -/
def pending : Thread α → List Stmt
  | .run .. => []
  | .tx _ _ t _ => t.pending

end Thread

/-- Only the operations that can raise do. -/
theorem answers_perform (C : Classifier) (w : World) (g : Gen) (i : Io) :
    Answers ⟨.io i, (perform C w g i).1⟩ := by
  cases h : (perform C w g i).1 with
  | ok => trivial
  | error e =>
    cases i with
    | uuid4 | addSeen => cases h
    | _ => rfl

theorem perform_error {C : Classifier} {w : World} {g : Gen} {i : Io} {e : Exn}
    (h : (perform C w g i).1 = .error e) : (perform C w g i).2 = w := by
  cases i with
  | putObject | enqueue | addSeen => cases h
  | _ => rfl

@[simp] theorem perform_server (C : Classifier) (w : World) (g : Gen) (i : Io) :
    (perform C w g i).2.server = w.server := by
  cases i <;> rfl

namespace Thread

variable {α : Type} {C : Classifier} {pid : Pid} {w w' : World} {th th' : Thread α} {tick : Tick}
  {may : History → Op → Prop} {Q : History → Except Exn α → Prop}

theorem Keeps.along (H : th.Keeps may Q) : Along (contract may) th.hist := by
  cases th with
  | run => exact H.1
  | tx => exact H.1

theorem Keeps.answer {H : History} {s : ServiceCall}
    {k : Except Exn (Committed s.Result) → Proc α} {r : Except Exn (Committed s.Result)}
    (ha : Along (contract may) H) (hm : may H (.tx s))
    (hk : ∀ r, Spec (contract may) Q (H ++ [⟨.tx s, r⟩]) (k r)) :
    (Thread.answer H s k r).Keeps may Q :=
  ⟨along_snoc.mpr ⟨ha, hm, trivial⟩, hk r⟩

theorem Keeps.step (H : th.Keeps may Q) (h : th.step C pid w tick = some (w', th')) :
    th'.Keeps may Q := by
  cases step_cases h with
  | begin g =>
    obtain ⟨ha, hm, hk⟩ := H
    exact ⟨ha, hm, ⟨g, .start⟩, fun r => hk r trivial⟩
  | refused f =>
    obtain ⟨ha, hm, hk⟩ := H
    exact .answer ha hm fun r => hk r trivial
  | @io H i k g =>
    obtain ⟨ha, hm, hk⟩ := H
    exact ⟨along_snoc.mpr ⟨ha, hm, answers_perform C w g i⟩, hk _ (answers_perform C w g i)⟩
  | fail f hf =>
    obtain ⟨ha, hm, hk⟩ := H
    exact ⟨along_snoc.mpr ⟨ha, hm, hf⟩, hk _ hf⟩
  | @stmt H s t k server r hs =>
    obtain ⟨ha, hm, ⟨g, hi⟩, hk⟩ := H
    cases r with
    | running t' => exact ⟨ha, hm, ⟨g, hi.stmt hs⟩, hk⟩
    | committed | aborted => exact .answer ha hm hk
  | lost f =>
    obtain ⟨ha, hm, -, hk⟩ := H
    exact .answer ha hm hk

end Thread

/-! ## Effects -/

/-- What the answer `d` of an operation has done, for a thread with the pending writes `ws`. -/
inductive Effect (C : Classifier) (w : World) (ws : List Stmt) : Done Op.Answer Exn → World → Prop
  | error {o : Op} {e : Exn} {w' : World} : w'.server.db = w.server.db → w'.blobs = w.blobs →
      w'.queue = w.queue → w'.seen = w.seen → w'.dropZone = w.dropZone →
      Effect C w ws ⟨o, .error e⟩ w'
  | io {i : Io} {g : Gen} {a : i.Answer} : (perform C w g i).1 = .ok a →
      Effect C w ws ⟨.io i, .ok a⟩ (perform C w g i).2
  | tx {s : ServiceCall} {g : Gen} {cm : Committed s.Result} {server : Server Tables Row Pid} :
      (s.block g).Commits ws cm → server.db = postgres.view w.server.db ws →
      Effect C w ws ⟨.tx s, .ok cm⟩ { w with server }

namespace Thread

variable {α : Type} {C : Classifier} {pid : Pid} {w w' : World} {th th' : Thread α} {tick : Tick}
  {may : History → Op → Prop} {Q : History → Except Exn α → Prop}

/-- A step changes only the locks, or it adds an answer to the history. -/
theorem Keeps.effect (H : th.Keeps may Q) (h : th.step C pid w tick = some (w', th')) :
    (th'.hist = th.hist ∧ ∃ server, w' = { w with server } ∧ server.db = w.server.db) ∨
      ∃ d, th'.hist = th.hist ++ [d] ∧ may th.hist d.1 ∧ Effect C w th.pending d w' := by
  cases step_cases h with
  | begin g => exact .inl ⟨rfl, w.server, rfl, rfl⟩
  | refused f => exact .inr ⟨_, rfl, H.2.1, .error rfl rfl rfl rfl rfl⟩
  | @io H' i k g =>
    refine .inr ⟨_, rfl, H.2.1, ?_⟩
    cases hr : (perform C w g i).1 with
    | ok a => exact .io hr
    | error e =>
      rw [perform_error hr]
      exact .error rfl rfl rfl rfl rfl
  | fail f hf => exact .inr ⟨_, rfl, H.2.1, .error rfl rfl rfl rfl rfl⟩
  | @stmt H' s t k server r hs =>
    obtain ⟨ha, hm, ⟨g, hi⟩, hk⟩ := H
    cases r with
    | running t' => exact .inl ⟨rfl, server, rfl, Server.stmt_running_db hs⟩
    | committed cm =>
      obtain ⟨ht, hdb⟩ := Server.stmt_committed hs
      rw [ht] at hi
      exact .inr ⟨_, rfl, hm, .tx hi.commits hdb⟩
    | aborted e =>
      exact .inr ⟨_, rfl, hm, .error (Server.stmt_aborted_db hs) rfl rfl rfl rfl⟩
  | lost f => exact .inr ⟨_, rfl, H.2.1, .error rfl rfl rfl rfl rfl⟩

end Thread

end DocClassifier
