import DocClassifier.Lib.ReadCommitted

/-!
# Concurrent sessions

Any number of sessions, each of which executes one transaction block, share a server. A session
starts its block, executes it one statement at a time, and may be cut off by an infrastructure
error at any of them. `Sys.step` is the step function of such a system, `Sys.Step` its case
analysis.
-/

namespace ReadCommitted
open Transition

inductive Session (T W ε α : Type) where
  | idle
  | active (t : Txn T W ε α)
  | done (r : Except ε α)

variable {T W K ε α ι : Type}

def Session.ofReply : Reply T W ε α → Session T W ε α
  | .running t => .active t
  | .committed a => .done (.ok a)
  | .aborted e => .done (.error e)

structure Sys (T W K ε α ι : Type) where
  server : Server T K ι
  session : ι → Session T W ε α

inductive Event (ι ε : Type) where
  | begin (i : ι)
  | stmt (i : ι)
  /-- The connection of the session is lost, or its client is killed. -/
  | fail (i : ι) (e : ε)

namespace Sys
variable [DecidableEq ι] [DecidableEq K] (B : Backend T W K ε) (prog : ι → Tx T W ε α)

/-- No session has started. -/
def start (db : T) : Sys T W K ε α ι := ⟨⟨db, fun _ => none⟩, fun _ => .idle⟩

def step (s : Sys T W K ε α ι) : Event ι ε → Option (Sys T W K ε α ι)
  | .begin i => match s.session i with
    | .idle => some { s with session := Function.update s.session i (.active ⟨prog i, []⟩) }
    | _ => none
  | .stmt i => match s.session i with
    | .active t => (s.server.stmt B i t).map fun (server, r) =>
        { server, session := Function.update s.session i (.ofReply r) }
    | _ => none
  | .fail i e => match s.session i with
    | .active _ => some
        { server := s.server.release i
          session := Function.update s.session i (.done (.error e)) }
    | _ => none

inductive Step (s : Sys T W K ε α ι) : Event ι ε → Sys T W K ε α ι → Prop
  | begin {i : ι} : s.session i = .idle → Step s (.begin i)
      { s with session := Function.update s.session i (.active ⟨prog i, []⟩) }
  | stmt {i : ι} {t : Txn T W ε α} {server : Server T K ι} {r : Reply T W ε α} :
      s.session i = .active t → s.server.stmt B i t = some (server, r) → Step s (.stmt i)
      { server, session := Function.update s.session i (.ofReply r) }
  | fail {i : ι} {e : ε} {t : Txn T W ε α} : s.session i = .active t → Step s (.fail i e)
      { server := s.server.release i
        session := Function.update s.session i (.done (.error e)) }

variable {B prog} {s s' : Sys T W K ε α ι} {e : Event ι ε}

theorem step_cases (h : s.step B prog e = some s') : Step B prog s e s' := by
  cases e with
  | begin i =>
    simp only [step] at h
    split at h <;> cases h
    exact .begin ‹_›
  | stmt i =>
    simp only [step] at h
    split at h
    · simp only [Option.map_eq_some_iff] at h
      obtain ⟨⟨server, r⟩, hs, rfl⟩ := h
      exact .stmt ‹_› hs
    · cases h
  | fail i e =>
    simp only [step] at h
    split at h <;> cases h
    exact .fail ‹_›

/-- Every block in progress is what is left of the program of its session. -/
def Residuals (prog : ι → Tx T W ε α) (s : Sys T W K ε α ι) : Prop :=
  ∀ i t, s.session i = .active t → Residual (prog i) t

omit [DecidableEq ι] [DecidableEq K] in
theorem residuals_start (db : T) :
    Residuals prog (start db : Sys T W K ε α ι) := fun _ _ h => nomatch h

theorem Residuals.step (H : Residuals prog s) (h : s.step B prog e = some s') :
    Residuals prog s' := by
  intro j u hu
  cases step_cases h with
  | @begin i hi =>
    simp only [Function.update_apply] at hu
    split at hu
    · cases hu; subst j; exact .start
    · exact H j u hu
  | @stmt i t server r hi hs =>
    simp only [Function.update_apply] at hu
    split at hu
    · subst j
      cases r with
      | running t' => cases hu; exact (H i t hi).stmt hs
      | committed | aborted => cases hu
    · exact H j u hu
  | @fail i e t hi =>
    simp only [Function.update_apply] at hu
    split at hu
    · cases hu
    · exact H j u hu

theorem steps_stmt {i : ι} {t : Txn T W ε α} {server : Server T K ι} {r : Reply T W ε α}
    (hi : s.session i = .active t) (h : s.server.stmt B i t = some (server, r)) :
    Steps (Sys.step B prog) s (.stmt i)
      { server, session := Function.update s.session i (.ofReply r) } := by
  simp [Steps, Sys.step, hi, h]

end Sys

/-- The session has executed all its statements but COMMIT. -/
def Session.atCommit : Session T W ε α → Bool
  | .active ⟨.ret _, _⟩ => true
  | _ => false

/-- The writes a session has executed and not committed. -/
def Session.pending : Session T W ε α → List W
  | .active t => t.pending
  | _ => []

/-! ## Overtaken sessions -/

/-- A system that remembers which active sessions were overtaken: a session of a given class has
committed since they began. -/
structure Watched (T W K ε α ι : Type) extends Sys T W K ε α ι where
  overtaken : ι → Bool

def Session.committed : Session T W ε α → Bool
  | .done (.ok _) => true
  | _ => false

theorem Session.eq_done_of_committed {se : Session T W ε α} (h : se.committed = true) :
    ∃ a, se = .done (.ok a) := by
  cases se with
  | idle | active => cases h
  | done r =>
    cases r with
    | error => cases h
    | ok a => exact ⟨a, rfl⟩

namespace Watched
variable [DecidableEq ι] [DecidableEq K] (B : Backend T W K ε) (prog : ι → Tx T W ε α)
  (watched : ι → Bool)

def start (db : T) : Watched T W K ε α ι := ⟨Sys.start db, fun _ => false⟩

/-- The overtaken sessions after the event `e` has led to `s'`. -/
def overtake (o : ι → Bool) (s' : Sys T W K ε α ι) : Event ι ε → ι → Bool
  | .begin i => Function.update o i false
  | .stmt i => if watched i ∧ (s'.session i).committed then fun j => o j || i ≠ j else o
  | .fail .. => o

def step (w : Watched T W K ε α ι) (e : Event ι ε) : Option (Watched T W K ε α ι) :=
  (w.toSys.step B prog e).map fun s' => ⟨s', overtake watched w.overtaken s' e⟩

variable {B prog watched} {w w' : Watched T W K ε α ι} {e : Event ι ε} {es : List (Event ι ε)}

theorem step_eq_some : w.step B prog watched e = some w' ↔
    w.toSys.step B prog e = some w'.toSys ∧
      w'.overtaken = overtake watched w.overtaken w'.toSys e := by
  simp only [step, Option.map_eq_some_iff]
  constructor
  · rintro ⟨s', hs, rfl⟩
    exact ⟨hs, rfl⟩
  · rintro ⟨hs, ho⟩
    exact ⟨_, hs, by rw [← ho]⟩

end Watched

end ReadCommitted
