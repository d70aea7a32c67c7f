import DocClassifier.Threads

/-!
# The transitions of a job

A job calls `mark_processing` and `mark_done` and goes on when one of them is refused. It is refused
only after its SELECT has read a status from which the transition is not allowed. So a thread gets
past such a call (`Thread.Skips`) in a state whose batch has left the statuses that the transition
starts from.
-/

namespace DocClassifier
open ReadCommitted Transition Prog BatchService

/-- The service call that makes the transition `m` of the batch. -/
inductive MarkCall : ServiceCall → Mark → String → Prop
  | processing {b : String} : MarkCall (.markProcessing b) .processing b
  | done {b : String} : MarkCall (.markDone b) .done b

namespace BatchTransitions

/-- A transition in progress: before its SELECT, about to raise, before the UPDATE, before the
INSERT of the audit entry, or before the COMMIT. -/
def Phase (m : Mark) (g : Gen) (b : String) (t : Txn Tables Stmt Exn (Committed Batch)) : Prop :=
  t = ⟨transition g b m.newStatus m.allowed, []⟩ ∨ (∃ e, t.rest = .raise e) ∨
    (∃ old, t = ⟨transitionWrite g b old m.newStatus, []⟩) ∨
    (∃ old c, t.rest = .exec (.insertAuditLog (stateChange g b old m.newStatus)) fun _ => .ret c) ∨
    ∃ c, t.rest = .ret c

variable {m : Mark} {g : Gen} {b : String} {t t' : Txn Tables Stmt Exn (Committed Batch)}
  {s s' : Server Tables Row Pid} {pid : Pid} {e : Exn}

theorem phase_of_inside (h : Inside (m.block g b) t) : Phase m g b t := by
  rw [Mark.block_eq] at h
  induction h with
  | start => exact .inl rfl
  | @select k ws t _ ih =>
    rcases ih with heq | ⟨e, heq⟩ | ⟨old, heq⟩ | ⟨old, c, heq⟩ | ⟨c, heq⟩
    · obtain ⟨hk, rfl⟩ := Txn.mk.inj heq
      rw [transition_eq] at hk
      obtain rfl := Tx.select.inj hk
      dsimp only
      split
      · exact .inr (.inl ⟨_, rfl⟩)
      · split
        · exact .inr (.inl ⟨_, rfl⟩)
        · exact .inr (.inr (.inl ⟨_, rfl⟩))
    · cases heq
    · cases (Txn.mk.inj heq).1
    · cases heq
    · cases heq
  | @exec w k ws t _ ih =>
    rcases ih with heq | ⟨e, heq⟩ | ⟨old, heq⟩ | ⟨old, c, heq⟩ | ⟨c, heq⟩
    · cases (Txn.mk.inj heq).1
    · cases heq
    · obtain ⟨hk, rfl⟩ := Txn.mk.inj heq
      obtain ⟨rfl, rfl⟩ := Tx.exec.inj hk
      dsimp only
      split
      · exact .inr (.inl ⟨_, rfl⟩)
      · exact .inr (.inr (.inr (.inl ⟨old, _, rfl⟩)))
    · obtain ⟨rfl, rfl⟩ := Tx.exec.inj heq
      exact .inr (.inr (.inr (.inr ⟨c, rfl⟩)))
    · cases heq

/-- A transition of an existing batch comes to raise only at its SELECT, and there it is refused. -/
theorem running_raise (hi : Inside (m.block g b) t) (hb : s.db.batches.find? b ≠ none)
    (h : s.stmt postgres pid t = some (s', .running t')) (hr : t'.rest = .raise e) :
    (∃ msg, e = .invalidStateTransition msg) ∧
      ∃ st, s.db.statusOf b = some st ∧ st ∉ m.allowed := by
  rcases phase_of_inside hi with rfl | ⟨e', he⟩ | ⟨old, rfl⟩ | ⟨old, c, he⟩ | ⟨c, he⟩
  · cases Server.stmt_cases h with
    | select hk =>
      rw [transition_eq] at hk
      obtain rfl := Tx.select.inj hk
      dsimp only [Backend.view_nil] at hr
      split at hr
      · exact (hb ‹_›).elim
      · rename_i batch hbatch
        split at hr
        · rename_i hallowed
          cases hr
          exact ⟨⟨_, rfl⟩, batch.status, by simp [Tables.statusOf, hbatch], hallowed⟩
        · cases hr
    | exec hk => cases hk
  · cases Server.stmt_cases h with
    | select hk | exec hk => cases he.symm.trans hk
  · cases Server.stmt_cases h with
    | select hk => cases hk
    | exec hk =>
      obtain ⟨rfl, rfl⟩ := Tx.exec.inj hk
      dsimp only at hr
      split at hr
      · rename_i hnone
        simp only [List.nil_append, Backend.view_cons, Backend.view_nil, postgres_apply, applyStmt,
          Table.find?_modify, ite_true, Option.map_eq_none_iff] at hnone
        exact (hb hnone).elim
      · cases hr
  · cases Server.stmt_cases h with
    | select hk => cases he.symm.trans hk
    | exec hk =>
      obtain ⟨rfl, rfl⟩ := Tx.exec.inj (he.symm.trans hk)
      cases hr
  · cases Server.stmt_cases h with
    | select hk | exec hk => cases he.symm.trans hk

/-- No statement of a transition violates a constraint. -/
theorem aborted_raise (hi : Inside (m.block g b) t)
    (h : s.stmt postgres pid t = some (s', .aborted e)) : t.rest = .raise e := by
  cases Server.stmt_cases h with
  | rollback hr => exact hr
  | @violation w k e hr hv =>
    rcases phase_of_inside hi with rfl | ⟨e', he⟩ | ⟨old, rfl⟩ | ⟨old, c, he⟩ | ⟨c, he⟩
    · cases hr
    · cases he.symm.trans hr
    · obtain ⟨rfl, -⟩ := Tx.exec.inj hr
      cases hv
    · obtain ⟨rfl, -⟩ := Tx.exec.inj (he.symm.trans hr)
      cases hv
    · cases he.symm.trans hr

/-- The status that a commit of the transition leaves. -/
theorem statusOf_commits {db : Tables} {ws : List Stmt} {cm : Committed Batch}
    (h : (m.block g b).Commits ws cm) (hb : db.batches.find? b ≠ none) :
    (postgres.view db ws).statusOf b = some m.newStatus := by
  obtain ⟨old, -, rfl⟩ := commits h
  obtain ⟨row, hrow⟩ := Option.ne_none_iff_exists'.mp hb
  simp [Tables.statusOf, applyStmt, Table.find?_modify, hrow]

end BatchTransitions

/-- The history has got past the call. -/
def PassedIn (sc : ServiceCall) (H : History) : Prop := ∃ r, ⟨.tx sc, r⟩ ∈ H ∧ Passed r

section
variable {sc : ServiceCall} {H D : History} {d : Done Op.Answer Exn} {job : Job}

theorem passedIn_append : PassedIn sc (H ++ D) ↔ PassedIn sc H ∨ PassedIn sc D := by
  simp only [PassedIn, List.mem_append, or_and_right, exists_or]

theorem not_passedIn_nil : ¬ PassedIn sc [] := fun ⟨_, hd, _⟩ => List.not_mem_nil hd

theorem not_passedIn_io {i : Io} {r : Except Exn i.Answer} : ¬ PassedIn sc [⟨.io i, r⟩] := by
  rintro ⟨r', hd, -⟩
  cases List.mem_singleton.mp hd

theorem passedIn_single {s : ServiceCall} {r : Except Exn (Committed s.Result)}
    (h : PassedIn sc [⟨.tx s, r⟩]) : s = sc ∧ Passed r := by
  obtain ⟨r', hd, hr⟩ := h
  cases List.mem_singleton.mp hd
  exact ⟨rfl, hr⟩

theorem not_passed_fail {α : Type} (f : Fail) : ¬ Passed (.error f.exn : Except Exn α) := by
  cases f <;> exact id

theorem mem_txs {r : Except Exn (Committed sc.Result)} : ⟨sc, r⟩ ∈ txs H ↔ ⟨.tx sc, r⟩ ∈ H := by
  refine ⟨fun h => ?_, fun h => List.mem_filterMap.mpr ⟨_, h, rfl⟩⟩
  obtain ⟨⟨o, r'⟩, hd, heq⟩ := List.mem_filterMap.mp h
  split at heq
  · rename_i hop
    cases heq
    cases hop
    exact hd
  · cases heq

end

namespace Thread

variable {α : Type}

/-- The thread has got past the call, or it is about to get past it by a refusal. -/
def Skips (sc : ServiceCall) : Thread α → Prop
  | .run H _ => PassedIn sc H
  | .tx H s t _ => PassedIn sc H ∨ (s = sc ∧ ∃ e, t.rest = .raise e)

variable {C : Classifier} {pid : Pid} {w w' : World} {th th' : Thread α} {tick : Tick}
  {may : History → Op → Prop} {Q : History → Except Exn α → Prop} {sc : ServiceCall} {m : Mark}
  {b : String}

theorem Skips.of_passedIn (h : PassedIn sc th.hist) : th.Skips sc := by
  cases th with
  | run => exact h
  | tx => exact .inl h

/-- A thread gets past a transition only when the batch is out of the statuses it starts from. -/
theorem Keeps.skips_step (H : th.Keeps may Q) (hm : MarkCall sc m b)
    (hb : w.server.db.batches.find? b ≠ none) (h : th.step C pid w tick = some (w', th'))
    (hs : th'.Skips sc) :
    th.Skips sc ∨ ∃ st, w'.server.db.statusOf b = some st ∧ st ∉ m.allowed := by
  cases step_cases h with
  | begin g =>
    rcases hs with hs | ⟨rfl, e, he⟩
    · exact .inl hs
    · cases hm <;> cases he
  | refused f =>
    rcases passedIn_append.mp hs with hs | hs
    · exact .inl hs
    · exact (not_passed_fail f (passedIn_single hs).2).elim
  | io =>
    rcases passedIn_append.mp hs with hs | hs
    · exact .inl hs
    · exact (not_passedIn_io hs).elim
  | fail =>
    rcases passedIn_append.mp hs with hs | hs
    · exact .inl hs
    · exact (not_passedIn_io hs).elim
  | lost f =>
    rcases passedIn_append.mp hs with hs | hs
    · exact .inl (.inl hs)
    · exact (not_passed_fail f (passedIn_single hs).2).elim
  | @stmt H' s t k server r hstmt =>
    obtain ⟨-, -, ⟨g, hi⟩, -⟩ := H
    cases r with
    | running t' =>
      rcases hs with hs | ⟨rfl, e, he⟩
      · exact .inl (.inl hs)
      · right
        have hdb := Server.stmt_running_db hstmt
        dsimp only
        rw [hdb]
        cases hm with
        | processing => exact (BatchTransitions.running_raise (m := .processing) hi hb hstmt he).2
        | done => exact (BatchTransitions.running_raise (m := .done) hi hb hstmt he).2
    | committed cm =>
      rcases passedIn_append.mp hs with hs | hs
      · exact .inl (.inl hs)
      · right
        obtain ⟨rfl, -⟩ := passedIn_single hs
        obtain ⟨ht, hdb⟩ := Server.stmt_committed hstmt
        rw [ht] at hi
        dsimp only
        rw [hdb]
        cases hm with
        | processing =>
          exact ⟨_, BatchTransitions.statusOf_commits (m := .processing) hi.commits hb, by decide⟩
        | done =>
          exact ⟨_, BatchTransitions.statusOf_commits (m := .done) hi.commits hb, by decide⟩
    | aborted e =>
      rcases passedIn_append.mp hs with hs | hs
      · exact .inl (.inl hs)
      · obtain ⟨rfl, -⟩ := passedIn_single hs
        refine .inl (.inr ⟨rfl, e, ?_⟩)
        cases hm with
        | processing => exact BatchTransitions.aborted_raise (m := .processing) hi hstmt
        | done => exact BatchTransitions.aborted_raise (m := .done) hi hstmt

/-- A commit is answered in the step that executes it. -/
theorem step_commit {cm : Committed sc.Result} (h : th.step C pid w tick = some (w', th'))
    (hh : th'.hist = th.hist ++ [⟨.tx sc, .ok cm⟩]) :
    ∃ g H ws k, tick = .ok g ∧ th = .tx H sc ⟨.ret cm, ws⟩ k := by
  have hself : ∀ {H : History} {d : Done Op.Answer Exn}, H ≠ H ++ [d] := fun {H d} heq => by
    simpa using congrArg List.length heq
  unfold step at h
  split at h
  · cases h
    exact (hself hh).elim
  · cases h
    cases List.append_cancel_left hh
  · cases h
    cases List.append_cancel_left hh
  · split at h
    · cases h
      cases List.append_cancel_left hh
    · cases h
  · obtain ⟨⟨server, r⟩, hs, heq⟩ := Option.map_eq_some_iff.mp h
    cases heq
    cases r with
    | running => exact (hself hh).elim
    | aborted => cases List.append_cancel_left hh
    | committed c =>
      cases List.append_cancel_left hh
      obtain ⟨ht, -⟩ := Server.stmt_committed hs
      rw [ht]
      exact ⟨_, _, _, _, rfl, rfl⟩
  · cases h
    cases List.append_cancel_left hh
  · cases h
  · cases h

end Thread

end DocClassifier
