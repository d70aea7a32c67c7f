import DocClassifier.Lib.Run
import Mathlib.Logic.Function.Basic
import Mathlib.Tactic.Common

/-!
# Transaction blocks under READ COMMITTED

A transaction block is a tree of statements (`Tx`): a SELECT hands the tables it sees to the rest
of the block, a write changes rows and may violate a constraint, and a leaf commits or rolls back.
Two meanings are given to it. `Tx.run` runs a block alone, with an optional fault at one of its
statements. `Server.stmt` executes one statement of one session on a server that other sessions
use at the same time: a statement sees the last committed tables with the session's own writes on
top, a write waits while another session holds the lock of its row, and the writes of a session
reach the committed tables when it commits.

`Tx.Commits` says which writes and which result a block can commit, whatever the other sessions do
between its statements; `Residual` carries that through the execution of the block.
-/

namespace ReadCommitted

/-- Tables `T` changed by statements `W`, with row locks named by `K` and errors `ε`. -/
structure Backend (T W K ε : Type) where
  /-- The effect of a write on the tables. -/
  apply : W → T → T
  /-- The constraint a write violates on the tables it sees. -/
  check : W → T → Option ε
  /-- The existing row whose lock a write takes. -/
  row : W → Option K

inductive Tx (T W ε α : Type) where
  | ret (a : α)
  | raise (e : ε)
  | select (k : T → Tx T W ε α)
  | exec (w : W) (k : T → Tx T W ε α)

variable {T W K ε α β ι : Type}

namespace Tx

protected def bind : Tx T W ε α → (α → Tx T W ε β) → Tx T W ε β
  | .ret a, f => f a
  | .raise e, _ => .raise e
  | .select k, f => .select fun t => (k t).bind f
  | .exec w k, f => .exec w fun t => (k t).bind f

instance : Monad (Tx T W ε) where
  pure := .ret
  bind := Tx.bind

@[simp] theorem pure_eq (a : α) : (pure a : Tx T W ε α) = .ret a := rfl

@[simp] theorem ret_bind (a : α) (f : α → Tx T W ε β) : (Tx.ret a >>= f) = f a := rfl

@[simp] theorem raise_bind (e : ε) (f : α → Tx T W ε β) : (Tx.raise e >>= f) = .raise e := rfl

@[simp] theorem select_bind (k : T → Tx T W ε α) (f : α → Tx T W ε β) :
    (Tx.select k >>= f) = .select fun t => k t >>= f := rfl

@[simp] theorem exec_bind (w : W) (k : T → Tx T W ε α) (f : α → Tx T W ε β) :
    (Tx.exec w k >>= f) = .exec w fun t => k t >>= f := rfl

/-- A SELECT. -/
def query (q : T → α) : Tx T W ε α := .select fun t => .ret (q t)

/-- A write with a RETURNING clause, read off the tables after it. -/
def execReturning (w : W) (q : T → α) : Tx T W ε α := .exec w fun t => .ret (q t)

/-- A computation beside the database, whose exception rolls the block back. -/
def ofExcept : Except ε α → Tx T W ε α
  | .ok a => .ret a
  | .error e => .raise e

@[simp] theorem ofExcept_ok (a : α) : (ofExcept (.ok a) : Tx T W ε α) = .ret a := rfl

@[simp] theorem ofExcept_error (e : ε) : (ofExcept (.error e) : Tx T W ε α) = .raise e := rfl

/-- `Commits p ws a`: some answers to its statements take `p` to a commit that has written `ws`
and returns `a`. -/
inductive Commits : Tx T W ε α → List W → α → Prop
  | ret : Commits (.ret a) [] a
  | select (t : T) : Commits (k t) ws a → Commits (.select k) ws a
  | exec (t : T) : Commits (k t) ws a → Commits (.exec w k) (w :: ws) a

@[simp] theorem commits_ret {a b : α} {ws : List W} :
    Commits (.ret a : Tx T W ε α) ws b ↔ ws = [] ∧ b = a := by
  constructor
  · rintro ⟨⟩
    exact ⟨rfl, rfl⟩
  · rintro ⟨rfl, rfl⟩
    exact .ret

@[simp] theorem commits_raise {e : ε} {a : α} {ws : List W} :
    ¬ Commits (.raise e : Tx T W ε α) ws a := nofun

@[simp] theorem commits_select {k : T → Tx T W ε α} {a : α} {ws : List W} :
    Commits (.select k) ws a ↔ ∃ t, Commits (k t) ws a := by
  constructor
  · rintro ⟨⟩
    exact ⟨_, ‹_›⟩
  · rintro ⟨t, h⟩
    exact .select t h

@[simp] theorem commits_exec {w : W} {k : T → Tx T W ε α} {a : α} {ws : List W} :
    Commits (.exec w k) ws a ↔ ∃ t ws', ws = w :: ws' ∧ Commits (k t) ws' a := by
  constructor
  · rintro ⟨⟩
    exact ⟨_, _, rfl, ‹_›⟩
  · rintro ⟨t, ws', rfl, h⟩
    exact .exec t h

end Tx

/-- The tables a session sees: the committed ones with its own writes applied in order. -/
def Backend.view (B : Backend T W K ε) (db : T) (ws : List W) : T :=
  ws.foldl (fun t w => B.apply w t) db

section
variable (B : Backend T W K ε)

@[simp] theorem Backend.view_nil (db : T) : B.view db [] = db := rfl

@[simp] theorem Backend.view_cons (db : T) (w : W) (ws : List W) :
    B.view db (w :: ws) = B.view (B.apply w db) ws := rfl

theorem Backend.view_append (db : T) (ws ws' : List W) :
    B.view db (ws ++ ws') = B.view (B.view db ws) ws' := List.foldl_append

@[simp] theorem Backend.view_snoc (db : T) (ws : List W) (w : W) :
    B.view db (ws ++ [w]) = B.apply w (B.view db ws) := by
  simp [Backend.view_append]

/-! ## Running a block alone -/

/-- An infrastructure error raised by the `n`-th statement from here, COMMIT included. -/
abbrev Fault (ε : Type) := Option (Nat × ε)

/-- The fault seen from the next statement on. -/
def Fault.tick : Fault ε → Fault ε
  | some (n + 1, e) => some (n, e)
  | f => f

/-- Run a block alone on `db`, after the writes `ws`: its answer and the tables afterwards. -/
def Tx.run (db : T) : Fault ε → List W → Tx T W ε α → Except ε α × T
  | some (0, e), _, .ret _ | some (0, e), _, .select _ | some (0, e), _, .exec .. =>
    (.error e, db)
  | _, ws, .ret a => (.ok a, B.view db ws)
  | _, _, .raise e => (.error e, db)
  | f, ws, .select k => Tx.run db f.tick ws (k (B.view db ws))
  | f, ws, .exec w k =>
    match B.check w (B.view db ws) with
    | some e => (.error e, db)
    | none => Tx.run db f.tick (ws ++ [w]) (k (B.view db (ws ++ [w])))

variable {B} {db : T} {f : Fault ε} {ws : List W} {p : Tx T W ε α}

@[simp] theorem Tx.run_ret {a : α} :
    (Tx.ret a : Tx T W ε α).run B db none ws = (.ok a, B.view db ws) := rfl

@[simp] theorem Tx.run_raise {e : ε} :
    (Tx.raise e : Tx T W ε α).run B db f ws = (.error e, db) := by
  rcases f with - | ⟨- | n, e'⟩ <;> rfl

@[simp] theorem Tx.run_select {k : T → Tx T W ε α} :
    (Tx.select k).run B db none ws = (k (B.view db ws)).run B db none ws := rfl

@[simp] theorem Tx.run_exec {w : W} {k : T → Tx T W ε α} :
    (Tx.exec w k).run B db none ws = match B.check w (B.view db ws) with
      | some e => (.error e, db)
      | none => (k (B.view db (ws ++ [w]))).run B db none (ws ++ [w]) := rfl

@[simp] theorem Tx.run_ret_ok {a b : α} {db' : T} :
    (Tx.ret a : Tx T W ε α).run B db none ws = (.ok b, db') ↔ b = a ∧ db' = B.view db ws := by
  simp [eq_comm]

@[simp] theorem Tx.run_exec_ok {w : W} {k : T → Tx T W ε α} {a : α} {db' : T} :
    (Tx.exec w k).run B db none ws = (.ok a, db') ↔ B.check w (B.view db ws) = none ∧
      (k (B.view db (ws ++ [w]))).run B db none (ws ++ [w]) = (.ok a, db') := by
  rw [Tx.run_exec]
  cases B.check w (B.view db ws) <;> simp

/-- A fault either comes too late to matter or turns the block into one without effect. -/
theorem Tx.run_fault (p : Tx T W ε α) (f : Fault ε) (ws : List W) :
    p.run B db f ws = p.run B db none ws ∨ ∃ e, p.run B db f ws = (.error e, db) := by
  induction p generalizing f ws with
  | ret a => rcases f with - | ⟨- | n, e⟩ <;> first | exact .inl rfl | exact .inr ⟨_, rfl⟩
  | raise e => exact .inl (by simp)
  | select k ih =>
    rcases f with - | ⟨- | n, e⟩
    · exact .inl rfl
    · exact .inr ⟨_, rfl⟩
    · exact ih _ (some (n, e)) ws
  | exec w k ih =>
    rcases f with - | ⟨- | n, e⟩
    · exact .inl rfl
    · exact .inr ⟨_, rfl⟩
    · simp only [Tx.run]
      split
      · exact .inl rfl
      · exact ih _ (some (n, e)) _

/-- A block run alone either leaves the tables as they were or commits all its writes. -/
theorem Tx.run_cases (p : Tx T W ε α) (f : Fault ε) (ws : List W) :
    (∃ e, p.run B db f ws = (.error e, db)) ∨
      ∃ ws' a, p.Commits ws' a ∧ p.run B db f ws = (.ok a, B.view db (ws ++ ws')) := by
  rcases p.run_fault f ws with h | h
  swap
  · exact .inl h
  rw [h]
  clear h f
  induction p generalizing ws with
  | ret a => exact .inr ⟨[], a, .ret, by simp⟩
  | raise e => exact .inl ⟨e, by simp⟩
  | select k ih =>
    rcases ih (B.view db ws) ws with h | ⟨ws', a, hc, h⟩
    · exact .inl h
    · exact .inr ⟨ws', a, .select _ hc, h⟩
  | exec w k ih =>
    rw [Tx.run_exec]
    split
    · exact .inl ⟨_, rfl⟩
    · rcases ih (B.view db (ws ++ [w])) (ws ++ [w]) with h | ⟨ws', a, hc, h⟩
      · exact .inl h
      · exact .inr ⟨w :: ws', a, .exec _ hc, by simpa [List.append_assoc] using h⟩

theorem Tx.commits_of_run {a : α} {db' : T} (h : p.run B db f ws = (.ok a, db')) :
    ∃ ws', p.Commits ws' a := by
  rcases p.run_cases f ws with ⟨e, h'⟩ | ⟨ws', b, hc, h'⟩
  · cases h.symm.trans h'
  · cases h.symm.trans h'
    exact ⟨ws', hc⟩

/-- A function of the result of a block. -/
theorem Tx.run_map (h : α → β) (p : Tx T W ε α) (f : Fault ε) (ws : List W) :
    (p >>= fun a => pure (h a)).run B db f ws =
      ((p.run B db f ws).1.map h, (p.run B db f ws).2) := by
  induction p generalizing f ws with
  | ret a => rcases f with - | ⟨- | n, e⟩ <;> rfl
  | raise e =>
    rw [Tx.raise_bind, Tx.run_raise, Tx.run_raise]
    rfl
  | select k ih =>
    rcases f with - | ⟨- | n, e⟩
    · exact ih _ none ws
    · rfl
    · exact ih _ (some (n, e)) ws
  | exec w k ih =>
    rw [Tx.exec_bind]
    rcases f with - | ⟨- | n, e⟩
    · simp only [Tx.run]
      split
      · rfl
      · exact ih _ none _
    · rfl
    · simp only [Tx.run]
      split
      · rfl
      · exact ih _ (some (n, e)) _

/-- A block run alone leaves the tables as they were, or does what it does without a fault. -/
theorem Tx.run_ok (p : Tx T W ε α) (f : Fault ε) (ws : List W) :
    (p.run B db f ws).2 = db ∨
      ∃ a, p.run B db none ws = (.ok a, (p.run B db f ws).2) := by
  rcases p.run_fault f ws with h | ⟨e, h⟩
  · rw [h]
    rcases p.run_cases none ws with ⟨e, h'⟩ | ⟨ws', a, -, h'⟩
    · exact .inl (by rw [h'])
    · exact .inr ⟨a, by rw [h']⟩
  · exact .inl (by rw [h])

/-- A block without writes. -/
inductive Tx.ReadOnly : Tx T W ε α → Prop
  | ret {a : α} : ReadOnly (.ret a)
  | raise {e : ε} : ReadOnly (.raise e)
  | select {k : T → Tx T W ε α} : (∀ t, ReadOnly (k t)) → ReadOnly (.select k)

theorem Tx.readOnly_query {q : T → α} : (Tx.query q : Tx T W ε α).ReadOnly := .select fun _ => .ret

theorem Tx.ReadOnly.run (h : p.ReadOnly) (f : Fault ε) : (p.run B db f []).2 = db := by
  induction h generalizing f with
  | ret => rcases f with - | ⟨- | n, e⟩ <;> rfl
  | raise => rw [Tx.run_raise]
  | select _ ih =>
    rcases f with - | ⟨- | n, e⟩
    · exact ih _ none
    · rfl
    · exact ih _ (some (n, e))

end

/-! ## One statement on a shared server -/

/-- A block in progress: what is left of it, and the writes it has executed. -/
structure Txn (T W ε α : Type) where
  rest : Tx T W ε α
  pending : List W

inductive Reply (T W ε α : Type) where
  | running (t : Txn T W ε α)
  | committed (a : α)
  | aborted (e : ε)

/-- The committed tables and the owners of the row locks. -/
structure Server (T K ι : Type) where
  db : T
  locks : K → Option ι

namespace Server
variable [DecidableEq ι] [DecidableEq K] (B : Backend T W K ε) (s : Server T K ι) (i : ι)

/-- End of a transaction: its locks are given back. -/
def release : Server T K ι :=
  { s with locks := fun k => if s.locks k = some i then none else s.locks k }

/-- Another session holds the lock of the row. -/
def blocked : Option K → Bool
  | none => false
  | some k => match s.locks k with
    | none => false
    | some j => i ≠ j

def lock : Option K → Server T K ι
  | none => s
  | some k => { s with locks := Function.update s.locks k (some i) }

/-- Execute the next statement of the block `t` of session `i`; `none` while it waits. -/
def stmt (t : Txn T W ε α) : Option (Server T K ι × Reply T W ε α) :=
  match t.rest with
  | .ret a => some ({ s.release i with db := B.view s.db t.pending }, .committed a)
  | .raise e => some (s.release i, .aborted e)
  | .select k => some (s, .running ⟨k (B.view s.db t.pending), t.pending⟩)
  | .exec w k =>
    if s.blocked i (B.row w) then none else
    match B.check w (B.view s.db t.pending) with
    | some e => some (s.release i, .aborted e)
    | none => some (s.lock i (B.row w),
        .running ⟨k (B.view s.db (t.pending ++ [w])), t.pending ++ [w]⟩)

/-- What one statement can do. -/
inductive Stmt (t : Txn T W ε α) : Server T K ι → Reply T W ε α → Prop
  | commit {a : α} : t.rest = .ret a →
    Stmt t { s.release i with db := B.view s.db t.pending } (.committed a)
  | rollback {e : ε} : t.rest = .raise e → Stmt t (s.release i) (.aborted e)
  | select {k : T → Tx T W ε α} : t.rest = .select k →
    Stmt t s (.running ⟨k (B.view s.db t.pending), t.pending⟩)
  | violation {w : W} {k : T → Tx T W ε α} {e : ε} : t.rest = .exec w k →
    B.check w (B.view s.db t.pending) = some e → Stmt t (s.release i) (.aborted e)
  | exec {w : W} {k : T → Tx T W ε α} : t.rest = .exec w k → s.blocked i (B.row w) = false →
    B.check w (B.view s.db t.pending) = none →
    Stmt t (s.lock i (B.row w))
      (.running ⟨k (B.view s.db (t.pending ++ [w])), t.pending ++ [w]⟩)

variable {B s i} {t : Txn T W ε α} {s' : Server T K ι} {r : Reply T W ε α}

theorem stmt_cases (h : s.stmt B i t = some (s', r)) : Stmt B s i t s' r := by
  unfold stmt at h
  split at h
  · cases h; exact .commit ‹_›
  · cases h; exact .rollback ‹_›
  · cases h; exact .select ‹_›
  · split at h
    · cases h
    · rename_i hb
      split at h
      · cases h; exact .violation ‹_› ‹_›
      · cases h; exact .exec ‹_› (by simpa using hb) ‹_›

omit [DecidableEq ι] in
@[simp] theorem lock_db {k : Option K} : (s.lock i k).db = s.db := by cases k <;> rfl

/-- No other session holds a lock. -/
def OnlyLocks (s : Server T K ι) (i : ι) : Prop := ∀ k, s.locks k = none ∨ s.locks k = some i

omit [DecidableEq K] in
theorem OnlyLocks.blocked (H : s.OnlyLocks i) (k : Option K) : s.blocked i k = false := by
  cases k with
  | none => rfl
  | some k => rcases H k with h | h <;> simp [Server.blocked, h]

omit [DecidableEq ι] in
theorem OnlyLocks.lock (H : s.OnlyLocks i) (k : Option K) : (s.lock i k).OnlyLocks i := by
  intro k'
  cases k with
  | none => exact H k'
  | some k =>
    simp only [Server.lock, Function.update_apply]
    split
    · exact .inr rfl
    · exact H k'

/-- Only a commit changes the committed tables, and it applies the session's own writes. -/
theorem stmt_running_db {t' : Txn T W ε α} (h : s.stmt B i t = some (s', .running t')) :
    s'.db = s.db := by
  cases stmt_cases h with
  | select => rfl
  | exec => exact lock_db

theorem stmt_aborted_db {e : ε} (h : s.stmt B i t = some (s', .aborted e)) : s'.db = s.db := by
  cases stmt_cases h <;> rfl

theorem stmt_committed {a : α} (h : s.stmt B i t = some (s', .committed a)) :
    t = ⟨.ret a, t.pending⟩ ∧ s'.db = B.view s.db t.pending := by
  obtain ⟨rest, pending⟩ := t
  cases stmt_cases h with
  | commit hr => exact ⟨by rw [← hr], rfl⟩

end Server

/-- The block in progress can only commit what `p` can. -/
def Residual (p : Tx T W ε α) (t : Txn T W ε α) : Prop :=
  ∀ ws a, t.rest.Commits ws a → p.Commits (t.pending ++ ws) a

namespace Residual
variable [DecidableEq ι] [DecidableEq K] {B : Backend T W K ε} {s s' : Server T K ι} {i : ι}
  {p : Tx T W ε α} {t t' : Txn T W ε α}

theorem start : Residual p ⟨p, []⟩ := fun _ _ h => h

theorem stmt (H : Residual p t) (h : s.stmt B i t = some (s', .running t')) : Residual p t' := by
  intro ws a hc
  cases Server.stmt_cases h with
  | select hr => exact H _ _ (hr ▸ .select _ hc)
  | exec hr => simpa [List.append_assoc] using H _ _ (hr ▸ .exec _ hc)

theorem committed {a : α} (H : Residual p t) (h : s.stmt B i t = some (s', .committed a)) :
    p.Commits t.pending a := by
  cases Server.stmt_cases h with
  | commit hr => simpa using H [] a (hr ▸ .ret)

end Residual

/-- Some answers to its statements take the block `p` to the block in progress. -/
inductive Inside (p : Tx T W ε α) : Txn T W ε α → Prop
  | start : Inside p ⟨p, []⟩
  | select {k : T → Tx T W ε α} {ws : List W} (t : T) :
      Inside p ⟨.select k, ws⟩ → Inside p ⟨k t, ws⟩
  | exec {w : W} {k : T → Tx T W ε α} {ws : List W} (t : T) :
      Inside p ⟨.exec w k, ws⟩ → Inside p ⟨k t, ws ++ [w]⟩

namespace Inside
variable {p : Tx T W ε α} {t t' : Txn T W ε α}

theorem residual (H : Inside p t) : Residual p t := by
  induction H with
  | start => exact .start
  | select t _ ih => exact fun ws a hc => ih ws a (.select t hc)
  | exec t _ ih =>
    intro ws a hc
    simpa [List.append_assoc] using ih _ a (.exec t hc)

theorem commits {a : α} {ws : List W} (H : Inside p ⟨.ret a, ws⟩) : p.Commits ws a := by
  simpa using H.residual [] a .ret

theorem stmt [DecidableEq ι] [DecidableEq K] {B : Backend T W K ε} {s s' : Server T K ι} {i : ι}
    (H : Inside p t) (h : s.stmt B i t = some (s', .running t')) : Inside p t' := by
  obtain ⟨rest, ws⟩ := t
  cases Server.stmt_cases h with
  | select hr =>
    dsimp only at hr
    subst hr
    exact .select _ H
  | exec hr =>
    dsimp only at hr
    subst hr
    exact .exec _ H

end Inside

/-! ## Locks -/

/-- The session `i` holds the locks of the rows that the writes `ws` take. -/
def Server.Holds (B : Backend T W K ε) (s : Server T K ι) (i : ι) (ws : List W) : Prop :=
  ∀ w ∈ ws, ∀ k, B.row w = some k → s.locks k = some i

namespace Server.Holds
variable [DecidableEq ι] [DecidableEq K] {B : Backend T W K ε} {s s' : Server T K ι} {i j : ι}
  {ws : List W} {t t' : Txn T W ε α} {r : Reply T W ε α}

omit [DecidableEq K] in
theorem release (H : s.Holds B i ws) (hij : j ≠ i) : (s.release j).Holds B i ws := by
  intro w hw k hk
  simp [Server.release, H w hw k hk, Ne.symm hij]

/-- The locks of a session are safe from the others. -/
theorem other (H : s.Holds B i ws) (hij : j ≠ i) (h : s.stmt B j t = some (s', r)) :
    s'.Holds B i ws := by
  cases stmt_cases h with
  | commit | rollback | violation => exact H.release hij
  | select => exact H
  | @exec w k hr hb hc =>
    intro w' hw' k' hk'
    have hheld := H w' hw' k' hk'
    cases hrow : B.row w with
    | none => exact hheld
    | some k'' =>
      have hne : k' ≠ k'' := by
        rintro rfl
        simp only [hrow, Server.blocked, hheld] at hb
        exact hij (by simpa using hb)
      simpa [Server.lock, Function.update_apply, hne] using hheld

theorem own (H : s.Holds B i t.pending) (h : s.stmt B i t = some (s', .running t')) :
    s'.Holds B i t'.pending := by
  cases stmt_cases h with
  | select => exact H
  | @exec w k hr hb hc =>
    intro w' hw' k' hk'
    by_cases hrow : B.row w = some k'
    · simp [hrow, Server.lock]
    · rcases List.mem_append.mp hw' with hw' | hw'
      · have hheld := H w' hw' k' hk'
        cases hrow' : B.row w with
        | none => exact hheld
        | some k'' =>
          have hne : k' ≠ k'' := fun heq => hrow (heq ▸ hrow')
          simpa [Server.lock, Function.update_apply, hne] using hheld
      · obtain rfl := List.mem_singleton.mp hw'
        exact (hrow hk').elim

end Server.Holds

/-- The session `i` holds no locks but those of the rows that the writes `ws` take. -/
def Server.Uses (B : Backend T W K ε) (s : Server T K ι) (i : ι) (ws : List W) : Prop :=
  ∀ k, s.locks k = some i → ∃ w ∈ ws, B.row w = some k

namespace Server.Uses
variable [DecidableEq ι] {B : Backend T W K ε} {s s' : Server T K ι} {i j : ι} {ws : List W}

theorem released : (s.release i).Uses B i ws := by
  intro k hk
  simp only [Server.release] at hk
  split at hk
  · cases hk
  · rename_i hne
    exact (hne hk).elim

theorem release (H : s.Uses B i ws) : (s.release j).Uses B i ws := by
  intro k hk
  simp only [Server.release] at hk
  split at hk
  · cases hk
  · exact H k hk

variable [DecidableEq K] {t : Txn T W ε α} {r : Reply T W ε α}

theorem other (H : s.Uses B i ws) (hij : j ≠ i) (h : s.stmt B j t = some (s', r)) :
    s'.Uses B i ws := by
  cases stmt_cases h with
  | commit | rollback | violation => exact H.release
  | select => exact H
  | @exec w k hr hb hc =>
    intro k' hk'
    cases hrow : B.row w with
    | none =>
      rw [hrow] at hk'
      exact H k' hk'
    | some k'' =>
      simp only [hrow, Server.lock, Function.update_apply] at hk'
      split at hk'
      · exact (hij (Option.some.inj hk')).elim
      · exact H k' hk'

/-- At the end of a transaction the session holds no lock. -/
theorem own (H : s.Uses B i t.pending) (h : s.stmt B i t = some (s', r)) :
    s'.Uses B i (match r with
      | .running t' => t'.pending
      | _ => []) := by
  cases stmt_cases h with
  | commit | rollback | violation => exact released
  | select => exact H
  | @exec w k hr hb hc =>
    intro k' hk'
    by_cases hrow : B.row w = some k'
    · exact ⟨w, List.mem_append_right _ List.mem_cons_self, hrow⟩
    · have hold : s.locks k' = some i := by
        cases hrow' : B.row w with
        | none =>
          rw [hrow'] at hk'
          exact hk'
        | some k'' =>
          have hne : k' ≠ k'' := fun heq => hrow (heq ▸ hrow')
          simpa only [hrow', Server.lock, Function.update_apply, hne, if_false] using hk'
      obtain ⟨w', hw', hrow'⟩ := H k' hold
      exact ⟨w', List.mem_append_left _ hw', hrow'⟩

end Server.Uses

end ReadCommitted
