import DocClassifier.Lib.Sessions

/-!
# Two groups of sessions on one database

Two groups of sessions work on the same tables, and each has its own table of locks. A statement is
executed when no session of its group blocks it, and no session of the other group holds the lock of
its row (`Txn.wants`). That is what a server does that has one table for all locks, in which the
sessions of the groups go by the names that `f` and `f'` give them (`Server.stmt_join`).
-/

namespace ReadCommitted

variable {T W K ε α β ι κ ν : Type}

/-- The row that the next statement of the block locks. -/
def Txn.wants (B : Backend T W K ε) (t : Txn T W ε α) : Option K :=
  match t.rest with
  | .exec w _ => B.row w
  | _ => none

/-- A function of the answer of a block in progress. -/
def Txn.map (f : α → β) (t : Txn T W ε α) : Txn T W ε β :=
  ⟨t.rest >>= fun a => pure (f a), t.pending⟩

def Reply.map (f : α → β) : Reply T W ε α → Reply T W ε β
  | .running t => .running (t.map f)
  | .committed a => .committed (f a)
  | .aborted e => .aborted e

theorem Server.stmt_map [DecidableEq ι] [DecidableEq K] {B : Backend T W K ε} {s : Server T K ι}
    {i : ι} {t : Txn T W ε α} (f : α → β) :
    s.stmt B i (t.map f) = (s.stmt B i t).map fun (s', r) => (s', r.map f) := by
  obtain ⟨rest, ws⟩ := t
  cases rest with
  | ret | raise | select => rfl
  | exec w k =>
    simp only [Txn.map, Tx.exec_bind, Server.stmt]
    split
    · rfl
    · split <;> rfl

/-- No row is locked in both tables. -/
def LocksApart (l : K → Option ι) (l' : K → Option κ) : Prop := ∀ k, l k = none ∨ l' k = none

theorem LocksApart.symm {l : K → Option ι} {l' : K → Option κ} (h : LocksApart l l') :
    LocksApart l' l := fun k => (h k).symm

/-- One table for both groups. -/
def joinLocks (f : ι → ν) (f' : κ → ν) (l : K → Option ι) (l' : K → Option κ) (k : K) : Option ν :=
  ((l k).map f).or ((l' k).map f')

theorem joinLocks_comm {f : ι → ν} {f' : κ → ν} {l : K → Option ι} {l' : K → Option κ}
    (h : LocksApart l l') : joinLocks f f' l l' = joinLocks f' f l' l := by
  funext k
  rcases h k with hk | hk <;> simp [joinLocks, hk]

/-- A session that holds no lock can take another name. -/
theorem joinLocks_congr {f g : ι → ν} {f' : κ → ν} {l : K → Option ι} {l' : K → Option κ}
    (h : ∀ k i, l k = some i → f i = g i) : joinLocks f f' l l' = joinLocks g f' l l' := by
  funext k
  cases hk : l k with
  | none => simp [joinLocks, hk]
  | some i => simp [joinLocks, hk, h k i hk]

/-- The server that has one table for both groups. -/
def Server.join (f : ι → ν) (f' : κ → ν) (s : Server T K ι) (l' : K → Option κ) : Server T K ν :=
  ⟨s.db, joinLocks f f' s.locks l'⟩

section
variable [DecidableEq ι] [DecidableEq ν] {f : ι → ν} {f' : κ → ν} {s : Server T K ι}
  {l' : K → Option κ} {i : ι}

theorem Server.release_join (hf : Function.Injective f) (hff : ∀ i j, f i ≠ f' j)
    (hl : LocksApart s.locks l') :
    (s.join f f' l').release (f i) = (s.release i).join f f' l' := by
  refine congrArg (Server.mk s.db) (funext fun k => ?_)
  have hreleased : (s.release i).locks k = if s.locks k = some i then none else s.locks k := rfl
  rcases Option.eq_none_or_eq_some (s.locks k) with hk | ⟨j, hk⟩
  · cases hk' : l' k with
    | none => simp [Server.join, joinLocks, hreleased, hk, hk']
    | some j => simp [Server.join, joinLocks, hreleased, hk, hk', Ne.symm (hff i j)]
  · have hk' : l' k = none := (hl k).resolve_left (by simp [hk])
    by_cases hj : j = i
    · simp [Server.join, joinLocks, hreleased, hk, hk', hj]
    · simp [Server.join, joinLocks, hreleased, hk, hj, hf.ne hj]

variable [DecidableEq K]

omit [DecidableEq ι] [DecidableEq ν] in
theorem Server.lock_join {k : Option K} :
    (s.join f f' l').lock (f i) k = (s.lock i k).join f f' l' := by
  cases k with
  | none => rfl
  | some k =>
    refine congrArg (Server.mk s.db) (funext fun k' => ?_)
    simp only [Server.join, Server.lock, joinLocks, Function.update_apply]
    split <;> rfl

omit [DecidableEq K] in
theorem Server.blocked_join (hf : Function.Injective f) {k : Option K}
    (hk : ∀ k', k = some k' → l' k' = none) :
    (s.join f f' l').blocked (f i) k = s.blocked i k := by
  cases k with
  | none => rfl
  | some k =>
    have hk' : l' k = none := hk k rfl
    cases hs : s.locks k with
    | none => simp [Server.blocked, Server.join, joinLocks, hk', hs]
    | some j => simp [Server.blocked, Server.join, joinLocks, hs, hf.eq_iff]

/-- A statement that need not wait for the other group is one of the joined server. -/
theorem Server.stmt_join {B : Backend T W K ε} {t : Txn T W ε α} {s' : Server T K ι}
    {r : Reply T W ε α} (hf : Function.Injective f) (hff : ∀ i j, f i ≠ f' j)
    (hl : LocksApart s.locks l') (hw : ∀ k, t.wants B = some k → l' k = none)
    (h : s.stmt B i t = some (s', r)) :
    (s.join f f' l').stmt B (f i) t = some (s'.join f f' l', r) := by
  have hrelease := Server.release_join (i := i) hf hff hl
  have hdb : (s.join f f' l').db = s.db := rfl
  obtain ⟨rest, ws⟩ := t
  cases rest with
  | ret a =>
    cases h
    simp only [Server.stmt, hrelease]
    rfl
  | raise e =>
    cases h
    simp only [Server.stmt, hrelease]
  | select k =>
    cases h
    rfl
  | exec w k =>
    have hwants : ∀ k', B.row w = some k' → l' k' = none := hw
    simp only [Server.stmt] at h ⊢
    rw [Server.blocked_join hf hwants, hdb]
    split at h
    · cases h
    · rename_i hb
      rw [if_neg hb]
      split at h
      · rename_i e hc
        cases h
        rw [hrelease]
      · rename_i hc
        cases h
        rw [Server.lock_join]

omit [DecidableEq ν] [DecidableEq K] in
theorem LocksApart.release (hl : LocksApart s.locks l') : LocksApart (s.release i).locks l' := by
  intro k
  rcases hl k with hk | hk
  · left
    simp [Server.release, hk]
  · exact .inr hk

omit [DecidableEq ν] in
/-- The locks of the groups stay apart. -/
theorem LocksApart.stmt {B : Backend T W K ε} {t : Txn T W ε α} {s' : Server T K ι}
    {r : Reply T W ε α} (hl : LocksApart s.locks l') (hw : ∀ k, t.wants B = some k → l' k = none)
    (h : s.stmt B i t = some (s', r)) : LocksApart s'.locks l' := by
  cases Server.stmt_cases h with
  | commit | rollback | violation => exact hl.release
  | select => exact hl
  | @exec w k hr hb hc =>
    have hwants : t.wants B = B.row w := by
      rw [Txn.wants, hr]
    cases hrow : B.row w with
    | none => exact hl
    | some k₀ =>
      intro k'
      by_cases hk : k' = k₀
      · subst hk
        exact .inr (hw k' (hwants.trans hrow))
      · rcases hl k' with hk' | hk'
        · exact .inl ((Function.update_of_ne hk _ _).trans hk')
        · exact .inr hk'

end

end ReadCommitted
