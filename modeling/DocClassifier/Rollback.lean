import DocClassifier.Calls

/-!
# What a call that raises leaves behind

A call raises in its transaction, which is rolled back, or while it deletes cache keys, when the
transaction has been committed. No method catches an error of the cache.
-/

namespace DocClassifier
open ReadCommitted

/-- `await self.cache.delete(key)` for one key after the other; the fault counts from the first
one. -/
def deleteKeys : Fault Exn → List String → Except Exn Unit
  | _, [] => .ok ()
  | some (0, e), _ :: _ => .error e
  | d, _ :: keys => deleteKeys d.tick keys

theorem deleteKeys_none (keys : List String) : deleteKeys none keys = .ok () := by
  induction keys with
  | nil => rfl
  | cons key keys ih => exact ih

/-- A call with the fault `f` in its transaction and the fault `d` in its deletions: what it
answers, and the tables afterwards. -/
def Call.perform (g : Gen) (f d : Fault Exn) (t : Tables) (c : Call) : Except Exn Unit × Tables :=
  match (c.block g).run postgres t f [] with
  | (.error e, t') => (.error e, t')
  | (.ok keys, t') => (deleteKeys d keys, t')

section
variable {c : Call} {g : Gen} {f d : Fault Exn} {t t' : Tables} {keys : List String} {e : Exn}

/-- Every committed transaction is visible in the tables. -/
theorem Call.Done.ne (h : c.Done g t keys t') : t' ≠ t := by
  intro heq
  have hlog := congrArg (·.auditLogs.length) heq
  cases h with
  | @savePrediction batchId data hid =>
    have hrows := congrArg (·.predictions.rows.length) heq
    have hid' : t.predictions.find? (PredictionService.newPrediction g batchId data).id = none :=
      hid
    simp [Table.rows_insert hid'] at hrows
  | deleteUser => simp at hlog
  | createUser | changeRole | createBatch | transition | relabel => simp at hlog

/-- A call rolls back and raises, or it commits and answers what its deletions answer. -/
theorem Call.perform_cases (c : Call) (g : Gen) (f d : Fault Exn) (t : Tables) :
    (c.commits g f t = false ∧ ∃ e, c.perform g f d t = (.error e, t)) ∨
      (c.commits g f t = true ∧ ∃ keys t', c.Done g t keys t' ∧
        c.perform g f d t = (deleteKeys d keys, t')) := by
  rw [commits, perform]
  rcases c.run_cases g f t with ⟨e, h⟩ | ⟨keys, t', h, hdone⟩
  · rw [h]
    exact .inl ⟨rfl, e, rfl⟩
  · rw [h]
    exact .inr ⟨rfl, keys, t', hdone, rfl⟩

/-- A call that returns has committed. -/
theorem Call.commits_of_ok (h : (c.perform g f d t).1 = .ok ()) : c.commits g f t = true := by
  rcases c.perform_cases g f d t with ⟨-, e, hp⟩ | ⟨hc, -⟩
  · rw [hp] at h
    cases h
  · exact hc

/-- A call that raises has left the tables as they were, unless it raises at a deletion: then its
transaction has been committed as a whole. -/
theorem tables_of_raise (h : (c.perform g f d t).1 = .error e) :
    (c.commits g f t = false ∧ (c.perform g f d t).2 = t) ∨
      (c.commits g f t = true ∧ (c.perform g f d t).2 ≠ t ∧
        ∃ keys, c.Done g t keys (c.perform g f d t).2 ∧ deleteKeys d keys = .error e) := by
  rcases c.perform_cases g f d t with ⟨hc, e', hp⟩ | ⟨hc, keys, t', hdone, hp⟩
  · exact .inl ⟨hc, by rw [hp]⟩
  · rw [hp] at h ⊢
    exact .inr ⟨hc, hdone.ne, keys, hdone, h⟩

end

def oneAdmin : Tables :=
  { users := ⟨[⟨"ada", "ada@x", "", .admin, true, 0⟩], List.nodup_singleton "ada"⟩ }

def createBob : Call :=
  .createUser id { email := "bob@x", password := "" } ⟨"ada", "ada@x", .admin, true, 0⟩

/-- The insert of the audit entry fails. -/
theorem tables_of_raise_auditInsert :
    (createBob.perform { uuid := "bob", now := 1 } (some (1, .infrastructure "database")) none
      oneAdmin).2 = oneAdmin := by
  rcases tables_of_raise (c := createBob) (g := { uuid := "bob", now := 1 })
    (f := some (1, .infrastructure "database")) (d := none) (t := oneAdmin) rfl with h | h
  · exact h.2
  · exact absurd h.1 (by decide)

/-- Redis fails when `create_user` deletes its key: the call raises and the user is there. -/
theorem user_created_and_raised : ∃ t',
    createBob.perform { uuid := "bob", now := 1 } none (some (0, .infrastructure "redis"))
        oneAdmin =
      (.error (.infrastructure "redis"), t') ∧ t' ≠ oneAdmin := by
  refine ⟨_, rfl, fun h => ?_⟩
  have hrows := congrArg (·.users.rows.length) h
  revert hrows
  decide

end DocClassifier
