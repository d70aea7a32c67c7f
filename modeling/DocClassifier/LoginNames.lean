import DocClassifier.Calls
import DocClassifier.Documents

/-!
# Login names

The login looks a user up by `lower(email)`, while the constraint of the table compares emails as
they are. So two users can share a login name, unless `create_user` is never called with a name
that is taken in another spelling (`login_names_kept`). The `lower` of the database is a parameter.
-/

namespace DocClassifier
open ReadCommitted Transition

variable {sqlLower : String → String}

/-- The look-up of the login finds at most one row for every name. -/
def LoginNamesUnique (sqlLower : String → String) (t : Tables) : Prop :=
  (t.users.rows.map fun u => sqlLower u.email).Nodup

/-- `create_user` is called with an email that is in the table in another spelling. -/
def OtherSpelling (sqlLower : String → String) (t : Tables) (c : Call × Gen × Fault Exn) : Prop :=
  ∃ hashPassword data actor, c.1 = .createUser hashPassword data actor ∧
    ∃ u ∈ t.users.rows, sqlLower u.email = sqlLower data.email ∧ u.email ≠ data.email

theorem LoginNamesUnique.createUser {t : Tables} {u : UserORM} {log : List AuditLog}
    (H : LoginNamesUnique sqlLower t) (hid : t.users.find? u.id = none)
    (hname : ∀ v ∈ t.users.rows, sqlLower v.email ≠ sqlLower u.email) :
    LoginNamesUnique sqlLower { t with users := t.users.insert u, auditLogs := log } := by
  rw [LoginNamesUnique, Table.rows_insert hid, List.map_append]
  rw [List.map_singleton, ← List.concat_eq_append]
  refine List.Nodup.concat ?_ H
  intro hmem
  obtain ⟨v, hv, heq⟩ := List.mem_map.mp hmem
  exact hname v hv heq

theorem LoginNamesUnique.changeRole {t : Tables} {userId : String} {role : Role}
    {log : List AuditLog} (H : LoginNamesUnique sqlLower t) :
    LoginNamesUnique sqlLower { t with
      users := t.users.modify userId (fun u => { u with role }) fun _ => rfl
      auditLogs := log } := by
  have hemail : ((fun u : UserORM => sqlLower u.email) ∘ fun u =>
      if u.id = userId then { u with role } else u) = fun u => sqlLower u.email := by
    funext u
    simp only [Function.comp]
    split <;> rfl
  rw [LoginNamesUnique, Table.modify, List.map_map, hemail]
  exact H

theorem LoginNamesUnique.deleteUser {t : Tables} {userId : String} {log : List AuditLog}
    (H : LoginNamesUnique sqlLower t) :
    LoginNamesUnique sqlLower { t with users := t.users.erase userId, auditLogs := log } :=
  H.sublist (List.filter_sublist.map _)

theorem LoginNamesUnique.step {t t' : Tables} {c : Call × Gen × Fault Exn}
    (H : LoginNamesUnique sqlLower t) (h : Served t c t') (hc : ¬ OtherSpelling sqlLower t c) :
    LoginNamesUnique sqlLower t' := by
  rcases h.cases with rfl | ⟨keys, hdone⟩
  · exact H
  obtain ⟨call, g, f⟩ := c
  cases hdone with
  | @createUser hashPassword data actor hr hid hemail =>
    refine H.createUser hid fun v hv heq => hc ⟨hashPassword, data, actor, rfl, v, hv, heq, ?_⟩
    exact hemail v hv
  | changeRole => exact H.changeRole
  | deleteUser => exact H.deleteUser
  | createBatch | transition | savePrediction | relabel => exact H

/-- Serial calls keep the login names unique as long as no user is created with a name that is in
the table in another spelling. -/
theorem login_names_kept {t t' : Tables} {calls : List (Call × Gen × Fault Exn)}
    (ht : LoginNamesUnique sqlLower t)
    (h : Run (Meeting (fun t c => ¬ OtherSpelling sqlLower t c) Served) t calls t') :
    LoginNamesUnique sqlLower t' :=
  h.inv (fun _ _ _ H hs => H.step hs.1 hs.2) ht

/-- One admin. -/
def onlyAda : Tables :=
  { users := ⟨[⟨"ada", "Ada@example.com", "", .admin, true, 0⟩], List.nodup_singleton "ada"⟩ }

def creationByAda (email : String) : Call × Gen × Fault Exn :=
  (.createUser id { email, password := "" } ⟨"ada", "Ada@example.com", .admin, true, 0⟩,
    { uuid := "0", now := 1 }, none)

theorem login_names_kept_bob :
    LoginNamesUnique lower (serveAll onlyAda [creationByAda "bob@example.com"]) := by
  have hunique : LoginNamesUnique lower onlyAda := List.nodup_singleton _
  have hother : ¬ OtherSpelling lower onlyAda (creationByAda "bob@example.com") := by
    rintro ⟨hashPassword, data, actor, h, u, hu, heq, -⟩
    simp only [creationByAda, Call.createUser.injEq] at h
    obtain ⟨-, rfl, -⟩ := h
    obtain rfl := List.mem_singleton.mp hu
    exact absurd heq (by decide)
  have hrun : Run (Meeting (fun t c => ¬ OtherSpelling lower t c) Served) onlyAda
      [creationByAda "bob@example.com"] (serveAll onlyAda [creationByAda "bob@example.com"]) :=
    .single ⟨rfl, hother⟩
  exact login_names_kept hunique hrun

/-- The constraint takes "ada@example.com" for a new email. -/
theorem two_spellings : LoginNamesUnique lower onlyAda ∧
    ¬ LoginNamesUnique lower (serveAll onlyAda [creationByAda "ada@example.com"]) := by
  refine ⟨List.nodup_singleton _, ?_⟩
  rw [LoginNamesUnique]
  decide

/-- The condition is exact: a user who is created with another spelling of an email shares the
login name. -/
theorem not_loginNamesUnique {t t' : Tables} {call : Call} {g : Gen} {f : Fault Exn}
    {keys : List String} (h : call.Done g t keys t') (hc : OtherSpelling sqlLower t (call, g, f)) :
    ¬ LoginNamesUnique sqlLower t' := by
  obtain ⟨hashPassword, data, actor, rfl, u, hu, heq, -⟩ := hc
  cases h with
  | createUser hr hid hemail =>
    rw [LoginNamesUnique, Table.rows_insert hid, List.map_append, List.nodup_append]
    rintro ⟨-, -, hne⟩
    exact hne _ (List.mem_map_of_mem hu) _ (List.mem_singleton_self _) heq
  | transition htr => cases htr

end DocClassifier
