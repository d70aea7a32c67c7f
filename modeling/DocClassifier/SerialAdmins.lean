import DocClassifier.ServiceAnswers
import DocClassifier.ActiveAdmins
import DocClassifier.Rollback

/-!
# The guard of the last admin in serial runs

With the current row of a user as the actor of every call, the guards of `change_role` and
`delete_user` refuse what would take the last admin away and nothing else (`lastAdmin_guard_exact`).
The guard of `delete_user` never refuses: the actor is an admin and not the target.
-/

namespace DocClassifier
open ReadCommitted Transition LastAdmin

/-- The actor is the row of a user, who may be inactive. -/
def CurrentUser (t : Tables) (actor : User) : Prop := ∃ u ∈ t.users.rows, u.toUser = actor

/-- Users are managed by users that are there. -/
def ByCurrentUser (t : Tables) (c : Call × Gen × Fault Exn) : Prop :=
  ∀ actor, c.1.userActor? = some actor → CurrentUser t actor

/-- The user is an admin, and no other user is. -/
def OnlyAdmin (t : Tables) (userId : String) : Prop :=
  ∀ u ∈ t.users.rows, u.role = .admin ↔ u.id = userId

/-- A call raises `LastAdminError`. -/
def Call.RaisesLastAdmin (g : Gen) (t : Tables) (c : Call) : Prop :=
  ∃ msg, (c.perform g none none t).1 = .error (.lastAdminError msg)

/-- What the guard does on the tables `t`. -/
structure GuardExact (t : Tables) : Prop where
  hasAdmin : HasAdmin t
  /-- An admin is refused the demotion of the only admin, and no other change. -/
  changeRole : ∀ g targetUserId update actor, CurrentUser t actor → actor.role = .admin →
    (t.users.find? targetUserId).isSome →
    ((Call.changeRole targetUserId update actor).RaisesLastAdmin g t ↔
      OnlyAdmin t targetUserId ∧ update.role ≠ .admin)
  deleteUser : ∀ g targetUserId actor, CurrentUser t actor →
    ¬ (Call.deleteUser targetUserId actor).RaisesLastAdmin g t
  /-- The row of the actor outlives its call. -/
  keepsActor : ∀ c t' actor, Served t c t' → c.1.userActor? = some actor →
    CurrentUser t actor → ∃ u ∈ t'.users.rows, u.id = actor.id

section
variable {g : Gen} {t t' : Tables} {actor : User} {userId : String} {update : UserRoleUpdate}

theorem CurrentUser.isSome (H : CurrentUser t actor) : (t.users.find? actor.id).isSome := by
  obtain ⟨u, hu, hactor⟩ := H
  rw [Table.find?_eq_some.mpr ⟨hu, congrArg User.id hactor⟩]
  rfl

theorem CurrentUser.admin (H : CurrentUser t actor) (hr : actor.role = .admin) :
    ∃ u ∈ t.users.rows, u.role = .admin ∧ u.id = actor.id := by
  obtain ⟨u, hu, rfl⟩ := H
  exact ⟨u, hu, hr, rfl⟩

/-! ## What a call raises -/

/-- Without faults a call raises what its transaction raises. -/
theorem Call.perform_error {α : Type} {c : Call} {p : Block (Committed α)} {e : Exn}
    (hc : c.block g = p >>= fun a => pure a.deletes) :
    (c.perform g none none t).1 = .error e ↔ (p.run postgres t none []).1 = .error e := by
  rw [perform, hc, Tx.run_map]
  cases (p.run postgres t none []).1 with
  | error e' =>
    change Except.error e' = .error e ↔ Except.error e' = .error e
    rw [Except.error.injEq, Except.error.injEq]
  | ok a =>
    change deleteKeys none a.deletes = .error e ↔ Except.ok a = .error e
    rw [deleteKeys_none]
    constructor
    · intro h
      cases h
    · intro h
      cases h

/-- The guard counts one admin and the target is an admin. -/
theorem onlyAdmin_iff {target : UserORM} (ht : t.users.find? userId = some target) :
    OnlyAdmin t userId ↔ target.role = .admin ∧ t.users.rows.countP (·.role = .admin) = 1 := by
  obtain ⟨hmem, hid⟩ := Table.find?_eq_some.mp ht
  constructor
  · intro h
    have hr : target.role = .admin := (h target hmem).mpr hid
    refine ⟨hr, ?_⟩
    by_contra hcount
    obtain ⟨u, hu, hur, hne⟩ := otherAdmin_of_count ⟨target, hmem, hr, hid⟩ hcount
    exact hne ((h u hu).mp hur)
  · intro ⟨hr, hcount⟩ u hu
    constructor
    · intro hur
      by_contra hne
      exact admins_ne_one hu hmem hur hr (fun h => hne (h.trans hid)) hcount
    · intro huid
      rw [Table.eq_of_key hu hmem (huid.trans hid.symm)]
      exact hr

theorem raisesLastAdmin_changeRole (hactor : CurrentUser t actor) (hr : actor.role = .admin)
    (ht : (t.users.find? userId).isSome) :
    (Call.changeRole userId update actor).RaisesLastAdmin g t ↔
      OnlyAdmin t userId ∧ update.role ≠ .admin := by
  have hraise : ∀ msg, ((Call.changeRole userId update actor).perform g none none t).1 =
      .error (.lastAdminError msg) ↔ _ := fun msg => Call.perform_error rfl
  simp only [Call.RaisesLastAdmin, hraise]
  have hanswer := Validated.UserService.changeRole_answer some g userId update hactor.isSome
  rw [Validated.UserService.changeRole_total] at hanswer
  generalize ((UserService.changeRole g userId update actor).run postgres t none []).1 = r
    at hanswer ⊢
  cases hanswer with
  | denied hr' => exact absurd hr hr'
  | notFound _ hnone =>
    rw [hnone] at ht
    cases ht
  | invalid _ _ hemail => cases hemail
  | lastAdmin _ htarget _ htr hadmin hcount =>
    rw [onlyAdmin_iff htarget]
    exact iff_of_true ⟨_, rfl⟩ ⟨⟨htr, hcount⟩, hadmin⟩
  | returns _ htarget _ hguard =>
    rw [onlyAdmin_iff htarget]
    refine iff_of_false ?_ fun h => hguard ⟨h.1.1, h.2, h.1.2⟩
    intro ⟨msg, h⟩
    cases h

theorem not_raisesLastAdmin_deleteUser (hactor : CurrentUser t actor) :
    ¬ (Call.deleteUser userId actor).RaisesLastAdmin g t := by
  intro ⟨msg, h⟩
  rw [Call.perform_error rfl] at h
  have hanswer := Validated.UserService.deleteUser_answer some g userId hactor.isSome
  rw [Validated.UserService.deleteUser_total, h] at hanswer
  cases hanswer with
  | lastAdmin hr hne htarget _ htr hcount =>
    -- The actor and the target are two admins.
    obtain ⟨u, hu, hur, huid⟩ := hactor.admin hr
    obtain ⟨hmem, hid⟩ := Table.find?_eq_some.mp htarget
    refine admins_ne_one hu hmem hur htr (fun h => hne ?_) hcount
    rw [← hid, ← huid, h]

/-! ## What a call keeps -/

/-- A demotion that gets past the guard leaves another admin. -/
theorem otherAdmin_changeRole {target : UserORM} (H : HasAdmin t)
    (ht : t.users.find? userId = some target) (hadmin : update.role ≠ .admin)
    (hlast : ¬ (target.role = .admin ∧ update.role ≠ .admin ∧
      t.users.rows.countP (·.role = .admin) = 1)) : OtherAdmin userId t := by
  obtain ⟨hmem, hid⟩ := Table.find?_eq_some.mp ht
  by_cases htr : target.role = .admin
  · exact otherAdmin_of_count ⟨target, hmem, htr, hid⟩ fun h => hlast ⟨htr, hadmin, h⟩
  · obtain ⟨u, hu, hur⟩ := H
    refine ⟨u, hu, hur, fun huid => htr ?_⟩
    rw [← Table.eq_of_key hu hmem (huid.trans hid.symm)]
    exact hur

theorem LastAdmin.HasAdmin.step {c : Call × Gen × Fault Exn} (H : HasAdmin t) (h : Served t c t')
    (hc : ByCurrentUser t c) : HasAdmin t' := by
  rcases h.cases with rfl | ⟨keys, hdone⟩
  · exact H
  obtain ⟨call, g, f⟩ := c
  cases hdone with
  | createUser =>
    obtain ⟨u, hu, hr⟩ := H
    exact ⟨u, Table.mem_rows_insert hu, hr⟩
  | @changeRole userId update actor target hr ht hlast =>
    by_cases hadmin : update.role = .admin
    · rw [hadmin]
      exact H.keep keepsAdmins_changeRole
    · exact .keepOthers (otherAdmin_changeRole H ht hadmin hlast) keepsOthers_changeRole
  | deleteUser hr hne ht hlast =>
    obtain ⟨u, hu, hur, huid⟩ := (hc _ rfl).admin hr
    exact .keepOthers ⟨u, hu, hur, fun h => hne (h.symm.trans huid)⟩ keepsOthers_deleteUser
  | createBatch | transition | savePrediction | relabel => exact H

theorem CurrentUser.kept {c : Call × Gen × Fault Exn} (H : CurrentUser t actor)
    (h : Served t c t') (hc : c.1.userActor? = some actor) :
    ∃ u ∈ t'.users.rows, u.id = actor.id := by
  obtain ⟨u, hu, hactor⟩ := H
  have hid : u.id = actor.id := congrArg User.id hactor
  rcases h.cases with rfl | ⟨keys, hdone⟩
  · exact ⟨u, hu, hid⟩
  obtain ⟨call, g, f⟩ := c
  cases hdone with
  | createUser => exact ⟨u, Table.mem_rows_insert hu, hid⟩
  | changeRole =>
    refine ⟨_, List.mem_map.mpr ⟨u, hu, rfl⟩, ?_⟩
    split <;> exact hid
  | deleteUser hr hne =>
    cases hc
    exact ⟨u, Table.mem_rows_erase hu fun h => hne (h.symm.trans hid), hid⟩
  | createBatch | transition | savePrediction | relabel => exact ⟨u, hu, hid⟩

theorem GuardExact.of_hasAdmin (H : HasAdmin t) : GuardExact t where
  hasAdmin := H
  changeRole _ _ _ _ hactor hr ht := raisesLastAdmin_changeRole hactor hr ht
  deleteUser _ _ _ hactor := not_raisesLastAdmin_deleteUser hactor
  keepsActor _ _ _ h hc hactor := hactor.kept h hc

end

/-- After any calls by users that are there, the guard lets the number of admins reach zero in no
call and refuses no other change. -/
theorem lastAdmin_guard_exact {t u : Tables} {calls : List (Call × Gen × Fault Exn)}
    (ht : HasAdmin t) (h : Run (Meeting ByCurrentUser Served) t calls u) : GuardExact u :=
  .of_hasAdmin (h.inv (fun _ _ _ H hs => H.step hs.1 hs.2) ht)

/-- Ada makes Bob a user and deletes the row. -/
def bobComesAndGoes : List (Call × Gen × Fault Exn) :=
  [(createBob, .noId 1, none),
    (.deleteUser "" ⟨"ada", "ada@x", .admin, true, 0⟩, .noId 2, none)]

theorem lastAdmin_guard_exact_bob : GuardExact (serveAll oneAdmin bobComesAndGoes) := by
  have hrun : Run (Meeting ByCurrentUser Served) oneAdmin bobComesAndGoes
      (serveAll oneAdmin bobComesAndGoes) := by
    refine .cons ⟨rfl, ?_⟩ (.single ⟨rfl, ?_⟩)
    · intro actor h
      cases h
      exact ⟨_, List.mem_cons_self, rfl⟩
    · intro actor h
      cases h
      exact ⟨_, List.mem_cons_self, rfl⟩
  exact lastAdmin_guard_exact ⟨_, List.mem_cons_self, rfl⟩ hrun

end DocClassifier
