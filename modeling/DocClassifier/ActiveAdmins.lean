import DocClassifier.Calls
import DocClassifier.LastAdmin

/-!
# Admins who can log in

Only an active user gets past authentication. The guards of `change_role` and `delete_user` count
the admins whether they are active or not, so the only active admin can give up the role while an
inactive admin is counted. `active_admin_kept` says that nothing else locks the admins out.
-/

namespace DocClassifier
open ReadCommitted Transition

/-- The actor of a call that manages users. -/
def Call.userActor? : Call → Option User
  | .createUser _ _ actor | .changeRole _ _ actor | .deleteUser _ actor => some actor
  | _ => none

/-- `current_active_user`, read from the users table when the request comes in. -/
def CurrentActiveUser (t : Tables) (actor : User) : Prop :=
  ∃ u ∈ t.users.rows, u.isActive = true ∧ u.toUser = actor

/-- Users are managed by active users. -/
def Authenticated (t : Tables) (c : Call × Gen × Fault Exn) : Prop :=
  ∀ actor, c.1.userActor? = some actor → CurrentActiveUser t actor

/-- An admin who can log in. -/
def HasActiveAdmin (t : Tables) : Prop :=
  ∃ u ∈ t.users.rows, u.role = .admin ∧ u.isActive = true

/-- The only active admin gives up the role while the guard counts an inactive admin. -/
def LocksOut (t : Tables) (c : Call × Gen × Fault Exn) : Prop :=
  ∃ update actor, c.1 = .changeRole actor.id update actor ∧ update.role ≠ .admin ∧
    (∀ u ∈ t.users.rows, u.role = .admin → u.isActive = true → u.id = actor.id) ∧
    ∃ u ∈ t.users.rows, u.role = .admin ∧ u.isActive = false

section
variable {t t' : Tables} {actor : User} {g : Gen} {f : Fault Exn} {keys : List String}

theorem CurrentActiveUser.admin (H : CurrentActiveUser t actor) (hr : actor.role = .admin) :
    ∃ u ∈ t.users.rows, u.id = actor.id ∧ u.role = .admin ∧ u.isActive = true := by
  obtain ⟨u, hu, hactive, rfl⟩ := H
  exact ⟨u, hu, rfl, hr, hactive⟩

/-- An active admin besides the target outlives a call. -/
theorem HasActiveAdmin.modify {userId : String} {role : Role} {u : UserORM} {log : List AuditLog}
    (hu : u ∈ t.users.rows) (hr : u.role = .admin) (hactive : u.isActive = true)
    (hne : u.id ≠ userId) :
    HasActiveAdmin { t with
      users := t.users.modify userId (fun u => { u with role }) fun _ => rfl
      auditLogs := log } :=
  ⟨u, List.mem_map.mpr ⟨u, hu, if_neg hne⟩, hr, hactive⟩

/-- A promotion takes no admin away. -/
theorem HasActiveAdmin.promote {userId : String} {log : List AuditLog} (H : HasActiveAdmin t) :
    HasActiveAdmin { t with
      users := t.users.modify userId (fun u => { u with role := .admin }) fun _ => rfl
      auditLogs := log } := by
  obtain ⟨u, hu, hr, hactive⟩ := H
  refine ⟨_, List.mem_map.mpr ⟨u, hu, rfl⟩, ?_, ?_⟩
  · split
    · rfl
    · exact hr
  · split <;> exact hactive

/-- The guard of a demotion: another active admin is left, unless the demotion locks out. -/
theorem HasActiveAdmin.changeRole {userId : String} {update : UserRoleUpdate} {target : UserORM}
    {log : List AuditLog} (H : HasActiveAdmin t) (hactor : CurrentActiveUser t actor)
    (hr : actor.role = .admin) (ht : t.users.find? userId = some target)
    (hlast : ¬ (target.role = .admin ∧ update.role ≠ .admin ∧
      t.users.rows.countP (·.role = .admin) = 1))
    (hlock : ¬ LocksOut t (.changeRole userId update actor, g, f)) :
    HasActiveAdmin { t with
      users := t.users.modify userId (fun u => { u with role := update.role }) fun _ => rfl
      auditLogs := log } := by
  by_cases hadmin : update.role = .admin
  · rw [hadmin]
    exact H.promote
  obtain ⟨a, ha, haid, har, haa⟩ := hactor.admin hr
  by_cases hself : userId = actor.id
  swap
  · exact .modify ha har haa fun h => hself (h.symm.trans haid)
  subst hself
  obtain ⟨hmem, hid⟩ := Table.find?_eq_some.mp ht
  have hta : target = a := Table.eq_of_key hmem ha (hid.trans haid.symm)
  have hcount : t.users.rows.countP (·.role = .admin) ≠ 1 := fun h =>
    hlast ⟨hta ▸ har, hadmin, h⟩
  obtain ⟨u, hu, hur, hune⟩ := LastAdmin.otherAdmin_of_count ⟨a, ha, har, haid⟩ hcount
  by_cases hex : ∃ v ∈ t.users.rows, v.role = .admin ∧ v.isActive = true ∧ v.id ≠ actor.id
  · obtain ⟨v, hv, hvr, hva, hvne⟩ := hex
    exact .modify hv hvr hva hvne
  · -- The other admins are inactive, so this demotion locks out.
    refine absurd ⟨update, actor, rfl, hadmin, fun v hv hvr hva => ?_, u, hu, hur, ?_⟩ hlock
    · by_contra hvne
      exact hex ⟨v, hv, hvr, hva, hvne⟩
    · cases hua : u.isActive with
      | false => rfl
      | true => exact absurd ⟨u, hu, hur, hua, hune⟩ hex

theorem HasActiveAdmin.step {c : Call × Gen × Fault Exn} (H : HasActiveAdmin t)
    (h : Served t c t') (hauth : Authenticated t c) (hlock : ¬ LocksOut t c) :
    HasActiveAdmin t' := by
  rcases h.cases with rfl | ⟨keys, hdone⟩
  · exact H
  obtain ⟨call, g, f⟩ := c
  cases hdone with
  | createUser =>
    obtain ⟨u, hu, hr, hactive⟩ := H
    exact ⟨u, Table.mem_rows_insert hu, hr, hactive⟩
  | changeRole hr ht hlast => exact H.changeRole (hauth _ rfl) hr ht hlast hlock
  | deleteUser hr hne ht hlast =>
    -- The actor is an active admin and not the target.
    obtain ⟨a, ha, haid, har, haa⟩ := (hauth _ rfl).admin hr
    exact ⟨a, Table.mem_rows_erase ha fun h => hne (h.symm.trans haid), har, haa⟩
  | createBatch | transition | savePrediction | relabel => exact H

end

/-- Serial calls keep an active admin as long as no call of the only active admin locks the admins
out. -/
theorem active_admin_kept {t t' : Tables} {calls : List (Call × Gen × Fault Exn)}
    (ht : HasActiveAdmin t)
    (h : Run (Meeting (fun t c => Authenticated t c ∧ ¬ LocksOut t c) Served) t calls t') :
    HasActiveAdmin t' :=
  h.inv (fun _ _ _ H hs => H.step hs.1 hs.2.1 hs.2.2) ht

/-- An active admin and an inactive one. -/
def oneActiveAdmin : Tables :=
  { users := ⟨[⟨"ada", "ada@x", "", .admin, true, 0⟩, ⟨"bob", "bob@x", "", .admin, false, 0⟩],
      by decide⟩ }

/-- Ada makes a user an auditor. -/
def demotionByAda (targetUserId : String) : Call × Gen × Fault Exn :=
  (.changeRole targetUserId ⟨.auditor⟩ ⟨"ada", "ada@x", .admin, true, 0⟩, .noId 1,
    none)

theorem authenticated_demotionByAda (targetUserId : String) :
    Authenticated oneActiveAdmin (demotionByAda targetUserId) := by
  intro actor h
  cases h
  exact ⟨_, List.mem_cons_self, rfl, rfl⟩

theorem active_admin_kept_bob :
    HasActiveAdmin (serveAll oneActiveAdmin [demotionByAda "bob"]) := by
  have hactive : HasActiveAdmin oneActiveAdmin := ⟨_, List.mem_cons_self, rfl, rfl⟩
  have hlock : ¬ LocksOut oneActiveAdmin (demotionByAda "bob") := by
    rintro ⟨update, actor, h, -⟩
    simp only [demotionByAda, Call.changeRole.injEq] at h
    obtain ⟨hid, -, rfl⟩ := h
    exact absurd hid (by decide)
  have hrun : Run (Meeting (fun t c => Authenticated t c ∧ ¬ LocksOut t c) Served) oneActiveAdmin
      [demotionByAda "bob"] (serveAll oneActiveAdmin [demotionByAda "bob"]) :=
    .single ⟨rfl, authenticated_demotionByAda "bob", hlock⟩
  exact active_admin_kept hactive hrun

/-- The guard counts two admins and lets the only active one step down. -/
theorem all_admins_locked_out : ∃ calls t',
    Run (Meeting Authenticated Served) oneActiveAdmin calls t' ∧ HasActiveAdmin oneActiveAdmin ∧
      ¬ HasActiveAdmin t' := by
  refine ⟨[demotionByAda "ada"], _, .single ⟨rfl, authenticated_demotionByAda "ada"⟩,
    ⟨_, List.mem_cons_self, rfl, rfl⟩, ?_⟩
  rw [HasActiveAdmin]
  decide

/-- The guards of `change_role` and `delete_user` let a call through that finds two admins. -/
theorem admins_ne_one {t : Tables} {u v : UserORM} (hu : u ∈ t.users.rows) (hv : v ∈ t.users.rows)
    (hur : u.role = .admin) (hvr : v.role = .admin) (hne : u.id ≠ v.id) :
    t.users.rows.countP (·.role = .admin) ≠ 1 := by
  intro h
  obtain ⟨x, hx⟩ := List.length_eq_one_iff.mp (List.countP_eq_length_filter ▸ h)
  have hux : u ∈ t.users.rows.filter (·.role = .admin) := List.mem_filter.mpr ⟨hu, by simpa⟩
  have hvx : v ∈ t.users.rows.filter (·.role = .admin) := List.mem_filter.mpr ⟨hv, by simpa⟩
  rw [hx, List.mem_singleton] at hux hvx
  exact hne (by rw [hux, hvx])

/-- The demotion of the only active admin leaves no active admin. -/
theorem not_hasActiveAdmin_modify {t : Tables} {userId : String} {role : Role}
    {log : List AuditLog} (hrole : role ≠ .admin)
    (honly : ∀ u ∈ t.users.rows, u.role = .admin → u.isActive = true → u.id = userId) :
    ¬ HasActiveAdmin { t with
      users := t.users.modify userId (fun u => { u with role }) fun _ => rfl
      auditLogs := log } := by
  rintro ⟨v, hv, hvr, hva⟩
  obtain ⟨w, hw, rfl⟩ := List.mem_map.mp hv
  by_cases hid : w.id = userId
  · rw [if_pos hid] at hvr
    exact hrole hvr
  · rw [if_neg hid] at hvr hva
    exact hid (honly w hw hvr hva)

/-- The condition is exact: a call that locks out commits, and no active admin is left. -/
theorem no_active_admin {t : Tables} {call : Call} {g : Gen} (ht : HasActiveAdmin t)
    (hauth : Authenticated t (call, g, none)) (hlock : LocksOut t (call, g, none)) :
    ¬ HasActiveAdmin (call.serve g none t) := by
  obtain ⟨update, actor, rfl, hadmin, honly, u, hu, hur, hua⟩ := hlock
  obtain ⟨a, ha, har, haa⟩ := ht
  have haid : a.id = actor.id := honly a ha har haa
  have hfind : t.users.find? actor.id = some a := Table.find?_eq_some.mpr ⟨ha, haid⟩
  -- The actor is the active admin.
  obtain ⟨b, hb, -, hbactor⟩ := hauth actor rfl
  have hbid : b.id = actor.id := congrArg User.id hbactor
  have hba : b = a := Table.eq_of_key hb ha (hbid.trans haid.symm)
  have hrole : actor.role = .admin := by
    rw [← hbactor, hba]
    exact har
  have hne : u.id ≠ a.id := by
    intro h
    rw [Table.eq_of_key hu ha h, haa] at hua
    cases hua
  have hcount := admins_ne_one hu ha hur har hne
  rw [Call.serve, UserService.changeRole_run hrole hfind hcount (by simp [hfind])]
  exact not_hasActiveAdmin_modify hadmin honly

end DocClassifier
