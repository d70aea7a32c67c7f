import DocClassifier.ServiceSpecs
import DocClassifier.Lib.Sessions

/-!
# The last admin under concurrency

Any number of `change_role` and `delete_user` calls run at the same time. The guard of a call
counts the admins and the call then writes the row of its target, so the guard protects the last
admin only as long as no other call takes an admin away between the two. `LastAdmin.admin_kept`
says that this is all that can go wrong, and `LastAdmin.no_admin_left` shows it going wrong.
-/

namespace DocClassifier
open ReadCommitted Transition

/-- A call of `change_role` or `delete_user` with what it generates. -/
inductive AdminCall where
  | changeRole (g : Gen) (targetUserId : String) (update : UserRoleUpdate) (actor : User)
  | deleteUser (g : Gen) (targetUserId : String) (actor : User)

namespace AdminCall

def block : AdminCall → Block Unit
  | .changeRole g targetUserId update actor => do
    let _ ← UserService.changeRole g targetUserId update actor
    pure ()
  | .deleteUser g targetUserId actor => do
    let _ ← UserService.deleteUser g targetUserId actor
    pure ()

def target : AdminCall → String
  | .changeRole _ targetUserId _ _ | .deleteUser _ targetUserId _ => targetUserId

/-- The call can take the admin role away from its target. -/
def removes : AdminCall → Bool
  | .changeRole _ _ update _ => update.role ≠ .admin
  | .deleteUser .. => true

end AdminCall

namespace LastAdmin

def HasAdmin (t : Tables) : Prop := ∃ u ∈ t.users.rows, u.role = .admin

instance (t : Tables) : Decidable (HasAdmin t) :=
  inferInstanceAs (Decidable (∃ u ∈ t.users.rows, u.role = .admin))

/-- An admin besides the user `x`. -/
def OtherAdmin (x : String) (t : Tables) : Prop :=
  ∃ u ∈ t.users.rows, u.role = .admin ∧ u.id ≠ x

def IsAdmin (x : String) (t : Tables) : Prop := ∃ u ∈ t.users.rows, u.role = .admin ∧ u.id = x

variable {t : Tables} {x : String} {call : AdminCall}

/-- The guard: an admin who is not the only one leaves another one behind. -/
theorem otherAdmin_of_count (hx : IsAdmin x t) (hn : t.users.rows.countP (·.role = .admin) ≠ 1) :
    OtherAdmin x t := by
  obtain ⟨u, hu, hr, rfl⟩ := hx
  by_contra h
  have hall : ∀ v ∈ t.users.rows, v.role = .admin → v = u := by
    intro v hv hvr
    refine Table.eq_of_key hv hu ?_
    by_contra hne
    exact h ⟨v, hv, hvr, hne⟩
  have hcount : t.users.rows.countP (·.role = .admin) = t.users.rows.count u := by
    rw [List.count]
    refine List.countP_congr fun v hv => ?_
    simp only [decide_eq_true_eq, beq_iff_eq]
    constructor
    · exact hall v hv
    · rintro rfl
      exact hr
  rw [hcount, List.count_eq_one_of_mem t.users.nodup.of_map hu] at hn
  exact hn rfl

/-! ## What a call can commit -/

/-- The writes leave the users other than `x` alone. -/
def KeepsOthers (x : String) (ws : List Stmt) : Prop :=
  ∀ t : Tables, ∀ u ∈ t.users.rows, u.id ≠ x → u ∈ (postgres.view t ws).users.rows

/-- The writes leave every admin an admin. -/
def KeepsAdmins (ws : List Stmt) : Prop :=
  ∀ (t : Tables) (x : String), IsAdmin x t → IsAdmin x (postgres.view t ws)

theorem keepsOthers_changeRole {e : AuditLog} {role : Role} :
    KeepsOthers x [.updateRole x role, .insertAuditLog e] := by
  intro t u hu hne
  refine List.mem_map.mpr ⟨u, hu, ?_⟩
  simp [hne]

theorem keepsAdmins_changeRole {e : AuditLog} :
    KeepsAdmins [.updateRole x .admin, .insertAuditLog e] := by
  rintro t y ⟨u, hu, hr, rfl⟩
  refine ⟨_, List.mem_map.mpr ⟨u, hu, rfl⟩, ?_, ?_⟩
  · split
    · rfl
    · exact hr
  · split <;> rfl

theorem keepsOthers_deleteUser {e : AuditLog} :
    KeepsOthers x [.insertAuditLog e, .deleteUser x] := by
  intro t u hu hne
  exact List.mem_filter.mpr ⟨hu, by simpa using hne⟩

end LastAdmin

namespace AdminCall
open LastAdmin

/-- What a call does after its guard, for the target row it has read. -/
def write : AdminCall → UserORM → Block Unit
  | .changeRole g targetUserId update actor, u => do
    let _ ← UserService.changeRoleWrite g targetUserId u.role update.role actor
    pure ()
  | .deleteUser g targetUserId actor, u => do
    let _ ← UserService.deleteUserWrite g u targetUserId actor
    pure ()

theorem write_commits {call : AdminCall} {u : UserORM} {ws : List Stmt} {a : Unit}
    (h : (call.write u).Commits ws a) :
    KeepsOthers call.target ws ∧ (call.removes = false → KeepsAdmins ws) := by
  cases call with
  | changeRole g targetUserId update actor =>
    simp only [write, UserService.changeRoleWrite, Tx.exec_bind, Tx.commits_exec] at h
    obtain ⟨t, ws', rfl, h⟩ := h
    split at h
    · simp at h
    · simp only [Tx.exec_bind, Tx.ret_bind, Tx.pure_eq, Tx.commits_exec, Tx.commits_ret] at h
      obtain ⟨_, _, rfl, rfl, -⟩ := h
      refine ⟨keepsOthers_changeRole, fun hr => ?_⟩
      simp only [removes, ne_eq, decide_not, Bool.not_eq_false', decide_eq_true_eq] at hr
      rw [hr]
      exact keepsAdmins_changeRole
  | deleteUser g targetUserId actor =>
    simp only [write, UserService.deleteUserWrite, Tx.exec_bind, Tx.ret_bind, Tx.pure_eq,
      Tx.commits_exec, Tx.commits_ret] at h
    obtain ⟨_, _, rfl, _, _, rfl, rfl, -⟩ := h
    exact ⟨keepsOthers_deleteUser, fun hr => by cases hr⟩

/-- A call is refused at once, or it is a SELECT of its target, a guard and a write. -/
theorem block_cases (call : AdminCall) :
    (∃ e, call.block = .raise e) ∨ ∃ eNone eLast, call.block =
      .select fun t => match t.users.find? call.target with
        | none => .raise eNone
        | some u =>
          if u.role = .admin ∧ call.removes then
            .select fun t =>
              if t.users.rows.countP (·.role = .admin) = 1 then .raise eLast else call.write u
          else call.write u := by
  cases call with
  | changeRole g targetUserId update actor =>
    rw [block, UserService.changeRole_eq]
    split
    · exact .inl ⟨_, rfl⟩
    · refine .inr ⟨.notFound "Target user not found",
        .lastAdminError "Cannot demote the last admin", ?_⟩
      rw [Tx.select_bind]
      congr 1
      funext t
      simp only [target, removes, decide_eq_true_eq]
      cases t.users.find? targetUserId with
      | none => rfl
      | some u =>
        dsimp only
        split
        · rw [Tx.select_bind]
          congr 1
          funext t
          split <;> rfl
        · rfl
  | deleteUser g targetUserId actor =>
    rw [block, UserService.deleteUser_eq]
    split
    · exact .inl ⟨_, rfl⟩
    · split
      · exact .inl ⟨_, rfl⟩
      · refine .inr ⟨.notFound "User not found",
          .lastAdminError "Cannot delete the last admin account", ?_⟩
        rw [Tx.select_bind]
        congr 1
        funext t
        simp only [target, removes, and_true]
        cases t.users.find? targetUserId with
        | none => rfl
        | some u =>
          dsimp only
          split
          · rw [Tx.select_bind]
            congr 1
            funext t
            split <;> rfl
          · rfl

theorem block_commits {call : AdminCall} {ws : List Stmt} {a : Unit}
    (h : call.block.Commits ws a) :
    KeepsOthers call.target ws ∧ (call.removes = false → KeepsAdmins ws) := by
  rcases call.block_cases with ⟨e, he⟩ | ⟨eNone, eLast, hb⟩
  · simp [he] at h
  · rw [hb, Tx.commits_select] at h
    obtain ⟨t, h⟩ := h
    split at h
    · simp at h
    · split at h
      · rw [Tx.commits_select] at h
        obtain ⟨t, h⟩ := h
        split at h
        · simp at h
        · exact write_commits h
      · exact write_commits h

end AdminCall

namespace LastAdmin

/-! ## The guard during a call -/

theorem IsAdmin.keep {ws : List Stmt} (H : IsAdmin x t) (h : KeepsAdmins ws) :
    IsAdmin x (postgres.view t ws) := h t x H

theorem OtherAdmin.keep {ws : List Stmt} (H : OtherAdmin x t) (h : KeepsAdmins ws) :
    OtherAdmin x (postgres.view t ws) := by
  obtain ⟨u, hu, hr, hne⟩ := H
  obtain ⟨v, hv, hvr, hid⟩ := h t u.id ⟨u, hu, hr, rfl⟩
  exact ⟨v, hv, hvr, hid ▸ hne⟩

theorem HasAdmin.keep {ws : List Stmt} (H : HasAdmin t) (h : KeepsAdmins ws) :
    HasAdmin (postgres.view t ws) := by
  obtain ⟨u, hu, hr⟩ := H
  obtain ⟨v, hv, hvr, -⟩ := h t u.id ⟨u, hu, hr, rfl⟩
  exact ⟨v, hv, hvr⟩

theorem HasAdmin.keepOthers {ws : List Stmt} (H : OtherAdmin x t) (h : KeepsOthers x ws) :
    HasAdmin (postgres.view t ws) := by
  obtain ⟨u, hu, hr, hne⟩ := H
  exact ⟨u, h t u hu hne, hr⟩

/-- Where a removing call stands, and what its guard still means for the committed tables. -/
inductive Phase (call : AdminCall) (t : Tables) : Txn Tables Stmt Exn Unit → Prop
  | start : Phase call t ⟨call.block, []⟩
  | counting {u : UserORM} {e : Exn} : IsAdmin call.target t → Phase call t
      ⟨.select fun t =>
        if t.users.rows.countP (·.role = .admin) = 1 then .raise e else call.write u, []⟩
  | raising {e : Exn} {ws : List Stmt} : Phase call t ⟨.raise e, ws⟩
  | past {txn : Txn Tables Stmt Exn Unit} : OtherAdmin call.target t → Phase call t txn

theorem Phase.keep {txn : Txn Tables Stmt Exn Unit} {ws : List Stmt} (H : Phase call t txn)
    (h : KeepsAdmins ws) : Phase call (postgres.view t ws) txn := by
  cases H with
  | start => exact .start
  | counting hx => exact .counting (hx.keep h)
  | raising => exact .raising
  | past ho => exact .past (ho.keep h)

/-- After its SELECT a removing call has found no row, an admin to count, or a non-admin. -/
theorem Phase.of_select {k : Tables → Block Unit} (hr : call.removes = true)
    (hk : call.block = .select k) (H : HasAdmin t) : Phase call t ⟨k t, []⟩ := by
  rcases call.block_cases with ⟨e, he⟩ | ⟨eNone, eLast, hb⟩
  · cases he.symm.trans hk
  · cases hb.symm.trans hk
    cases hf : t.users.find? call.target with
    | none => simpa only [hf] using .raising
    | some u =>
      obtain ⟨hu, hid⟩ := Table.find?_eq_some.mp hf
      simp only [hf]
      split
      · rename_i hg
        exact .counting ⟨u, hu, hg.1, hid⟩
      · rename_i hg
        obtain ⟨v, hv, hvr⟩ := H
        refine .past ⟨v, hv, hvr, fun hvid => hg ⟨?_, hr⟩⟩
        rw [← Table.eq_of_key hv hu (hvid.trans hid.symm)]
        exact hvr

variable {ι : Type} [DecidableEq ι] {i : ι} {s s' : Server Tables Row ι}

theorem Phase.stmt {txn txn' : Txn Tables Stmt Exn Unit} (hr : call.removes = true)
    (ha : HasAdmin s.db) (H : Phase call s.db txn)
    (h : s.stmt postgres i txn = some (s', .running txn')) : Phase call s.db txn' := by
  cases H with
  | start =>
    cases Server.stmt_cases h with
    | select hk => exact .of_select hr hk ha
    | exec hk => rcases call.block_cases with ⟨e, he⟩ | ⟨_, _, he⟩ <;> cases he.symm.trans hk
  | counting hx =>
    cases Server.stmt_cases h with
    | exec hk => cases hk
    | select hk =>
      cases hk
      dsimp only [Backend.view_nil]
      split
      · exact .raising
      · rename_i hn
        exact .past (otherAdmin_of_count hx hn)
  | raising => simp [Server.stmt] at h
  | past ho => exact .past ho

/-- A removing call that is about to commit has got past its guard. -/
theorem Phase.atCommit {ws : List Stmt} {a : Unit} (H : Phase call t ⟨.ret a, ws⟩) :
    OtherAdmin call.target t := by
  generalize htxn : (⟨.ret a, ws⟩ : Txn Tables Stmt Exn Unit) = txn at H
  cases H with
  | start =>
    rcases call.block_cases with ⟨e, he⟩ | ⟨_, _, he⟩ <;> rw [he] at htxn <;> cases htxn
  | counting | raising => cases htxn
  | past ho => exact ho

/-! ## Runs -/

/-- Calls served at the same time, with a mark on those that a removing call has overtaken. -/
abbrev AdminSys (ι : Type) := Watched Tables Stmt Row Exn Unit ι

variable {calls : ι → AdminCall} {w w' : AdminSys ι} {e : Event ι Exn} {es : List (Event ι Exn)}

def step (calls : ι → AdminCall) (w : AdminSys ι) (e : Event ι Exn) : Option (AdminSys ι) :=
  w.step postgres (fun i => (calls i).block) (fun i => (calls i).removes) e

/-- No removing call commits after another one has committed since it began. -/
def NotOvertaken (calls : ι → AdminCall) (w : AdminSys ι) : Event ι Exn → Prop
  | .stmt i => (calls i).removes = true → (w.session i).atCommit = true → w.overtaken i = false
  | .begin _ | .fail .. => True

instance (w : AdminSys ι) (e : Event ι Exn) : Decidable (NotOvertaken calls w e) :=
  match e with
  | .stmt i => inferInstanceAs (Decidable ((calls i).removes = true →
      (w.session i).atCommit = true → w.overtaken i = false))
  | .begin _ | .fail .. => .isTrue trivial

structure Inv (calls : ι → AdminCall) (w : AdminSys ι) : Prop where
  hasAdmin : HasAdmin w.server.db
  residuals : Sys.Residuals (fun i => (calls i).block) w.toSys
  phase : ∀ i txn, (calls i).removes = true → w.overtaken i = false →
    w.session i = .active txn → Phase (calls i) w.server.db txn

theorem Inv.step (H : Inv calls w) (h : Steps (step calls) w e w') (hc : NotOvertaken calls w e) :
    Inv calls w' := by
  obtain ⟨s', o'⟩ := w'
  obtain ⟨hstep, ho⟩ := Watched.step_eq_some.mp h
  have hres := H.residuals.step hstep
  dsimp only at hstep ho hres
  cases Sys.step_cases hstep with
  | @begin i hi =>
    refine ⟨H.hasAdmin, hres, fun j txn hr hj hact => ?_⟩
    simp only [ho, Watched.overtake, Function.update_apply] at hj hact
    split at hact
    · cases hact
      subst j
      exact .start
    · rename_i hne
      exact H.phase j txn hr (by simpa [hne] using hj) hact
  | @fail i err t hi =>
    refine ⟨H.hasAdmin, hres, fun j txn hr hj hact => ?_⟩
    simp only [ho, Watched.overtake, Function.update_apply] at hj hact
    split at hact
    · cases hact
    · exact H.phase j txn hr hj hact
  | @stmt i t server r hi hs =>
    simp only [Watched.overtake, Function.update_self] at ho
    cases r with
    | running t' =>
      have hdb := Server.stmt_running_db hs
      refine ⟨hdb ▸ H.hasAdmin, hres, fun j txn hr hj hact => ?_⟩
      simp only [ho, Session.ofReply, Session.committed, Bool.false_eq_true, and_false,
        ↓reduceIte] at hj
      simp only [Function.update_apply] at hact
      rw [hdb]
      split at hact
      · cases hact
        subst j
        exact (H.phase i t hr hj hi).stmt hr H.hasAdmin hs
      · exact H.phase j txn hr hj hact
    | aborted err =>
      have hdb := Server.stmt_aborted_db hs
      refine ⟨hdb ▸ H.hasAdmin, hres, fun j txn hr hj hact => ?_⟩
      simp only [ho, Session.ofReply, Session.committed, Bool.false_eq_true, and_false,
        ↓reduceIte] at hj
      simp only [Function.update_apply] at hact
      rw [hdb]
      split at hact
      · cases hact
      · exact H.phase j txn hr hj hact
    | committed a =>
      obtain ⟨hothers, hadmins⟩ := AdminCall.block_commits ((H.residuals i t hi).committed hs)
      obtain ⟨ht, hdb⟩ := Server.stmt_committed hs
      cases hrem : (calls i).removes with
      | true =>
        -- The guard of this call still holds, and every other active call is overtaken now.
        have hact := ht ▸ hi
        have hphase := H.phase i _ hrem (hc hrem (by rw [hact]; rfl)) hact
        refine ⟨hdb ▸ .keepOthers hphase.atCommit hothers, hres, fun j txn hr hj hact => ?_⟩
        simp only [Function.update_apply] at hact
        split at hact
        · cases hact
        · rename_i hne
          simp [ho, Session.ofReply, Session.committed, hrem, Ne.symm hne] at hj
      | false =>
        refine ⟨hdb ▸ H.hasAdmin.keep (hadmins hrem), hres, fun j txn hr hj hact => ?_⟩
        simp only [ho, hrem, Bool.false_eq_true, false_and, ↓reduceIte] at hj
        simp only [Function.update_apply] at hact
        rw [hdb]
        split at hact
        · cases hact
        · exact (H.phase j txn hr hj hact).keep (hadmins hrem)

/-- The admins survive any number of calls in any interleaving as long as no removing call commits
after it has been overtaken. -/
theorem admin_kept (calls : ι → AdminCall) {t : Tables} (ht : HasAdmin t)
    (h : Run (Meeting (NotOvertaken calls) (Steps (step calls))) (Watched.start t) es w) :
    HasAdmin w.server.db := by
  have H : Inv calls (Watched.start t : AdminSys ι) :=
    ⟨ht, Sys.residuals_start t, fun _ _ _ _ h => nomatch h⟩
  exact (h.inv (fun _ _ _ hI hs => hI.step hs.1 hs.2) H).hasAdmin

/-- Two admins. -/
def twoAdmins : Tables :=
  { users := ⟨[⟨"ada", "ada@x", "", .admin, true, 0⟩, ⟨"bob", "bob@x", "", .admin, true, 0⟩],
      by decide⟩ }

def demotion (targetUserId actorId : String) : AdminCall :=
  .changeRole (.noId 1) targetUserId ⟨.auditor⟩ ⟨actorId, "", .admin, true, 0⟩

/-- Each of two admins demotes the other. -/
def demoteEachOther : Bool → AdminCall
  | false => demotion "bob" "ada"
  | true => demotion "ada" "bob"

/-- One call after the other: the second one is refused. -/
theorem admin_kept_demoteEachOther : ∃ es w,
    Run (Meeting (NotOvertaken demoteEachOther) (Steps (step demoteEachOther)))
      (Watched.start twoAdmins) es w ∧ HasAdmin w.server.db := by
  have h : (exec (fun w e => if NotOvertaken demoteEachOther w e then step demoteEachOther w e
        else none) (Watched.start twoAdmins) (.begin false :: .replicate 5 (.stmt false) ++
        .begin true :: .replicate 3 (.stmt true))).isSome := by decide
  obtain ⟨w, hw⟩ := Option.isSome_iff_exists.mp h
  have hrun := run_of_exec hw
  exact ⟨_, w, hrun, admin_kept demoteEachOther (by decide) hrun⟩

/-- Both calls count two admins before either of them writes, and no admin is left. -/
theorem no_admin_left : ∃ es s,
    Run (Steps (Sys.step postgres fun i => (demoteEachOther i).block)) (Sys.start twoAdmins)
      es s ∧ HasAdmin twoAdmins ∧ ¬ HasAdmin s.server.db := by
  have h : ((exec (Sys.step postgres fun i => (demoteEachOther i).block) (Sys.start twoAdmins)
        [.begin false, .begin true, .stmt false, .stmt true, .stmt false, .stmt true,
          .stmt false, .stmt false, .stmt false, .stmt true, .stmt true, .stmt true]).map
        fun s => decide (HasAdmin s.server.db)) = some false := by decide
  obtain ⟨s, hs, hno⟩ := Option.map_eq_some_iff.mp h
  exact ⟨_, s, exec_eq_some.mp hs, by decide, of_decide_eq_false hno⟩

end LastAdmin

end DocClassifier
