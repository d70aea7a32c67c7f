import DocClassifier.CacheAuthorization
import DocClassifier.ShippedPolicy
import DocClassifier.StaleFill

/-!
# Reading under the shipped policy

A hit in the cache goes around the policy for all routes but `GET /users/`. The policy that is
shipped lets every role read what these routes deliver, so that nothing is delivered against it, in
whatever order requests, fills, service calls and deletions overlap. The audit log is not cached.
-/

namespace DocClassifier
open ReadCommitted Transition CacheAside

/-- `list_audit_logs`. -/
def Handlers.listAuditLogs (w : AppData) (limit : Limit 500) (actor : User) :
    Except ApiError (List AuditLog) :=
  if w.policy.enforce actor.role.value "/audit" "GET" then
    match ((AuditService.listRecent limit.1).run postgres w.tables none []).1 with
    | .ok logs => .ok logs
    | .error e => .error (.unhandled e)
  else .error forbidden

/-- Who may see what a route delivers. -/
def Route.readers : Route → List Role
  | .listUsers .. => [.admin]
  | .getMe | .listBatches .. | .getBatch _ | .recentPredictions _ | .predictionsForBatch _ =>
    [.admin, .reviewer, .auditor]

/-- The operators leave the policy as it is. -/
def KeepsPolicy {ι : Type} : Action Request String Change ι → Prop
  | .commit (.editPolicy _) => False
  | _ => True

instance {ι : Type} : DecidablePred (KeepsPolicy (ι := ι))
  | .commit (.editPolicy _) => .isFalse id
  | .commit (.call ..) | .lookUp .. | .answer _ | .fill _ | .delete _ | .finish _ | .fail _
  | .expire _ => .isTrue trivial

section
variable {boots : List Boot} {table : List Rule}

theorem bootedPolicy_enforced
    (h : Run (Meeting (SeedsWhole policyCsv) (Booted policyCsv)) [] boots table) {w : AppData}
    (hw : w.policy = bootedPolicy table) (r : Request) :
    r.enforced w = true ↔ r.actor.role ∈ r.route.readers := by
  obtain ⟨route, id, email, role, isActive, createdAt⟩ := r
  cases route with
  | getMe => cases role <;> simp [Request.enforced, Request.object?, Route.readers]
  | listUsers | listBatches | getBatch | recentPredictions | predictionsForBatch =>
    rw [Request.enforced, hw]
    refine (bootedPolicy_enforce h).trans ?_
    cases role <;> simp [shippedRules, Role.value, Route.readers]

theorem listAuditLogs_booted
    (h : Run (Meeting (SeedsWhole policyCsv) (Booted policyCsv)) [] boots table) {w : AppData}
    (hw : w.policy = bootedPolicy table) (limit : Limit 500) (actor : User) :
    Handlers.listAuditLogs w limit actor = if actor.role = .reviewer then .error forbidden
      else .ok ((orderByCreatedAtDesc (·.timestamp) w.tables.auditLogs).take limit.1) := by
  have henforce : w.policy.enforce actor.role.value "/audit" "GET" = true ↔
      actor.role ≠ .reviewer := by
    rw [hw, bootedPolicy_enforce h]
    cases actor.role <;> simp [shippedRules, Role.value]
  rw [Handlers.listAuditLogs]
  by_cases hrole : actor.role = .reviewer
  · rw [if_pos hrole, if_neg fun he => henforce.mp he hrole]
  · rw [if_neg hrole, if_pos (henforce.mpr hrole)]
    rfl

/-- Past the guard there is nobody whom the shipped policy does not let read. -/
theorem readers_of_guard
    (h : Run (Meeting (SeedsWhole policyCsv) (Booted policyCsv)) [] boots table) {w : AppData}
    (hw : w.policy = bootedPolicy table) {r : Request} (hg : r.guard w = none) :
    r.actor.role ∈ r.route.readers := by
  have hlist := Request.guard_eq_none.mp hg
  rw [bootedPolicy_enforced h hw] at hlist
  obtain ⟨route, id, email, role, isActive, createdAt⟩ := r
  cases route with
  | listUsers skip limit => exact hlist ⟨skip, limit, rfl⟩
  | getMe | listBatches | getBatch | recentPredictions | predictionsForBatch =>
    cases role <;> simp [Route.readers]

end

/-- After boots of which none was killed in the middle of the seeding, the policy lets read those
who are meant to, the audit log is for admins and auditors, and in no order of overlapping requests,
fills, service calls and deletions is anybody else served, although a hit goes around the policy. -/
theorem shipped_policy_reads {boots : List Boot} {table : List Rule}
    (hboots : Run (Meeting (SeedsWhole policyCsv) (Booted policyCsv)) [] boots table) (t : Tables) :
    (∀ r : Request, r.enforced ⟨t, bootedPolicy table⟩ = true ↔ r.actor.role ∈ r.route.readers) ∧
    (∀ (limit : Limit 500) (actor : User),
      Handlers.listAuditLogs ⟨t, bootedPolicy table⟩ limit actor =
        if actor.role = .reviewer then .error forbidden
        else .ok ((orderByCreatedAtDesc (·.timestamp) t.auditLogs).take limit.1)) ∧
    ∀ {ι : Type} [DecidableEq ι] {acts : List (Action Request String Change ι)}
      {s : Overlap AppData Request String View ApiError ι},
      Run (Meeting (fun _ act => KeepsPolicy act) (Steps operatedApi.step))
        (Overlap.start ⟨t, bootedPolicy table⟩) acts s →
      ∀ i r, (s.readers i).request? = some r → r.actor.role ∈ r.route.readers := by
  refine ⟨bootedPolicy_enforced hboots rfl, listAuditLogs_booted hboots rfl, ?_⟩
  intro ι _ acts s hrun i r hr
  refine Api.guarded (P := fun w => w.policy = bootedPolicy table)
    (Q := fun r => r.actor.role ∈ r.route.readers)
    (fun w r hw hg => readers_of_guard hboots hw hg) ?_
    rfl hrun hr
  intro u m next ks hkeeps hw hm
  cases m with
  | call c g f => exact (serviceApi_mutate hm).1.trans hw
  | editPolicy policy => exact hkeeps.elim

/-- Eve asks for herself and, at the same time, for a batch. -/
def eveReads : List (Action Request String Change Bool) :=
  [.lookUp false ⟨.getMe, ⟨"eve", "eve@x", .auditor, true, 0⟩⟩,
    .lookUp true ⟨.getBatch "b", ⟨"eve", "eve@x", .auditor, true, 0⟩⟩, .answer false, .fill false]

theorem shipped_policy_reads_eveReads : ∃ table,
    ∃ s : Overlap AppData Request String View ApiError Bool, ∃ r,
      Run (Meeting (fun _ act => KeepsPolicy act) (Steps operatedApi.step))
        (Overlap.start ⟨onlyEve, bootedPolicy table⟩) eveReads s ∧
      (s.readers true).request? = some r ∧ r.actor.role = .auditor ∧
      r.actor.role ∈ r.route.readers := by
  have hboots : Run (Meeting (SeedsWhole policyCsv) (Booted policyCsv)) [] [.returns]
      (bootTable policyCsv [] .returns) := .single ⟨rfl, nofun⟩
  have h : (exec (fun s act => if KeepsPolicy act then operatedApi.step s act else none)
      (Overlap.start ⟨onlyEve, bootedPolicy (bootTable policyCsv [] .returns)⟩) eveReads).map
        (fun s => (s.readers true).request?) =
          some (some ⟨.getBatch "b", ⟨"eve", "eve@x", .auditor, true, 0⟩⟩) := rfl
  obtain ⟨s, hs, hr⟩ := Option.map_eq_some_iff.mp h
  have hrun : Run (Meeting (fun _ act => KeepsPolicy act) (Steps operatedApi.step))
      (Overlap.start ⟨onlyEve, bootedPolicy (bootTable policyCsv [] .returns)⟩) eveReads s :=
    run_of_exec hs
  exact ⟨bootTable policyCsv [] .returns, s, _, hrun, hr, rfl,
    (shipped_policy_reads hboots onlyEve).2.2 hrun true _ hr⟩

end DocClassifier
