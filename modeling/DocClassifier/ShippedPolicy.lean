import DocClassifier.PolicySeeding
import DocClassifier.RequestRights

/-!
# The policy file of the repository

`casbin/policy.csv` lets through the roles that the services let through: for no mutating route do
the policy and the role check of the service disagree. When the file has been seeded, requests by
auditors write nothing, whatever they overlap with.
-/

namespace DocClassifier
open ReadCommitted Transition

/-- The lines of `casbin/policy.csv`. -/
def policyLines : List String :=
  ["# Admin - full access",
    "p, admin, /users, GET",
    "p, admin, /users, POST",
    "p, admin, /users/role, PATCH",
    "p, admin, /users/delete, DELETE",
    "p, admin, /batches, GET",
    "p, admin, /batches/detail, GET",
    "p, admin, /predictions/recent, GET",
    "p, admin, /predictions/batch, GET",
    "p, admin, /predictions/relabel, PATCH",
    "p, admin, /audit, GET",
    "p, admin, /upload, POST",
    "",
    "# Reviewer - view batches/predictions, relabel, upload",
    "p, reviewer, /batches, GET",
    "p, reviewer, /batches/detail, GET",
    "p, reviewer, /predictions/recent, GET",
    "p, reviewer, /predictions/batch, GET",
    "p, reviewer, /predictions/relabel, PATCH",
    "p, reviewer, /upload, POST",
    "",
    "# Auditor - read-only on batches and audit log",
    "p, auditor, /batches, GET",
    "p, auditor, /batches/detail, GET",
    "p, auditor, /predictions/recent, GET",
    "p, auditor, /predictions/batch, GET",
    "p, auditor, /audit, GET"]

def policyCsv : String := "\n".intercalate policyLines

/-- What the policy lets a role do. -/
def shippedRules : List Rule :=
  [["admin", "/users", "GET"], ["admin", "/users", "POST"], ["admin", "/users/role", "PATCH"],
    ["admin", "/users/delete", "DELETE"], ["admin", "/batches", "GET"],
    ["admin", "/batches/detail", "GET"], ["admin", "/predictions/recent", "GET"],
    ["admin", "/predictions/batch", "GET"], ["admin", "/predictions/relabel", "PATCH"],
    ["admin", "/audit", "GET"], ["admin", "/upload", "POST"], ["reviewer", "/batches", "GET"],
    ["reviewer", "/batches/detail", "GET"], ["reviewer", "/predictions/recent", "GET"],
    ["reviewer", "/predictions/batch", "GET"], ["reviewer", "/predictions/relabel", "PATCH"],
    ["reviewer", "/upload", "POST"], ["auditor", "/batches", "GET"],
    ["auditor", "/batches/detail", "GET"], ["auditor", "/predictions/recent", "GET"],
    ["auditor", "/predictions/batch", "GET"], ["auditor", "/audit", "GET"]]

theorem universalNewlines_eq_self {cs : List Char} (h : '\r' ∉ cs) : universalNewlines cs = cs := by
  induction cs with
  | nil => rfl
  | cons c cs ih =>
    obtain ⟨hc, hcs⟩ := not_or.mp (mt List.mem_cons.mpr h)
    rw [universalNewlines, ih hcs]
    · exact fun _ hc' _ => hc hc'.symm
    · exact fun hc' => hc hc'.symm

theorem policyLines_plain : ∀ line ∈ policyLines, '\n' ∉ line.toList ∧ '\r' ∉ line.toList := by
  decide +kernel

theorem fileLines_policyCsv : fileLines policyCsv = policyLines.map String.toList := by
  have hplain : ∀ l ∈ policyLines.map String.toList, '\n' ∉ l ∧ '\r' ∉ l := by
    intro l hl
    obtain ⟨line, hline, rfl⟩ := List.mem_map.mp hl
    exact policyLines_plain line hline
  have htoList : policyCsv.toList = ['\n'].intercalate (policyLines.map String.toList) :=
    String.toList_intercalate
  have hcr : '\r' ∉ policyCsv.toList := by
    rw [htoList]
    intro h
    rcases mem_intercalate h with h | ⟨l, hl, h⟩
    · exact absurd h (by decide)
    · exact (hplain l hl).2 h
  rw [fileLines, universalNewlines_eq_self hcr, htoList]
  exact List.splitOn_intercalate _ (fun l hl => (hplain l hl).1) (by simp [policyLines])

theorem policyRules_policyCsv : policyRules policyCsv = shippedRules := by
  rw [policyRules, fileLines_policyCsv]
  decide +kernel

/-! ## What it allows -/

section
variable {rules : List Rule} {sub obj act : String}

theorem enforce_policyOf :
    (policyOf rules).enforce sub obj act = true ↔ [sub, obj, act] ∈ rules := by
  rw [Policy.enforce, decide_eq_true_eq, policyOf, List.mem_filterMap]
  constructor
  · rintro ⟨rule, hrule, hmatch⟩
    split at hmatch
    · cases hmatch
      exact hrule
    · cases hmatch
  · exact fun h => ⟨_, h, rfl⟩

/-- The policy that an API process works with after some boots. -/
def bootedPolicy (table : List Rule) : Policy := policyOf (created policyCsv table).loaded

variable {boots : List Boot} {table : List Rule}

theorem bootedPolicy_enforce
    (h : Run (Meeting (SeedsWhole policyCsv) (Booted policyCsv)) [] boots table) :
    (bootedPolicy table).enforce sub obj act = true ↔ [sub, obj, act] ∈ shippedRules := by
  have hsame : SameRules policyCsv (created policyCsv table).loaded := by
    refine sameRules_created (h.inv (I := fun t => t = [] ∨ SameRules policyCsv t) ?_ (.inl rfl))
    exact fun _ _ _ H hs => sameRules_step H hs.1 hs.2
  rw [bootedPolicy, enforce_policyOf, hsame, policyRules_policyCsv]

/-- The policy and the services let the same roles through. -/
theorem shipped_roles (role : Role) (m : Mutation) :
    [role.value, m.object, m.action] ∈ shippedRules ↔ role ∈ m.roles := by
  cases m with
  | createUser | changeRole | deleteUser | relabelPrediction =>
    cases role <;> simp [shippedRules, Role.value, Mutation.object, Mutation.action, Mutation.roles]

/-- Auditors may not write at all. -/
theorem shipped_auditor (s : Submission) :
    [Role.auditor.value, s.object, s.action] ∉ shippedRules := by
  cases s with
  | upload => simp [shippedRules, Role.value, Submission.object, Submission.action]
  | mutation m hashPassword =>
    intro h
    have hrole := (shipped_roles .auditor m).mp h
    cases m <;> simp [Mutation.roles] at hrole

end

/-- After boots of which none was killed in the middle of the seeding, the policy lets a role
through to a mutating route if and only if the service does, and in no interleaving does a request
by an auditor, or by somebody who is not active, commit anything: all that commits are calls of
workers. -/
theorem shipped_policy_rights {boots : List Boot} {table : List Rule}
    (hboots : Run (Meeting (SeedsWhole policyCsv) (Booted policyCsv)) [] boots table) :
    (∀ (role : Role) (m : Mutation),
      (bootedPolicy table).enforce role.value m.object m.action = true ↔ role ∈ m.roles) ∧
    ∀ {ι : Type} [DecidableEq ι] (parties : ι → Party × Gen) {t : Tables}
      {es : List (Event ι Exn)} {s : CallSys ι},
      (∀ i userId sub, (parties i).1 = .request userId sub → ∀ u, t.users.find? userId = some u →
        u.isActive = true → u.role = .auditor) →
      Run (Steps (partyStep (bootedPolicy table) parties)) (Sys.start t) es s →
      s.server.db.users = t.users ∧
        ∀ c ∈ partyCommits (bootedPolicy table) parties t es,
          ∃ call h, (parties c.1).1 = .worker call h := by
  refine ⟨fun role m => (bootedPolicy_enforce hboots).trans (shipped_roles role m), ?_⟩
  intro ι _ parties t es s haud h
  have hno : ∀ i, (parties i).1.NoAdmin t.users := by
    intro i
    cases hp : (parties i).1 with
    | worker => trivial
    | request userId sub =>
      intro _ u hu hactive
      rw [haud i userId sub hp u hu hactive]
      decide
  obtain ⟨v, hv, husers, hrun, -⟩ := run_of_parties (bootedPolicy table) parties hno h
  refine ⟨hv ▸ husers, fun c hc => ?_⟩
  obtain ⟨v₁, v₂, t', hlands, -⟩ := hrun.of_mem hc
  cases hp : (parties c.1).1 with
  | worker call hcall => exact ⟨call, hcall, rfl⟩
  | request userId sub =>
    rw [hp] at hlands
    obtain ⟨u, hu, hactive, -, hallowed, -⟩ := hlands
    rw [haud c.1 userId sub hp u hu hactive, bootedPolicy_enforce hboots] at hallowed
    exact absurd hallowed (shipped_auditor sub)

def onlyEve : Tables :=
  { users := ⟨[⟨"eve", "eve@x", "", .auditor, true, 0⟩], List.nodup_singleton "eve"⟩ }

/-- Eve uploads a file while the watcher creates a batch. -/
def auditorUploads : Bool → Party × Gen
  | false => (.request "eve" (.upload 1), ⟨"e", 1, by decide⟩)
  | true => (.worker (.createBatch (some { id := "c", fileCount := 1 }) none) rfl, .noId 2)

theorem shipped_policy_rights_auditorUploads : ∃ table es s,
    Run (Steps (partyStep (bootedPolicy table) auditorUploads)) (Sys.start onlyEve) es s ∧
      s.server.db.users = onlyEve.users ∧
      ∀ c ∈ partyCommits (bootedPolicy table) auditorUploads onlyEve es,
        ∃ call h, (auditorUploads c.1).1 = .worker call h := by
  have hboots : Run (Meeting (SeedsWhole policyCsv) (Booted policyCsv)) [] [.returns]
      (bootTable policyCsv [] .returns) := .single ⟨rfl, nofun⟩
  have h : (exec (partyStep (bootedPolicy (bootTable policyCsv [] .returns)) auditorUploads)
      (Sys.start onlyEve) (.begin false :: .begin true :: .stmt false ::
        .replicate 3 (.stmt true))).isSome := by decide
  obtain ⟨s, hs⟩ := Option.isSome_iff_exists.mp h
  have hrun := exec_eq_some.mp hs
  have haud : ∀ i userId sub, (auditorUploads i).1 = .request userId sub → ∀ u,
      onlyEve.users.find? userId = some u → u.isActive = true → u.role = .auditor := by
    intro i userId sub hi u hu _
    obtain rfl := List.mem_singleton.mp (Table.find?_mem hu)
    rfl
  exact ⟨_, _, s, hrun, (shipped_policy_rights hboots).2 auditorUploads haud hrun⟩

end DocClassifier
