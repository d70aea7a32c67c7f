import DocClassifier.ActiveAdmins
import DocClassifier.CommitOrder
import DocClassifier.MutatingRoutes

/-!
# The rights of requests that run at the same time

A request that writes reads the user of its token, asks the policy and calls a service method, in a
database that other requests and the workers write at the same time. No interleaving gives a request
more than the role of its user allows, and users who are not admins cannot become admins by any
number of requests (`requests_by_right`).
-/

namespace DocClassifier
open ReadCommitted Transition

namespace Mutation

/-- The object that the route asks the policy for. -/
def object : Mutation → String
  | createUser _ => "/users"
  | changeRole .. => "/users/role"
  | deleteUser _ => "/users/delete"
  | relabelPrediction .. => "/predictions/relabel"

def action : Mutation → String
  | createUser _ => "POST"
  | changeRole .. => "PATCH"
  | deleteUser _ => "DELETE"
  | relabelPrediction .. => "PATCH"

/-- The roles that the service method lets through. -/
def roles : Mutation → List Role
  | relabelPrediction .. => [.admin, .reviewer]
  | _ => [.admin]

def managesUsers : Mutation → Bool
  | relabelPrediction .. => false
  | _ => true

def call (hashPassword : String → String) (actor : User) : Mutation → Call
  | createUser data => .createUser hashPassword data actor
  | changeRole userId update => .changeRole userId update actor
  | deleteUser userId => .deleteUser userId actor
  | relabelPrediction predictionId update => .relabel predictionId update actor

/-- What fails for the path parameter of a request. -/
def fault : Mutation → Fault Exn
  | createUser _ => none
  | changeRole userId _ => textFault userId
  | deleteUser userId => textFault userId
  | relabelPrediction predictionId _ => textFault predictionId

end Mutation

/-- A request that writes: to a mutating route, or to `POST /upload/` with so many files. -/
inductive Submission where
  | mutation (m : Mutation) (hashPassword : String → String)
  | upload (fileCount : Nat)

namespace Submission

def object : Submission → String
  | mutation m _ => m.object
  | upload _ => "/upload"

def action : Submission → String
  | mutation m _ => m.action
  | upload _ => "POST"

/-- `create_batch` checks no role. -/
def roles : Submission → List Role
  | mutation m _ => m.roles
  | upload _ => [.admin, .reviewer, .auditor]

def managesUsers : Submission → Bool
  | mutation m _ => m.managesUsers
  | upload _ => false

def call (g : Gen) (actor : User) : Submission → Call
  | mutation m hashPassword => m.call hashPassword actor
  | upload fileCount => .createBatch (some { id := g.uuid, fileCount }) (some actor)

/-- The statements of a request with the token of the user `userId`; the emails of the rows are
accepted. -/
def block (policy : Policy) (g : Gen) (userId : String) (sub : Submission) : Block (List String) :=
  .select fun t => match currentDomainUser some t userId with
    | .error _ => .raise (.permissionDenied "Unauthorized")
    | .ok actor =>
      if policy.enforce actor.role.value sub.object sub.action then (sub.call g actor).block g
      else .raise (.permissionDenied "Forbidden")

end Submission

/-! ## The block of a request is what its route does -/

section
variable {α : Type} {t : Tables} {f : Fault Exn} {p : Block (Committed α)}
  {view : α → MutationView} {handle : Exn → ApiError}

theorem serviceCall_tables : (serviceCall view handle f t p).2 =
    ((p >>= fun c => pure c.deletes).run postgres t f []).2 := by
  rw [Tx.run_map]
  rcases hrun : p.run postgres t f [] with ⟨e | c, t'⟩
  · rw [serviceCall_error hrun]
  · rw [serviceCall_ok hrun]

theorem enforced_tables {permitted : Bool} {o : Outcome} {t' : Tables} (h : o.2 = t') :
    (if permitted then o else (.error forbidden, t)).2 = if permitted then t' else t := by
  cases permitted with
  | true => exact h
  | false => rfl

variable {w : AppData} {hashPassword : String → String} {g : Gen} {actor : User}

theorem Mutation.handle_tables (m : Mutation) :
    (m.handle w some (fun plain => .ok (hashPassword plain)) g actor).2 =
      if w.policy.enforce actor.role.value m.object m.action then
        (((m.call hashPassword actor).block g).run postgres w.tables m.fault []).2
      else w.tables := by
  cases m with
  | createUser | relabelPrediction => exact enforced_tables serviceCall_tables
  | changeRole userId update =>
    rw [handle, Handlers.changeRole, Validated.UserService.changeRole_total]
    exact enforced_tables serviceCall_tables
  | deleteUser userId =>
    rw [handle, Handlers.deleteUser, Validated.UserService.deleteUser_total]
    exact enforced_tables serviceCall_tables

/-- The fault, seen from a statement before. -/
def later (f : Fault Exn) : Fault Exn := f.map fun f => (f.1 + 1, f.2)

theorem run_select_later {β : Type} {k : Tables → Block β} :
    (Tx.select k).run postgres t (later f) [] = (k t).run postgres t f [] := by
  rcases f with - | ⟨n, e⟩ <;> rfl

/-- Left alone, the statements of a request have the effect of its route. -/
theorem Submission.block_run (policy : Policy) (userId : String) (m : Mutation) :
    (((mutation m hashPassword).block policy g userId).run postgres t (later m.fault) []).2 =
      (m.respond ⟨t, policy⟩ some (fun plain => .ok (hashPassword plain)) g userId).2 := by
  rw [block, run_select_later, Mutation.respond]
  cases currentDomainUser some t userId with
  | error e => simp
  | ok actor =>
    simp only [m.handle_tables]
    cases hp : policy.enforce actor.role.value m.object m.action with
    | true => simp [object, action, call, hp]
    | false => simp [object, action, hp]

end

/-! ## Parties -/

/-- The calls of the watcher and of the inference worker, which have no user. -/
def Call.unattended : Call → Bool
  | .createBatch _ none | .markProcessing _ | .markDone _ | .markFailed _ | .savePrediction .. =>
    true
  | _ => false

/-- Who writes: a request with the token of a user, or a call without one. -/
inductive Party where
  | request (userId : String) (sub : Submission)
  | worker (c : Call) (h : c.unattended = true)

def Party.block (policy : Policy) (g : Gen) : Party → Block (List String)
  | request userId sub => sub.block policy g userId
  | worker c _ => c.block g

/-- The party commits on `v.db`. A request does so with the rights that its user has in `users`. -/
def Party.Lands (policy : Policy) (users : Table String UserORM (·.id)) (g : Gen)
    (v : Timeline Tables) (keys : List String) (t' : Tables) : Party → Prop
  | request userId sub => ∃ u, users.find? userId = some u ∧ u.isActive = true ∧
    u.role ∈ sub.roles ∧ policy.enforce u.role.value sub.object sub.action = true ∧
    (sub.call g u.toUser).Lands g v keys t'
  | worker c _ => c.Lands g v keys t'

/-- None of the requests that manage users is made by an active admin. -/
def Party.NoAdmin (users : Table String UserORM (·.id)) : Party → Prop
  | request userId sub => sub.managesUsers = true → ∀ u, users.find? userId = some u →
    u.isActive = true → u.role ≠ .admin
  | worker .. => True

/-! ## Outlines -/

/-- What every commit keeps to when no admin manages users. -/
def KeepsUsers (t : Tables) (ws : List Stmt) : Prop :=
  Keeps t ws ∧ (postgres.view t ws).users = t.users

section
variable {g : Gen} {t t' : Tables} {v : Timeline Tables} {c : Call} {keys : List String}
  {policy : Policy} {userId : String} {sub : Submission} {actor : User}
  {users : Table String UserORM (·.id)}

theorem currentDomainUser_accepted (h : currentDomainUser some t userId = .ok actor) :
    ∃ u, t.users.find? userId = some u ∧ u.isActive = true ∧ actor = u.toUser := by
  obtain ⟨u, email, hu, hactive, hemail, rfl⟩ := currentDomainUser_ok h
  cases hemail
  exact ⟨u, hu, hactive, rfl⟩

/-- The calls that do not manage users leave their table alone. -/
theorem Call.Lands.users_eq (h : c.Lands g v keys t') (hc : c.userActor? = none) :
    t'.users = v.db.users := by
  cases h with
  | createUser | changeRole | deleteUser => cases hc
  | createBatch | transition | savePrediction | relabel => rfl

theorem Call.userActor?_of_unattended (h : c.unattended = true) : c.userActor? = none := by
  cases c with
  | createUser | changeRole | deleteUser => cases h
  | _ => rfl

theorem Submission.userActor? (h : sub.managesUsers = false) :
    (sub.call g actor).userActor? = none := by
  cases sub with
  | upload => rfl
  | mutation m hashPassword =>
    cases m with
    | relabelPrediction => rfl
    | createUser | changeRole | deleteUser => cases h

/-- A service method that has returned has let the role of its actor through. -/
theorem Submission.role_of_lands (h : (sub.call g actor).Lands g v keys t') :
    actor.role ∈ sub.roles := by
  cases sub with
  | upload =>
    rw [roles]
    cases actor.role <;> simp
  | mutation m hashPassword =>
    cases m with
    | createUser | changeRole | deleteUser =>
      cases h with
      | transition htr => cases htr
      | _ => exact List.mem_singleton.mpr ‹_›
    | relabelPrediction =>
      cases h with
      | transition htr => cases htr
      | relabel hr => exact hr

/-- The service refuses to let others than admins manage users. -/
theorem Submission.call_denied (h : sub.managesUsers = true) (hr : actor.role ≠ .admin) :
    ∃ e, (sub.call g actor).block g = .raise e := by
  cases sub with
  | upload => cases h
  | mutation m hashPassword =>
    cases m with
    | relabelPrediction => cases h
    | createUser =>
      simp only [call, Mutation.call, Call.block]
      rw [UserService.createUser_eq, if_pos hr]
      exact ⟨_, rfl⟩
    | changeRole =>
      simp only [call, Mutation.call, Call.block]
      rw [UserService.changeRole_eq, if_pos hr]
      exact ⟨_, rfl⟩
    | deleteUser =>
      simp only [call, Mutation.call, Call.block]
      rw [UserService.deleteUser_eq, if_pos hr]
      exact ⟨_, rfl⟩

theorem outline_worker (h : c.unattended = true) : (c.block g).Outline postgres KeepsUsers
    (fun v ws keys => c.Lands g v keys (postgres.view v.db ws)) [] fun v => v.db.users = users := by
  refine (c.outline g).consequence (fun _ _ => trivial) (fun _ _ h => h.1) ?_
  exact fun v ws keys hkeeps hlands =>
    ⟨⟨hkeeps, hlands.users_eq (Call.userActor?_of_unattended h)⟩, hlands⟩

theorem outline_request (hno : (Party.request userId sub).NoAdmin users) :
    (sub.block policy g userId).Outline postgres KeepsUsers
      (fun v ws keys =>
        (Party.request userId sub).Lands policy users g v keys (postgres.view v.db ws))
      [] fun v => v.db.users = users := by
  -- The user is read now; the rest of the request relies on nothing else.
  refine .learn (ψ := fun _ _ => True) (fun _ => .const True) (fun _ _ => trivial) fun v ht => ?_
  rw [Backend.view_nil]
  split
  · trivial
  · rename_i actor hactor
    obtain ⟨u, hu, hactive, rfl⟩ := currentDomainUser_accepted hactor
    rw [ht] at hu
    split
    · rename_i hallowed
      cases hm : sub.managesUsers with
      | true =>
        have hr : u.toUser.role ≠ .admin := hno hm u hu hactive
        obtain ⟨e, he⟩ := sub.call_denied (g := g) hm hr
        rw [he]
        trivial
      | false =>
        refine ((sub.call g u.toUser).outline g).consequence (fun _ _ => trivial)
          (fun _ _ h => h.1) fun v ws keys hkeeps hlands => ?_
        exact ⟨⟨hkeeps, hlands.users_eq (Submission.userActor? hm)⟩, u, hu, hactive,
          Submission.role_of_lands hlands, hallowed, hlands⟩
    · trivial

end

/-! ## The system -/

section
variable {ι : Type} [DecidableEq ι]

def partyStep (policy : Policy) (parties : ι → Party × Gen) :
    CallSys ι → Event ι Exn → Option (CallSys ι) :=
  Sys.step postgres fun i => (parties i).1.block policy (parties i).2

/-- The parties that commit, in the order of their commits. -/
def partyCommits (policy : Policy) (parties : ι → Party × Gen) (t : Tables)
    (es : List (Event ι Exn)) : List (ι × List String) :=
  (Sys.start t).commits postgres (fun i => (parties i).1.block policy (parties i).2) es

/-- One of the parties commits. -/
def PartyLands (policy : Policy) (parties : ι → Party × Gen)
    (users : Table String UserORM (·.id)) (v : Timeline Tables) (c : ι × List String)
    (v' : Timeline Tables) : Prop :=
  ∃ t, (parties c.1).1.Lands policy users (parties c.1).2 v c.2 t ∧ v' = v.commit t

omit [DecidableEq ι] in
theorem outline_party (policy : Policy) (parties : ι → Party × Gen)
    {users : Table String UserORM (·.id)} (hno : ∀ i, (parties i).1.NoAdmin users) (i : ι) :
    ((parties i).1.block policy (parties i).2).Outline postgres KeepsUsers
      (fun v ws keys => (parties i).1.Lands policy users (parties i).2 v keys
        (postgres.view v.db ws)) [] fun v => v.db.users = users := by
  have hi := hno i
  cases hp : (parties i).1 with
  | request userId sub => exact outline_request (hp ▸ hi)
  | worker c hc => exact outline_worker hc

theorem run_of_parties (policy : Policy) (parties : ι → Party × Gen) {t : Tables}
    {es : List (Event ι Exn)} {s : CallSys ι} (hno : ∀ i, (parties i).1.NoAdmin t.users)
    (h : Run (Steps (partyStep policy parties)) (Sys.start t) es s) :
    ∃ v, v.db = s.server.db ∧ v.db.users = t.users ∧
      Run (PartyLands policy parties t.users) ⟨t, []⟩ (partyCommits policy parties t es) v ∧
      s.Recorded (partyCommits policy parties t es) := by
  obtain ⟨v, H, hrun, R⟩ := Sys.refines (I := fun v => v.db.users = t.users)
    (fun _ _ hG hu => hG.2.trans hu) (outline_party policy parties hno) h rfl
  refine ⟨v, H.db, H.inv, hrun.mono ?_, R⟩
  rintro u ⟨i, keys⟩ _ ⟨ws, hlands, rfl⟩
  exact ⟨_, hlands, rfl⟩

/-- When no user who is an active admin manages users, no interleaving of requests and workers
changes the table of the users, so nobody gains a role, and what a request commits is what the role
of its user allows, by the policy and by the service. -/
theorem requests_by_right (policy : Policy) (parties : ι → Party × Gen) {t : Tables}
    {es : List (Event ι Exn)} {s : CallSys ι} (hno : ∀ i, (parties i).1.NoAdmin t.users)
    (h : Run (Steps (partyStep policy parties)) (Sys.start t) es s) :
    s.server.db.users = t.users ∧
      (∃ v, v.db = s.server.db ∧ Run (PartyLands policy parties t.users) ⟨t, []⟩
        (partyCommits policy parties t es) v) ∧
      ∀ i keys, (i, keys) ∈ partyCommits policy parties t es ↔ s.session i = .done (.ok keys) := by
  obtain ⟨v, hv, husers, hrun, R⟩ := run_of_parties policy parties hno h
  exact ⟨hv ▸ husers, ⟨v, hv, hrun⟩, R.mem⟩

/-- Bob, a reviewer, relabels the letter and asks to become an admin. -/
def ambitiousReviewer : Bool → Party × Gen
  | false => (.request "bob" (.mutation (.changeRole "bob" ⟨.admin⟩) id), .noId 1)
  | true => (.request "bob" (.mutation (.relabelPrediction "p" ⟨"budget", by decide⟩) id), .noId 2)

/-- The policy allows both. -/
def permissive : Policy :=
  [("reviewer", "/users/role", "PATCH"), ("reviewer", "/predictions/relabel", "PATCH")]

theorem requests_by_right_ambitiousReviewer : ∃ es s,
    Run (Steps (partyStep permissive ambitiousReviewer)) (Sys.start letterReviewed) es s ∧
      s.server.db.users = letterReviewed.users ∧ s.server.db.auditLogs.length = 1 := by
  have h : ((exec (partyStep permissive ambitiousReviewer) (Sys.start letterReviewed)
      (.begin false :: .begin true :: .replicate 2 (.stmt false) ++ .replicate 5 (.stmt true))).map
        fun s => s.server.db.auditLogs.length) = some 1 := by decide +kernel
  obtain ⟨s, hs, hlog⟩ := Option.map_eq_some_iff.mp h
  have hrun := exec_eq_some.mp hs
  have hno : ∀ i, (ambitiousReviewer i).1.NoAdmin letterReviewed.users := by
    intro i
    cases i with
    | false =>
      intro _ u hu _
      cases hu
      decide
    | true =>
      intro hmanages
      cases hmanages
  exact ⟨_, s, hrun, (requests_by_right permissive ambitiousReviewer hno hrun).1, hlog⟩

end

end DocClassifier
