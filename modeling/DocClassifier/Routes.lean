import DocClassifier.Ingest
import DocClassifier.Queries
import DocClassifier.Lib.CacheAside

/-!
# The cached routes

The GET routes of `app/api/routers` that are decorated with `@cache`, with their key builders, the
checks that run before the cache is consulted and the handlers. A policy is the table of allow rules
of Casbin, whose matcher compares the role, the object and the action for equality.
-/

namespace DocClassifier
open ReadCommitted

/-- The rules `p, sub, obj, act`. -/
abbrev Policy := List (String × String × String)

def Policy.enforce (p : Policy) (sub obj act : String) : Bool := (sub, obj, act) ∈ p

/-- `Query(ge=1, le=max)`. -/
def Limit (max : Nat) := { n : Nat // 1 ≤ n ∧ n ≤ max }

instance (max : Nat) : DecidableEq (Limit max) :=
  inferInstanceAs (DecidableEq { n : Nat // 1 ≤ n ∧ n ≤ max })

/-- A cached route with its parameters. -/
inductive Route where
  | getMe
  | listUsers (skip : Nat) (limit : Limit 200)
  | listBatches (skip : Nat) (limit : Limit 200)
  | getBatch (batchId : String)
  | recentPredictions (limit : Limit 100)
  | predictionsForBatch (batchId : String)
  deriving DecidableEq

/-- A request by an authenticated user. -/
structure Request where
  route : Route
  actor : User

/-- The bodies of the responses. -/
inductive View where
  | user (u : User)
  | users (us : List User)
  | batch (b : Batch)
  | batches (bs : List Batch)
  | predictions (ps : List Prediction)
  deriving DecidableEq

inductive ApiError where
  | http (e : HTTPException)
  /-- An exception that the route does not handle. -/
  | unhandled (e : Exn)
  deriving DecidableEq

def forbidden : ApiError := .http { statusCode := 403, detail := "Forbidden" }

/-- What the routes are served from. -/
structure AppData where
  tables : Tables
  policy : Policy

namespace Request

/-- `key_builder`. -/
def key (r : Request) : String :=
  match r.route with
  | .getMe => userMeKey r.actor.id
  | .listUsers .. => USERS_LIST_KEY
  | .listBatches .. => BATCHES_LIST_KEY
  | .getBatch batchId => batchKey batchId
  | .recentPredictions _ => PREDICTIONS_RECENT_KEY
  | .predictionsForBatch batchId => predictionsBatchKey batchId

/-- The object that the policy protects the route as. -/
def object? (r : Request) : Option String :=
  match r.route with
  | .getMe => none
  | .listUsers .. => some "/users"
  | .listBatches .. => some "/batches"
  | .getBatch _ => some "/batches/detail"
  | .recentPredictions _ => some "/predictions/recent"
  | .predictionsForBatch _ => some "/predictions/batch"

/-- `enforcer.enforce(actor.role.value, obj, "GET")` for the object of the route. -/
def enforced (w : AppData) (r : Request) : Bool :=
  match r.object? with
  | none => true
  | some obj => w.policy.enforce r.actor.role.value obj "GET"

/-- `_guard_list_users`, the only check that runs before the cache is consulted. -/
def guard (w : AppData) (r : Request) : Option ApiError :=
  match r.route with
  | .listUsers .. => if r.enforced w then none else some forbidden
  | _ => none

end Request

/-- The response to what a service method answers. -/
def respondTo {α : Type} (view : α → View) (handle : Exn → ApiError) (t : Tables) (p : Block α) :
    Except ApiError View :=
  match (p.run postgres t none []).1 with
  | .ok a => .ok (view a)
  | .error e => .error (handle e)

namespace Handlers

def getMe (w : AppData) (user : User) : Except ApiError View :=
  respondTo .user .unhandled w.tables (UserService.getMe user.id)

def listUsers (w : AppData) (skip : Nat) (limit : Limit 200) (actor : User) :
    Except ApiError View :=
  respondTo .users
    (fun e => match e with
      | .permissionDenied _ => forbidden
      | e => .unhandled e)
    w.tables (UserService.listUsers actor skip limit.1)

def listBatches (w : AppData) (skip : Nat) (limit : Limit 200) (actor : User) :
    Except ApiError View :=
  if w.policy.enforce actor.role.value "/batches" "GET" then
    respondTo .batches .unhandled w.tables (BatchService.listBatches skip limit.1)
  else .error forbidden

def getBatch (w : AppData) (batchId : String) (actor : User) : Except ApiError View :=
  if w.policy.enforce actor.role.value "/batches/detail" "GET" then
    respondTo .batch
      (fun e => match e with
        | .notFound _ => .http { statusCode := 404, detail := "Batch not found" }
        | e => .unhandled e)
      w.tables (BatchService.getBatch batchId)
  else .error forbidden

def recentPredictions (w : AppData) (limit : Limit 100) (actor : User) : Except ApiError View :=
  if w.policy.enforce actor.role.value "/predictions/recent" "GET" then
    respondTo .predictions .unhandled w.tables (PredictionService.getRecentPredictions limit.1)
  else .error forbidden

def predictionsForBatch (w : AppData) (batchId : String) (actor : User) : Except ApiError View :=
  if w.policy.enforce actor.role.value "/predictions/batch" "GET" then
    respondTo .predictions .unhandled w.tables (PredictionService.getPredictionsForBatch batchId)
  else .error forbidden

end Handlers

/-- What the decorated function answers. -/
def Request.handle (w : AppData) (r : Request) : Except ApiError View :=
  match r.route with
  | .getMe => Handlers.getMe w r.actor
  | .listUsers skip limit => Handlers.listUsers w skip limit r.actor
  | .listBatches skip limit => Handlers.listBatches w skip limit r.actor
  | .getBatch batchId => Handlers.getBatch w batchId r.actor
  | .recentPredictions limit => Handlers.recentPredictions w limit r.actor
  | .predictionsForBatch batchId => Handlers.predictionsForBatch w batchId r.actor

/-! ## The data of a response -/

/-- The data that a route delivers to those it answers. -/
def Route.data (t : Tables) (userId : String) : Route → Option View
  | .getMe => (t.users.find? userId).map fun u => .user u.toUser
  | .listUsers skip limit =>
    some (.users ((((orderByCreatedAtDesc (·.createdAt) t.users.rows).drop skip).take limit.1).map
      (·.toUser)))
  | .listBatches skip limit =>
    some (.batches (((orderByCreatedAtDesc (·.createdAt) t.batches.rows).drop skip).take limit.1))
  | .getBatch batchId => (t.batches.find? batchId).map .batch
  | .recentPredictions limit =>
    some (.predictions ((orderByCreatedAtDesc (·.createdAt) t.predictions.rows).take limit.1))
  | .predictionsForBatch batchId =>
    some (.predictions (orderByCreatedAtDesc (·.createdAt)
      (t.predictions.rows.filter (·.batchId = batchId))))

/-- Who the handler answers: `list_users` leaves it to the service. -/
def Request.allowed (w : AppData) (r : Request) : Bool :=
  match r.route with
  | .listUsers .. => r.actor.role = .admin
  | _ => r.enforced w

section
variable {w : AppData} {r : Request} {v : View}

theorem respondTo_selectOr {α : Type} {view : α → View} {handle : Exn → ApiError} {t : Tables}
    {e : Exn} {q : Tables → Option α} : respondTo view handle t (selectOr e q) = .ok v ↔
      (q t).map view = some v := by
  rw [respondTo, selectOr_run]
  cases q t <;> simp

theorem respondTo_query {α : Type} {view : α → View} {handle : Exn → ApiError} {t : Tables}
    {q : Tables → α} : respondTo view handle t (Tx.query q) = .ok (view (q t)) := rfl

theorem Handlers.listUsers_ok {skip : Nat} {limit : Limit 200} {actor : User} :
    listUsers w skip limit actor = .ok v ↔
      actor.role = .admin ∧ (Route.listUsers skip limit).data w.tables actor.id = some v := by
  rw [listUsers, UserService.listUsers]
  split
  · rename_i hr
    simp only [respondTo, Tx.run_raise, reduceCtorEq, false_iff, not_and]
    exact fun h => absurd h hr
  · rename_i hr
    rw [UserRepo.listAll, respondTo_query, and_iff_right (not_not.mp hr), Route.data]
    simp

/-- A handler answers with data those whom it allows, if there are any. -/
theorem Request.handle_ok : r.handle w = .ok v ↔
    r.allowed w = true ∧ r.route.data w.tables r.actor.id = some v := by
  obtain ⟨route, actor⟩ := r
  cases route with
  | getMe =>
    rw [handle, Handlers.getMe, UserService.getMe_eq, respondTo_selectOr, Option.map_map]
    exact (and_iff_right rfl).symm
  | listUsers skip limit =>
    rw [handle, Handlers.listUsers_ok, allowed, decide_eq_true_eq]
  | listBatches skip limit =>
    dsimp only [handle, Handlers.listBatches, allowed, enforced, object?, Route.data]
    split <;> simp [*, BatchService.listBatches, BatchRepo.list, respondTo_query]
  | getBatch batchId =>
    dsimp only [handle, Handlers.getBatch, allowed, enforced, object?, Route.data]
    rw [BatchService.getBatch_eq]
    split <;> simp [*, respondTo_selectOr]
  | recentPredictions limit =>
    dsimp only [handle, Handlers.recentPredictions, allowed, enforced, object?, Route.data]
    split <;> simp [*, PredictionService.getRecentPredictions, PredictionRepo.getRecent,
      respondTo_query]
  | predictionsForBatch batchId =>
    dsimp only [handle, Handlers.predictionsForBatch, allowed, enforced, object?, Route.data]
    split <;> simp [*, PredictionService.getPredictionsForBatch, PredictionRepo.getByBatchId,
      respondTo_query]

end

/-! ## Key families -/

/-- The text that the keys of a route start with. -/
def Route.family : Route → String
  | .getMe => "user:me:"
  | .listUsers .. => "users:list"
  | .listBatches .. => "batches:list"
  | .getBatch _ => "batch:"
  | .recentPredictions _ => "predictions:recent"
  | .predictionsForBatch _ => "predictions:batch:"

def families : List String :=
  ["user:me:", "users:list", "batches:list", "batch:", "predictions:recent", "predictions:batch:"]

namespace Request

/-- The id that the path of a request names. -/
def pathId (r : Request) : String :=
  match r.route with
  | .getMe => r.actor.id
  | .getBatch batchId | .predictionsForBatch batchId => batchId
  | _ => ""

theorem key_eq (r : Request) : r.key = r.route.family ++ r.pathId := by
  obtain ⟨route, actor⟩ := r
  cases route <;> rfl

theorem family_mem (route : Route) : route.family ∈ families := by
  cases route <;> simp [Route.family, families]

/-- No family starts with another one. -/
theorem families_apart : ∀ p ∈ families, ∀ q ∈ families, p.toList <+: q.toList → p = q := by
  decide

/-- Requests that differ in nothing but the query parameters and who makes them. -/
def SamePath (r r' : Request) : Prop := r.route.family = r'.route.family ∧ r.pathId = r'.pathId

/-- The key families never collide. -/
theorem samePath_of_key {r r' : Request} (h : r.key = r'.key) : r.SamePath r' := by
  have hchars : r.route.family.toList ++ r.pathId.toList =
      r'.route.family.toList ++ r'.pathId.toList := by
    rw [← String.toList_append, ← String.toList_append, ← key_eq, ← key_eq, h]
  have hfamily : r.route.family = r'.route.family := by
    rcases List.prefix_or_prefix_of_prefix (List.prefix_append _ _)
      (hchars ▸ List.prefix_append _ _) with hp | hp
    · exact (families_apart _ (family_mem _) _ (family_mem _) hp).symm
    · exact families_apart _ (family_mem _) _ (family_mem _) hp
  refine ⟨hfamily, ?_⟩
  rw [hfamily] at hchars
  exact String.toList_inj.mp (List.append_cancel_left hchars)

theorem SamePath.key {r r' : Request} (h : r.SamePath r') : r.key = r'.key := by
  rw [key_eq, key_eq, h.1, h.2]

theorem SamePath.getBatch {r : Request} {batchId : String} {actor : User}
    (h : r.SamePath ⟨.getBatch batchId, actor⟩) : r.route = .getBatch batchId := by
  obtain ⟨route, actor'⟩ := r
  obtain ⟨hfamily, hid⟩ := h
  cases route with
  | getBatch batchId' => exact congrArg Route.getBatch hid
  | _ => exact absurd hfamily (by simp [Route.family])

end Request

end DocClassifier
