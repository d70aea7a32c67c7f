import DocClassifier.ServiceAnswers
import DocClassifier.Rollback
import DocClassifier.Routes

/-!
# The mutating routes

`create_user`, `change_role` and `delete_user` of `app/api/routers/users.py` and
`relabel_prediction` of `app/api/routers/predictions.py`, with working services. A request is made
by a verified token, which names a user; each route has its own `except` list. What escapes the
lists is what PostgreSQL raises (a unique constraint, or a text that it cannot hold), the email of
a row that `User` refuses, and what `hash_password` raises.
-/

namespace DocClassifier
open ReadCommitted

inductive Mutation where
  | createUser (data : UserCreate)
  | changeRole (userId : String) (update : UserRoleUpdate)
  | deleteUser (userId : String)
  | relabelPrediction (predictionId : String) (update : PredictionRelabel)

/-- The bodies of the responses. -/
inductive MutationView where
  | user (u : User)
  /-- `Response(status_code=204)`. -/
  | noContent
  | prediction (p : Prediction)
  deriving DecidableEq

/-- What a route returns or raises, and the tables afterwards. -/
abbrev Outcome := Except ApiError MutationView × Tables

/-- A `text` of PostgreSQL has no NUL character: the first statement that carries one fails. -/
def textFault (param : String) : Fault Exn :=
  if '\x00' ∈ param.toList then
    some (0, .infrastructure "invalid byte sequence for encoding \"UTF8\": 0x00")
  else none

/-- A service call and what its route makes of it: the transaction, the deletions with a working
Redis, and the `except` list. -/
def serviceCall {α : Type} (view : α → MutationView) (handle : Exn → ApiError) (f : Fault Exn)
    (t : Tables) (p : Block (Committed α)) : Outcome :=
  match p.run postgres t f [] with
  | (.error e, t') => (.error (handle e), t')
  | (.ok c, t') => match deleteKeys none c.deletes with
    | .error e => (.error (handle e), t')
    | .ok _ => (.ok (view c.result), t')

namespace Handlers

def createUser (w : AppData) (emailStr : String → Option String)
    (hashPassword : String → Except String String) (g : Gen) (data : UserCreate)
    (actor : User) : Outcome :=
  if w.policy.enforce actor.role.value "/users" "POST" then
    serviceCall .user
      (fun e => match e with
        | .permissionDenied _ => forbidden
        | e => .unhandled e)
      none w.tables (Validated.UserService.createUser emailStr hashPassword g data actor)
  else (.error forbidden, w.tables)

def changeRole (w : AppData) (emailStr : String → Option String) (g : Gen) (userId : String)
    (update : UserRoleUpdate) (actor : User) : Outcome :=
  if w.policy.enforce actor.role.value "/users/role" "PATCH" then
    serviceCall .user
      (fun e => match e with
        | .permissionDenied _ => forbidden
        | .notFound _ => .http { statusCode := 404, detail := "User not found" }
        | .lastAdminError _ => .http { statusCode := 400, detail := "Cannot demote the last admin" }
        | e => .unhandled e)
      (textFault userId) w.tables
      (Validated.UserService.changeRole emailStr g userId update actor)
  else (.error forbidden, w.tables)

/-- The messages of the service are passed on. -/
def deleteUser (w : AppData) (emailStr : String → Option String) (g : Gen) (userId : String)
    (actor : User) : Outcome :=
  if w.policy.enforce actor.role.value "/users/delete" "DELETE" then
    serviceCall (fun _ => .noContent)
      (fun e => match e with
        | .permissionDenied msg => .http { statusCode := 403, detail := msg }
        | .notFound _ => .http { statusCode := 404, detail := "User not found" }
        | .lastAdminError msg => .http { statusCode := 400, detail := msg }
        | e => .unhandled e)
      (textFault userId) w.tables (Validated.UserService.deleteUser emailStr g userId actor)
  else (.error forbidden, w.tables)

def relabelPrediction (w : AppData) (g : Gen) (predictionId : String) (update : PredictionRelabel)
    (actor : User) : Outcome :=
  if w.policy.enforce actor.role.value "/predictions/relabel" "PATCH" then
    serviceCall .prediction
      (fun e => match e with
        | .permissionDenied _ => forbidden
        | .relabelNotAllowed _ => .http
          { statusCode := 403, detail := "Reviewers may only relabel low-confidence predictions" }
        | .notFound _ => .http { statusCode := 404, detail := "Prediction not found" }
        | e => .unhandled e)
      (textFault predictionId) w.tables (PredictionService.relabel g predictionId update actor)
  else (.error forbidden, w.tables)

end Handlers

/-- `current_domain_user`, for the user that the token names. -/
def currentDomainUser (emailStr : String → Option String) (t : Tables) (userId : String) :
    Except ApiError User :=
  match t.users.find? userId with
  | none => .error (.http { statusCode := 401, detail := "Unauthorized" })
  | some u =>
    if u.isActive then (u.modelValidate emailStr).mapError .unhandled
    else .error (.http { statusCode := 401, detail := "Unauthorized" })

namespace Mutation

def handle (w : AppData) (emailStr : String → Option String)
    (hashPassword : String → Except String String) (g : Gen) (actor : User) : Mutation → Outcome
  | createUser data => Handlers.createUser w emailStr hashPassword g data actor
  | changeRole userId update => Handlers.changeRole w emailStr g userId update actor
  | deleteUser userId => Handlers.deleteUser w emailStr g userId actor
  | relabelPrediction predictionId update =>
    Handlers.relabelPrediction w g predictionId update actor

/-- A request with the token of the user `userId`. -/
def respond (w : AppData) (emailStr : String → Option String)
    (hashPassword : String → Except String String) (g : Gen) (userId : String)
    (m : Mutation) : Outcome :=
  match currentDomainUser emailStr w.tables userId with
  | .error e => (.error e, w.tables)
  | .ok actor => m.handle w emailStr hashPassword g actor

end Mutation

/-- The row of the user has an email that `User` refuses. -/
def Refused (emailStr : String → Option String) (t : Tables) (userId : String) : Prop :=
  ∃ u, t.users.find? userId = some u ∧ emailStr u.email = none

/-- The requests that reach an exception which their `except` list does not name. -/
def Mutation.Escapes (w : AppData) (emailStr : String → Option String)
    (hashPassword : String → Except String String) (g : Gen) (actor : User) : Mutation → Prop
  | createUser data => w.policy.enforce actor.role.value "/users" "POST" = true ∧
    actor.role = .admin ∧ ((∃ msg, hashPassword data.password = .error msg) ∨
      emailStr data.email = none ∨ UserService.Taken g data w.tables)
  | changeRole userId _ => w.policy.enforce actor.role.value "/users/role" "PATCH" = true ∧
    actor.role = .admin ∧ ('\x00' ∈ userId.toList ∨ Refused emailStr w.tables userId)
  | deleteUser userId => w.policy.enforce actor.role.value "/users/delete" "DELETE" = true ∧
    actor.role = .admin ∧ userId ≠ actor.id ∧
      ('\x00' ∈ userId.toList ∨ Refused emailStr w.tables userId)
  | relabelPrediction predictionId _ =>
    w.policy.enforce actor.role.value "/predictions/relabel" "PATCH" = true ∧
    actor.role ∈ [Role.admin, Role.reviewer] ∧ '\x00' ∈ predictionId.toList

/-- The token names an active user whose email `User` refuses. -/
def InvalidSession (emailStr : String → Option String) (t : Tables) (userId : String) : Prop :=
  ∃ u, t.users.find? userId = some u ∧ u.isActive = true ∧ emailStr u.email = none

/-- Success, or an `HTTPException` with a status 4xx. -/
def Translated (o : Outcome) : Prop :=
  ∀ e, o.1 = .error e → ∃ h, e = .http h ∧ 400 ≤ h.statusCode ∧ h.statusCode < 500

section
variable {t t' : Tables}

theorem translated_ok {v : MutationView} : Translated (.ok v, t) := by
  intro e h
  cases h

theorem translated_http {h : HTTPException} (h400 : 400 ≤ h.statusCode)
    (h500 : h.statusCode < 500) :
    Translated (.error (.http h), t) := by
  intro e he
  cases he
  exact ⟨h, rfl, h400, h500⟩

theorem translated_forbidden : Translated (.error forbidden, t) :=
  translated_http (by simp) (by simp)

theorem not_translated {e : Exn} : ¬ Translated (.error (.unhandled e), t) := by
  intro h
  obtain ⟨_, he, -⟩ := h _ rfl
  cases he

section
variable {α : Type} {view : α → MutationView} {handle : Exn → ApiError} {f : Fault Exn}
  {p : Block (Committed α)}

theorem serviceCall_error {e : Exn} (h : p.run postgres t f [] = (.error e, t')) :
    serviceCall view handle f t p = (.error (handle e), t') := by
  rw [serviceCall, h]

theorem serviceCall_ok {c : Committed α} (h : p.run postgres t f [] = (.ok c, t')) :
    serviceCall view handle f t p = (.ok (view c.result), t') := by
  rw [serviceCall, h]
  dsimp only
  rw [deleteKeys_none]

theorem translated_serviceCall_ok {c : Committed α} (h : (p.run postgres t f []).1 = .ok c) :
    Translated (serviceCall view handle f t p) := by
  rw [serviceCall_ok (Prod.ext h rfl)]
  exact translated_ok

/-- The `except` list names the exception that the call raises. -/
theorem translated_serviceCall_of {e : Exn} {h : HTTPException}
    (hrun : (p.run postgres t f []).1 = .error e) (he : handle e = .http h)
    (h400 : 400 ≤ h.statusCode) (h500 : h.statusCode < 500) :
    Translated (serviceCall view handle f t p) := by
  rw [serviceCall_error (Prod.ext hrun rfl), he]
  exact translated_http h400 h500

theorem not_translated_serviceCall {e e' : Exn} (hrun : (p.run postgres t f []).1 = .error e)
    (he : handle e = .unhandled e') : ¬ Translated (serviceCall view handle f t p) := by
  rw [serviceCall_error (Prod.ext hrun rfl), he]
  exact not_translated

/-- A call that raises is rolled back, and the deletions do not raise. -/
theorem serviceCall_unchanged {e : ApiError}
    (h : (serviceCall view handle f t p).1 = .error e) : (serviceCall view handle f t p).2 = t := by
  rcases p.run_cases f [] with ⟨e', hrun⟩ | ⟨ws, c, -, hrun⟩
  · rw [serviceCall_error hrun]
  · rw [serviceCall_ok hrun] at h
    cases h

end

theorem enforced_unchanged {permitted : Bool} {o : Outcome} {e : ApiError}
    (ho : o.1 = .error e → o.2 = t)
    (h : (if permitted then o else (.error forbidden, t)).1 = .error e) :
    (if permitted then o else (.error forbidden, t)).2 = t := by
  cases permitted with
  | true => exact ho h
  | false => rfl

/-- A check of the policy comes first. -/
theorem translated_enforced {permitted : Bool} {o : Outcome} {escapes : Prop}
    (h : Translated o ↔ ¬ escapes) :
    Translated (if permitted then o else (.error forbidden, t)) ↔
      ¬ (permitted = true ∧ escapes) := by
  cases permitted with
  | true =>
    rw [if_pos rfl, and_iff_right rfl]
    exact h
  | false => exact iff_of_true translated_forbidden fun h => by cases h.1

theorem textFault_of_mem {param : String} (h : '\x00' ∈ param.toList) : ∃ msg,
    textFault param = some (0, .infrastructure msg) :=
  ⟨_, if_pos h⟩

theorem textFault_of_not_mem {param : String} (h : '\x00' ∉ param.toList) :
    textFault param = none := if_neg h

end

/-! ## The routes one by one -/

section
variable {w : AppData} {emailStr : String → Option String}
  {hashPassword : String → Except String String} {g : Gen} {actor : User}

theorem Handlers.createUser_translated {data : UserCreate}
    (hactor : (w.tables.users.find? actor.id).isSome) :
    Translated (createUser w emailStr hashPassword g data actor) ↔
      ¬ (Mutation.createUser data).Escapes w emailStr hashPassword g actor := by
  rw [createUser, Mutation.Escapes]
  refine translated_enforced ?_
  have hanswer := Validated.UserService.createUser_answer emailStr hashPassword g data hactor
  generalize hrun : ((Validated.UserService.createUser emailStr hashPassword g data actor).run
    postgres w.tables none []).1 = r at hanswer
  cases hanswer with
  | denied hr =>
    exact iff_of_true (translated_serviceCall_of hrun rfl (by simp) (by simp)) fun h => hr h.1
  | notHashed hr hhash =>
    exact iff_of_false (not_translated_serviceCall hrun rfl) fun h => h ⟨hr, .inl ⟨_, hhash⟩⟩
  | invalid hr hemail =>
    exact iff_of_false (not_translated_serviceCall hrun rfl) fun h => h ⟨hr, .inr (.inl hemail)⟩
  | taken hr htaken =>
    exact iff_of_false (not_translated_serviceCall hrun rfl) fun h => h ⟨hr, .inr (.inr htaken)⟩
  | returns _ hhash hemail hfree =>
    refine iff_of_true (translated_serviceCall_ok hrun) fun ⟨_, h⟩ => ?_
    rcases h with ⟨msg, h⟩ | h | h
    · cases hhash.symm.trans h
    · cases hemail.symm.trans h
    · exact hfree h

theorem refused_iff {userId : String} {target : UserORM}
    (ht : w.tables.users.find? userId = some target) :
    Refused emailStr w.tables userId ↔ emailStr target.email = none := by
  constructor
  · rintro ⟨u, hu, h⟩
    cases ht.symm.trans hu
    exact h
  · exact fun h => ⟨target, ht, h⟩

theorem not_refused {userId : String} {target : UserORM}
    (ht : w.tables.users.find? userId = some target) (h : (emailStr target.email).isSome) :
    ¬ Refused emailStr w.tables userId := by
  intro hrefused
  rw [(refused_iff ht).mp hrefused] at h
  cases h

theorem Handlers.changeRole_translated {userId : String} {update : UserRoleUpdate}
    (hactor : (w.tables.users.find? actor.id).isSome) :
    Translated (changeRole w emailStr g userId update actor) ↔
      ¬ (Mutation.changeRole userId update).Escapes w emailStr hashPassword g actor := by
  rw [changeRole, Mutation.Escapes]
  refine translated_enforced ?_
  by_cases hnul : '\x00' ∈ userId.toList
  · obtain ⟨msg, hfault⟩ := textFault_of_mem hnul
    rw [hfault]
    by_cases hr : actor.role = .admin
    · rw [serviceCall_error (Validated.UserService.changeRole_fault hr _)]
      exact iff_of_false not_translated fun h => h ⟨hr, .inl hnul⟩
    · rw [serviceCall_error (Validated.UserService.changeRole_denied hr _)]
      exact iff_of_true translated_forbidden fun h => hr h.1
  rw [textFault_of_not_mem hnul, or_iff_right hnul]
  have hanswer := Validated.UserService.changeRole_answer emailStr g userId update hactor
  generalize hrun : ((Validated.UserService.changeRole emailStr g userId update actor).run
    postgres w.tables none []).1 = r at hanswer
  cases hanswer with
  | denied hr =>
    exact iff_of_true (translated_serviceCall_of hrun rfl (by simp) (by simp)) fun h => hr h.1
  | notFound _ hnone =>
    refine iff_of_true (translated_serviceCall_of hrun rfl (by simp) (by simp)) ?_
    rintro ⟨-, u, hu, -⟩
    cases hnone.symm.trans hu
  | invalid hr ht hemail =>
    exact iff_of_false (not_translated_serviceCall hrun rfl) fun h =>
      h ⟨hr, (refused_iff ht).mpr hemail⟩
  | lastAdmin _ ht hvalid =>
    exact iff_of_true (translated_serviceCall_of hrun rfl (by simp) (by simp)) fun h =>
      not_refused ht hvalid h.2
  | returns _ ht hvalid =>
    exact iff_of_true (translated_serviceCall_ok hrun) fun h => not_refused ht hvalid h.2

theorem Handlers.deleteUser_translated {userId : String}
    (hactor : (w.tables.users.find? actor.id).isSome) :
    Translated (deleteUser w emailStr g userId actor) ↔
      ¬ (Mutation.deleteUser userId).Escapes w emailStr hashPassword g actor := by
  rw [deleteUser, Mutation.Escapes]
  refine translated_enforced ?_
  by_cases hnul : '\x00' ∈ userId.toList
  · obtain ⟨msg, hfault⟩ := textFault_of_mem hnul
    rw [hfault]
    by_cases hr : actor.role = .admin
    swap
    · rw [serviceCall_error (Validated.UserService.deleteUser_denied hr _)]
      exact iff_of_true (translated_http (by simp) (by simp)) fun h => hr h.1
    -- The check of the own account comes before the first statement.
    by_cases hid : userId = actor.id
    · subst hid
      rw [serviceCall_error (Validated.UserService.deleteUser_self hr _)]
      exact iff_of_true (translated_http (by simp) (by simp)) fun h => h.2.1 rfl
    · rw [serviceCall_error (Validated.UserService.deleteUser_fault hr hid _)]
      exact iff_of_false not_translated fun h => h ⟨hr, hid, .inl hnul⟩
  rw [textFault_of_not_mem hnul, or_iff_right hnul]
  have hanswer := Validated.UserService.deleteUser_answer emailStr g userId hactor
  generalize hrun : ((Validated.UserService.deleteUser emailStr g userId actor).run
    postgres w.tables none []).1 = r at hanswer
  cases hanswer with
  | denied hr =>
    exact iff_of_true (translated_serviceCall_of hrun rfl (by simp) (by simp)) fun h => hr h.1
  | self _ hid =>
    exact iff_of_true (translated_serviceCall_of hrun rfl (by simp) (by simp)) fun h => h.2.1 hid
  | notFound _ _ hnone =>
    refine iff_of_true (translated_serviceCall_of hrun rfl (by simp) (by simp)) ?_
    rintro ⟨-, -, u, hu, -⟩
    cases hnone.symm.trans hu
  | invalid hr hid ht hemail =>
    exact iff_of_false (not_translated_serviceCall hrun rfl) fun h =>
      h ⟨hr, hid, (refused_iff ht).mpr hemail⟩
  | lastAdmin _ _ ht hvalid =>
    exact iff_of_true (translated_serviceCall_of hrun rfl (by simp) (by simp)) fun h =>
      not_refused ht hvalid h.2.2
  | returns _ _ ht hvalid =>
    exact iff_of_true (translated_serviceCall_ok hrun) fun h => not_refused ht hvalid h.2.2

theorem Handlers.relabelPrediction_translated {predictionId : String} {update : PredictionRelabel}
    (hactor : (w.tables.users.find? actor.id).isSome) :
    Translated (relabelPrediction w g predictionId update actor) ↔
      ¬ (Mutation.relabelPrediction predictionId update).Escapes w emailStr hashPassword g
        actor := by
  rw [relabelPrediction, Mutation.Escapes]
  refine translated_enforced ?_
  by_cases hnul : '\x00' ∈ predictionId.toList
  · obtain ⟨msg, hfault⟩ := textFault_of_mem hnul
    rw [hfault]
    by_cases hr : actor.role ∈ [Role.admin, Role.reviewer]
    · rw [serviceCall_error (PredictionService.relabel_fault hr _)]
      exact iff_of_false not_translated fun h => h ⟨hr, hnul⟩
    · rw [serviceCall_error (PredictionService.relabel_denied hr _)]
      exact iff_of_true translated_forbidden fun h => hr h.1
  rw [textFault_of_not_mem hnul]
  have hescapes : ¬ (actor.role ∈ [Role.admin, Role.reviewer] ∧ '\x00' ∈ predictionId.toList) :=
    fun h => hnul h.2
  have hanswer := PredictionService.relabel_answer g predictionId update hactor
  generalize hrun : ((PredictionService.relabel g predictionId update actor).run postgres w.tables
    none []).1 = r at hanswer
  cases hanswer with
  | denied | notFound | notAllowed =>
    exact iff_of_true (translated_serviceCall_of hrun rfl (by simp) (by simp)) hescapes
  | returns => exact iff_of_true (translated_serviceCall_ok hrun) hescapes

theorem Mutation.handle_translated (m : Mutation)
    (hactor : (w.tables.users.find? actor.id).isSome) :
    Translated (m.handle w emailStr hashPassword g actor) ↔
      ¬ m.Escapes w emailStr hashPassword g actor := by
  cases m with
  | createUser data => exact Handlers.createUser_translated hactor
  | changeRole userId update => exact Handlers.changeRole_translated hactor
  | deleteUser userId => exact Handlers.deleteUser_translated hactor
  | relabelPrediction predictionId update => exact Handlers.relabelPrediction_translated hactor

end

/-! ## The user of the token -/

section
variable {emailStr : String → Option String} {t : Tables} {userId : String}

/-- What `current_domain_user` answers. -/
inductive SessionAnswer (emailStr : String → Option String) (t : Tables) (userId : String) :
    Except ApiError User → Prop
  | unauthorized {detail : String} : ¬ InvalidSession emailStr t userId →
      SessionAnswer emailStr t userId (.error (.http { statusCode := 401, detail }))
  | invalid : InvalidSession emailStr t userId →
      SessionAnswer emailStr t userId (.error (.unhandled invalidEmail))
  | returns {u : UserORM} {email : String} : ¬ InvalidSession emailStr t userId →
      t.users.find? userId = some u → u.isActive = true → emailStr u.email = some email →
      SessionAnswer emailStr t userId (.ok { u.toUser with email })

theorem currentDomainUser_answer (emailStr : String → Option String) (t : Tables)
    (userId : String) : SessionAnswer emailStr t userId (currentDomainUser emailStr t userId) := by
  rw [currentDomainUser]
  cases hu : t.users.find? userId with
  | none =>
    refine .unauthorized ?_
    rintro ⟨u, hu', -⟩
    cases hu.symm.trans hu'
  | some u =>
    dsimp only
    by_cases hactive : u.isActive = true
    · rw [if_pos hactive, UserORM.modelValidate]
      cases hemail : emailStr u.email with
      | none => exact .invalid ⟨u, hu, hactive, hemail⟩
      | some email =>
        refine .returns ?_ hu hactive hemail
        rintro ⟨v, hv, -, hnone⟩
        cases hu.symm.trans hv
        cases hemail.symm.trans hnone
    · rw [if_neg hactive]
      refine .unauthorized ?_
      rintro ⟨v, hv, hv', -⟩
      cases hu.symm.trans hv
      exact hactive hv'

/-- The actor has the row of an active user. -/
theorem currentDomainUser_ok {actor : User}
    (h : currentDomainUser emailStr t userId = .ok actor) : ∃ u email,
    t.users.find? userId = some u ∧ u.isActive = true ∧ emailStr u.email = some email ∧
      actor = { u.toUser with email } := by
  have hanswer := currentDomainUser_answer emailStr t userId
  rw [h] at hanswer
  cases hanswer with
  | returns _ hu hactive hemail => exact ⟨_, _, hu, hactive, hemail, rfl⟩

theorem currentDomainUser_isSome {actor : User}
    (h : currentDomainUser emailStr t userId = .ok actor) : (t.users.find? actor.id).isSome := by
  obtain ⟨u, email, hu, -, -, rfl⟩ := currentDomainUser_ok h
  have hfind : t.users.find? u.id = some u :=
    Table.find?_eq_some.mpr ⟨Table.find?_mem hu, rfl⟩
  exact Option.isSome_iff_exists.mpr ⟨u, hfind⟩

end

/-- A request that fails leaves the tables as they were. -/
theorem Mutation.respond_unchanged {w : AppData} {emailStr : String → Option String}
    {hashPassword : String → Except String String} {g : Gen} {userId : String} {m : Mutation}
    {e : ApiError} (h : (m.respond w emailStr hashPassword g userId).1 = .error e) :
    (m.respond w emailStr hashPassword g userId).2 = w.tables := by
  rw [respond] at h ⊢
  cases hactor : currentDomainUser emailStr w.tables userId with
  | error e => rfl
  | ok actor =>
    rw [hactor] at h
    cases m with
    | createUser | changeRole | deleteUser | relabelPrediction =>
      exact enforced_unchanged serviceCall_unchanged h

/-- A route succeeds or raises an `HTTPException` with a status 4xx unless the email of the actor is
refused, or the actor passes the checks of the route with a user that is there already, an email
that is refused, a password that is not hashed, or an id that PostgreSQL cannot hold. -/
theorem translated_iff (w : AppData) (emailStr : String → Option String)
    (hashPassword : String → Except String String) (g : Gen) (userId : String) (m : Mutation) :
    Translated (m.respond w emailStr hashPassword g userId) ↔
      ¬ InvalidSession emailStr w.tables userId ∧
      ∀ actor, currentDomainUser emailStr w.tables userId = .ok actor →
        ¬ m.Escapes w emailStr hashPassword g actor := by
  rw [Mutation.respond]
  have hanswer := currentDomainUser_answer emailStr w.tables userId
  generalize hsession : currentDomainUser emailStr w.tables userId = r at hanswer
  cases hanswer with
  | unauthorized h =>
    refine iff_of_true (translated_http (by simp) (by simp)) ⟨h, fun actor ha => ?_⟩
    cases ha
  | invalid h => exact iff_of_false not_translated fun h' => h'.1 h
  | returns h =>
    dsimp only
    rw [m.handle_translated (currentDomainUser_isSome hsession)]
    constructor
    · intro hm
      refine ⟨h, fun actor ha => ?_⟩
      cases ha
      exact hm
    · exact fun hm => hm.2 _ rfl

/-- One admin, who may create users. -/
def adaAlone : AppData :=
  { tables :=
      { users := ⟨[⟨"ada", "ada@docs.org", "", .admin, true, 0⟩], List.nodup_singleton "ada"⟩ }
    policy := [("admin", "/users", "POST")] }

/-- Ada creates a user with her own email. -/
theorem duplicate_email_escapes : ¬ ∀ w emailStr hashPassword g userId (m : Mutation),
    Translated (m.respond w emailStr hashPassword g userId) := by
  intro h
  have hrun : (Mutation.createUser { email := "ada@docs.org", password := "secret" }).respond
      adaAlone some .ok { uuid := "bob", now := 1 } "ada" =
      (.error (.unhandled (.integrityError "users_email_key")), adaAlone.tables) := rfl
  exact not_translated (hrun ▸ h _ _ _ _ _ _)

end DocClassifier
