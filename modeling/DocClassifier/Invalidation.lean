import DocClassifier.Routes

/-!
# The services invalidate what they change

For each mutating method and each cached route: when the method changes what the route delivers, the
key of the route is among the keys that it deletes (`serviceApi_complete`). So over serial runs
every value in the cache is the one that its handler would return now.
-/

namespace DocClassifier
open ReadCommitted Transition CacheAside

/-- The API in front of the cache, with the service calls as its mutations. -/
def serviceApi : Api AppData Request String View ApiError (Call × Gen × Fault Exn) where
  key := Request.key
  guard := fun w r => r.guard w
  answer := fun w r => r.handle w
  mutate := fun c w => match (c.1.block c.2.1).run postgres w.tables c.2.2 [] with
    | (.ok keys, t) => some ({ w with tables := t }, keys)
    | (.error _, _) => none

section
variable {c : Call} {g : Gen} {f : Fault Exn} {t t' : Tables} {keys : List String}
  {route : Route} {actor : User} {v : View}

theorem serviceApi_mutate {w w' : AppData}
    (h : serviceApi.mutate (c, g, f) w = some (w', keys)) :
    w'.policy = w.policy ∧ c.Done g w.tables keys w'.tables := by
  simp only [serviceApi] at h
  rcases c.run_cases g f w.tables with ⟨e, hrun⟩ | ⟨ks, t', hrun, hdone⟩
  · rw [hrun] at h
    cases h
  · rw [hrun] at h
    cases h
    exact ⟨rfl, hdone⟩

/-- A deleted key is not the key of another record. -/
theorem ne_of_deleted {key : String → String} {a b : String} (ha : key a ∈ keys)
    (hb : key b ∉ keys) : a ≠ b := by
  rintro rfl
  exact hb ha

theorem Call.Done.users_eq (h : c.Done g t keys t') (hk : USERS_LIST_KEY ∉ keys) :
    t'.users = t.users := by
  cases h with
  | createUser | changeRole | deleteUser => exact absurd (by simp) hk
  | _ => rfl

theorem Call.Done.find?_user {id : String} {u : UserORM} (h : c.Done g t keys t')
    (hk : userMeKey id ∉ keys) (hu : t.users.find? id = some u) :
    t'.users.find? id = some u := by
  cases h with
  | createUser => exact Table.find?_insert_of_some hu
  | changeRole =>
    have hne := ne_of_deleted (List.mem_cons_self ..) hk
    rw [Table.find?_modify, if_neg hne, hu]
  | deleteUser =>
    have hne := ne_of_deleted (List.mem_cons_self ..) hk
    rw [Table.find?_erase, if_neg hne, hu]
  | _ => exact hu

theorem Call.Done.batches_eq (h : c.Done g t keys t') (hk : BATCHES_LIST_KEY ∉ keys) :
    t'.batches = t.batches := by
  cases h with
  | createBatch | transition => exact absurd (by simp) hk
  | _ => rfl

theorem Call.Done.find?_batch {id : String} {b : Batch} (h : c.Done g t keys t')
    (hk : batchKey id ∉ keys) (hb : t.batches.find? id = some b) :
    t'.batches.find? id = some b := by
  cases h with
  | createBatch => exact Table.find?_insert_of_some hb
  | transition =>
    have hne := ne_of_deleted (List.mem_cons_self ..) hk
    rw [Table.find?_modify, if_neg hne, hb]
  | _ => exact hb

theorem Call.Done.predictions_eq (h : c.Done g t keys t') (hk : PREDICTIONS_RECENT_KEY ∉ keys) :
    t'.predictions = t.predictions := by
  cases h with
  | savePrediction | relabel => exact absurd (by simp) hk
  | _ => rfl

theorem Call.Done.filter_predictions {batchId : String} (h : c.Done g t keys t')
    (hk : predictionsBatchKey batchId ∉ keys) :
    t'.predictions.rows.filter (·.batchId = batchId) =
      t.predictions.rows.filter (·.batchId = batchId) := by
  cases h with
  | @savePrediction changed data hid =>
    have hne : changed ≠ batchId := ne_of_deleted (by simp) hk
    have hid' : t.predictions.find? (PredictionService.newPrediction g changed data).id = none
      := hid
    have hnew : [PredictionService.newPrediction g changed data].filter (·.batchId = batchId) =
      [] :=
      List.filter_eq_nil_iff.mpr (by simpa [PredictionService.newPrediction] using hne)
    rw [Table.rows_insert hid', List.filter_append, hnew, List.append_nil]
  | @relabel _ _ _ pred _ hp =>
    have hne : pred.batchId ≠ batchId := ne_of_deleted (by simp) hk
    rw [Table.filter_modify]
    intro p hmem hid
    have heq : p = pred := Option.some.inj ((Table.find?_eq_some.mpr ⟨hmem, hid⟩).symm.trans hp)
    simp [heq, hne]
  | _ => rfl

/-- The data of a route stay the same unless a call deletes its key. -/
theorem Call.Done.data (h : c.Done g t keys t') (hk : Request.key ⟨route, actor⟩ ∉ keys)
    (hd : route.data t actor.id = some v) : route.data t' actor.id = some v := by
  cases route with
  | getMe =>
    obtain ⟨u, hu, rfl⟩ := Option.map_eq_some_iff.mp hd
    exact Option.map_eq_some_iff.mpr ⟨u, h.find?_user hk hu, rfl⟩
  | listUsers =>
    rw [Route.data, h.users_eq hk]
    exact hd
  | listBatches =>
    rw [Route.data, h.batches_eq hk]
    exact hd
  | getBatch batchId =>
    obtain ⟨b, hb, rfl⟩ := Option.map_eq_some_iff.mp hd
    exact Option.map_eq_some_iff.mpr ⟨b, h.find?_batch hk hb, rfl⟩
  | recentPredictions =>
    rw [Route.data, h.predictions_eq hk]
    exact hd
  | predictionsForBatch batchId =>
    rw [Route.data, h.filter_predictions hk]
    exact hd

theorem Request.allowed_eq {w w' : AppData} (hp : w'.policy = w.policy) (r : Request) :
    r.allowed w' = r.allowed w := by
  obtain ⟨route, actor⟩ := r
  cases route <;> simp only [allowed, enforced, object?, hp]

/-- No service call forgets a key. -/
theorem serviceApi_complete : serviceApi.Complete := by
  intro ⟨c, g, f⟩ w w' keys r v hm hk hv
  obtain ⟨hp, hdone⟩ := serviceApi_mutate hm
  obtain ⟨hallowed, hdata⟩ := Request.handle_ok.mp hv
  refine Request.handle_ok.mpr ⟨?_, hdone.data hk hdata⟩
  rw [Request.allowed_eq hp]
  exact hallowed

end

/-- After every serial run of requests, expiries and service calls, every value in the cache is what
its handler would return now to the request that it has been stored for. -/
theorem cached_values_fresh (w : AppData)
    (events : List (Event Request String (Call × Gen × Fault Exn)))
    {s : Store AppData Request String View}
    (h : Run serviceApi.Next ⟨w, fun _ => none⟩ events s) :
    ∀ key e, s.cache key = some e →
      e.request.key = key ∧ e.request.handle s.data = .ok e.value :=
  Api.fresh_empty.run serviceApi_complete h

def ada : User := ⟨"ada", "ada@x", .admin, true, 0⟩

/-- A pending batch and an admin who may read it. -/
def pendingBatch : AppData :=
  { tables :=
      { users := ⟨[⟨"ada", "ada@x", "", .admin, true, 0⟩], List.nodup_singleton "ada"⟩
        batches := ⟨[⟨"b", .pending, 1, 0⟩], List.nodup_singleton "b"⟩ }
    policy := [("admin", "/batches/detail", "GET")] }

def getAndMark : List (Event Request String (Call × Gen × Fault Exn)) :=
  [.get ⟨.getBatch "b", ada⟩, .mutate (.markProcessing "b", .noId 1, none),
    .get ⟨.getBatch "b", ada⟩]

theorem cached_values_fresh_getAndMark : ∃ e,
    (getAndMark.foldl serviceApi.next ⟨pendingBatch, fun _ => none⟩).cache "batch:b" = some e ∧
      e.request.handle (getAndMark.foldl serviceApi.next ⟨pendingBatch, fun _ => none⟩).data =
        .ok e.value := by
  have hfresh := cached_values_fresh pendingBatch getAndMark (Api.run_foldl _ _)
  exact ⟨_, rfl, (hfresh "batch:b" _ rfl).2⟩

end DocClassifier
