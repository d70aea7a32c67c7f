import DocClassifier.Invalidation

/-!
# Pages of the list routes

The key builders of `GET /users/`, `GET /batches/` and `GET /predictions/recent` ignore `skip` and
`limit`, so a request can be answered with a page that has been stored for other parameters.
`pages_honoured` says for which parameters that does no harm.
-/

namespace DocClassifier
open ReadCommitted Transition CacheAside

def Route.isList : Route → Bool
  | .listUsers .. | .listBatches .. | .recentPredictions _ => true
  | _ => false

/-- Two pages of a table with `n` rows have the same rows: both are past its end, or they start at
the same row and have the same limit or both reach the end. -/
def SamePage (n skip limit skip' limit' : Nat) : Prop :=
  n ≤ skip ∧ n ≤ skip' ∨ skip = skip' ∧ (limit = limit' ∨ n ≤ skip + limit ∧ n ≤ skip + limit')

/-- Two list requests ask for the same rows. -/
def Route.SameRows (t : Tables) : Route → Route → Prop
  | .listUsers skip limit, .listUsers skip' limit' =>
    SamePage t.users.rows.length skip limit.1 skip' limit'.1
  | .listBatches skip limit, .listBatches skip' limit' =>
    SamePage t.batches.rows.length skip limit.1 skip' limit'.1
  | .recentPredictions limit, .recentPredictions limit' =>
    SamePage t.predictions.rows.length 0 limit.1 0 limit'.1
  | _, _ => False

/-- The response to a list request is the page of its own parameters, and what the undecorated
function returns to those it answers. -/
structure HonoursParameters (s : Store AppData Request String View) (r : Request) : Prop where
  page : ∀ v, serviceApi.respond s r = .ok v → r.route.data s.data.tables r.actor.id = some v
  undecorated : r.guard s.data = none → r.allowed s.data = true →
    serviceApi.respond s r = r.handle s.data

/-- Every list request of the run honours its parameters. -/
def PagesHonoured (s : Store AppData Request String View)
    (e : Event Request String (Call × Gen × Fault Exn)) : Prop :=
  ∀ r, e = .get r → r.route.isList = true → HonoursParameters s r

/-- A list request that gets past the guard finds no entry, or one that has been stored for
parameters that ask for the same rows. -/
def SharesRows (s : Store AppData Request String View)
    (e : Event Request String (Call × Gen × Fault Exn)) : Prop :=
  ∀ r, e = .get r → r.route.isList = true → r.guard s.data = none →
    ∀ entry, s.cache r.key = some entry → r.route.SameRows s.data.tables entry.request.route

/-! ## Pages of a list -/

section
variable {α : Type} {l : List α} {skip limit skip' limit' : Nat}

theorem page_eq_iff (hl : l.Nodup) (hlimit : 1 ≤ limit) (hlimit' : 1 ≤ limit') :
    (l.drop skip).take limit = (l.drop skip').take limit' ↔
      SamePage l.length skip limit skip' limit' := by
  constructor
  · intro h
    have hlen := congrArg List.length h
    rw [length_window, length_window] at hlen
    by_cases hskip : skip < l.length
    · obtain rfl := skip_eq_of_window hl hskip hlimit h
      exact .inr ⟨rfl, by omega⟩
    · exact .inl ⟨by omega, by omega⟩
  · rintro (⟨h, h'⟩ | ⟨rfl, h⟩)
    · rw [List.drop_eq_nil_iff.mpr h, List.drop_eq_nil_iff.mpr h']
      simp
    · rw [List.take_eq_take_iff, List.length_drop]
      omega

theorem nodup_orderByCreatedAtDesc {createdAt : α → Nat} (hl : l.Nodup) :
    (orderByCreatedAtDesc createdAt l).Nodup :=
  (List.perm_insertionSort _ l).nodup_iff.mpr hl

theorem length_orderByCreatedAtDesc {createdAt : α → Nat} :
    (orderByCreatedAtDesc createdAt l).length = l.length := List.length_insertionSort _ l

/-- Rows that are listed by the time of their creation. -/
theorem sorted_page_eq_iff {createdAt : α → Nat} (hl : l.Nodup) (hlimit : 1 ≤ limit)
    (hlimit' : 1 ≤ limit') :
    ((orderByCreatedAtDesc createdAt l).drop skip).take limit =
      ((orderByCreatedAtDesc createdAt l).drop skip').take limit' ↔
        SamePage l.length skip limit skip' limit' := by
  rw [page_eq_iff (nodup_orderByCreatedAtDesc hl) hlimit hlimit', length_orderByCreatedAtDesc]

end

/-! ## Requests -/

section
variable {s : Store AppData Request String View} {r : Request}

/-- The pages do not depend on who asks for them. -/
theorem Route.data_of_isList {route : Route} (h : route.isList = true) (t : Tables)
    (userId userId' : String) : route.data t userId = route.data t userId' := by
  cases route <;> first | rfl | cases h

/-- Two list routes with the same key deliver the same page if and only if they ask for the same
rows. -/
theorem Route.data_eq_iff {route route' : Route} {t : Tables} {userId : String}
    (h : route.isList = true) (hfamily : route.family = route'.family) :
    route.data t userId = route'.data t userId ↔ route.SameRows t route' := by
  cases route with
  | listUsers skip limit =>
    cases route' with
    | listUsers skip' limit' =>
      -- Users are told apart by their ids.
      have hnodup : ((orderByCreatedAtDesc (·.createdAt) t.users.rows).map (·.toUser)).Nodup := by
        refine List.Nodup.of_map (·.id) ?_
        rw [List.map_map]
        exact ((List.perm_insertionSort _ _).map _).nodup_iff.mpr t.users.nodup
      simp only [data, Option.some.injEq, View.users.injEq, List.map_take, List.map_drop]
      rw [page_eq_iff hnodup limit.2.1 limit'.2.1, List.length_map, length_orderByCreatedAtDesc]
      rfl
    | _ => exact absurd hfamily (by simp [family])
  | listBatches skip limit =>
    cases route' with
    | listBatches skip' limit' =>
      simp only [data, Option.some.injEq, View.batches.injEq]
      exact sorted_page_eq_iff t.batches.nodup.of_map limit.2.1 limit'.2.1
    | _ => exact absurd hfamily (by simp [family])
  | recentPredictions limit =>
    cases route' with
    | recentPredictions limit' =>
      simp only [data, Option.some.injEq, View.predictions.injEq]
      exact @sorted_page_eq_iff _ _ 0 _ 0 _ _ t.predictions.nodup.of_map limit.2.1 limit'.2.1
    | _ => exact absurd hfamily (by simp [family])
  | getMe | getBatch | predictionsForBatch => cases h

/-- What is in the cache for a list request is the page of the parameters it has been stored for. -/
theorem data_of_entry {entry : Entry Request View} (H : serviceApi.Fresh s)
    (hr : r.route.isList = true) (he : s.cache r.key = some entry) :
    r.route.data s.data.tables r.actor.id = some entry.value ↔
      r.route.SameRows s.data.tables entry.request.route := by
  obtain ⟨hkey, hans⟩ := H _ entry he
  have hfamily : r.route.family = entry.request.route.family :=
    (Request.samePath_of_key hkey).1.symm
  have hlist : entry.request.route.isList = true := by
    revert hr hfamily
    cases r.route <;> cases entry.request.route <;> simp [Route.isList, Route.family]
  rw [← (Request.handle_ok.mp hans).2, Route.data_of_isList hlist _ _ r.actor.id]
  exact Route.data_eq_iff hr hfamily

theorem honoursParameters_iff (H : serviceApi.Fresh s) (hr : r.route.isList = true) :
    HonoursParameters s r ↔ (r.guard s.data = none →
      ∀ entry, s.cache r.key = some entry →
        r.route.SameRows s.data.tables entry.request.route) := by
  constructor
  · intro h hg entry he
    have hresp := Api.respond_hit (A := serviceApi) hg he
    exact (data_of_entry H hr he).mp (h.page _ hresp)
  · intro hsame
    constructor
    · intro v hv
      obtain ⟨hg, ⟨entry, he, rfl⟩ | ⟨-, hans⟩⟩ := Api.respond_ok hv
      · exact (data_of_entry H hr he).mpr (hsame hg entry he)
      · exact (Request.handle_ok.mp hans).2
    · intro hg hallowed
      cases hc : s.cache r.key with
      | none => exact Api.respond_miss hg hc
      | some entry =>
        rw [Api.respond_hit (A := serviceApi) hg hc]
        have hdata := (data_of_entry H hr hc).mpr (hsame hg entry hc)
        exact (Request.handle_ok.mpr ⟨hallowed, hdata⟩).symm

theorem pagesHonoured_iff {e : Event Request String (Call × Gen × Fault Exn)}
    (H : serviceApi.Fresh s) : PagesHonoured s e ↔ SharesRows s e :=
  forall_congr' fun _ => forall_congr' fun _ => forall_congr' fun hr => honoursParameters_iff H hr

end

/-- In a serial run of requests, expiries and service calls, every list request is answered with the
page of its own parameters if and only if none finds an entry that has been stored for other
rows. -/
theorem pages_honoured (w : AppData) {s : Store AppData Request String View}
    {events : List (Event Request String (Call × Gen × Fault Exn))} :
    Run (Meeting PagesHonoured serviceApi.Next) ⟨w, fun _ => none⟩ events s ↔
      Run (Meeting SharesRows serviceApi.Next) ⟨w, fun _ => none⟩ events s := by
  constructor
  · intro h
    refine h.mono_inv (I := serviceApi.Fresh) (fun _ _ _ H hs => H.step serviceApi_complete hs.1)
      (fun u e v H hs => ⟨hs.1, ?_⟩) Api.fresh_empty
    exact (pagesHonoured_iff H).mp hs.2
  · intro h
    refine h.mono_inv (I := serviceApi.Fresh) (fun _ _ _ H hs => H.step serviceApi_complete hs.1)
      (fun u e v H hs => ⟨hs.1, ?_⟩) Api.fresh_empty
    exact (pagesHonoured_iff H).mpr hs.2

/-- Two batches, and an admin who may list them. -/
def twoBatches : AppData :=
  { tables :=
      { users := ⟨[⟨"ada", "ada@x", "", .admin, true, 0⟩], List.nodup_singleton "ada"⟩
        batches := ⟨[⟨"a", .done, 1, 0⟩, ⟨"b", .pending, 1, 1⟩], by decide⟩ }
    policy := [("admin", "/batches", "GET")] }

def firstBatches (limit : Nat) (h : 1 ≤ limit ∧ limit ≤ 200 := by decide) : Request :=
  ⟨.listBatches 0 ⟨limit, h⟩, ada⟩

def getTwice (first second : Request) : List (Event Request String (Call × Gen × Fault Exn)) :=
  [.get first, .get second]

/-- Asked for twenty batches, the route answers with the one that is in the cache. -/
theorem not_pages_honoured : ¬ ∃ s, Run (Meeting PagesHonoured serviceApi.Next)
    ⟨twoBatches, fun _ => none⟩ (getTwice (firstBatches 1) (firstBatches 20)) s := by
  rintro ⟨s, h⟩
  obtain ⟨s₁, ⟨hnext, -⟩, h⟩ := Run.cons_iff.mp h
  obtain ⟨s₂, ⟨-, hpages⟩, -⟩ := Run.cons_iff.mp h
  have hresp := (hpages _ rfl rfl).undecorated (by rw [hnext]; rfl) (by rw [hnext]; rfl)
  rw [hnext] at hresp
  revert hresp
  decide

end DocClassifier
