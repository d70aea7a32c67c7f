import DocClassifier.Invalidation

/-!
# The policy and the cache

Only `GET /users/` checks the policy before the cache is consulted. The other protected routes check
it in the decorated function, which does not run on a hit. `authorized_iff` says that this is the
only way around the policy.
-/

namespace DocClassifier
open ReadCommitted Transition CacheAside

/-- What changes the data of the API: service calls, and operators who edit the policy. -/
inductive Change where
  | call (c : Call) (g : Gen) (f : Fault Exn)
  | editPolicy (policy : Policy)

/-- The API with policy edits, which delete no keys. -/
def operatedApi : Api AppData Request String View ApiError Change where
  key := Request.key
  guard := fun w r => r.guard w
  answer := fun w r => r.handle w
  mutate := fun m w => match m with
    | .call c g f => serviceApi.mutate (c, g, f) w
    | .editPolicy policy => some ({ w with policy }, [])

/-- Data are delivered only to those whom the policy lets through at this request. -/
def DeliveredByPolicy (s : Store AppData Request String View) (e : Event Request String Change) :
    Prop :=
  ∀ r v, e = .get r → operatedApi.respond s r = .ok v → r.enforced s.data = true

/-- A request that the policy refuses goes to `GET /users/` or finds nothing in the cache. -/
def RefusedMisses (s : Store AppData Request String View) (e : Event Request String Change) :
    Prop :=
  ∀ r, e = .get r → r.enforced s.data = false →
    (∃ skip limit, r.route = .listUsers skip limit) ∨ s.cache r.key = none

section
variable {s : Store AppData Request String View} {w : AppData} {r : Request} {v : View}

theorem Request.guard_eq_none : r.guard w = none ↔
    ((∃ skip limit, r.route = .listUsers skip limit) → r.enforced w = true) := by
  obtain ⟨route, actor⟩ := r
  cases route <;> simp [guard]

/-- Past the guard, a handler checks the policy for the routes that the guard leaves out. -/
theorem Request.enforced_of_handle (hg : r.guard w = none) (h : r.handle w = .ok v) :
    r.enforced w = true := by
  have hallowed := (Request.handle_ok.mp h).1
  obtain ⟨route, actor⟩ := r
  cases route with
  | listUsers skip limit => exact guard_eq_none.mp hg ⟨skip, limit, rfl⟩
  | _ => exact hallowed

theorem deliveredByPolicy_iff {e : Event Request String Change} :
    DeliveredByPolicy s e ↔ RefusedMisses s e := by
  constructor
  · intro H r he hrefused
    by_cases hroute : ∃ skip limit, r.route = .listUsers skip limit
    · exact .inl hroute
    · right
      have hg : r.guard s.data = none := Request.guard_eq_none.mpr fun h => absurd h hroute
      cases hc : s.cache r.key with
      | none => rfl
      | some entry =>
        have henforced := H r _ he (Api.respond_hit (A := operatedApi) hg hc)
        cases hrefused.symm.trans henforced
  · intro H r v he hresp
    obtain ⟨hg, hv⟩ := Api.respond_ok hresp
    cases hrefused : r.enforced s.data with
    | true => rfl
    | false =>
      rcases H r he hrefused with hroute | hc
      · exact hrefused.symm.trans (Request.guard_eq_none.mp hg hroute)
      · rcases hv with ⟨entry, hentry, -⟩ | ⟨-, hans⟩
        · cases hc.symm.trans hentry
        · exact hrefused.symm.trans (Request.enforced_of_handle hg hans)

end

/-- In a serial run of requests, expiries, service calls and policy edits, from any contents of the
cache, data are delivered by the policy if and only if every refused request goes to `GET /users/`
or finds nothing in the cache. -/
theorem authorized_iff {s s' : Store AppData Request String View}
    {events : List (Event Request String Change)} :
    Run (Meeting DeliveredByPolicy operatedApi.Next) s events s' ↔
      Run (Meeting RefusedMisses operatedApi.Next) s events s' :=
  ⟨fun h => h.mono fun _ _ _ hs => ⟨hs.1, deliveredByPolicy_iff.mp hs.2⟩,
    fun h => h.mono fun _ _ _ hs => ⟨hs.1, deliveredByPolicy_iff.mpr hs.2⟩⟩

/-- Only admins may list the batches. -/
def adminsOnly : AppData :=
  { tables :=
      { users := ⟨[⟨"ada", "ada@x", "", .admin, true, 0⟩, ⟨"eve", "eve@x", "", .auditor, true, 0⟩],
          by decide⟩
        batches := ⟨[⟨"b", .pending, 1, 0⟩], List.nodup_singleton "b"⟩ }
    policy := [("admin", "/batches", "GET")] }

def listBatchesBy (actor : User) : Event Request String Change :=
  .get ⟨.listBatches 0 ⟨20, by decide⟩, actor⟩

/-- An auditor is given the list that an admin has brought into the cache. -/
theorem delivered_against_policy : ¬ ∃ s, Run (Meeting DeliveredByPolicy operatedApi.Next)
    ⟨adminsOnly, fun _ => none⟩
    [listBatchesBy ada, listBatchesBy ⟨"eve", "eve@x", .auditor, true, 0⟩] s := by
  rintro ⟨s, h⟩
  obtain ⟨s₁, ⟨hnext, -⟩, h⟩ := Run.cons_iff.mp h
  obtain ⟨s₂, ⟨-, hdelivered⟩, -⟩ := Run.cons_iff.mp h
  have hrefused := hdelivered _ (.batches [⟨"b", .pending, 1, 0⟩]) rfl (by rw [hnext]; rfl)
  rw [hnext] at hrefused
  revert hrefused
  decide

end DocClassifier
