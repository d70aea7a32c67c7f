import DocClassifier.CacheAuthorization
import DocClassifier.StaleFill
import DocClassifier.Lib.CacheTtl

/-!
# How stale a response can be

The deletions of a service call can fail, and a policy edit deletes nothing. What bounds the age of
a cached response all the same is the `expire` of its route: a mutation is reflected by every
request that is made later than that, plus the time that a handler takes from its read to the
filling of the key.
-/

namespace DocClassifier
open ReadCommitted Transition CacheAside

/-- `expire` of the `@cache` decorator, in seconds. -/
def Route.expire : Route → Nat
  | .getMe => 120
  | .recentPredictions _ => 30
  | .listUsers .. | .listBatches .. | .getBatch _ | .predictionsForBatch _ => 60

theorem Route.expire_of_family {route route' : Route} (h : route.family = route'.family) :
    route.expire = route'.expire := by
  cases route <;> cases route' <;> first | rfl | simp [Route.family] at h

/-- Whatever overlaps and whichever deletions fail, a response is what the handler answers to a
request for the same path at some version of the tables and the policy, and all that was changed
since was changed at most `expire` and `L` before the request. -/
theorem responses_recent {ι : Type} [DecidableEq ι] {w : AppData} {L : Nat}
    {acts : List (TimedAction Request String Change ι)}
    {s : Timed AppData Request String View ApiError ι}
    (h : Run (Meeting (FilledWithin L) (Steps (operatedApi.timedStep fun r => r.route.expire)))
      (Timed.start w) acts s) {i : ι} {r : Request} {before : List (Writer String)}
    {response : Except ApiError View} (hi : s.readers i = .done r before response) :
    ∃ (r' : Request) (a : Nat), a ≤ s.versions.latest ∧ r'.SamePath r ∧
      r'.handle (s.versions.data a) = response ∧
      ∀ b, a < b → b ≤ s.versions.latest → s.askedAt i ≤ s.madeAt b + (r.route.expire + L) := by
  obtain ⟨r', a, hkey, ha, hans, hwithin⟩ := Api.recent h hi
  have hpath := Request.samePath_of_key hkey
  refine ⟨r', a, ha, hpath, hans, fun b hab hb => ?_⟩
  rw [← Route.expire_of_family hpath.1]
  exact hwithin.made b hab hb

/-- Redis fails when the call deletes its keys, and the batch is read again a minute later. -/
def deletionsFail : List (TimedAction Request String Change Bool) :=
  [.act (.lookUp false getB), .act (.answer false), .act (.fill false),
    .act (.commit (.call (.markProcessing "b") (.noId 1) none)), .act (.fail 0), .tick 59,
    .act (.lookUp true getB)]

theorem responses_recent_deletionsFail :
    ∃ s : Timed AppData Request String View ApiError Bool, ∃ before response,
      s.readers true = .done getB before response ∧ s.askedAt true = 59 ∧
        ∃ (r' : Request) (a : Nat), r'.SamePath getB ∧
          r'.handle (s.versions.data a) = response ∧
          ∀ b, a < b → b ≤ s.versions.latest → 59 ≤ s.madeAt b + 60 := by
  have h : (exec (fun s act => if FilledWithin 0 s act then
        operatedApi.timedStep (fun r => r.route.expire) s act else none)
      (Timed.start pendingBatch) deletionsFail).map (fun s => (s.readers true, s.askedAt true)) =
        some (.done getB [] (.ok (.batch ⟨"b", .pending, 1, 0⟩)), 59) := rfl
  obtain ⟨s, hs, hs'⟩ := Option.map_eq_some_iff.mp h
  obtain ⟨hdone, hasked⟩ := Prod.mk.inj hs'
  obtain ⟨r', a, -, hpath, hans, hwithin⟩ := responses_recent (run_of_exec hs) hdone
  exact ⟨s, _, _, hdone, hasked, r', a, hpath, hans, fun b hab hb =>
    hasked ▸ hwithin b hab hb⟩

end DocClassifier
