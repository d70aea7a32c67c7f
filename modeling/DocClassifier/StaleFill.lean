import DocClassifier.Invalidation
import DocClassifier.Lib.CacheRace

/-!
# Stale values after a mutation

The cached requests and the service calls run at the same time. A request that has read before a
commit can store its value after the deletions of the call, and the value stays until it expires.
`gets_reflect_mutations` says that without such a late fill every response reflects the calls that
had returned before its request.
-/

namespace DocClassifier
open ReadCommitted Transition CacheAside

/-- The call has not changed the data that requests for the path are answered with. -/
def LeavesPath (d : Versions AppData) (w : Writer String) (r : Request) : Prop :=
  ∀ (r' : Request) (v : View), r'.SamePath r → r'.handle (d.data (w.commit - 1)) = .ok v →
    r'.handle (d.data w.commit) = .ok v

/-- The response is what the handler answers at some version to a request for the same path. The
calls that had returned before have made this version or an earlier one, or the response is data and
they have not changed the data of the path. -/
def ReflectsMutations (d : Versions AppData) (r : Request) (before : List (Writer String))
    (response : Except ApiError View) : Prop :=
  ∃ (r' : Request) (a : Nat), a ≤ d.latest ∧ r'.SamePath r ∧ r'.handle (d.data a) = response ∧
    ∀ w ∈ before, w.commit ≤ a ∨ (∃ v, response = .ok v) ∧ LeavesPath d w r

/-- In every run in which no key is filled after a call that has changed the value is through with
deleting it, every response reflects the calls that had returned when its request started. -/
theorem gets_reflect_mutations {ι : Type} [DecidableEq ι] {w : AppData}
    {acts : List (Action Request String (Call × Gen × Fault Exn) ι)}
    {s : Overlap AppData Request String View ApiError ι}
    (h : Run (Meeting serviceApi.FilledInTime (Steps serviceApi.step)) (Overlap.start w) acts s)
    {i : ι}
    {r : Request} {before : List (Writer String)} {response : Except ApiError View}
    (hi : s.readers i = .done r before response) :
    ReflectsMutations s.versions r before response := by
  obtain ⟨r', a, ha, hkey, hans, hbefore⟩ := Api.reflects serviceApi_complete h hi
  refine ⟨r', a, ha, Request.samePath_of_key hkey, hans, fun w hw => ?_⟩
  rcases hbefore w hw with hle | ⟨hv, hleaves⟩
  · exact .inl hle
  · exact .inr ⟨hv, fun r'' v hpath => hleaves r'' v hpath.key⟩

def getB : Request := ⟨.getBatch "b", ada⟩

def markB : Call × Gen × Fault Exn := (.markProcessing "b", .noId 1, none)

/-- The batch is read before and after a call that changes it. -/
def readBeforeAndAfter : List (Action Request String (Call × Gen × Fault Exn) Bool) :=
  [.lookUp false getB, .answer false, .fill false, .commit markB, .delete 0, .delete 0, .finish 0,
    .lookUp true getB, .answer true, .fill true]

theorem gets_reflect_mutations_readBeforeAndAfter :
    ∃ s : Overlap AppData Request String View ApiError Bool, ∃ before response,
      s.readers true = .done getB before response ∧ before ≠ [] ∧
        ReflectsMutations s.versions getB before response := by
  have h : (exec (fun s act => if serviceApi.FilledInTime s act then serviceApi.step s act
      else none)
      (Overlap.start pendingBatch) readBeforeAndAfter).map (·.readers true) =
        some (.done getB [⟨1, ["batch:b", "batches:list"], .returned⟩]
          (.ok (.batch ⟨"b", .processing, 1, 0⟩))) := rfl
  obtain ⟨s, hs, hdone⟩ := Option.map_eq_some_iff.mp h
  exact ⟨s, _, _, hdone, by simp, gets_reflect_mutations (run_of_exec hs) hdone⟩

/-- The first request reads before the commit and fills the key after the call has returned. -/
def lateFill : List (Action Request String (Call × Gen × Fault Exn) Bool) :=
  [.lookUp false getB, .answer false, .commit markB, .delete 0, .delete 0, .finish 0, .fill false,
    .lookUp true getB]

/-- The data after the call. -/
def processingBatch : AppData :=
  { pendingBatch with
    tables := { pendingBatch.tables with
      batches := ⟨[⟨"b", .processing, 1, 0⟩], List.nodup_singleton "b"⟩
      auditLogs := [BatchService.stateChange (.noId 1) "b" .pending .processing] } }

/-- A request that starts after the call has returned is answered with the pending batch. -/
theorem stale_after_return : ∃ acts, ∃ s : Overlap AppData Request String View ApiError Bool,
    Run (Steps serviceApi.step) (Overlap.start pendingBatch) acts s ∧ ∃ i r before response,
      s.readers i = .done r before response ∧
        ¬ ReflectsMutations s.versions r before response := by
  have h : (exec serviceApi.step (Overlap.start pendingBatch) lateFill).map
      (fun s => (s.readers true, s.versions.latest, s.versions.data 0, s.versions.data 1)) =
        some (.done getB [⟨1, ["batch:b", "batches:list"], .returned⟩]
          (.ok (.batch ⟨"b", .pending, 1, 0⟩)), 1, pendingBatch, processingBatch) := rfl
  obtain ⟨s, hs, hs'⟩ := Option.map_eq_some_iff.mp h
  simp only [Prod.mk.injEq] at hs'
  obtain ⟨hdone, hlatest, hdata0, hdata1⟩ := hs'
  refine ⟨lateFill, s, exec_eq_some.mp hs, true, getB, _, _, hdone, ?_⟩
  rintro ⟨r', a, ha, hpath, hans, hbefore⟩
  rcases hbefore _ (List.mem_singleton_self _) with hle | ⟨-, hleaves⟩
  · -- At version 1 nobody is answered with the pending batch.
    have ha1 : a = 1 := by
      rw [hlatest] at ha
      exact Nat.le_antisymm ha hle
    have hdata := (Request.handle_ok.mp hans).2
    rw [ha1, hdata1, hpath.getBatch] at hdata
    change (processingBatch.tables.batches.find? "b").map View.batch = _ at hdata
    exact absurd hdata (by decide)
  · have hafter := hleaves getB (.batch ⟨"b", .pending, 1, 0⟩) ⟨rfl, rfl⟩
    change getB.handle (s.versions.data 0) = _ → getB.handle (s.versions.data 1) = _ at hafter
    rw [hdata0, hdata1] at hafter
    exact absurd (hafter rfl) (by decide)

end DocClassifier
