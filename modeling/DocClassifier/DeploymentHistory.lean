import DocClassifier.DeploymentCalls

/-!
# The history of a deployment

The calls of a deployment that commit, in the order of their commits, make the database what it is
(`Deployment.calls_land`), the audit log tells about them (`Deployment.log_complete`), and every
label is that of a request that was allowed to set it (`Deployment.labels_authorized`). A request is
followed up to its COMMIT: the cache keys that it deletes afterwards are part of what it commits
with, but whether they are deleted, and what the client is told, is not part of a deployment.
-/

namespace DocClassifier
open ReadCommitted Transition

/-! ## Labels after a run of calls -/

section
variable {g : Gen} {v : Timeline Tables} {t' : Tables} {c : Call} {keys : List String} {id : String}

/-- The prediction has been relabeled. -/
def Tables.Labeled (t : Tables) (id : String) : Prop :=
  ∃ p, t.predictions.find? id = some p ∧ p.relabeledClass.isSome

theorem Call.Lands.labeled (h : c.Lands g v keys t') (hl : v.db.Labeled id) : t'.Labeled id := by
  obtain ⟨p, hp, hsome⟩ := hl
  cases h with
  | savePrediction => exact ⟨p, Table.find?_insert_of_some hp, hsome⟩
  | relabel =>
    rw [Tables.Labeled, Table.find?_modify]
    split
    · exact ⟨_, congrArg _ hp, rfl⟩
    · exact ⟨p, hp, hsome⟩
  | createUser | changeRole | deleteUser | createBatch | transition => exact ⟨p, hp, hsome⟩

theorem Call.Lands.relabels {update : PredictionRelabel} {actor : User}
    (h : (Call.relabel id update actor).Lands g v keys t') : t'.Labeled id := by
  cases h with
  | transition htr => cases htr
  | relabel _ hp =>
    rw [Tables.Labeled, Table.find?_modify, if_pos rfl, hp]
    exact ⟨_, rfl, rfl⟩

end

section
variable {ι : Type} {calls : ι → Call × Gen} {v v' : Timeline Tables}
  {cs : List (ι × List String)} {id : String}

/-- A label is there once a call has set it. -/
theorem labeled_of_lands (h : Run (CallLands calls) v cs v') {c : ι × List String} (hc : c ∈ cs)
    {update : PredictionRelabel} {actor : User} (hcall : (calls c.1).1 = .relabel id update actor) :
    v'.db.Labeled id := by
  induction h with
  | nil => cases hc
  | cons hs hrun ih =>
    rcases List.mem_cons.mp hc with rfl | hc
    · obtain ⟨t, hlands, rfl⟩ := hs
      rw [hcall] at hlands
      refine hrun.inv (I := fun v => v.db.Labeled id) ?_ hlands.relabels
      rintro v c _ H ⟨t, hlands, rfl⟩
      exact hlands.labeled H
    · exact ih hc

/-- A label is that of a call that has set it. -/
theorem label_of_lands (h : Run (CallLands calls) v cs v')
    (hnone : v.db.predictions.find? id = none) {p : Prediction}
    (hp : v'.db.predictions.find? id = some p) {label : String}
    (hl : p.relabeledClass = some label) : ∃ c ∈ cs, ∃ update actor,
      (calls c.1).1 = .relabel id update actor ∧ update.relabeledClass = label := by
  cases predictionFrom_of_lands h hp with
  | kept hq => cases hnone.symm.trans hq
  | made _ _ _ hlast =>
    rw [hl] at hlast
    obtain ⟨c, hc, hsets⟩ := List.mem_filterMap.mp (List.mem_of_getLast? hlast)
    refine ⟨c, hc, ?_⟩
    cases hcall : (calls c.1).1 with
    | relabel predictionId update actor =>
      rw [hcall, Call.setsLabel] at hsets
      split at hsets
      · rename_i hid
        cases hsets
        exact ⟨update, actor, hid ▸ rfl, rfl⟩
      · cases hsets
    | savePrediction =>
      rw [hcall, Call.setsLabel] at hsets
      split at hsets <;> cases hsets
    | createUser | changeRole | deleteUser | createBatch | markProcessing | markDone | markFailed =>
      rw [hcall] at hsets
      cases hsets

end

/-! ## The deployment -/

namespace Deployment
open Pipeline (letters oneScan)

variable {ι : Type} [DecidableEq ι] {C : Classifier} {calls : ι → MutationCall}
  {s s' : Deployment ι} {e : Event ι} {users : Table String UserORM (·.id)}
  {dropZone : Table String RemoteFile (·.filename)} {es : List (Event ι)}

theorem overlaps_step {sys : CallSys (Caller ι)} {cs : List (Caller ι × List String)}
    {last : Pid → Nat × ServiceCall × Gen} {m : Nat} (H : Overlaps s sys cs last m)
    (h : s.step C calls e = some s') : ∃ sys' new last' m', CallsGo calls sys sys' new ∧
      Overlaps s' sys' (cs ++ new) last' m' := by
  cases step_cases h with
  | pipeline hw hp => exact H.pipeline hw hp
  | request hw hs =>
    obtain ⟨sys', new, hgo, H'⟩ := H.requests hw hs
    exact ⟨sys', new, last, m, hgo, H'⟩

/-- The calls of a deployment overlap. -/
theorem calls_overlap (h : Run (Steps (step C calls)) (start users dropZone) es s) :
    ∃ sys cs last m, CallsGo calls (Sys.start { users }) sys cs ∧ Overlaps s sys cs last m := by
  refine h.inv (I := fun s => ∃ sys cs last m, CallsGo calls (Sys.start { users }) sys cs ∧
    Overlaps s sys cs last m) ?_ ⟨_, _, _, _, .refl, overlaps_start users dropZone⟩
  rintro s e s' ⟨sys, cs, last, m, hgo, H⟩ hs
  obtain ⟨sys', new, last', m', hgo', H'⟩ := overlaps_step H hs
  exact ⟨sys', _, last', m', hgo.trans hgo', H'⟩

/-- `cs` are the calls that have committed, in the order of their commits: requests, and what the
processes of the pipeline have on record. They write at their commits, and `v` is what they have
made of the database. -/
structure Committed (calls : ι → MutationCall) (users : Table String UserORM (·.id))
    (s : Deployment ι) (cs : List (Caller ι × List String)) (v : Timeline Tables) : Prop where
  run : Run (CallLands (callsOf calls)) ⟨{ users }, []⟩ cs v
  db : v.db = s.db
  nodup : (cs.map (·.1)).Nodup
  requests : ∀ i keys, (.request i, keys) ∈ cs ↔ s.session i = .done (.ok keys)
  processes : ∀ pid, cs.filterMap (Caller.doneOf pid) = callsDone (s.pipeline.record pid)

theorem Committed.of_overlaps {sys : CallSys (Caller ι)} {cs : List (Caller ι × List String)}
    {last : Pid → Nat × ServiceCall × Gen} {m : Nat}
    (hgo : CallsGo calls (Sys.start { users }) sys cs) (H : Overlaps s sys cs last m) :
    ∃ v, Committed calls users s cs v := by
  obtain ⟨es, hrun, rfl⟩ := hgo
  have hdb : sys.server.db = s.db := congrArg (·.db) H.server
  obtain ⟨v, O, hlands⟩ := callsOutlined_start.run hrun
  have R := (Sys.recorded_start _).run hrun
  refine ⟨v, hlands, O.db.trans hdb, R.nodup, fun i keys => ?_, H.done⟩
  rw [← H.request i]
  exact R.mem _ _

/-- The calls of a deployment that commit write at their commits, one after the other. -/
theorem calls_land (h : Run (Steps (step C calls)) (start users dropZone) es s) :
    ∃ cs v, Committed calls users s cs v := by
  obtain ⟨sys, cs, last, m, hgo, H⟩ := calls_overlap h
  obtain ⟨v, hcs⟩ := Committed.of_overlaps hgo H
  exact ⟨cs, v, hcs⟩

/-- The relabeling has landed. -/
theorem calls_land_adaRelabels : ∃ s cs v keys, Run (Steps (step letters adaRelabels))
    (start oneAdmin.users oneScan) adaRelabelsEvents s ∧
      Committed adaRelabels oneAdmin.users s cs v ∧ (.request (), keys) ∈ cs := by
  obtain ⟨s, hs, hcommitted, -⟩ := run_adaRelabels
  obtain ⟨keys, hkeys⟩ := Session.eq_done_of_committed hcommitted
  obtain ⟨cs, v, hcs⟩ := calls_land hs
  exact ⟨s, cs, v, keys, hs, hcs, (hcs.requests () keys).mpr hkeys⟩

/-- The audit log has one entry for each audited call that has committed, listed in the order of the
commits, and it replays to the database. -/
theorem log_complete (h : Run (Steps (step C calls)) (start users dropZone) es s) :
    ∃ cs v, Committed calls users s cs v ∧
      s.db.auditLogs.map (fun e => (e.actorId, e.target)) = entriesOf (callsOf calls) cs ∧
      ReplaysInOrders ({ users } : Tables).current s.db := by
  obtain ⟨sys, cs, last, m, hgo, H⟩ := calls_overlap h
  obtain ⟨v, hcs⟩ := Committed.of_overlaps hgo H
  obtain ⟨entries, hlog, hentries⟩ := logs_of_lands hcs.run
  have hreplays : Replays ({ users } : Tables).current v.db := replays_of_lands hcs.run rfl
  rw [hcs.db] at hlog hreplays
  refine ⟨cs, v, hcs, ?_, hreplays.inOrders⟩
  rw [hlog]
  exact hentries

/-- Ada's entry stands between those of the job. -/
theorem log_complete_adaRelabels : ∃ s cs v, Run (Steps (step letters adaRelabels))
    (start oneAdmin.users oneScan) adaRelabelsEvents s ∧
      Committed adaRelabels oneAdmin.users s cs v ∧ entriesOf (callsOf adaRelabels) cs =
        [(none, "batch:b"), (none, "batch:b"), (some "ada", "prediction:p"),
         (none, "batch:b")] := by
  obtain ⟨s, hs, -, -, hlog⟩ := run_adaRelabels
  obtain ⟨cs, v, hcs, hentries, -⟩ := log_complete hs
  exact ⟨s, cs, v, hs, hcs, hentries.symm.trans hlog⟩

/-- A label is that of a request that has committed and was allowed to set it, and a prediction that
such a request has relabeled is there and has a label. -/
theorem labels_authorized (h : Run (Steps (step C calls)) (start users dropZone) es s) :
    (∀ p ∈ s.db.predictions.rows, ∀ label, p.relabeledClass = some label →
      ∃ i update actor keys,
        (calls i).call = .relabel p.id update actor ∧ update.relabeledClass = label ∧
        s.session i = .done (.ok keys) ∧
        (actor.role = .admin ∨ actor.role = .reviewer ∧ p.confidence < 7 / 10)) ∧
    ∀ i id update actor keys, (calls i).call = .relabel id update actor →
      s.session i = .done (.ok keys) → s.db.Labeled id := by
  obtain ⟨sys, cs, last, m, hgo, H⟩ := calls_overlap h
  obtain ⟨v, hcs⟩ := Committed.of_overlaps hgo H
  refine ⟨fun p hp label hl => ?_, fun i id update actor keys hcall hdone => ?_⟩
  · have hp' : v.db.predictions.find? p.id = some p :=
      Table.find?_eq_some.mpr ⟨hcs.db ▸ hp, rfl⟩
    obtain ⟨⟨c, keys⟩, hc, update, actor, hcall, hlabel⟩ := label_of_lands hcs.run rfl hp' hl
    cases c with
    | request i =>
      obtain ⟨q, hq, hallowed⟩ := relabelers_of_lands hcs.run hc hcall
      cases hp'.symm.trans hq
      exact ⟨i, update, actor, keys, hcall, hlabel, (hcs.requests i keys).mp hc, hallowed⟩
    | pipeline pid n sc g => cases sc <;> cases hcall
  · rw [← hcs.db]
    exact labeled_of_lands hcs.run ((hcs.requests i keys).mpr hdone) hcall

theorem labels_authorized_adaRelabels : ∃ s p update actor keys,
    Run (Steps (step letters adaRelabels)) (start oneAdmin.users oneScan) adaRelabelsEvents s ∧
      p ∈ s.db.predictions.rows ∧ p.relabeledClass = some "resume" ∧
      (adaRelabels ()).call = .relabel p.id update actor ∧ update.relabeledClass = "resume" ∧
      s.session () = .done (.ok keys) := by
  obtain ⟨s, hs, -, hrows, -⟩ := run_adaRelabels
  obtain ⟨p, hp, hfacts⟩ : ∃ p ∈ s.db.predictions.rows,
      (p.id, p.predictedClass, p.relabeledClass) = ("p", "letter", some "resume") :=
    List.mem_map.mp (hrows ▸ List.mem_singleton_self _)
  have hlabel : p.relabeledClass = some "resume" := congrArg (·.2.2) hfacts
  obtain ⟨i, update, actor, keys, hcall, hupdate, hdone, -⟩ :=
    (labels_authorized hs).1 p hp "resume" hlabel
  exact ⟨s, p, update, actor, keys, hs, hp, hlabel, hcall, hupdate, hdone⟩

end Deployment

end DocClassifier
