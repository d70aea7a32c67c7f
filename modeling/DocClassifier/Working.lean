import DocClassifier.Lib.Handlers
import DocClassifier.Threads

/-!
# Working services

`working` is the handler of a process that is alone and whose services all work. It computes what
the thread of a program does in that case: `Thread.alone` is the run, statement by statement.
-/

namespace DocClassifier
open ReadCommitted Transition Prog

def World.withDb (w : World) (db : Tables) : World := { w with server := { w.server with db } }

/-- The world of a process, and how many operations the process has performed in it. -/
structure Live where
  world : World
  next : Nat

/-- The `n`-th operation takes its fresh values from `gens n`. -/
def working (C : Classifier) (gens : Nat → Gen) : Handler Op.Answer Exn Live
  | .tx s, l =>
    let r := (s.block (gens l.next)).run postgres l.world.server.db none []
    (r.1, ⟨l.world.withDb r.2, l.next + 1⟩)
  | .io i, l =>
    let r := perform C l.world (gens l.next) i
    (r.1, ⟨r.2, l.next + 1⟩)

/-! ## One thread alone -/

/-- No transaction is in progress. -/
def World.Idle (w : World) : Prop := w.server.locks = fun _ => none

namespace Thread

variable {α : Type} (C : Classifier) (pid : Pid)

/-- The steps of a thread that is alone in the world. -/
def Alone (a : World × Thread α) (tick : Tick) (b : World × Thread α) : Prop :=
  a.2.step C pid a.1 tick = some b

variable {C pid} {H : History}

theorem release_idle {s : Server Tables Row Pid} (h : s.OnlyLocks pid) :
    (s.release pid).locks = fun _ => none := by
  funext k
  rcases h k with hk | hk
  · simp only [Server.release, hk, reduceCtorEq, if_false]
  · simp only [Server.release, hk, if_true]

/-- A transaction that is alone ends as `Tx.run` says. -/
theorem alone_tx {s : ServiceCall} {q : Block (Committed s.Result)} {ws : List Stmt}
    {k : Except Exn (Committed s.Result) → Proc α} {w : World} (g : Gen)
    (hl : w.server.OnlyLocks pid) :
    ∃ n server, server.locks = (fun _ => none) ∧
      server.db = (q.run postgres w.server.db none ws).2 ∧
      Run (Alone C pid) (w, .tx H s ⟨q, ws⟩ k) (List.replicate n (.ok g))
        ({ w with server }, answer H s k (q.run postgres w.server.db none ws).1) := by
  induction q generalizing w ws with
  | ret a =>
    exact ⟨1, { w.server.release pid with db := postgres.view w.server.db ws }, release_idle hl,
      rfl,
      .single rfl⟩
  | raise e =>
    refine ⟨1, w.server.release pid, release_idle hl, ?_, ?_⟩
    · rw [Tx.run_raise]
      rfl
    · rw [Tx.run_raise]
      exact .single rfl
  | select q ih =>
    obtain ⟨n, server, hlocks, hdb, hr⟩ := @ih (postgres.view w.server.db ws) ws w hl
    exact ⟨n + 1, server, hlocks, hdb, .cons rfl hr⟩
  | exec stmt q ih =>
    cases hc : postgres.check stmt (postgres.view w.server.db ws) with
    | some e =>
      have h1 : w.server.stmt postgres pid ⟨.exec stmt q, ws⟩ =
          some (w.server.release pid, .aborted e) := by
        simp only [Server.stmt, hl.blocked, hc, Bool.false_eq_true, if_false]
      refine ⟨1, w.server.release pid, release_idle hl, ?_, .single ?_⟩
      · rw [Tx.run_exec, hc]
        rfl
      · rw [Tx.run_exec, hc]
        simp only [Alone, step, h1, Option.map_some, ofReply]
    | none =>
      have h1 : w.server.stmt postgres pid ⟨.exec stmt q, ws⟩ =
          some (w.server.lock pid (postgres.row stmt),
            .running ⟨q (postgres.view w.server.db (ws ++ [stmt])), ws ++ [stmt]⟩) := by
        simp only [Server.stmt, hl.blocked, hc, Bool.false_eq_true, if_false]
      let w₁ : World := { w with server := w.server.lock pid (postgres.row stmt) }
      obtain ⟨n, server, hlocks, hdb, hr⟩ :=
        @ih (postgres.view w.server.db (ws ++ [stmt])) (ws ++ [stmt]) w₁ (hl.lock _)
      rw [show w₁.server.db = w.server.db from Server.lock_db] at hdb hr
      rw [Tx.run_exec, hc]
      refine ⟨n + 1, server, hlocks, hdb, .cons ?_ hr⟩
      simp only [Alone, step, h1, Option.map_some, ofReply]
      rfl

/-- A program that is alone ends as the handler says, without a failing step. -/
theorem alone {gens : Nat → Gen} {p : Proc α} {l : Live} (hl : l.world.Idle) :
    ∃ ticks H', (∀ tick ∈ ticks, ∃ g, tick = .ok g) ∧
      Run (Alone C pid) (l.world, .run H p) ticks ((p.interp (working C gens) l).2.world,
        .run H' (ofExcept (p.interp (working C gens) l).1)) := by
  induction p generalizing H l with
  | ret a => exact ⟨[], H, nofun, .nil⟩
  | raise e => exact ⟨[], H, nofun, .nil⟩
  | op o k ih =>
    rw [interp_op]
    cases o with
    | io i =>
      have hidle : (perform C l.world (gens l.next) i).2.Idle := by
        rw [World.Idle, perform_server]
        exact hl
      obtain ⟨ticks, H', hok, hr⟩ := ih _ (l := ⟨_, l.next + 1⟩) hidle
      exact ⟨.ok (gens l.next) :: ticks, H', List.forall_mem_cons.mpr ⟨⟨_, rfl⟩, hok⟩, .cons rfl hr⟩
    | tx s =>
      have honly : l.world.server.OnlyLocks pid := fun row => .inl (congrFun hl row)
      obtain ⟨n, server, hlocks, hdb, h1⟩ := alone_tx (q := s.block (gens l.next)) (H := H) (k := k)
        (gens l.next) honly
      have hserver : server = { l.world.server with
          db := ((s.block (gens l.next)).run postgres l.world.server.db none []).2 } := by
        rw [Server.mk.injEq]
        exact ⟨hdb, hlocks.trans hl.symm⟩
      subst hserver
      obtain ⟨ticks, H', hok, hr⟩ := ih _ (l := (working C gens (.tx s) l).2) hl
      refine ⟨.ok (gens l.next) :: List.replicate n (.ok (gens l.next)) ++ ticks, H', ?_,
        (Run.cons rfl h1).append hr⟩
      refine List.forall_mem_append.mpr ⟨List.forall_mem_cons.mpr
        ⟨⟨_, rfl⟩, fun tick ht => ?_⟩, hok⟩
      exact ⟨_, List.eq_of_mem_replicate ht⟩

end Thread

/-! ## What a working process does -/

section
variable {C : Classifier} {gens : Nat → Gen} {l : Live}

@[simp] theorem interp_io (i : Io) : (io i).interp (working C gens) l =
    ((perform C l.world (gens l.next) i).1,
      ⟨(perform C l.world (gens l.next) i).2, l.next + 1⟩) := interp_call _ _ _

theorem returns_io {i : Io} {a : i.Answer} {Q : i.Answer → Live → Prop}
    (ha : (perform C l.world (gens l.next) i).1 = .ok a)
    (hQ : Q a ⟨(perform C l.world (gens l.next) i).2, l.next + 1⟩) :
    Returns (working C gens) (io i) l Q := by
  refine ⟨a, _, ?_, hQ⟩
  rw [interp_io, ha]

theorem returns_deletes {keys : List String} {Q : Unit → Live → Prop}
    (hQ : Q () ⟨l.world, l.next + keys.length⟩) :
    Returns (working C gens) (forEach keys fun key => io (.cacheDelete key)) l Q := by
  refine Returns.forEach (fun rest l' => ⟨l'.world, l'.next + rest.length⟩ =
    (⟨l.world, l.next + keys.length⟩ : Live)) ?_ ?_ rfl
  · intro key rest l' h
    refine returns_io rfl (Eq.trans ?_ h)
    rw [List.length_cons, Nat.add_right_comm, Nat.add_assoc]
    rfl
  · intro l' h
    rw [← h] at hQ
    exact hQ

/-- A service call whose block commits. -/
theorem returns_service {s : ServiceCall} {cm : Committed s.Result} {db : Tables}
    {Q : s.Result → Live → Prop}
    (h : (s.block (gens l.next)).run postgres l.world.server.db none [] = (.ok cm, db))
    (hQ : Q cm.result ⟨l.world.withDb db, l.next + 1 + cm.deletes.length⟩) :
    Returns (working C gens) (service s) l Q := by
  have htx : (call (Op.tx s) : Proc (Committed s.Result)).interp (working C gens) l =
      (.ok cm, ⟨l.world.withDb db, l.next + 1⟩) := by
    rw [interp_call, working, h]
  refine returns_bind.mpr ⟨cm, _, htx, returns_bind.mpr (returns_deletes ?_)⟩
  exact returns_ret.mpr hQ

/-- The tables after a batch of `n` files has been created. -/
def Tables.withBatch (db : Tables) (g : Gen) (n : Nat) (actor : Option User) : Tables :=
  { db with
    batches := db.batches.insert (BatchService.newBatch g { id := g.uuid, fileCount := n })
    auditLogs :=
      db.auditLogs ++ [BatchService.batchCreated g { id := g.uuid, fileCount := n } actor] }

theorem createBatch_run {db : Tables} {g : Gen} {n : Nat} {actor : Option User}
    (hid : db.batches.find? g.uuid = none)
    (hactor : ∀ a, actor = some a → (db.users.find? a.id).isSome) :
    ((ServiceCall.createBatch n actor).block g).run postgres db none [] =
      (.ok ⟨BatchService.newBatch g { id := g.uuid, fileCount := n }, [BATCHES_LIST_KEY]⟩,
        db.withBatch g n actor) := by
  have hbatch : checkStmt
      (.insertBatch (BatchService.newBatch g { id := g.uuid, fileCount := n })) db = none :=
    checkStmt_insertBatch.mpr hid
  have haudit : checkStmt (.insertAuditLog
      (BatchService.batchCreated g { id := g.uuid, fileCount := n } actor))
      (applyStmt (.insertBatch (BatchService.newBatch g { id := g.uuid, fileCount := n })) db) =
        none := by
    apply checkStmt_insertAuditLog.mpr
    intro actorId h
    obtain ⟨a, ha, rfl⟩ := Option.map_eq_some_iff.mp h
    exact hactor a ha
  rw [ServiceCall.block, BatchService.createBatch_eq, Tx.run_exec, Backend.view_nil,
    Option.getD_some,
    postgres_check, hbatch]
  dsimp only
  rw [Tx.run_exec, List.nil_append, Backend.view_cons, Backend.view_nil, postgres_check,
    postgres_apply, haudit]
  rfl

/-- `create_batch` with a fresh id. -/
theorem returns_createBatch {n : Nat} {actor : Option User} {Q : Batch → Live → Prop}
    (hid : l.world.server.db.batches.find? (gens l.next).uuid = none)
    (hactor : ∀ a, actor = some a → (l.world.server.db.users.find? a.id).isSome)
    (hQ : Q (BatchService.newBatch (gens l.next) { id := (gens l.next).uuid, fileCount := n })
      ⟨l.world.withDb (l.world.server.db.withBatch (gens l.next) n actor), l.next + 2⟩) :
    Returns (working C gens) (service (.createBatch n actor)) l Q :=
  returns_service (createBatch_run hid hactor) hQ

/-- An object that may be stored. -/
theorem returns_upload {key : String} {data : Bytes} {Q : String → Live → Prop}
    (h : data.length ≤ MAX_FILE_BYTES) (hQ : Q key
      ⟨{ l.world with blobs := Function.update l.world.blobs key (some data) }, l.next + 1⟩) :
    Returns (working C gens) (BlobStorage.upload key data) l Q := by
  rw [BlobStorage.upload, if_neg (Nat.not_lt.mpr h)]
  refine returns_bind.mpr (Returns.attempt (returns_io rfl ?_))
  exact returns_ret.mpr hQ

end

end DocClassifier
