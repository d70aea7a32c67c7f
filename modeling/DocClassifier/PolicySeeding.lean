import DocClassifier.Lib.Crash
import DocClassifier.Lib.Run
import DocClassifier.PolicyFile
import DocClassifier.Routes

/-!
# Seeding the policies

`_init_casbin_enforcer` of `app/api/main.py`. A boot loads the table `casbin_rule`; when it is empty
the boot adds the rules of the file one by one, and each is durable at once. A boot that is killed
in between leaves a table that no later boot completes (`seeded_iff`).
-/

namespace DocClassifier
open Prog Transition

/-! ## Casbin -/

/-- The calls of `_create` on its enforcer that write. -/
inductive CasbinOp where
  | addPolicy (rule : Rule)
  | savePolicy

/-- Both return a truth value, which `_create` ignores. -/
def CasbinOp.Answer : CasbinOp → Type := fun _ => Bool

/-- The table `casbin_rule` and the rules that the enforcer of a process has loaded. -/
structure Casbin where
  table : List Rule
  loaded : List Rule

/-- `Enforcer(model, adapter)`. -/
def Casbin.load (table : List Rule) : Casbin := { table, loaded := table }

/-- `add_policy` writes a new rule to the table at once; `save_policy` replaces the table. -/
def casbin : Handler CasbinOp.Answer Exn Casbin
  | .addPolicy rule, s =>
    if rule ∈ s.loaded then (.ok false, s)
    else (.ok true, { table := s.table ++ [rule], loaded := s.loaded ++ [rule] })
  | .savePolicy, s => (.ok true, { s with table := s.loaded })

/-- `_create` after the rules have been loaded, with the text of the policy file. -/
def create (text : String) (policy : List Rule) : Prog CasbinOp.Answer Exn Unit :=
  if policy = [] then do
    forEach (fileLines text) fun line =>
      match parsePolicyLine line with
      | none => pure ()
      | some rule => do
        let _ ← call (.addPolicy rule)
        pure ()
    let _ ← call .savePolicy
    pure ()
  else pure ()

/-- The rules with three values, which are those that the matcher can be evaluated on. -/
def policyOf (rules : List Rule) : Policy :=
  rules.filterMap fun rule => match rule with
    | [sub, obj, act] => some (sub, obj, act)
    | _ => none

/-! ## Boots -/

inductive Boot where
  | returns
  /-- The process is killed after `n` calls of `add_policy` and `save_policy`. -/
  | killed (n : Nat)

/-- The enforcer that `_create` returns. -/
def created (text : String) (table : List Rule) : Casbin :=
  ((create text table).interp casbin (.load table)).2

def bootTable (text : String) (table : List Rule) : Boot → List Rule
  | .returns => (created text table).table
  | .killed n => ((create text table).killed casbin n (.load table)).table

/-- The step of a run: only boots change the table. -/
def Booted (text : String) (table : List Rule) (b : Boot) (table' : List Rule) : Prop :=
  table' = bootTable text table b

/-- A boot that finds the table empty is not killed when it has written some rules of the file
and not yet all of them. -/
def SeedsWhole (text : String) (table : List Rule) (b : Boot) : Prop :=
  ∀ n, b = .killed n → table = [] → (policyRules text).take n = [] ∨
    ∀ rule ∈ policyRules text, rule ∈ (policyRules text).take n

/-- The rules are those of the file. -/
def SameRules (text : String) (rules : List Rule) : Prop :=
  ∀ rule, rule ∈ rules ↔ rule ∈ policyRules text

/-- The enforcer has loaded the triples of the file, and allows these. -/
structure SeededExactly (text : String) (s : Casbin) : Prop where
  loaded : ∀ rule, rule ∈ s.loaded ↔ ∃ sub obj act, rule = [sub, obj, act] ∧
    CsvTriple text sub obj act
  enforce : ∀ sub obj act, (policyOf s.loaded).enforce sub obj act = true ↔
    CsvTriple text sub obj act

/-! ## What a boot writes -/

section
variable {text : String} {table table' : List Rule} {s : Casbin} {b : Boot}

theorem casbin_ok (o : CasbinOp) (s : Casbin) : ∃ a, (casbin o s).1 = .ok a := by
  cases o with
  | addPolicy rule =>
    rw [casbin]
    split
    · exact ⟨_, rfl⟩
    · exact ⟨_, rfl⟩
  | savePolicy => exact ⟨_, rfl⟩

/-- The calls of a boot that finds the table empty. -/
def seedOps (text : String) : List CasbinOp :=
  (policyRules text).map .addPolicy ++ [.savePolicy]

theorem performs_create : Performs casbin (create text []) (seedOps text) := by
  have hsave : Performs casbin (do
      let _ ← call CasbinOp.savePolicy
      pure ()) [.savePolicy] := (performs_call (casbin_ok _)).bind fun _ => performs_ret ()
  have hops : (fileLines text).flatMap
      (fun line => ((parsePolicyLine line).map CasbinOp.addPolicy).toList) =
        (policyRules text).map .addPolicy := by
    rw [policyRules, List.map_filterMap, List.filterMap_eq_flatMap_toList]
  rw [create, if_pos rfl, seedOps, ← hops]
  refine (Performs.forEach _ (fun line => ?_) _).bind fun _ => hsave
  cases parsePolicyLine line with
  | none => exact performs_ret ()
  | some rule => exact (performs_call (casbin_ok _)).bind fun _ => performs_ret ()

theorem performs_create_of_ne (h : table ≠ []) : Performs casbin (create text table) [] := by
  rw [create, if_neg h]
  exact performs_ret ()

/-- What the table holds is what the process has loaded. -/
theorem after_addPolicy (rules : List Rule) (hs : s.table = s.loaded) :
    (after casbin s (rules.map .addPolicy)).table =
        (after casbin s (rules.map .addPolicy)).loaded ∧
      ∀ rule, rule ∈ (after casbin s (rules.map .addPolicy)).loaded ↔
        rule ∈ s.loaded ∨ rule ∈ rules := by
  induction rules generalizing s with
  | nil => exact ⟨hs, fun rule => by simp⟩
  | cons r rules ih =>
    rw [List.map_cons, after_cons, casbin]
    split
    · rename_i hr
      obtain ⟨htable, hmem⟩ := ih hs
      refine ⟨htable, fun rule => ?_⟩
      rw [hmem, List.mem_cons]
      constructor
      · rintro (h | h)
        · exact .inl h
        · exact .inr (.inr h)
      · rintro (h | rfl | h)
        · exact .inl h
        · exact .inl hr
        · exact .inr h
    · obtain ⟨htable, hmem⟩ := ih (s := ⟨s.table ++ [r], s.loaded ++ [r]⟩) (by simp [hs])
      refine ⟨htable, fun rule => ?_⟩
      rw [hmem, List.mem_append, List.mem_singleton, List.mem_cons, or_assoc]

/-- `save_policy` writes what the table holds already. -/
theorem after_savePolicy (hs : s.table = s.loaded) (n : Nat) :
    after casbin s ([CasbinOp.savePolicy].take n) = s := by
  cases n with
  | zero => rfl
  | succ n =>
    obtain ⟨table, loaded⟩ := s
    cases hs
    rw [List.take_succ_cons, List.take_nil]
    rfl

/-- After any number of the calls of a seeding boot. -/
theorem after_seedOps (text : String) (n : Nat) :
    let s := after casbin (.load []) ((seedOps text).take n)
    s.table = s.loaded ∧ ∀ rule, rule ∈ s.loaded ↔ rule ∈ (policyRules text).take n := by
  obtain ⟨htable, hmem⟩ := after_addPolicy (s := .load []) ((policyRules text).take n) rfl
  rw [seedOps, List.take_append, after_append, ← List.map_take, after_savePolicy htable]
  refine ⟨htable, fun rule => (hmem rule).trans ?_⟩
  simp [Casbin.load]

theorem created_nil : SameRules text (created text []).loaded ∧
    (created text []).table = (created text []).loaded := by
  have hcreated : created text [] =
      after casbin (.load []) ((seedOps text).take (seedOps text).length) := by
    rw [created, performs_create.interp, List.take_length]
  obtain ⟨htable, hmem⟩ := after_seedOps text (seedOps text).length
  rw [← hcreated] at htable hmem
  refine ⟨fun rule => (hmem rule).trans ?_, htable⟩
  rw [List.take_of_length_le]
  simp [seedOps]

theorem mem_bootTable_killed {n : Nat} {rule : Rule} :
    rule ∈ bootTable text [] (.killed n) ↔ rule ∈ (policyRules text).take n := by
  obtain ⟨htable, hmem⟩ := after_seedOps text n
  rw [bootTable, performs_create.killed, htable]
  exact hmem rule

/-- A boot that finds rules writes nothing. -/
theorem created_of_ne (h : table ≠ []) : created text table = .load table :=
  (performs_create_of_ne h).interp _

theorem bootTable_of_ne (h : table ≠ []) (b : Boot) : bootTable text table b = table := by
  cases b with
  | returns => rw [bootTable, created_of_ne h, Casbin.load]
  | killed n =>
    rw [bootTable, (performs_create_of_ne h).killed, List.take_nil]
    rfl

/-! ## Runs of boots -/

theorem sameRules_step (H : table = [] ∨ SameRules text table) (h : Booted text table b table')
    (hb : SeedsWhole text table b) : table' = [] ∨ SameRules text table' := by
  by_cases ht : table = []
  swap
  · rw [h, bootTable_of_ne ht]
    exact H
  subst ht h
  cases b with
  | returns =>
    right
    rw [bootTable, created_nil.2]
    exact created_nil.1
  | killed n =>
    rcases hb n rfl rfl with hnone | hall
    · left
      refine List.eq_nil_iff_forall_not_mem.mpr fun rule hrule => ?_
      rw [mem_bootTable_killed, hnone] at hrule
      cases hrule
    · right
      intro rule
      rw [mem_bootTable_killed]
      exact ⟨List.mem_of_mem_take, hall rule⟩

theorem sameRules_created (H : table = [] ∨ SameRules text table) :
    SameRules text (created text table).loaded := by
  by_cases ht : table = []
  · subst ht
    exact created_nil.1
  · rw [created_of_ne ht]
    exact H.resolve_left ht

/-- Later boots leave a table with rules as it is. -/
theorem Booted.stays {boots : List Boot} (h : Run (Booted text) table boots table')
    (ht : table ≠ []) : table' = table := by
  induction h with
  | nil => rfl
  | cons hs _ ih =>
    rw [Booted, bootTable_of_ne ht] at hs
    subst hs
    exact ih ht

/-- Rules that are missing after a boot has been killed are never added. -/
theorem seedsWhole_of_sameRules {boots : List Boot} (h : Run (Booted text) table boots table')
    (hsame : SameRules text (created text table').loaded) :
    Run (Meeting (SeedsWhole text) (Booted text)) table boots table' := by
  induction h with
  | nil => exact .nil
  | @cons t u v b boots hs h ih =>
    refine .cons ⟨hs, ?_⟩ (ih hsame)
    intro n hb ht
    subst hb ht hs
    by_contra hnot
    obtain ⟨hsome, hmissing⟩ := not_or.mp hnot
    have hne : bootTable text [] (.killed n) ≠ [] := by
      obtain ⟨rule, hrule⟩ := List.exists_mem_of_ne_nil _ hsome
      exact List.ne_nil_of_mem (mem_bootTable_killed.mpr hrule)
    rw [Booted.stays h hne, created_of_ne hne] at hsame
    exact hmissing fun rule hrule => mem_bootTable_killed.mp ((hsame rule).mpr hrule)

/-- The triples are the rules of a file whose rules have three values. -/
theorem seededExactly_iff
    (hthree : ∀ line ∈ fileLines text, ∀ rule, PLine line rule → rule.length = 3) :
    SeededExactly text s ↔ SameRules text s.loaded := by
  have htriple : ∀ rule, rule ∈ policyRules text ↔
      ∃ sub obj act, rule = [sub, obj, act] ∧ CsvTriple text sub obj act := by
    intro rule
    rw [mem_policyRules]
    constructor
    · intro ⟨line, hline, h⟩
      obtain ⟨sub, obj, act, rfl⟩ := List.length_eq_three.mp (hthree line hline rule h)
      exact ⟨sub, obj, act, rfl, line, hline, h⟩
    · rintro ⟨sub, obj, act, rfl, h⟩
      exact h
  constructor
  · intro h rule
    rw [h.loaded, htriple]
  · intro h
    have hloaded : ∀ rule, rule ∈ s.loaded ↔ ∃ sub obj act, rule = [sub, obj, act] ∧
        CsvTriple text sub obj act := fun rule => (h rule).trans (htriple rule)
    refine ⟨hloaded, fun sub obj act => ?_⟩
    rw [Policy.enforce, decide_eq_true_eq, policyOf, List.mem_filterMap]
    constructor
    · intro ⟨rule, hrule, hmatch⟩
      obtain ⟨sub', obj', act', rfl, hcsv⟩ := (hloaded rule).mp hrule
      cases hmatch
      exact hcsv
    · intro hcsv
      exact ⟨[sub, obj, act], (hloaded _).mpr ⟨sub, obj, act, rfl, hcsv⟩, rfl⟩

end

/-- After any boots, a boot that returns has loaded the triples of the file, and allows these, if
and only if no boot was killed in the middle of the seeding. -/
theorem seeded_iff {text : String}
    (hthree : ∀ line ∈ fileLines text, ∀ rule, PLine line rule → rule.length = 3)
    {boots : List Boot} {table : List Rule} (h : Run (Booted text) [] boots table) :
    SeededExactly text (created text table) ↔
      Run (Meeting (SeedsWhole text) (Booted text)) [] boots table := by
  rw [seededExactly_iff hthree]
  constructor
  · exact seedsWhole_of_sameRules h
  · intro hwhole
    refine sameRules_created (hwhole.inv
      (I := fun table => table = [] ∨ SameRules text table) ?_ ?_)
    · exact fun _ _ _ H hs => sameRules_step H hs.1 hs.2
    · exact .inl rfl

def twoRules : String := "p, admin, /users, GET\np, auditor, /audit, GET\n"

theorem policyRules_twoRules :
    policyRules twoRules = [["admin", "/users", "GET"], ["auditor", "/audit", "GET"]] := by
  decide

theorem twoRules_three : ∀ line ∈ fileLines twoRules, ∀ rule, PLine line rule →
    rule.length = 3 := by
  intro line hline rule h
  have hrule : rule ∈ policyRules twoRules := mem_policyRules.mpr ⟨line, hline, h⟩
  rw [policyRules_twoRules] at hrule
  cases hrule with
  | head => rfl
  | tail _ hrule =>
    cases hrule with
    | head => rfl
    | tail _ hrule => cases hrule

/-- The first boot is killed before it writes, the second one seeds the table. -/
theorem seeded_iff_twoRules : SeededExactly twoRules
    (created twoRules [["admin", "/users", "GET"], ["auditor", "/audit", "GET"]]) := by
  have hrun : Run (Meeting (SeedsWhole twoRules) (Booted twoRules)) [] [.killed 0, .returns]
      [["admin", "/users", "GET"], ["auditor", "/audit", "GET"]] := by
    refine .cons (t := []) ⟨rfl, ?_⟩ (.single ⟨rfl, ?_⟩)
    · intro n hn _
      cases hn
      exact .inl rfl
    · intro n hn
      cases hn
  exact (seeded_iff twoRules_three hrun.of_meeting).mpr hrun

/-- A boot is killed after its first `add_policy`: the next one returns without the second rule. -/
theorem seeding_not_resumed : ¬ ∀ text,
    (∀ line ∈ fileLines text, ∀ rule, PLine line rule → rule.length = 3) →
    ∀ boots table, Run (Booted text) [] boots table → SeededExactly text (created text table) := by
  intro h
  have hrun : Run (Booted twoRules) [] [.killed 1] [["admin", "/users", "GET"]] := .single rfl
  have hexact := h twoRules twoRules_three _ _ hrun
  have hcsv : CsvTriple twoRules "auditor" "/audit" "GET" :=
    mem_policyRules.mp (policyRules_twoRules ▸ List.mem_cons_of_mem _ List.mem_cons_self)
  have hallowed := (hexact.enforce _ _ _).mpr hcsv
  exact absurd hallowed (by decide)

end DocClassifier
