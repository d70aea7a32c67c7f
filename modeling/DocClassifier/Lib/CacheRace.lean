import DocClassifier.Lib.CacheAside

/-!
# Requests and mutations that overlap

A request looks its key up, answers and fills the key in three steps. A mutating call commits a new
version of the data, deletes its keys one by one and returns. The steps of any number of requests
and calls interleave, and keys expire at any time.

A request that has answered from an old version can fill a key after the calls that have changed the
answer are through with deleting it. `Api.reflects` says that no other order does harm: when keys
are filled in time, the response to a request reflects every call that had returned when it started.
-/

namespace CacheAside
open Transition

inductive Phase (K : Type) where
  | deleting (rest : List K)
  | returned
  | raised

/-- A mutating call that has committed. -/
structure Writer (K : Type) where
  /-- The version that it has made. -/
  commit : Nat
  keys : List K
  phase : Phase K

/-- A request; `before` are the calls that had returned when it started. -/
inductive Reader (R K V ε : Type) where
  | idle
  | missed (r : R) (before : List (Writer K))
  | answered (r : R) (before : List (Writer K)) (version : Nat) (v : V)
  | done (r : R) (before : List (Writer K)) (response : Except ε V)

/-- The committed data. -/
structure Versions (D : Type) where
  data : Nat → D
  latest : Nat

structure Overlap (D R K V ε ι : Type) where
  versions : Versions D
  /-- The stored values, with the versions that they have been read from. -/
  cache : K → Option (Entry R V × Nat)
  writers : List (Writer K)
  readers : ι → Reader R K V ε

inductive Action (R K M ι : Type) where
  | lookUp (i : ι) (r : R)
  | answer (i : ι)
  | fill (i : ι)
  | commit (m : M)
  | delete (n : Nat)
  | finish (n : Nat)
  | fail (n : Nat)
  | expire (k : K)

variable {D R K V ε M ι : Type}

namespace Writer

def isReturned (w : Writer K) : Bool :=
  match w.phase with
  | .returned => true
  | _ => false

/-- The call has still to delete the key, or it has raised before that. -/
def Owes (w : Writer K) (k : K) : Prop :=
  match w.phase with
  | .deleting rest => k ∈ rest
  | .returned => False
  | .raised => True

instance [DecidableEq K] (w : Writer K) (k : K) : Decidable (w.Owes k) :=
  match h : w.phase with
  | .deleting rest => decidable_of_iff (k ∈ rest) (by rw [Owes, h])
  | .returned => .isFalse (by rw [Owes, h]; exact id)
  | .raised => .isTrue (by rw [Owes, h]; trivial)

end Writer

namespace Versions

def now (d : Versions D) : D := d.data d.latest

def commit (d : Versions D) (next : D) : Versions D :=
  { data := Function.update d.data (d.latest + 1) next, latest := d.latest + 1 }

theorem data_commit {d : Versions D} {next : D} {a : Nat} (h : a ≤ d.latest) :
    (d.commit next).data a = d.data a :=
  Function.update_of_ne (by omega) _ _

@[simp] theorem data_commit_latest {d : Versions D} {next : D} :
    (d.commit next).data (d.latest + 1) = next := Function.update_self _ _ _

end Versions

/-- No request and no call has started. -/
def Overlap.start (d : D) : Overlap D R K V ε ι :=
  { versions := { data := fun _ => d, latest := 0 }
    cache := fun _ => none
    writers := []
    readers := fun _ => .idle }

section
variable [DecidableEq K] [DecidableEq ι] (A : Api D R K V ε M) (s : Overlap D R K V ε ι)

def Overlap.setReader (i : ι) (x : Reader R K V ε) : Overlap D R K V ε ι :=
  { s with readers := Function.update s.readers i x }

def Overlap.setWriter (n : Nat) (w : Writer K) : Overlap D R K V ε ι :=
  { s with writers := s.writers.set n w }

def Overlap.setCache (k : K) (e : Option (Entry R V × Nat)) : Overlap D R K V ε ι :=
  { s with cache := Function.update s.cache k e }

def Overlap.commit (next : D) (ks : List K) : Overlap D R K V ε ι :=
  { s with
    versions := s.versions.commit next
    writers := s.writers ++ [⟨s.versions.latest + 1, ks, .deleting ks⟩] }

def Api.step (s : Overlap D R K V ε ι) : Action R K M ι → Option (Overlap D R K V ε ι)
  | .lookUp i r => match s.readers i, A.guard s.versions.now r, s.cache (A.key r) with
    | .idle, none, some (e, _) =>
      some (s.setReader i (.done r (s.writers.filter (·.isReturned)) (.ok e.value)))
    | .idle, none, none => some (s.setReader i (.missed r (s.writers.filter (·.isReturned))))
    | _, _, _ => none
  | .answer i => match s.readers i with
    | .missed r before => match A.answer s.versions.now r with
      | .ok v => some (s.setReader i (.answered r before s.versions.latest v))
      | .error e => some (s.setReader i (.done r before (.error e)))
    | _ => none
  | .fill i => match s.readers i with
    | .answered r before a v =>
      some ((s.setCache (A.key r) (some (⟨r, v⟩, a))).setReader i (.done r before (.ok v)))
    | _ => none
  | .commit m => match A.mutate m s.versions.now with
    | some (next, ks) => some (s.commit next ks)
    | none => some s
  | .delete n => match s.writers[n]? with
    | some ⟨c, ks, .deleting (k :: rest)⟩ =>
      some ((s.setCache k none).setWriter n ⟨c, ks, .deleting rest⟩)
    | _ => none
  | .finish n => match s.writers[n]? with
    | some ⟨c, ks, .deleting []⟩ => some (s.setWriter n ⟨c, ks, .returned⟩)
    | _ => none
  | .fail n => match s.writers[n]? with
    | some ⟨c, ks, .deleting _⟩ => some (s.setWriter n ⟨c, ks, .raised⟩)
    | _ => none
  | .expire k => some (s.setCache k none)

end

variable (A : Api D R K V ε M) (s : Overlap D R K V ε ι)

/-- A key is filled while every call that deletes it, and that has committed after the value was
read, has still to delete it or has raised. -/
def Api.Timely (ws : List (Writer K)) : Reader R K V ε → Prop
  | .answered r _ a _ => ∀ w ∈ ws, a < w.commit → A.key r ∈ w.keys → w.Owes (A.key r)
  | _ => True

def Api.FilledInTime (s : Overlap D R K V ε ι) : Action R K M ι → Prop
  | .fill i => A.Timely s.writers (s.readers i)
  | _ => True

instance [DecidableEq K] (ws : List (Writer K)) :
    (x : Reader R K V ε) → Decidable (A.Timely ws x)
  | .answered r _ a _ =>
    inferInstanceAs (Decidable (∀ w ∈ ws, a < w.commit → A.key r ∈ w.keys → w.Owes (A.key r)))
  | .idle | .missed .. | .done .. => .isTrue trivial

instance [DecidableEq K] : (act : Action R K M ι) → Decidable (A.FilledInTime s act)
  | .fill i => inferInstanceAs (Decidable (A.Timely s.writers (s.readers i)))
  | .lookUp .. | .answer _ | .commit _ | .delete _ | .finish _ | .fail _ | .expire _ =>
    .isTrue trivial

/-- The call has not changed the data that requests with the key are answered with. -/
def Api.LeavesData (d : Versions D) (w : Writer K) (k : K) : Prop :=
  ∀ r v, A.key r = k → A.answer (d.data (w.commit - 1)) r = .ok v →
    A.answer (d.data w.commit) r = .ok v

/-- The response is the answer, at some version, to a request with the same key. The calls that had
returned before have made this version or an earlier one, or the response is data and they have not
changed the data of the key. -/
def Api.Reflects (d : Versions D) (r : R) (before : List (Writer K)) (response : Except ε V) :
    Prop :=
  ∃ r' a, a ≤ d.latest ∧ A.key r' = A.key r ∧ A.answer (d.data a) r' = response ∧
    ∀ w ∈ before, w.commit ≤ a ∨ (∃ v, response = .ok v) ∧ A.LeavesData d w (A.key r)

/-! ## The invariant -/

/-- A stored value is the answer at its version, and the calls that delete its key and have
committed since have still to delete it or have raised. -/
structure Api.EntryOk (d : Versions D) (ws : List (Writer K)) (k : K) (e : Entry R V) (a : Nat) :
    Prop where
  key : A.key e.request = k
  le : a ≤ d.latest
  answer : A.answer (d.data a) e.request = .ok e.value
  owed : ∀ w ∈ ws, a < w.commit → k ∈ w.keys → w.Owes k

structure Api.WriterOk (d : Versions D) (w : Writer K) : Prop where
  pos : 0 < w.commit
  le : w.commit ≤ d.latest
  keys : ∀ k, k ∉ w.keys → A.LeavesData d w k

def Api.ReaderOk (d : Versions D) : Reader R K V ε → Prop
  | .idle => True
  | .missed _ before => ∀ w ∈ before, A.WriterOk d w
  | .answered r before a v => (∀ w ∈ before, A.WriterOk d w) ∧ a ≤ d.latest ∧
    (∀ w ∈ before, w.commit ≤ a) ∧ A.answer (d.data a) r = .ok v
  | .done r before response => (∀ w ∈ before, A.WriterOk d w) ∧ A.Reflects d r before response

structure Api.Inv : Prop where
  entries : ∀ k e a, s.cache k = some (e, a) → A.EntryOk s.versions s.writers k e a
  writers : ∀ w ∈ s.writers, A.WriterOk s.versions w
  readers : ∀ i, A.ReaderOk s.versions (s.readers i)

variable {A s}

/-! ### Changes of one part of the state -/

theorem Api.Inv.setReader [DecidableEq ι] {i : ι} {x : Reader R K V ε} (H : A.Inv s)
    (hx : A.ReaderOk s.versions x) : A.Inv (s.setReader i x) := by
  refine ⟨H.entries, H.writers, fun j => ?_⟩
  simp only [Overlap.setReader, Function.update_apply]
  split
  · exact hx
  · exact H.readers j

theorem Api.Inv.dropKey [DecidableEq K] (H : A.Inv s) (k : K) : A.Inv (s.setCache k none) := by
  refine ⟨fun k' e a he => ?_, H.writers, H.readers⟩
  simp only [Overlap.setCache, Function.update_apply] at he
  split at he
  · cases he
  · exact H.entries k' e a he

theorem Api.Inv.setKey [DecidableEq K] {k : K} {e : Entry R V} {a : Nat} (H : A.Inv s)
    (he : A.EntryOk s.versions s.writers k e a) : A.Inv (s.setCache k (some (e, a))) := by
  refine ⟨fun k' e' a' he' => ?_, H.writers, H.readers⟩
  simp only [Overlap.setCache, Function.update_apply] at he'
  split at he'
  · rename_i hk
    cases he'
    exact hk ▸ he
  · exact H.entries k' e' a' he'

/-- A call goes on to another phase, in which it owes every key that it has owed before and that is
still in the cache. -/
theorem Api.Inv.setPhase {n c : Nat} {ks : List K} {p p' : Phase K} (H : A.Inv s)
    (hn : s.writers[n]? = some ⟨c, ks, p⟩)
    (howes : ∀ k, s.cache k ≠ none → (Writer.mk c ks p).Owes k → (Writer.mk c ks p').Owes k) :
    A.Inv (s.setWriter n ⟨c, ks, p'⟩) := by
  have hmem : (Writer.mk c ks p) ∈ s.writers := List.mem_of_getElem? hn
  refine ⟨fun k e a he => ?_, fun w hw => ?_, H.readers⟩
  · obtain ⟨hkey, hle, hans, howed⟩ := H.entries k e a he
    refine ⟨hkey, hle, hans, fun w hw ha hk => ?_⟩
    rcases List.mem_or_eq_of_mem_set hw with hw | rfl
    · exact howed w hw ha hk
    · refine howes k ?_ (howed _ hmem ha hk)
      intro hnone
      cases hnone.symm.trans he
  · rcases List.mem_or_eq_of_mem_set hw with hw | rfl
    · exact H.writers w hw
    · exact ⟨(H.writers _ hmem).pos, (H.writers _ hmem).le, (H.writers _ hmem).keys⟩

/-! ### A commit -/

section
variable {d : Versions D} {next : D} {w : Writer K}

theorem Api.WriterOk.commit (H : A.WriterOk d w) : A.WriterOk (d.commit next) w := by
  have hpos := H.pos
  have hle := H.le
  refine ⟨hpos, Nat.le_succ_of_le hle, fun k hk r v hr hv => ?_⟩
  rw [Versions.data_commit (by omega)] at hv ⊢
  exact H.keys k hk r v hr hv

theorem Api.LeavesData.commit {k : K} (H : A.LeavesData d w k) (hw : A.WriterOk d w) :
    A.LeavesData (d.commit next) w k := by
  have hpos := hw.pos
  have hle := hw.le
  intro r v hr hv
  rw [Versions.data_commit (by omega)] at hv ⊢
  exact H r v hr hv

theorem Api.Reflects.commit {r : R} {before : List (Writer K)} {response : Except ε V}
    (H : A.Reflects d r before response) (hbefore : ∀ w ∈ before, A.WriterOk d w) :
    A.Reflects (d.commit next) r before response := by
  obtain ⟨r', a, ha, hkey, hans, hw⟩ := H
  refine ⟨r', a, Nat.le_succ_of_le ha, hkey, ?_, fun w hmem => ?_⟩
  · rw [Versions.data_commit ha]
    exact hans
  · rcases hw w hmem with hle | ⟨hv, hleaves⟩
    · exact .inl hle
    · exact .inr ⟨hv, hleaves.commit (hbefore w hmem)⟩

theorem Api.ReaderOk.commit {x : Reader R K V ε} (H : A.ReaderOk d x) :
    A.ReaderOk (d.commit next) x := by
  cases x with
  | idle => trivial
  | missed r before => exact fun w hw => (H w hw).commit
  | answered r before a v =>
    obtain ⟨hbefore, ha, hle, hans⟩ := H
    refine ⟨fun w hw => (hbefore w hw).commit, Nat.le_succ_of_le ha, hle, ?_⟩
    rw [Versions.data_commit ha]
    exact hans
  | done r before response =>
    exact ⟨fun w hw => (H.1 w hw).commit, H.2.commit H.1⟩

end

/-- A new version: what has been stored and answered stays as it was, and the new call owes all its
keys. -/
theorem Api.Inv.commit {next : D} {ks : List K} (H : A.Inv s)
    (hkeys : ∀ r v, A.key r ∉ ks → A.answer s.versions.now r = .ok v → A.answer next r = .ok v) :
    A.Inv (s.commit next ks) := by
  refine ⟨fun k e a he => ?_, fun w hw => ?_, fun i => (H.readers i).commit⟩
  · obtain ⟨hkey, hle, hans, howed⟩ := H.entries k e a he
    refine ⟨hkey, Nat.le_succ_of_le hle, ?_, fun w hw ha hk => ?_⟩
    · rw [Overlap.commit, Versions.data_commit hle]
      exact hans
    · rcases List.mem_append.mp hw with hw | hw
      · exact howed w hw ha hk
      · obtain rfl := List.mem_singleton.mp hw
        exact hk
  · rcases List.mem_append.mp hw with hw | hw
    · exact (H.writers w hw).commit
    · obtain rfl := List.mem_singleton.mp hw
      refine ⟨Nat.succ_pos _, Nat.le_refl _, fun k hk r v hr hv => ?_⟩
      have hnow : (s.versions.commit next).data s.versions.latest = s.versions.now :=
        Versions.data_commit (Nat.le_refl _)
      rw [← hr] at hk
      change A.answer ((s.versions.commit next).data s.versions.latest) r = .ok v at hv
      rw [hnow] at hv
      exact (congrArg (A.answer · r) Versions.data_commit_latest).trans (hkeys r v hk hv)

/-! ### The steps -/

theorem Writer.not_owes {w : Writer K} {k : K} (h : w.isReturned = true) : ¬ w.Owes k := by
  obtain ⟨c, ks, p⟩ := w
  cases p with
  | returned => exact id
  | deleting | raised => cases h

/-- A stored value reflects the calls that have returned. -/
theorem Api.Inv.reflects_hit {r : R} {e : Entry R V} {a : Nat} (H : A.Inv s)
    (he : s.cache (A.key r) = some (e, a)) :
    A.Reflects s.versions r (s.writers.filter (·.isReturned)) (.ok e.value) := by
  obtain ⟨hkey, hle, hans, howed⟩ := H.entries _ e a he
  refine ⟨e.request, a, hle, hkey, hans, fun w hw => ?_⟩
  obtain ⟨hmem, hret⟩ := List.mem_filter.mp hw
  by_cases hwa : w.commit ≤ a
  · exact .inl hwa
  · refine .inr ⟨⟨_, rfl⟩, (H.writers w hmem).keys _ fun hk => ?_⟩
    exact Writer.not_owes hret (howed w hmem (by omega) hk)

theorem Api.Inv.before (H : A.Inv s) :
    ∀ w ∈ s.writers.filter (·.isReturned), A.WriterOk s.versions w :=
  fun w hw => H.writers w (List.mem_filter.mp hw).1

section
variable [DecidableEq K] [DecidableEq ι] {s' : Overlap D R K V ε ι}

theorem Api.Inv.lookUp {i : ι} {r : R} (H : A.Inv s)
    (h : A.step s (.lookUp i r : Action R K M ι) = some s') : A.Inv s' := by
  rw [Api.step] at h
  split at h
  · rename_i he
    cases h
    exact H.setReader ⟨H.before, H.reflects_hit he⟩
  · cases h
    exact H.setReader H.before
  · cases h

theorem Api.Inv.answer {i : ι} (H : A.Inv s)
    (h : A.step s (.answer i : Action R K M ι) = some s') : A.Inv s' := by
  rw [Api.step] at h
  split at h
  · rename_i r before hi
    have hbefore : ∀ w ∈ before, A.WriterOk s.versions w := by
      have hok := H.readers i
      rw [hi] at hok
      exact hok
    split at h
    · rename_i v hv
      cases h
      exact H.setReader ⟨hbefore, Nat.le_refl _, fun w hw => (hbefore w hw).le, hv⟩
    · rename_i e hv
      cases h
      -- An error is not stored: it comes from the latest version.
      exact H.setReader ⟨hbefore, r, _, Nat.le_refl _, rfl, hv,
        fun w hw => .inl (hbefore w hw).le⟩
  · cases h

theorem Api.Inv.fill {i : ι} (H : A.Inv s) (hC : A.FilledInTime s (.fill i : Action R K M ι))
    (h : A.step s (.fill i : Action R K M ι) = some s') : A.Inv s' := by
  rw [Api.step] at h
  split at h
  · rename_i r before a v hi
    cases h
    have hok := H.readers i
    rw [hi] at hok
    obtain ⟨hbefore, ha, hle, hans⟩ := hok
    rw [Api.FilledInTime, hi] at hC
    have hentry : A.EntryOk s.versions s.writers (A.key r) ⟨r, v⟩ a := ⟨rfl, ha, hans, hC⟩
    exact (H.setKey hentry).setReader
      ⟨hbefore, r, a, ha, rfl, hans, fun w hw => .inl (hle w hw)⟩
  · cases h

theorem Api.Inv.delete {n : Nat} (H : A.Inv s)
    (h : A.step s (.delete n : Action R K M ι) = some s') : A.Inv s' := by
  rw [Api.step] at h
  split at h
  · rename_i c ks k rest hn
    cases h
    refine (H.dropKey k).setPhase hn fun k' hk' howes => ?_
    -- The key that is no longer owed is no longer in the cache.
    rcases List.mem_cons.mp howes with rfl | hmem
    · exact absurd (Function.update_self _ _ _) hk'
    · exact hmem
  · cases h

theorem Api.Inv.finish {n : Nat} (H : A.Inv s)
    (h : A.step s (.finish n : Action R K M ι) = some s') : A.Inv s' := by
  rw [Api.step] at h
  split at h
  · rename_i c ks hn
    cases h
    exact H.setPhase hn fun k _ howes => nomatch howes
  · cases h

theorem Api.Inv.fail {n : Nat} (H : A.Inv s)
    (h : A.step s (.fail n : Action R K M ι) = some s') : A.Inv s' := by
  rw [Api.step] at h
  split at h
  · rename_i c ks rest hn
    cases h
    exact H.setPhase hn fun _ _ _ => trivial
  · cases h

theorem Api.Inv.step {act : Action R K M ι} (hA : A.Complete) (H : A.Inv s)
    (hC : A.FilledInTime s act) (h : A.step s act = some s') : A.Inv s' := by
  cases act with
  | lookUp i r => exact H.lookUp h
  | answer i => exact H.answer h
  | fill i => exact H.fill hC h
  | delete n => exact H.delete h
  | finish n => exact H.finish h
  | fail n => exact H.fail h
  | expire k =>
    cases h
    exact H.dropKey k
  | commit m =>
    rw [Api.step] at h
    split at h
    · rename_i next ks hm
      cases h
      exact H.commit fun r v hk hv => hA m _ _ ks r v hm hk hv
    · cases h
      exact H

omit [DecidableEq K] [DecidableEq ι] in
theorem Api.inv_start (d : D) : A.Inv (Overlap.start d : Overlap D R K V ε ι) :=
  ⟨nofun, nofun, fun _ => trivial⟩

/-- In every run in which keys are filled in time, the response to a request reflects every call
that had returned when the request started. -/
theorem Api.reflects {d : D} {acts : List (Action R K M ι)} (hA : A.Complete)
    (h : Run (Meeting A.FilledInTime (Steps A.step)) (Overlap.start d) acts s) {i : ι} {r : R}
    {before : List (Writer K)} {response : Except ε V}
    (hi : s.readers i = .done r before response) : A.Reflects s.versions r before response := by
  have H : A.Inv s := h.inv (fun _ _ _ H hs => H.step hA hs.2 hs.1) (A.inv_start d)
  have hok := H.readers i
  rw [hi] at hok
  exact hok.2

/-! ### The guard -/

/-- The request that is served, or has been. -/
def Reader.request? : Reader R K V ε → Option R
  | .idle => none
  | .missed r _ | .answered r _ _ _ | .done r _ _ => some r

/-- A request is served when the guard lets it through. -/
theorem Api.step_readers {act : Action R K M ι} (h : A.step s act = some s') {i : ι} {r : R}
    (hr : (s'.readers i).request? = some r) :
    (s.readers i).request? = some r ∨ A.guard s.versions.now r = none := by
  have hset : ∀ {u : Overlap D R K V ε ι} {j x}, u.readers = s.readers →
      (x.request? = (s.readers j).request? ∨ ∃ r', x.request? = some r' ∧
        A.guard s.versions.now r' = none) →
      ((u.setReader j x).readers i).request? = some r →
      (s.readers i).request? = some r ∨ A.guard s.versions.now r = none := by
    intro u j x hu hx hr
    simp only [Overlap.setReader, hu, Function.update_apply] at hr
    split at hr
    · rename_i hij
      rcases hx with hx | ⟨r', hx, hg⟩
      · exact .inl (by rw [hij, ← hx, hr])
      · cases hx.symm.trans hr
        exact .inr hg
    · exact .inl hr
  cases act with
  | lookUp j r' =>
    rw [Api.step] at h
    split at h
    · cases h
      exact hset rfl (.inr ⟨_, rfl, ‹_›⟩) hr
    · cases h
      exact hset rfl (.inr ⟨_, rfl, ‹_›⟩) hr
    · cases h
  | answer j =>
    rw [Api.step] at h
    split at h
    · rename_i hj
      split at h
      all_goals
        cases h
        exact hset rfl (.inl (by rw [hj]; rfl)) hr
    · cases h
  | fill j =>
    rw [Api.step] at h
    split at h
    · rename_i hj
      cases h
      exact hset rfl (.inl (by rw [hj]; rfl)) hr
    · cases h
  | commit | delete | finish | fail | expire =>
    rw [Api.step] at h
    repeat' split at h
    all_goals cases h
    all_goals exact .inl hr

/-- What the guard requires of a request, as long as the data have what it relies on, holds of every
request that is served. -/
theorem Api.guarded {P : D → Prop} {Q : R → Prop}
    {keeps : Overlap D R K V ε ι → Action R K M ι → Prop} {d : D} {acts : List (Action R K M ι)}
    (hguard : ∀ w r, P w → A.guard w r = none → Q r)
    (hkeeps : ∀ u m next ks, keeps u (.commit m) → P u.versions.now →
      A.mutate m u.versions.now = some (next, ks) → P next) (hd : P d)
    (h : Run (Meeting keeps (Steps A.step)) (Overlap.start d) acts s) {i : ι} {r : R}
    (hr : (s.readers i).request? = some r) : Q r := by
  have hinv := h.inv (I := fun u => P u.versions.now ∧
    ∀ i r, (u.readers i).request? = some r → Q r) ?_ ⟨hd, nofun⟩
  · exact hinv.2 i r hr
  rintro u act v ⟨hP, hQ⟩ ⟨hstep, hk⟩
  refine ⟨?_, fun i r hr => ?_⟩
  · cases act with
    | commit m =>
      rw [Steps, Api.step] at hstep
      split at hstep
      · rename_i next ks hm
        cases hstep
        rw [Overlap.commit, Versions.now, show (u.versions.commit next).latest =
          u.versions.latest + 1 from rfl, Versions.data_commit_latest]
        exact hkeeps u m next ks hk hP hm
      · cases hstep
        exact hP
    | lookUp | answer | fill | delete | finish | fail | expire =>
      rw [Steps, Api.step] at hstep
      repeat' split at hstep
      all_goals cases hstep
      all_goals exact hP
  · rcases Api.step_readers hstep hr with hr | hg
    · exact hQ i r hr
    · exact hguard _ r hP hg

end

end CacheAside
