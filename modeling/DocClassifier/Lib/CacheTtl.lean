import DocClassifier.Lib.CacheRace

/-!
# Values that expire

Requests and calls that overlap, with a clock. A stored value is not delivered any more once its
time to live is over. Nothing is asked of the deletions: they may come late, fail, or delete the
wrong keys. When a value is stored at most `L` after it was read, a response is never staler than
the time to live and `L` together (`Api.recent`).
-/

namespace CacheAside
open Transition

variable {D R K V ε M ι : Type}

/-- Overlapping requests and calls, and when the things in it have happened. -/
structure Timed (D R K V ε ι : Type) extends Overlap D R K V ε ι where
  clock : Nat
  madeAt : Nat → Nat
  storedAt : K → Nat
  readAt : ι → Nat
  askedAt : ι → Nat

inductive TimedAction (R K M ι : Type) where
  | tick (n : Nat)
  | act (a : Action R K M ι)

def Timed.start (d : D) : Timed D R K V ε ι :=
  { Overlap.start d with
    clock := 0
    madeAt := fun _ => 0
    storedAt := fun _ => 0
    readAt := fun _ => 0
    askedAt := fun _ => 0 }

section
variable [DecidableEq K] [DecidableEq ι] (A : Api D R K V ε M) (ttl : R → Nat)

/-- A look-up does not find a value whose time is over. -/
def Api.alive (s : Timed D R K V ε ι) : Action R K M ι → Bool
  | .lookUp _ r => match s.cache (A.key r) with
    | some (e, _) => s.clock < s.storedAt (A.key r) + ttl e.request
    | none => true
  | _ => true

/-- The state after an action, with the time of what the action has done. -/
def Api.stamp (s : Timed D R K V ε ι) (a : Action R K M ι) (s' : Overlap D R K V ε ι) :
    Timed D R K V ε ι :=
  { s' with
    clock := s.clock
    madeAt := fun v => if v ≤ s.versions.latest then s.madeAt v else s.clock
    storedAt := match a with
      | .fill i => match s.readers i with
        | .answered r _ _ _ => Function.update s.storedAt (A.key r) s.clock
        | _ => s.storedAt
      | _ => s.storedAt
    readAt := match a with
      | .answer i => Function.update s.readAt i s.clock
      | _ => s.readAt
    askedAt := match a with
      | .lookUp i _ => Function.update s.askedAt i s.clock
      | _ => s.askedAt }

def Api.timedStep (s : Timed D R K V ε ι) : TimedAction R K M ι → Option (Timed D R K V ε ι)
  | .tick n => some { s with clock := s.clock + n }
  | .act a => if A.alive ttl s a then (A.step s.toOverlap a).map (A.stamp s a) else none

end

/-- A value is stored at most `L` after it was read. -/
def FilledWithin (L : Nat) (s : Timed D R K V ε ι) : TimedAction R K M ι → Prop
  | .act (.fill i) => s.clock ≤ s.readAt i + L
  | _ => True

instance (L : Nat) (s : Timed D R K V ε ι) :
    (a : TimedAction R K M ι) → Decidable (FilledWithin L s a)
  | .act (.fill i) => inferInstanceAs (Decidable (s.clock ≤ s.readAt i + L))
  | .tick _ | .act (.lookUp ..) | .act (.answer _) | .act (.commit _) | .act (.delete _)
  | .act (.finish _) | .act (.fail _) | .act (.expire _) => .isTrue trivial

/-- What was made after version `a` was made at most `n` before the time `τ`. -/
structure Timed.Within (s : Timed D R K V ε ι) (n τ a : Nat) : Prop where
  le : τ ≤ s.clock
  made : ∀ b, a < b → b ≤ s.versions.latest → τ ≤ s.madeAt b + n

/-- `s'` comes after `s`. -/
structure Timed.Later (s s' : Timed D R K V ε ι) : Prop where
  clock : s.clock ≤ s'.clock
  latest : s.versions.latest ≤ s'.versions.latest
  data : ∀ a, a ≤ s.versions.latest → s'.versions.data a = s.versions.data a
  madeAt : ∀ a, a ≤ s.versions.latest → s'.madeAt a = s.madeAt a
  made : ∀ a, s.versions.latest < a → a ≤ s'.versions.latest → s.clock ≤ s'.madeAt a

section
variable {s s' : Timed D R K V ε ι} {n n' τ τ' a : Nat}

theorem Timed.Within.later (H : s.Within n τ a) (h : s.Later s') : s'.Within n τ a := by
  refine ⟨Nat.le_trans H.le h.clock, fun b hab hb => ?_⟩
  by_cases hle : b ≤ s.versions.latest
  · rw [h.madeAt b hle]
    exact H.made b hab hle
  · have hclock := h.made b (by omega) hb
    have hle := H.le
    omega

/-- The latest version is not stale at all. -/
theorem Timed.within_latest (hτ : τ ≤ s.clock) : s.Within n τ s.versions.latest :=
  ⟨hτ, fun b hab hb => by omega⟩

theorem Timed.Within.weaken (H : s.Within n τ a) (hτ : τ' + n ≤ τ + n') (hle : τ' ≤ s.clock) :
    s.Within n' τ' a := by
  refine ⟨hle, fun b hab hb => ?_⟩
  have hmade := H.made b hab hb
  omega

end

section
variable (A : Api D R K V ε M) (ttl : R → Nat) (L : Nat) (s : Timed D R K V ε ι)

/-- A value with the version that it was read from, stored at the time `τ`. -/
structure Api.EntryRecent (τ : Nat) (k : K) (e : Entry R V) (a : Nat) : Prop where
  key : A.key e.request = k
  le : a ≤ s.versions.latest
  answer : A.answer (s.versions.data a) e.request = .ok e.value
  within : s.Within L τ a

/-- The response to a request that has looked its key up at the time `τ` is the answer, at some
version, to a request with the same key, and what was made since is younger than the time to
live. -/
def Api.Recent (τ : Nat) (r : R) (response : Except ε V) : Prop :=
  ∃ r' a, A.key r' = A.key r ∧ a ≤ s.versions.latest ∧
    A.answer (s.versions.data a) r' = response ∧ s.Within (ttl r' + L) τ a

def Api.ReaderRecent (asked read : Nat) : Reader R K V ε → Prop
  | .idle => True
  | .missed _ _ => asked ≤ s.clock
  | .answered r _ a v => asked ≤ read ∧ a ≤ s.versions.latest ∧
    A.answer (s.versions.data a) r = .ok v ∧ s.Within 0 read a
  | .done r _ response => A.Recent ttl L s asked r response

structure Api.TimedInv : Prop where
  entries : ∀ k e a, s.cache k = some (e, a) → A.EntryRecent L s (s.storedAt k) k e a
  readers : ∀ i, A.ReaderRecent ttl L s (s.askedAt i) (s.readAt i) (s.readers i)

end

section
variable {A : Api D R K V ε M} {ttl : R → Nat} {L : Nat} {s s' : Timed D R K V ε ι}

theorem Api.EntryRecent.later {τ a : Nat} {k : K} {e : Entry R V}
    (H : A.EntryRecent L s τ k e a) (h : s.Later s') : A.EntryRecent L s' τ k e a :=
  ⟨H.key, Nat.le_trans H.le h.latest, by rw [h.data a H.le]; exact H.answer, H.within.later h⟩

theorem Api.ReaderRecent.later {asked read : Nat} {x : Reader R K V ε}
    (H : A.ReaderRecent ttl L s asked read x) (h : s.Later s') :
    A.ReaderRecent ttl L s' asked read x := by
  cases x with
  | idle => trivial
  | missed r before => exact Nat.le_trans H h.clock
  | answered r before a v =>
    obtain ⟨hasked, hle, hans, hwithin⟩ := H
    exact ⟨hasked, Nat.le_trans hle h.latest, by rw [h.data a hle]; exact hans, hwithin.later h⟩
  | done r before response =>
    obtain ⟨r', a, hkey, hle, hans, hwithin⟩ := H
    exact ⟨r', a, hkey, Nat.le_trans hle h.latest, by rw [h.data a hle]; exact hans,
      hwithin.later h⟩

/-- It is enough to look at what a step has changed. -/
theorem Api.TimedInv.of_later (H : A.TimedInv ttl L s) (h : s.Later s')
    (hcache : ∀ k e a, s'.cache k = some (e, a) →
      s.cache k = some (e, a) ∧ s'.storedAt k = s.storedAt k ∨
      A.EntryRecent L s' (s'.storedAt k) k e a)
    (hreaders : ∀ i, (s'.readers i = s.readers i ∧ s'.askedAt i = s.askedAt i ∧
        s'.readAt i = s.readAt i) ∨
      A.ReaderRecent ttl L s' (s'.askedAt i) (s'.readAt i) (s'.readers i)) :
    A.TimedInv ttl L s' := by
  refine ⟨fun k e a he => ?_, fun i => ?_⟩
  · rcases hcache k e a he with ⟨he, hτ⟩ | hnew
    · rw [hτ]
      exact (H.entries k e a he).later h
    · exact hnew
  · rcases hreaders i with ⟨hx, hasked, hread⟩ | hnew
    · rw [hx, hasked, hread]
      exact (H.readers i).later h
    · exact hnew

/-- A step of the request `i`. -/
theorem Api.TimedInv.of_reader (H : A.TimedInv ttl L s) (h : s.Later s') (i : ι)
    (hcache : ∀ k e a, s'.cache k = some (e, a) →
      s.cache k = some (e, a) ∧ s'.storedAt k = s.storedAt k ∨
      A.EntryRecent L s' (s'.storedAt k) k e a)
    (hother : ∀ j, j ≠ i → s'.readers j = s.readers j ∧ s'.askedAt j = s.askedAt j ∧
      s'.readAt j = s.readAt j)
    (hi : A.ReaderRecent ttl L s' (s'.askedAt i) (s'.readAt i) (s'.readers i)) :
    A.TimedInv ttl L s' := by
  refine H.of_later h hcache fun j => ?_
  by_cases hj : j = i
  · subst hj
    exact .inr hi
  · exact .inl (hother j hj)

/-- A value that is still delivered is recent. -/
theorem Api.EntryRecent.recent {τ a : Nat} {r : R} {e : Entry R V}
    (H : A.EntryRecent L s τ (A.key r) e a) (halive : s.clock < τ + ttl e.request) :
    A.Recent ttl L s s.clock r (.ok e.value) :=
  ⟨e.request, a, H.key, H.le, H.answer, H.within.weaken (by omega) (Nat.le_refl _)⟩

end

/-! ## The steps -/

section
variable [DecidableEq K] [DecidableEq ι] {A : Api D R K V ε M} {ttl : R → Nat} {L : Nat}
  {s s' : Timed D R K V ε ι} {a : Action R K M ι} {u : Overlap D R K V ε ι}

theorem Api.step_versions (h : A.step s.toOverlap a = some u) :
    u.versions = s.versions ∨ ∃ next, u.versions = s.versions.commit next := by
  cases a with
  | commit m =>
    rw [Api.step] at h
    split at h <;> cases h
    · exact .inr ⟨_, rfl⟩
    · exact .inl rfl
  | lookUp | answer | fill | delete | finish | fail | expire =>
    rw [Api.step] at h
    repeat' split at h
    all_goals cases h
    all_goals exact .inl rfl

theorem Api.later_stamp (h : A.step s.toOverlap a = some u) : s.Later (A.stamp s a u) := by
  have hmadeAt : ∀ v, (A.stamp s a u).madeAt v =
    if v ≤ s.versions.latest then s.madeAt v else s.clock := fun _ => rfl
  have hversions : (A.stamp s a u).versions = u.versions := rfl
  rcases Api.step_versions h with hu | ⟨next, hu⟩
  · refine ⟨Nat.le_refl _, Nat.le_of_eq ?_, fun v _ => ?_, fun v hv => ?_, fun v hv hv' => ?_⟩
    · rw [hversions, hu]
    · rw [hversions, hu]
    · rw [hmadeAt, if_pos hv]
    · rw [hversions, hu] at hv'
      omega
  · refine ⟨Nat.le_refl _, ?_, fun v hv => ?_, fun v hv => ?_, fun v hv hv' => ?_⟩
    · rw [hversions, hu]
      exact Nat.le_succ _
    · rw [hversions, hu, Versions.data_commit hv]
    · rw [hmadeAt, if_pos hv]
    · exact Nat.le_of_eq (if_neg (by omega)).symm

/-- The actions of the calls, and of Redis, only take values away. -/
theorem Api.TimedInv.drop (H : A.TimedInv ttl L s) (h : A.step s.toOverlap a = some u)
    (hcache : ∀ k e v, u.cache k = some (e, v) → s.cache k = some (e, v))
    (hreaders : u.readers = s.readers) (hstored : (A.stamp s a u).storedAt = s.storedAt)
    (hread : (A.stamp s a u).readAt = s.readAt) (hasked : (A.stamp s a u).askedAt = s.askedAt) :
    A.TimedInv ttl L (A.stamp s a u) :=
  H.of_later (later_stamp h) (fun k e v he => .inl ⟨hcache k e v he, by rw [hstored]⟩)
    fun i => .inl ⟨congrFun hreaders i, by rw [hasked], by rw [hread]⟩

omit [DecidableEq ι] in
theorem cache_of_setCache {x : Overlap D R K V ε ι} {k k' : K} {e : Entry R V} {v : Nat}
    (h : (x.setCache k none).cache k' = some (e, v)) : x.cache k' = some (e, v) := by
  simp only [Overlap.setCache, Function.update_apply] at h
  split at h
  · cases h
  · exact h

/-- The request `i` has looked its key up. -/
theorem Api.TimedInv.asked {i : ι} {r : R} {x : Reader R K V ε} (H : A.TimedInv ttl L s)
    (h : A.step s.toOverlap (.lookUp i r : Action R K M ι) = some (s.toOverlap.setReader i x))
    (hx : ∀ read, A.ReaderRecent ttl L s s.clock read x) :
    A.TimedInv ttl L (A.stamp s (.lookUp i r : Action R K M ι) (s.toOverlap.setReader i x)) := by
  have hlater := later_stamp h
  refine H.of_reader hlater i (fun k e v he => .inl ⟨he, rfl⟩)
    (fun j hj => ⟨Function.update_of_ne hj _ _, Function.update_of_ne hj _ _, rfl⟩) ?_
  have hi : (s.toOverlap.setReader i x).readers i = x := Function.update_self _ _ _
  have hasked : Function.update s.askedAt i s.clock i = s.clock := Function.update_self _ _ _
  simp only [stamp, hi, hasked]
  exact (hx _).later hlater

theorem Api.TimedInv.lookUp {i : ι} {r : R} (H : A.TimedInv ttl L s)
    (halive : A.alive ttl s (.lookUp i r : Action R K M ι))
    (h : A.step s.toOverlap (.lookUp i r : Action R K M ι) = some u) :
    A.TimedInv ttl L (A.stamp s (.lookUp i r : Action R K M ι) u) := by
  have hstep := h
  rw [Api.step] at h
  split at h
  · rename_i e v _ _ he
    cases h
    rw [Api.alive, he] at halive
    exact H.asked hstep fun _ => (H.entries _ e v he).recent (of_decide_eq_true halive)
  · cases h
    exact H.asked hstep fun _ => Nat.le_refl _
  · cases h

/-- The request `i` has been answered. -/
theorem Api.TimedInv.read {i : ι} {x : Reader R K V ε} (H : A.TimedInv ttl L s)
    (h : A.step s.toOverlap (.answer i : Action R K M ι) = some (s.toOverlap.setReader i x))
    (hx : A.ReaderRecent ttl L s (s.askedAt i) s.clock x) :
    A.TimedInv ttl L (A.stamp s (.answer i : Action R K M ι) (s.toOverlap.setReader i x)) := by
  have hlater := later_stamp h
  refine H.of_reader hlater i (fun k e v he => .inl ⟨he, rfl⟩)
    (fun j hj => ⟨Function.update_of_ne hj _ _, rfl, Function.update_of_ne hj _ _⟩) ?_
  have hi : (s.toOverlap.setReader i x).readers i = x := Function.update_self _ _ _
  have hread : Function.update s.readAt i s.clock i = s.clock := Function.update_self _ _ _
  simp only [stamp, hi, hread]
  exact hx.later hlater

theorem Api.TimedInv.answer {i : ι} (H : A.TimedInv ttl L s)
    (h : A.step s.toOverlap (.answer i : Action R K M ι) = some u) :
    A.TimedInv ttl L (A.stamp s (.answer i : Action R K M ι) u) := by
  have hstep := h
  rw [Api.step] at h
  split at h
  · rename_i r before hi
    have hasked : s.askedAt i ≤ s.clock := by
      have hok := H.readers i
      rw [hi] at hok
      exact hok
    split at h
    · rename_i v hv
      cases h
      exact H.read hstep ⟨hasked, Nat.le_refl _, hv, Timed.within_latest (Nat.le_refl _)⟩
    · rename_i e hv
      cases h
      exact H.read hstep ⟨r, _, rfl, Nat.le_refl _, hv, Timed.within_latest hasked⟩
  · cases h

theorem Api.TimedInv.fill {i : ι} (H : A.TimedInv ttl L s)
    (hC : FilledWithin L s (.act (.fill i) : TimedAction R K M ι))
    (h : A.step s.toOverlap (.fill i : Action R K M ι) = some u) :
    A.TimedInv ttl L (A.stamp s (.fill i : Action R K M ι) u) := by
  have hstep := h
  rw [Api.step] at h
  split at h
  · rename_i r before v value hi
    cases h
    have hok := H.readers i
    rw [hi] at hok
    obtain ⟨hasked, hle, hans, hwithin⟩ := hok
    have hfilled : s.clock ≤ s.readAt i + L := hC
    have hentry : A.EntryRecent L s s.clock (A.key r) ⟨r, value⟩ v :=
      ⟨rfl, hle, hans, hwithin.weaken (by omega) (Nat.le_refl _)⟩
    have hrecent : A.Recent ttl L s (s.askedAt i) r (.ok value) :=
      ⟨r, v, rfl, hle, hans, hwithin.weaken (by omega) (Nat.le_trans hasked hwithin.le)⟩
    have hlater := later_stamp hstep
    have hstored : ∀ u, (A.stamp s (.fill i : Action R K M ι) u).storedAt =
        Function.update s.storedAt (A.key r) s.clock := fun u => by simp only [stamp, hi]
    refine H.of_reader hlater i (fun k e w he => ?_)
      (fun j hj => ⟨Function.update_of_ne hj _ _, rfl, rfl⟩) ?_
    · rw [hstored, Function.update_apply]
      have hcache : Function.update s.cache (A.key r) (some (⟨r, value⟩, v)) k = some (e, w) := he
      rw [Function.update_apply] at hcache
      split at hcache
      · rename_i hk
        cases hcache
        rw [if_pos hk, hk]
        exact .inr (hentry.later hlater)
      · rename_i hk
        exact .inl ⟨hcache, if_neg hk⟩
    · have hself : Function.update s.readers i (.done r before (.ok value)) i =
          .done r before (.ok value) := Function.update_self _ _ _
      simp only [stamp, Overlap.setReader, Overlap.setCache, hself]
      exact Api.ReaderRecent.later (x := .done r before (.ok value)) hrecent hlater
  · cases h

theorem Api.TimedInv.act (H : A.TimedInv ttl L s) (hC : FilledWithin L s (.act a))
    (halive : A.alive ttl s a) (h : A.step s.toOverlap a = some u) :
    A.TimedInv ttl L (A.stamp s a u) := by
  have hstep := h
  cases a with
  | lookUp i r => exact H.lookUp halive h
  | answer i => exact H.answer h
  | fill i => exact H.fill hC h
  | commit m =>
    rw [Api.step] at h
    split at h <;> cases h <;> exact H.drop hstep (fun _ _ _ he => he) rfl rfl rfl rfl
  | delete n =>
    rw [Api.step] at h
    split at h <;> cases h
    exact H.drop hstep (fun _ _ _ he => cache_of_setCache he) rfl rfl rfl rfl
  | finish n | fail n =>
    rw [Api.step] at h
    split at h <;> cases h
    exact H.drop hstep (fun _ _ _ he => he) rfl rfl rfl rfl
  | expire k =>
    cases h
    exact H.drop hstep (fun _ _ _ he => cache_of_setCache he) rfl rfl rfl rfl

theorem Api.TimedInv.step {act : TimedAction R K M ι} (H : A.TimedInv ttl L s)
    (hC : FilledWithin L s act) (h : A.timedStep ttl s act = some s') : A.TimedInv ttl L s' := by
  cases act with
  | tick n =>
    cases h
    have hlater : s.Later { s with clock := s.clock + n } :=
      ⟨Nat.le_add_right _ _, Nat.le_refl _, fun _ _ => rfl, fun _ _ => rfl,
        fun _ hv hv' => absurd hv' (Nat.not_le.mpr hv)⟩
    exact H.of_later hlater (fun _ _ _ he => .inl ⟨he, rfl⟩) fun _ => .inl ⟨rfl, rfl, rfl⟩
  | act a =>
    simp only [Api.timedStep] at h
    split at h
    · rename_i halive
      obtain ⟨u, hu, rfl⟩ := Option.map_eq_some_iff.mp h
      exact H.act hC halive hu
    · cases h

omit [DecidableEq K] [DecidableEq ι] in
theorem Api.timedInv_start (d : D) : A.TimedInv ttl L (Timed.start d : Timed D R K V ε ι) :=
  ⟨nofun, fun _ => trivial⟩

/-- Every response is recent, whatever becomes of the deletions. -/
theorem Api.recent {d : D} {acts : List (TimedAction R K M ι)}
    (h : Run (Meeting (FilledWithin L) (Steps (A.timedStep ttl))) (Timed.start d) acts s) {i : ι}
    {r : R} {before : List (Writer K)} {response : Except ε V}
    (hi : s.readers i = .done r before response) : A.Recent ttl L s (s.askedAt i) r response := by
  have H : A.TimedInv ttl L s := h.inv (fun _ _ _ H hs => H.step hs.2 hs.1) (A.timedInv_start d)
  have hok := H.readers i
  rw [hi] at hok
  exact hok

end

end CacheAside
