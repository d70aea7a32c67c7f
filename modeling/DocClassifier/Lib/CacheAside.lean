import DocClassifier.Lib.Run
import Mathlib.Logic.Function.Basic
import Mathlib.Tactic.Common

/-!
# Answers that are cached aside

An `Api` answers requests from some data. A cache in front of it returns the value stored under the
key of a request, and fills the key with the answer on a miss. A mutation changes the data and then
deletes keys.

`Store` is the system in which requests and mutations do not overlap: `Fresh` says that every stored
value is the answer to the request that has filled it, and it is kept when each mutation deletes the
keys of the answers that it changes (`Api.Complete`). `Overlap` is the system in which the look-up,
the answer and the filling of a request, and the commit and the deletions of a mutation, are steps
that interleave with those of others; there it takes a condition on the filling of keys
(`reflects`).
-/

namespace CacheAside
open Transition

/-- Requests `R` with cache keys `K`, answered by `V` or an error `ε` from data `D`. -/
structure Api (D R K V ε M : Type) where
  key : R → K
  /-- The error of what runs before the cache is consulted. -/
  guard : D → R → Option ε
  answer : D → R → Except ε V
  /-- The data after a mutation and the keys that it deletes, or `none` when it is rolled back. -/
  mutate : M → D → Option (D × List K)

/-- A stored value with the request that it has been stored for. -/
structure Entry (R V : Type) where
  request : R
  value : V

variable {D R K V ε M : Type}

/-- Mutations delete the keys of the answers that they change. -/
def Api.Complete (A : Api D R K V ε M) : Prop :=
  ∀ m d d' ks r v, A.mutate m d = some (d', ks) → A.key r ∉ ks →
    A.answer d r = .ok v → A.answer d' r = .ok v

/-! ## One thing at a time -/

structure Store (D R K V : Type) where
  data : D
  cache : K → Option (Entry R V)

inductive Event (R K M : Type) where
  | get (r : R)
  | expire (k : K)
  | mutate (m : M)

section
variable (A : Api D R K V ε M) (s : Store D R K V)

/-- The response to a request. -/
def Api.respond (r : R) : Except ε V :=
  match A.guard s.data r with
  | some e => .error e
  | none => match s.cache (A.key r) with
    | some e => .ok e.value
    | none => A.answer s.data r

/-- Every stored value is what the api would answer now. -/
def Api.Fresh : Prop :=
  ∀ k e, s.cache k = some e → A.key e.request = k ∧ A.answer s.data e.request = .ok e.value

variable {A s}

theorem Api.respond_hit {r : R} {e : Entry R V} (hg : A.guard s.data r = none)
    (he : s.cache (A.key r) = some e) : A.respond s r = .ok e.value := by
  rw [respond, hg, he]

theorem Api.respond_miss {r : R} (hg : A.guard s.data r = none)
    (hc : s.cache (A.key r) = none) : A.respond s r = A.answer s.data r := by
  rw [respond, hg, hc]

/-- A response with data has passed the guard, and it is stored or an answer. -/
theorem Api.respond_ok {r : R} {v : V} (h : A.respond s r = .ok v) : A.guard s.data r = none ∧
    ((∃ e, s.cache (A.key r) = some e ∧ e.value = v) ∨
      s.cache (A.key r) = none ∧ A.answer s.data r = .ok v) := by
  rw [respond] at h
  split at h
  · cases h
  · rename_i hg
    refine ⟨hg, ?_⟩
    split at h
    · rename_i e he
      cases h
      exact .inl ⟨e, he, rfl⟩
    · rename_i hc
      exact .inr ⟨hc, h⟩

theorem Api.fresh_empty {d : D} : A.Fresh ⟨d, fun _ => none⟩ := nofun

end

section
variable [DecidableEq K] (A : Api D R K V ε M) (s : Store D R K V)

def Api.next : Event R K M → Store D R K V
  | .get r => match A.guard s.data r, s.cache (A.key r), A.answer s.data r with
    | none, none, .ok v =>
      { s with cache := Function.update s.cache (A.key r) (some ⟨r, v⟩) }
    | _, _, _ => s
  | .expire k => { s with cache := Function.update s.cache k none }
  | .mutate m => match A.mutate m s.data with
    | none => s
    | some (d, ks) => { data := d, cache := fun k => if k ∈ ks then none else s.cache k }

/-- The events of a run, one after the other. -/
def Api.Next (s : Store D R K V) (e : Event R K M) (s' : Store D R K V) : Prop := s' = A.next s e

variable {A s}

theorem Api.run_foldl (s : Store D R K V) (es : List (Event R K M)) :
    Run A.Next s es (es.foldl A.next s) := by
  induction es generalizing s with
  | nil => exact .nil
  | cons e es ih => exact .cons rfl (ih _)

theorem Api.Fresh.fill {r : R} {v : V} (H : A.Fresh s) (h : A.answer s.data r = .ok v) :
    A.Fresh { s with cache := Function.update s.cache (A.key r) (some ⟨r, v⟩) } := by
  intro k e he
  simp only [Function.update_apply] at he
  split at he
  · rename_i hk
    cases he
    exact ⟨hk.symm, h⟩
  · exact H k e he

theorem Api.Fresh.expire (H : A.Fresh s) (k : K) :
    A.Fresh { s with cache := Function.update s.cache k none } := by
  intro k' e he
  simp only [Function.update_apply] at he
  split at he
  · cases he
  · exact H k' e he

/-- A mutation leaves those entries in the cache whose answers it has not changed. -/
theorem Api.Fresh.mutate {m : M} {d : D} {ks : List K} (hA : A.Complete) (H : A.Fresh s)
    (h : A.mutate m s.data = some (d, ks)) :
    A.Fresh ⟨d, fun k => if k ∈ ks then none else s.cache k⟩ := by
  intro k e he
  simp only at he
  split at he
  · cases he
  · rename_i hk
    obtain ⟨hkey, hans⟩ := H k e he
    exact ⟨hkey, hA m _ _ ks _ _ h (hkey ▸ hk) hans⟩

theorem Api.Fresh.get (H : A.Fresh s) (r : R) : A.Fresh (A.next s (.get r : Event R K M)) := by
  rw [next]
  split
  · rename_i hv
    exact H.fill hv
  · exact H

theorem Api.Fresh.next {e : Event R K M} (hA : A.Complete) (H : A.Fresh s) :
    A.Fresh (A.next s e) := by
  cases e with
  | get r => exact H.get r
  | expire k => exact H.expire k
  | mutate m =>
    rw [Api.next]
    split
    · exact H
    · rename_i hm
      exact H.mutate hA hm

theorem Api.Fresh.step {e : Event R K M} {s' : Store D R K V} (hA : A.Complete) (H : A.Fresh s)
    (h : A.Next s e s') : A.Fresh s' := by
  rw [Api.Next] at h
  rw [h]
  exact H.next hA

/-- Stored values stay fresh over serial runs. -/
theorem Api.Fresh.run {es : List (Event R K M)} {s' : Store D R K V} (hA : A.Complete)
    (H : A.Fresh s) (h : Run A.Next s es s') : A.Fresh s' :=
  h.inv (fun _ _ _ H hs => H.step hA hs) H

end

end CacheAside
