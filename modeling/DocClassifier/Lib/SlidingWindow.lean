import Mathlib.Order.Lattice
import Mathlib.Data.List.Basic

/-!
# Sliding-window limiters

A limiter keeps a list of times. When a request comes it drops the times that no longer count,
and admits the request, adding its time, while fewer than `limit` are left. `Tracks` relates the
kept list to the list of everything ever admitted: the two agree on the times that still count, now
and at every later time. So the limiter decides as if it had forgotten nothing (`Tracks.offer_iff`).

`live now t` says that the time `t` still counts at `now`; it may only stop to hold as `now` grows.
-/

namespace SlidingWindow

variable {τ : Type*} (live : τ → τ → Prop) [DecidableRel live] (limit : Nat)

/-- The kept times after a request at `now`, and whether it was admitted. -/
def offer (kept : List τ) (now : τ) : Bool × List τ :=
  let recent := kept.filter (fun t => live now t)
  if limit ≤ recent.length then (false, recent) else (true, recent ++ [now])

theorem offer_of_le {kept : List τ} {now : τ}
    (h : limit ≤ (kept.filter (fun t => live now t)).length) :
    offer live limit kept now = (false, kept.filter (fun t => live now t)) := by
  simp only [offer, if_pos h]

theorem offer_of_lt {kept : List τ} {now : τ}
    (h : (kept.filter (fun t => live now t)).length < limit) :
    offer live limit kept now = (true, kept.filter (fun t => live now t) ++ [now]) := by
  simp only [offer, if_neg (Nat.not_le.2 h)]

variable [LinearOrder τ]

/-- Times of which any two count together, when the later one is `now`. -/
def Window (P : τ → Prop) : Prop := ∀ s t, P s → P t → s ≤ t → live t s

/-- The list `kept` does for the `admitted` times, from the time `last` on. -/
structure Tracks (last : τ) (kept admitted : List τ) : Prop where
  same : ∀ now, last ≤ now →
    kept.filter (fun t => live now t) = admitted.filter (fun t => live now t)
  past : ∀ t ∈ admitted, t ≤ last
  length_le : kept.length ≤ limit
  window : ∀ (P : τ → Prop) [DecidablePred P], Window live P → admitted.countP P ≤ limit

variable {live limit} {last now : τ} {kept admitted : List τ}

theorem Tracks.nil : Tracks live limit last [] [] where
  same _ _ := rfl
  past := nofun
  length_le := Nat.zero_le _
  window _ _ _ := Nat.zero_le _

theorem Tracks.later (h : Tracks live limit last kept admitted) (hl : last ≤ now) :
    Tracks live limit now kept admitted where
  same n hn := h.same n (hl.trans hn)
  past t ht := (h.past t ht).trans hl
  length_le := h.length_le
  window := h.window

/-- The decision is that of a limiter that keeps every admitted time. -/
theorem Tracks.offer_iff (h : Tracks live limit last kept admitted) (hl : last ≤ now) :
    (offer live limit kept now).1 = true ↔ admitted.countP (fun t => live now t) < limit := by
  rw [List.countP_eq_length_filter, ← h.same now hl]
  by_cases hlen : limit ≤ (kept.filter (fun t => live now t)).length
  · rw [offer_of_le live limit hlen]
    exact iff_of_false Bool.false_ne_true (Nat.not_lt.2 hlen)
  · rw [offer_of_lt live limit (Nat.not_le.1 hlen)]
    exact iff_of_true rfl (Nat.not_le.1 hlen)

/-- Filtering at `now` loses nothing that a filter at a later time keeps. -/
theorem filter_filter_live (hanti : ∀ s m n, m ≤ n → live n s → live m s) (l : List τ) {n : τ}
    (hn : now ≤ n) :
    (l.filter (fun t => live now t)).filter (fun t => live n t) =
      l.filter (fun t => live n t) := by
  rw [List.filter_filter]
  refine List.filter_congr fun t _ => ?_
  have hmn := hanti t now n hn
  by_cases h : live n t
  · simp only [h, hmn h, decide_true, Bool.and_self]
  · simp only [h, decide_false, Bool.false_and]

/-- A window that contains `now` holds fewer than `limit` admitted times when `now` is admitted. -/
theorem Tracks.window_lt (h : Tracks live limit last kept admitted) (hl : last ≤ now)
    (hadm : (offer live limit kept now).1 = true) {P : τ → Prop} [DecidablePred P]
    (hP : Window live P) (hnow : P now) : admitted.countP P < limit := by
  refine Nat.lt_of_le_of_lt ?_ ((h.offer_iff hl).1 hadm)
  refine List.countP_mono_left fun t ht hPt => ?_
  have hle := (h.past t ht).trans hl
  exact decide_eq_true (hP t now (of_decide_eq_true hPt) hnow hle)

/-- One request: the kept list goes on doing for the admitted times. -/
theorem Tracks.step (hanti : ∀ s m n, m ≤ n → live n s → live m s)
    (h : Tracks live limit last kept admitted) (hl : last ≤ now) :
    Tracks live limit now (offer live limit kept now).2
      (if (offer live limit kept now).1 then admitted ++ [now] else admitted) := by
  have hnow := h.later hl
  have hsame : ∀ n, now ≤ n → (kept.filter (fun t => live now t)).filter (fun t => live n t) =
      admitted.filter (fun t => live n t) := by
    intro n hn
    rw [filter_filter_live hanti kept hn, hnow.same n hn]
  by_cases hlen : limit ≤ (kept.filter (fun t => live now t)).length
  · rw [offer_of_le live limit hlen]
    exact ⟨hsame, hnow.past, Nat.le_trans (List.length_filter_le _ _) h.length_le, h.window⟩
  · have hadm := offer_of_lt live limit (Nat.not_le.1 hlen)
    have hwin := fun P [DecidablePred P] => h.window_lt (P := P) hl (by rw [hadm])
    rw [hadm, if_pos rfl]
    constructor
    · intro n hn
      rw [List.filter_append, List.filter_append, hsame n hn]
    · intro t ht
      rcases List.mem_append.1 ht with ht | ht
      · exact hnow.past t ht
      · exact (List.mem_singleton.1 ht).le
    · rw [List.length_append, List.length_singleton]
      exact Nat.not_le.1 hlen
    · intro P _ hP
      rw [List.countP_append]
      by_cases hn : P now
      · have := hwin P hP hn
        rw [List.countP_singleton, if_pos (decide_eq_true hn)]
        exact this
      · rw [List.countP_singleton, if_neg (by simpa using hn), Nat.add_zero]
        exact h.window P hP

end SlidingWindow
