import Mathlib.Data.Rat.Defs
import Mathlib.Algebra.Order.Ring.Rat
import Mathlib.Data.List.Induction
import DocClassifier.Lib.SlidingWindow

/-!
# The login limiter

`loginRateLimit` is the middleware of `app/api/main.py`. It runs no `await` between reading the list
of an address and writing it back, so requests are served one after another. Of the times that
`time.monotonic()` returns only the order of their differences counts (`ClockTime`), so all of this
holds for doubles, whose differences are rounded, as for exact numbers.
-/

namespace DocClassifier.LoginLimiter

/-- Times in seconds whose differences are exact, or rounded in a way that keeps their order. -/
class ClockTime (τ : Type) extends LinearOrder τ, Sub τ, OfNat τ 60 where
  sub_mono : ∀ {m n : τ} (s : τ), m ≤ n → m - s ≤ n - s
  sub_anti : ∀ {s t : τ} (n : τ), s ≤ t → n - t ≤ n - s

instance : ClockTime ℚ where
  sub_mono s h := sub_le_sub_right h s
  sub_anti n h := sub_le_sub_left h n

variable {τ : Type} [ClockTime τ]

def LOGIN_MAX : Nat := 5
def LOGIN_WIN : τ := 60

/-- A request, and the clock when the middleware handles it. -/
structure Arrival (τ : Type) where
  now : τ
  path : String
  client : Option String
  deriving DecidableEq

structure Response where
  content : String
  statusCode : Nat
  mediaType : String
  deriving DecidableEq

/-- The request goes on to the application, or is answered here. -/
inductive Reply
  | callNext
  | response (r : Response)
  deriving DecidableEq

/-- `defaultdict(list)`: an address that was never looked up has the empty list. -/
abbrev LoginStore (τ : Type) := String → List τ

def Arrival.ip (r : Arrival τ) : String := r.client.getD "unknown"

def Arrival.IsLogin (r : Arrival τ) : Prop := r.path = "/auth/jwt/login"

instance (r : Arrival τ) : Decidable r.IsLogin := inferInstanceAs (Decidable (_ = _))

def tooManyAttempts : Response where
  content := "\x7b\"detail\":\"Too many login attempts. Try again later.\"\x7d"
  statusCode := 429
  mediaType := "application/json"

def loginRateLimit (loginStore : LoginStore τ) (request : Arrival τ) : Reply × LoginStore τ :=
  if request.IsLogin then
    let recent := (loginStore request.ip).filter (fun t => request.now - t < LOGIN_WIN)
    let loginStore := Function.update loginStore request.ip recent
    if recent.length ≥ LOGIN_MAX then
      (.response tooManyAttempts, loginStore)
    else
      (.callNext, Function.update loginStore request.ip (loginStore request.ip ++ [request.now]))
  else
    (.callNext, loginStore)

/-- An entry counts while it is younger than the window. -/
def Live (now t : τ) : Prop := now - t < LOGIN_WIN

instance : DecidableRel (Live : τ → τ → Prop) :=
  fun now t => inferInstanceAs (Decidable (now - t < LOGIN_WIN))

theorem Live.anti (s m n : τ) (hmn : m ≤ n) (h : Live n s) : Live m s :=
  lt_of_le_of_lt (ClockTime.sub_mono s hmn) h

theorem loginRateLimit_of_not_login {r : Arrival τ} (h : ¬ r.IsLogin) (store : LoginStore τ) :
    loginRateLimit store r = (.callNext, store) := if_neg h

/-- On the list of its own address a login request is a sliding-window limiter. -/
theorem loginRateLimit_login {r : Arrival τ} (h : r.IsLogin) (store : LoginStore τ) :
    loginRateLimit store r =
      (if (SlidingWindow.offer Live LOGIN_MAX (store r.ip) r.now).1 then .callNext
        else .response tooManyAttempts,
       Function.update store r.ip (SlidingWindow.offer Live LOGIN_MAX (store r.ip) r.now).2) := by
  rw [loginRateLimit, if_pos h]
  by_cases hlen : LOGIN_MAX ≤ ((store r.ip).filter (fun t => Live r.now t)).length
  · rw [SlidingWindow.offer_of_le Live LOGIN_MAX hlen]
    exact if_pos hlen
  · rw [SlidingWindow.offer_of_lt Live LOGIN_MAX (Nat.not_le.1 hlen)]
    refine (if_neg hlen).trans ?_
    rw [Function.update_self, Function.update_idem]
    rfl

theorem loginRateLimit_callNext {r : Arrival τ} (h : r.IsLogin) (store : LoginStore τ) :
    (loginRateLimit store r).1 = .callNext ↔
      (SlidingWindow.offer Live LOGIN_MAX (store r.ip) r.now).1 = true := by
  rw [loginRateLimit_login h]
  cases (SlidingWindow.offer Live LOGIN_MAX (store r.ip) r.now).1 with
  | true => exact iff_of_true rfl rfl
  | false => exact iff_of_false Reply.noConfusion Bool.false_ne_true

theorem loginRateLimit_self {r : Arrival τ} (h : r.IsLogin) (store : LoginStore τ) :
    (loginRateLimit store r).2 r.ip =
      (SlidingWindow.offer Live LOGIN_MAX (store r.ip) r.now).2 := by
  rw [loginRateLimit_login h]
  exact Function.update_self ..

theorem loginRateLimit_other {r : Arrival τ} {a : String} (h : r.ip ≠ a) (store : LoginStore τ) :
    (loginRateLimit store r).2 a = store a := by
  by_cases hl : r.IsLogin
  · rw [loginRateLimit_login hl]
    exact Function.update_of_ne (Ne.symm h) _ _
  · rw [loginRateLimit_of_not_login hl]

/-- One request, seen from one address. -/
theorem loginRateLimit_tracks {r : Arrival τ} {a : String} {store : LoginStore τ} {last : τ}
    {h : List τ} (ht : SlidingWindow.Tracks Live LOGIN_MAX last (store a) h) (hl : last ≤ r.now) :
    SlidingWindow.Tracks Live LOGIN_MAX r.now ((loginRateLimit store r).2 a)
      (if r.IsLogin ∧ r.ip = a ∧ (loginRateLimit store r).1 = .callNext
        then h ++ [r.now] else h) := by
  by_cases hip : r.ip = a
  · subst hip
    by_cases hlog : r.IsLogin
    · have hstep := ht.step Live.anti hl
      rw [loginRateLimit_self hlog]
      simpa only [hlog, loginRateLimit_callNext hlog, true_and] using hstep
    · rw [if_neg (fun hv => hlog hv.1), loginRateLimit_of_not_login hlog]
      exact ht.later hl
  · rw [if_neg (fun hv => hip hv.2.1), loginRateLimit_other hip]
    exact ht.later hl

/-- The reply and the new list of an address are read off the old list of that address. -/
theorem loginRateLimit_congr {r : Arrival τ} {store store' : LoginStore τ}
    (h : store r.ip = store' r.ip) :
    (loginRateLimit store r).1 = (loginRateLimit store' r).1 ∧
      (loginRateLimit store r).2 r.ip = (loginRateLimit store' r).2 r.ip := by
  by_cases hl : r.IsLogin
  · rw [loginRateLimit_self hl, loginRateLimit_self hl, loginRateLimit_login hl,
      loginRateLimit_login hl, h]
    exact ⟨rfl, rfl⟩
  · rw [loginRateLimit_of_not_login hl, loginRateLimit_of_not_login hl]
    exact ⟨rfl, h⟩

/-- A request that has been replied to. -/
structure Visit (τ : Type) extends Arrival τ where
  reply : Reply
  deriving DecidableEq

/-- The requests in the order in which they are handled. -/
def serve (store : LoginStore τ) : List (Arrival τ) → List (Visit τ) × LoginStore τ
  | [] => ([], store)
  | r :: rs =>
    let (reply, store) := loginRateLimit store r
    let (visits, store) := serve store rs
    (⟨r, reply⟩ :: visits, store)

/-- The store when the process starts. -/
def noLogins : LoginStore τ := fun _ => []

/-- The times at which login requests of the address were forwarded. -/
def forwarded (a : String) (visits : List (Visit τ)) : List τ :=
  (visits.filter fun v => v.IsLogin ∧ v.ip = a ∧ v.reply = .callNext).map (·.now)

variable {store store' : LoginStore τ}

theorem serve_snoc (store : LoginStore τ) (rs : List (Arrival τ)) (r : Arrival τ) :
    serve store (rs ++ [r]) =
      ((serve store rs).1 ++ [⟨r, (loginRateLimit (serve store rs).2 r).1⟩],
       (loginRateLimit (serve store rs).2 r).2) := by
  induction rs generalizing store with
  | nil => rfl
  | cons x rs ih =>
    simp only [List.cons_append, serve, ih]

/-- A visit was replied to in the store that the requests before it had left. -/
theorem serve_split {rs : List (Arrival τ)} {v : Visit τ} {pre post : List (Visit τ)}
    (h : (serve store rs).1 = pre ++ v :: post) :
    ∃ rs' rs'', rs = rs' ++ v.toArrival :: rs'' ∧ (serve store rs').1 = pre ∧
      v.reply = (loginRateLimit (serve store rs').2 v.toArrival).1 := by
  induction pre generalizing store rs with
  | nil =>
    cases rs with
    | nil => cases h
    | cons r rs =>
      obtain ⟨rfl, rfl⟩ := List.cons.inj h
      exact ⟨[], rs, rfl, rfl, rfl⟩
  | cons x pre ih =>
    cases rs with
    | nil => cases h
    | cons r rs =>
      obtain ⟨rfl, htail⟩ := List.cons.inj h
      obtain ⟨rs', rs'', rfl, rfl, hv⟩ := ih htail
      exact ⟨r :: rs', rs'', rfl, rfl, hv⟩

omit [ClockTime τ] in
theorem forwarded_snoc (a : String) (visits : List (Visit τ)) (v : Visit τ) :
    forwarded a (visits ++ [v]) = if v.IsLogin ∧ v.ip = a ∧ v.reply = .callNext
      then forwarded a visits ++ [v.now] else forwarded a visits := by
  simp only [forwarded, List.filter_append, List.map_append, List.filter_singleton]
  by_cases h : v.IsLogin ∧ v.ip = a ∧ v.reply = .callNext
  · simp only [h, and_self, decide_true, if_true, cond_true, List.map_cons, List.map_nil]
  · simp only [h, decide_false, if_false, cond_false, List.map_nil, List.append_nil]

/-- At every time from the last request on, the list of an address does for the whole history. -/
theorem serve_tracks {rs : List (Arrival τ)} (hs : (rs.map (·.now)).Pairwise (· ≤ ·)) {last : τ}
    (hl : ∀ r ∈ rs, r.now ≤ last) (a : String) :
    SlidingWindow.Tracks Live LOGIN_MAX last ((serve noLogins rs).2 a)
      (forwarded a (serve noLogins rs).1) := by
  induction rs using List.reverseRecOn generalizing last with
  | nil => exact .nil
  | append_singleton rs r ih =>
    rw [List.map_append, List.pairwise_append] at hs
    have hr : ∀ x ∈ rs, x.now ≤ r.now := fun x hx =>
      hs.2.2 x.now (List.mem_map_of_mem hx) r.now (List.mem_singleton_self _)
    have h := loginRateLimit_tracks (ih hs.1 hr) le_rfl
    rw [serve_snoc, forwarded_snoc]
    exact h.later (hl r (List.mem_append_right _ (List.mem_singleton_self r)))

/-- The visits of an address are those of a limiter that serves this address alone. -/
theorem serve_filter (a : String) (rs : List (Arrival τ)) (h : store a = store' a) :
    (serve store rs).1.filter (fun v => v.ip = a) =
      (serve store' (rs.filter (fun r => r.ip = a))).1 := by
  induction rs generalizing store store' with
  | nil => rfl
  | cons r rs ih =>
    by_cases hip : r.ip = a
    · have hr : store r.ip = store' r.ip := by rw [hip]; exact h
      obtain ⟨hreply, hlist⟩ := loginRateLimit_congr hr
      rw [hip] at hlist
      simp only [serve, List.filter_cons, hip, decide_true, if_true, ih hlist, hreply]
    · simp only [serve, List.filter_cons, hip, decide_false, Bool.false_eq_true, if_false]
      exact ih ((loginRateLimit_other hip store).trans h)

/-- The times from `u` on, less than a minute later. -/
theorem window_Ico (u : τ) :
    SlidingWindow.Window Live (fun s => u ≤ s ∧ s - u < (LOGIN_WIN : τ)) :=
  fun _ t hs ht _ => lt_of_le_of_lt (ClockTime.sub_anti t hs.1) ht.2

/-- The times up to `u`, less than a minute earlier. -/
theorem window_Ioc (u : τ) :
    SlidingWindow.Window Live (fun s => s ≤ u ∧ u - s < (LOGIN_WIN : τ)) :=
  fun s _ hs ht _ => lt_of_le_of_lt (ClockTime.sub_mono s ht.1) hs.2

/-- The limiter forwards exactly what a limiter with the whole history would. -/
theorem forwards_iff (rs : List (Arrival τ)) (hs : (rs.map (·.now)).Pairwise (· ≤ ·)) :
    (∀ pre v post, (serve noLogins rs).1 = pre ++ v :: post → v.IsLogin →
      (v.reply = .callNext ↔
        (forwarded v.ip pre).countP (fun s => v.now - s < LOGIN_WIN) < LOGIN_MAX)) ∧
    (∀ a u, (forwarded a (serve noLogins rs).1).countP (fun s => u ≤ s ∧ s - u < LOGIN_WIN)
        ≤ LOGIN_MAX ∧
      (forwarded a (serve noLogins rs).1).countP (fun s => s ≤ u ∧ u - s < LOGIN_WIN)
        ≤ LOGIN_MAX) ∧
    (∀ a, (serve noLogins rs).1.filter (fun v => v.ip = a) =
      (serve noLogins (rs.filter (fun r => r.ip = a))).1) ∧
    ∀ a, ((serve noLogins rs).2 a).length ≤ LOGIN_MAX := by
  obtain ⟨last, hlast⟩ : ∃ last : τ, ∀ r ∈ rs, r.now ≤ last := by
    induction rs with
    | nil => exact ⟨60, nofun⟩
    | cons r rs ih =>
      obtain ⟨last, hl⟩ := ih hs.of_cons
      refine ⟨max r.now last, ?_⟩
      rintro x (_ | ⟨_, hx⟩)
      · exact le_max_left _ _
      · exact (hl x hx).trans (le_max_right _ _)
  refine ⟨?_, fun a u => ⟨?_, ?_⟩, fun a => serve_filter a rs rfl, ?_⟩
  · intro pre v post hv hlog
    obtain ⟨rs', rs'', rfl, rfl, hreply⟩ := serve_split hv
    rw [List.map_append, List.pairwise_append] at hs
    have hpast : ∀ r ∈ rs', r.now ≤ v.now := fun r hr =>
      hs.2.2 r.now (List.mem_map_of_mem hr) v.now (List.mem_cons_self ..)
    have hadm := (serve_tracks hs.1 hpast v.ip).offer_iff le_rfl
    rw [hreply]
    exact (loginRateLimit_callNext hlog _).trans hadm
  · exact (serve_tracks hs hlast a).window _ (window_Ico u)
  · exact (serve_tracks hs hlast a).window _ (window_Ioc u)
  · intro a
    exact (serve_tracks hs hlast a).length_le

private def attempts (times : List ℚ) : List (Arrival ℚ) :=
  times.map fun now => ⟨now, "/auth/jwt/login", some "10.0.0.1"⟩

/-- The sixth attempt within the window is refused, one a whole window after the first is not. -/
theorem forwards_iff_burst :
    ((serve noLogins (attempts [0, 1, 2, 3, 4, 59, 60])).1.map (·.reply) =
      [.callNext, .callNext, .callNext, .callNext, .callNext, .response tooManyAttempts,
        .callNext]) ∧
    ∀ a, ((serve noLogins (attempts [0, 1, 2, 3, 4, 59, 60])).2 a).length ≤ LOGIN_MAX :=
  ⟨by decide +kernel, (forwards_iff (attempts [0, 1, 2, 3, 4, 59, 60]) (by decide +kernel)).2.2.2⟩

end DocClassifier.LoginLimiter
