import DocClassifier.Lib.Program

/-!
# Programs on a handler

A handler answers every operation in a state and changes the state. `interp` runs a program on it;
there is one equation for each way of composing programs. `Returns` is the logic of programs that do
not raise, with a rule for loops. An oracle is a handler that remembers the answers it has given and
otherwise has no state: the run of a program on it is the list of its operations with their answers
(`trace`), and only the answers that are asked for matter (`trace_congr`).
-/

namespace Prog

variable {O : Type} {A : O → Type} {ε σ α β γ : Type}

theorem forEach_cons (x : γ) (xs : List γ) (f : γ → Prog A ε Unit) :
    forEach (x :: xs) f = f x >>= fun _ => forEach xs f := rfl

abbrev Handler (A : O → Type) (ε σ : Type) := (o : O) → σ → Except ε (A o) × σ

def interp (h : Handler A ε σ) : Prog A ε α → σ → Except ε α × σ
  | .ret a, s => (.ok a, s)
  | .raise e, s => (.error e, s)
  | .op o k, s => interp h (k (h o s).1) (h o s).2

section
variable (h : Handler A ε σ) (s : σ)

@[simp] theorem interp_ret (a : α) : (Prog.ret a : Prog A ε α).interp h s = (.ok a, s) := rfl

@[simp] theorem interp_raise (e : ε) : (Prog.raise e : Prog A ε α).interp h s = (.error e, s) := rfl

@[simp] theorem interp_op (o : O) (k : Except ε (A o) → Prog A ε α) :
    (Prog.op o k).interp h s = (k (h o s).1).interp h (h o s).2 := rfl

@[simp] theorem interp_ofExcept (r : Except ε α) :
    (ofExcept r : Prog A ε α).interp h s = (r, s) := by
  cases r <;> rfl

@[simp] theorem interp_call (o : O) : (call o : Prog A ε (A o)).interp h s = h o s :=
  interp_ofExcept h _ _

theorem interp_bind (p : Prog A ε β) (f : β → Prog A ε α) :
    (p >>= f).interp h s = match p.interp h s with
      | (.ok b, s') => (f b).interp h s'
      | (.error e, s') => (.error e, s') := by
  induction p generalizing s with
  | ret b => rfl
  | raise e => rfl
  | op o k ih => exact ih _ _

theorem interp_bind_ok {p : Prog A ε β} {b : β} {s' : σ} (hp : p.interp h s = (.ok b, s'))
    (f : β → Prog A ε α) : (p >>= f).interp h s = (f b).interp h s' := by
  rw [interp_bind, hp]

@[simp] theorem interp_attempt (p : Prog A ε α) :
    p.attempt.interp h s = (.ok (p.interp h s).1, (p.interp h s).2) := by
  induction p generalizing s with
  | ret a => rfl
  | raise e => rfl
  | op o k ih => exact ih _ _

end

/-! ## Total correctness -/

/-- The program returns, and `Q` holds of its result and of the state at its end. -/
def Returns (h : Handler A ε σ) (p : Prog A ε α) (s : σ) (Q : α → σ → Prop) : Prop :=
  ∃ a s', p.interp h s = (.ok a, s') ∧ Q a s'

section
variable {h : Handler A ε σ} {s : σ} {Q Q' : α → σ → Prop}

@[simp] theorem returns_ret {a : α} : Returns h (.ret a) s Q ↔ Q a s := by
  constructor
  · intro ⟨a', s', hp, hQ⟩
    cases hp
    exact hQ
  · exact fun hQ => ⟨a, s, rfl, hQ⟩

theorem Returns.mono {p : Prog A ε α} (hp : Returns h p s Q) (hQ : ∀ a s', Q a s' → Q' a s') :
    Returns h p s Q' := by
  obtain ⟨a, s', hp, h'⟩ := hp
  exact ⟨a, s', hp, hQ a s' h'⟩

theorem returns_bind {p : Prog A ε β} {f : β → Prog A ε α} :
    Returns h (p >>= f) s Q ↔ Returns h p s fun b s' => Returns h (f b) s' Q := by
  constructor
  · intro ⟨a, s', hp, hQ⟩
    rw [interp_bind] at hp
    cases hr : p.interp h s with
    | mk r s₁ =>
      rw [hr] at hp
      cases r with
      | ok b => exact ⟨b, s₁, hr, a, s', hp, hQ⟩
      | error e => cases hp
  · intro ⟨b, s₁, hp, a, s', hf, hQ⟩
    exact ⟨a, s', (interp_bind_ok h s hp f).trans hf, hQ⟩

theorem returns_attempt {p : Prog A ε α} {Q : Except ε α → σ → Prop} :
    Returns h p.attempt s Q ↔ Q (p.interp h s).1 (p.interp h s).2 := by
  constructor
  · intro ⟨r, s', hp, hQ⟩
    rw [interp_attempt] at hp
    cases hp
    exact hQ
  · exact fun hQ => ⟨_, _, interp_attempt h s p, hQ⟩

/-- An attempt at a program that returns. -/
theorem Returns.attempt {p : Prog A ε α} {Q : Except ε α → σ → Prop}
    (hp : Returns h p s fun a => Q (.ok a)) : Returns h p.attempt s Q := by
  obtain ⟨a, s', hp, hQ⟩ := hp
  rw [returns_attempt, hp]
  exact hQ

theorem Returns.andFinally {q : Prog A ε β} {p : Prog A ε α}
    (hp : Returns h p s fun a s' => Returns h q s' fun _ => Q a) :
    Returns h (p.andFinally q) s Q := by
  refine returns_bind.mpr (Returns.attempt (hp.mono fun a s' hq => returns_bind.mpr ?_))
  exact hq.mono fun _ _ hQ => returns_ret.mpr hQ

/-- The rule of a loop, with an invariant of the elements still to come, of the accumulator and of
the state. -/
theorem Returns.foldEach {f : α → γ → Prog A ε α} (I : List γ → α → σ → Prop)
    (hround : ∀ x xs a s, I (x :: xs) a s → Returns h (f a x) s (I xs))
    (hend : ∀ a s, I [] a s → Q a s) {xs : List γ} {a : α} (hI : I xs a s) :
    Returns h (foldEach f a xs) s Q := by
  induction xs generalizing a s with
  | nil => exact returns_ret.mpr (hend a s hI)
  | cons x xs ih => exact returns_bind.mpr ((hround x xs a s hI).mono fun _ _ => ih)

theorem Returns.forEach {f : γ → Prog A ε Unit} {Q : Unit → σ → Prop} (I : List γ → σ → Prop)
    (hround : ∀ x xs s, I (x :: xs) s → Returns h (f x) s fun _ => I xs)
    (hend : ∀ s, I [] s → Q () s) {xs : List γ} (hI : I xs s) : Returns h (forEach xs f) s Q :=
  .foldEach (fun xs _ => I xs) (fun x xs _ s => hround x xs s) (fun _ => hend) hI

end

/-! ## Oracles -/

/-- The handler that answers by `answer` and writes down what it has been asked. -/
def oracle (answer : (o : O) → Except ε (A o)) : Handler A ε (List (Done A ε)) :=
  fun o H => (answer o, H ++ [⟨o, answer o⟩])

/-- The result of a program whose operations are answered by `answer`. -/
def result (answer : (o : O) → Except ε (A o)) (p : Prog A ε α) : Except ε α :=
  (p.interp (oracle answer) []).1

/-- The operations that it performs, with their answers. -/
def trace (answer : (o : O) → Except ε (A o)) (p : Prog A ε α) : List (Done A ε) :=
  (p.interp (oracle answer) []).2

section
variable {answer answer' : (o : O) → Except ε (A o)}

theorem interp_oracle (p : Prog A ε α) (H : List (Done A ε)) :
    p.interp (oracle answer) H = (p.result answer, H ++ p.trace answer) := by
  induction p generalizing H with
  | ret a => exact Prod.ext rfl (List.append_nil H).symm
  | raise e => exact Prod.ext rfl (List.append_nil H).symm
  | op o k ih =>
    have h : (Prog.op o k).interp (oracle answer) [] =
        ((k (answer o)).result answer, [⟨o, answer o⟩] ++ (k (answer o)).trace answer) := ih _ _
    rw [result, trace, h, interp_op]
    refine (ih _ _).trans (Prod.ext rfl ?_)
    exact List.append_assoc H [⟨o, answer o⟩] _

theorem trace_op (o : O) (k : Except ε (A o) → Prog A ε α) :
    (Prog.op o k).trace answer = ⟨o, answer o⟩ :: (k (answer o)).trace answer :=
  congrArg Prod.snd (interp_oracle (k (answer o)) [⟨o, answer o⟩])

theorem result_op (o : O) (k : Except ε (A o) → Prog A ε α) :
    (Prog.op o k).result answer = (k (answer o)).result answer := by
  rw [result, interp_op, oracle, interp_oracle]

theorem result_bind (p : Prog A ε β) (f : β → Prog A ε α) :
    (p >>= f).result answer = match p.result answer with
      | .ok b => (f b).result answer
      | .error e => .error e := by
  rw [result, interp_bind, interp_oracle]
  cases p.result answer with
  | ok b =>
    dsimp only
    rw [interp_oracle]
  | error e => rfl

theorem trace_bind (p : Prog A ε β) (f : β → Prog A ε α) :
    (p >>= f).trace answer = p.trace answer ++ match p.result answer with
      | .ok b => (f b).trace answer
      | .error _ => [] := by
  rw [trace, interp_bind, interp_oracle]
  cases p.result answer with
  | ok b =>
    dsimp only
    rw [interp_oracle, List.nil_append]
  | error e => exact (List.append_nil _).symm

@[simp] theorem result_attempt (p : Prog A ε α) :
    p.attempt.result answer = .ok (p.result answer) := by
  rw [result, interp_attempt]
  rfl

@[simp] theorem trace_attempt (p : Prog A ε α) : p.attempt.trace answer = p.trace answer := by
  rw [trace, interp_attempt]
  rfl

@[simp] theorem result_call (o : O) : (call o : Prog A ε (A o)).result answer = answer o := by
  rw [result, interp_call]
  rfl

@[simp] theorem trace_call (o : O) :
    (call o : Prog A ε (A o)).trace answer = [⟨o, answer o⟩] := by
  rw [trace, interp_call]
  rfl

/-- A run depends on the answers to the operations it performs only. -/
theorem trace_congr {p : Prog A ε α} (h : ∀ d ∈ p.trace answer, answer' d.1 = answer d.1) :
    p.trace answer' = p.trace answer ∧ p.result answer' = p.result answer := by
  induction p with
  | ret a => exact ⟨rfl, rfl⟩
  | raise e => exact ⟨rfl, rfl⟩
  | op o k ih =>
    rw [trace_op] at h
    have ho : answer' o = answer o := h _ List.mem_cons_self
    obtain ⟨ht, hr⟩ := ih (answer o) fun d hd => h d (List.mem_cons_of_mem _ hd)
    rw [trace_op, trace_op, result_op, result_op, ho, ht, hr]
    exact ⟨rfl, rfl⟩

/-- What a specification promises holds of the run on an oracle that answers by its contract. -/
theorem Spec.trace {c : Contract A ε} {Q : List (Done A ε) → Except ε α → Prop}
    {H : List (Done A ε)} {p : Prog A ε α} (h : Spec c Q H p) (ha : ∀ o, c.answers ⟨o, answer o⟩) :
    Q (H ++ p.trace answer) (p.result answer) := by
  induction p generalizing H with
  | ret a => exact (List.append_nil H).symm ▸ h
  | raise e => exact (List.append_nil H).symm ▸ h
  | op o k ih =>
    rw [trace_op, result_op, List.append_cons]
    exact ih _ (h.2 _ (ha o))

/-- The run performs only operations that the contract allows. -/
theorem Spec.trace_may {may : O → Prop} {answers : Done A ε → Prop}
    {Q : List (Done A ε) → Except ε α → Prop} {H : List (Done A ε)} {p : Prog A ε α}
    (h : Spec ⟨answers, fun _ => may⟩ Q H p) (ha : ∀ o, answers ⟨o, answer o⟩) :
    ∀ d ∈ p.trace answer, may d.1 := by
  induction p generalizing H with
  | ret a => exact nofun
  | raise e => exact nofun
  | op o k ih =>
    intro d hd
    rw [trace_op] at hd
    rcases List.mem_cons.mp hd with rfl | hd
    · exact h.1
    · exact ih _ (h.2 _ (ha o)) d hd

theorem trace_forEach_cons (x : γ) (xs : List γ) (f : γ → Prog A ε Unit) :
    (forEach (x :: xs) f).trace answer = (f x).trace answer ++ match (f x).result answer with
      | .ok _ => (forEach xs f).trace answer
      | .error _ => [] := by
  rw [forEach_cons, trace_bind]
  cases (f x).result answer <;> rfl

/-- A loop in which only the last round may raise performs the operations of all its rounds. -/
theorem trace_forEach {f : γ → Prog A ε Unit} {xs : List γ}
    (h : ∀ x ∈ xs.dropLast, (f x).result answer = .ok ()) :
    (forEach xs f).trace answer = xs.flatMap fun x => (f x).trace answer := by
  induction xs with
  | nil => rfl
  | cons x xs ih =>
    rw [trace_forEach_cons, List.flatMap_cons]
    cases xs with
    | nil =>
      cases (f x).result answer with
      | ok => rfl
      | error => rfl
    | cons y ys =>
      rw [h x List.mem_cons_self]
      exact congrArg _ (ih fun z hz => h z (List.mem_cons_of_mem _ hz))

/-- A round that raises ends the loop. -/
theorem trace_forEach_error {f : γ → Prog A ε Unit} {xs ys : List γ} {x : γ} {e : ε}
    (h : (f x).result answer = .error e) {d : Done A ε}
    (hd : d ∈ (forEach (xs ++ x :: ys) f).trace answer) :
    ∃ y ∈ xs ++ [x], d ∈ (f y).trace answer := by
  induction xs with
  | nil =>
    rw [List.nil_append, trace_forEach_cons, h, List.append_nil] at hd
    exact ⟨x, List.mem_singleton_self x, hd⟩
  | cons z zs ih =>
    rw [List.cons_append, trace_forEach_cons] at hd
    rcases List.mem_append.mp hd with hd | hd
    · exact ⟨z, List.mem_cons_self, hd⟩
    · cases hz : (f z).result answer with
      | error e' =>
        rw [hz] at hd
        cases hd
      | ok =>
        rw [hz] at hd
        obtain ⟨y, hy, hdy⟩ := ih hd
        exact ⟨y, List.mem_cons_of_mem _ hy, hdy⟩

end

end Prog
