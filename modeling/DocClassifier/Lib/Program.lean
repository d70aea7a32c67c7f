import Mathlib.Data.List.Induction
import Mathlib.Tactic.Common

/-!
# Programs as trees of operations

A program is a tree: a node performs an operation `o : O`, and its branches say how the program
goes on with the answer, a value of type `A o` or an error. Nothing is said about what the
operations do; the answers come from outside. Exceptions are caught with `attempt`.

`Spec` is the logic of such programs. It speaks about the history of a program, the list of the
operations it has performed with their answers: which operations may be performed after which
history, and what holds of the history and the result at the end.
-/

inductive Prog {O : Type} (A : O → Type) (ε α : Type) where
  | ret (a : α)
  | raise (e : ε)
  | op (o : O) (k : Except ε (A o) → Prog A ε α)

namespace Prog

variable {O : Type} {A : O → Type} {ε α β γ : Type}

protected def bind : Prog A ε α → (α → Prog A ε β) → Prog A ε β
  | .ret a, f => f a
  | .raise e, _ => .raise e
  | .op o k, f => .op o fun r => (k r).bind f

instance : Monad (Prog A ε) where
  pure := .ret
  bind := Prog.bind

/-- The program that goes on with the result of an operation. -/
def ofExcept : Except ε α → Prog A ε α
  | .ok a => .ret a
  | .error e => .raise e

def call (o : O) : Prog A ε (A o) := .op o ofExcept

/-- `try: p`, with the error as a result. -/
def attempt : Prog A ε α → Prog A ε (Except ε α)
  | .ret a => .ret (.ok a)
  | .raise e => .ret (.error e)
  | .op o k => .op o fun r => (k r).attempt

/-- `try: p finally: q`. -/
def andFinally (p : Prog A ε α) (q : Prog A ε β) : Prog A ε α := do
  let r ← p.attempt
  let _ ← q
  ofExcept r

/-- A loop over a list that changes an accumulator. -/
def foldEach (f : β → γ → Prog A ε β) : β → List γ → Prog A ε β
  | b, [] => .ret b
  | b, c :: cs => do
    let b ← f b c
    foldEach f b cs

/-- `for c in cs: f(c)`. -/
def forEach (cs : List γ) (f : γ → Prog A ε Unit) : Prog A ε Unit :=
  foldEach (fun _ c => f c) () cs

@[simp] theorem pure_eq (a : α) : (pure a : Prog A ε α) = .ret a := rfl

@[simp] theorem ret_bind (a : α) (f : α → Prog A ε β) : (Prog.ret a >>= f) = f a := rfl

@[simp] theorem raise_bind (e : ε) (f : α → Prog A ε β) :
    (Prog.raise e >>= f) = .raise e := rfl

@[simp] theorem op_bind (o : O) (k : Except ε (A o) → Prog A ε α) (f : α → Prog A ε β) :
    (Prog.op o k >>= f) = .op o fun r => k r >>= f := rfl

@[simp] theorem attempt_ret (a : α) : (Prog.ret a : Prog A ε α).attempt = .ret (.ok a) := rfl

@[simp] theorem attempt_raise (e : ε) :
    (Prog.raise e : Prog A ε α).attempt = .ret (.error e) := rfl

/-! ## Histories and specifications -/

/-- An operation that has been performed, with its answer. -/
abbrev Done (A : O → Type) (ε : Type) := (o : O) × Except ε (A o)

/-- What is relied on and what is promised: the answers that an operation can have, and the
operations that may be performed after a history. -/
structure Contract (A : O → Type) (ε : Type) where
  answers : Done A ε → Prop
  may : List (Done A ε) → O → Prop

/-- Each operation of a history was performed and answered by the contract. -/
def Along (c : Contract A ε) (H : List (Done A ε)) : Prop :=
  ∀ H₁ d H₂, H = H₁ ++ d :: H₂ → c.may H₁ d.1 ∧ c.answers d

/-- With the history `H` so far, the rest `p` of a program keeps to the contract, and `Q` holds of
the whole history and the result at its end. -/
def Spec (c : Contract A ε) (Q : List (Done A ε) → Except ε α → Prop) :
    List (Done A ε) → Prog A ε α → Prop
  | H, .ret a => Q H (.ok a)
  | H, .raise e => Q H (.error e)
  | H, .op o k => c.may H o ∧ ∀ r, c.answers ⟨o, r⟩ → Spec c Q (H ++ [⟨o, r⟩]) (k r)

section
variable {c : Contract A ε} {H : List (Done A ε)} {Q Q' : List (Done A ε) → Except ε α → Prop}

theorem along_nil : Along c [] := by
  intro H₁ d H₂ h
  cases H₁ <;> cases h

theorem along_snoc {d : Done A ε} :
    Along c (H ++ [d]) ↔ Along c H ∧ c.may H d.1 ∧ c.answers d := by
  constructor
  · intro h
    refine ⟨fun H₁ d' H₂ hH => h H₁ d' (H₂ ++ [d]) ?_, h H d [] rfl⟩
    rw [hH, List.append_assoc, List.cons_append]
  · rintro ⟨h, hd⟩ H₁ d' H₂ hH
    rcases List.eq_nil_or_concat H₂ with rfl | ⟨H₂', d'', rfl⟩
    · obtain ⟨rfl, hd'⟩ := List.append_inj' hH rfl
      cases hd'
      exact hd
    · rw [List.concat_eq_append, ← List.cons_append, ← List.append_assoc] at hH
      exact h H₁ d' H₂' (List.append_inj' hH rfl).1

/-- A property that every operation by the contract keeps holds of every history. -/
theorem Along.inv {P : List (Done A ε) → Prop} (hnil : P [])
    (hsnoc : ∀ H d, P H → c.may H d.1 → c.answers d → P (H ++ [d])) (h : Along c H) : P H := by
  induction H using List.reverseRecOn with
  | nil => exact hnil
  | append_singleton H d ih =>
    rw [along_snoc] at h
    exact hsnoc H d (ih h.1) h.2.1 h.2.2

@[simp] theorem spec_ret {a : α} : Spec c Q H (.ret a) ↔ Q H (.ok a) := Iff.rfl

@[simp] theorem spec_raise {e : ε} : Spec c Q H (.raise e) ↔ Q H (.error e) := Iff.rfl

@[simp] theorem spec_op {o : O} {k : Except ε (A o) → Prog A ε α} : Spec c Q H (.op o k) ↔
    c.may H o ∧ ∀ r, c.answers ⟨o, r⟩ → Spec c Q (H ++ [⟨o, r⟩]) (k r) := Iff.rfl

@[simp] theorem spec_ofExcept {r : Except ε α} : Spec c Q H (ofExcept r) ↔ Q H r := by
  cases r <;> rfl

@[simp] theorem spec_call {o : O} {Q : List (Done A ε) → Except ε (A o) → Prop} :
    Spec c Q H (call o) ↔ c.may H o ∧ ∀ r, c.answers ⟨o, r⟩ → Q (H ++ [⟨o, r⟩]) r := by
  simp [call]

theorem Spec.mono {p : Prog A ε α} (hQ : ∀ H r, Q H r → Q' H r) (h : Spec c Q H p) :
    Spec c Q' H p := by
  induction p generalizing H with
  | ret a => exact hQ _ _ h
  | raise e => exact hQ _ _ h
  | op o k ih => exact ⟨h.1, fun r hr => ih r (h.2 r hr)⟩

theorem spec_bind {p : Prog A ε β} {f : β → Prog A ε α} : Spec c Q H (p >>= f) ↔
    Spec c (fun H r => match r with
      | .ok b => Spec c Q H (f b)
      | .error e => Q H (.error e)) H p := by
  induction p generalizing H with
  | ret b => rfl
  | raise e => rfl
  | op o k ih =>
    rw [op_bind, spec_op, spec_op]
    exact and_congr_right fun _ => forall_congr' fun r => imp_congr_right fun _ => ih r

@[simp] theorem spec_attempt {p : Prog A ε β} {Q : List (Done A ε) → Except ε (Except ε β) → Prop} :
    Spec c Q H p.attempt ↔ Spec c (fun H r => Q H (.ok r)) H p := by
  induction p generalizing H with
  | ret b => rfl
  | raise e => rfl
  | op o k ih =>
    rw [attempt, spec_op, spec_op]
    exact and_congr_right fun _ => forall_congr' fun r => imp_congr_right fun _ => ih r

theorem spec_andFinally {p : Prog A ε α} {q : Prog A ε β} :
    Spec c Q H (p.andFinally q) ↔
      Spec c (fun H r => Spec c (fun H r' => match r' with
        | .ok _ => Q H r
        | .error e => Q H (.error e)) H q) H p := by
  simp [andFinally, spec_bind]

/-- The rule of a loop, with an invariant of the history, of the accumulator and of the elements
still to come. An error may leave the loop at any element. -/
theorem spec_foldEach {f : α → γ → Prog A ε α} {a : α} {cs : List γ}
    (I : List (Done A ε) → α → List γ → Prop)
    (hstep : ∀ H a x cs, I H a (x :: cs) → Spec c (fun H r => match r with
      | .ok a => I H a cs
      | .error e => Q H (.error e)) H (f a x))
    (hend : ∀ H a, I H a [] → Q H (.ok a)) (hI : I H a cs) : Spec c Q H (foldEach f a cs) := by
  induction cs generalizing H a with
  | nil => exact hend H a hI
  | cons x cs ih =>
    rw [foldEach, spec_bind]
    refine (hstep H a x cs hI).mono fun H r h => ?_
    cases r with
    | ok a => exact ih h
    | error e => exact h

theorem spec_forEach {f : γ → Prog A ε Unit} {cs : List γ}
    {Q : List (Done A ε) → Except ε Unit → Prop} (I : List (Done A ε) → List γ → Prop)
    (hstep : ∀ H x cs, I H (x :: cs) → Spec c (fun H r => match r with
      | .ok _ => I H cs
      | .error e => Q H (.error e)) H (f x))
    (hend : ∀ H, I H [] → Q H (.ok ())) (hI : I H cs) : Spec c Q H (forEach cs f) :=
  spec_foldEach (fun H _ cs => I H cs)
    (fun H _ x cs h => (hstep H x cs h).mono fun _ r h => by cases r <;> exact h)
    (fun H _ h => hend H h) hI

end

end Prog
