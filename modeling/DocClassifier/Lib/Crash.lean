import DocClassifier.Lib.Handlers

/-!
# Programs cut short

A process that runs a program on a handler can be killed between any two operations. What it leaves
behind is where the first operations of the program lead (`killed_eq`). `Performs` is the logic of
programs that perform the same operations in every state.
-/

namespace Prog

variable {O : Type} {A : O → Type} {ε σ α β γ : Type}

/-- The state that a program leaves behind when it is killed after `n` operations. A program that
has no more of them is at its end. -/
def killed (h : Handler A ε σ) : Nat → Prog A ε α → σ → σ
  | n + 1, .op o k, s => killed h n (k (h o s).1) (h o s).2
  | _, _, s => s

/-- The operations that a program performs. -/
def ops (h : Handler A ε σ) : Prog A ε α → σ → List O
  | .op o k, s => o :: ops h (k (h o s).1) (h o s).2
  | .ret _, _ | .raise _, _ => []

/-- The state after operations. -/
def after (h : Handler A ε σ) (s : σ) (os : List O) : σ := os.foldl (fun s o => (h o s).2) s

section
variable {h : Handler A ε σ} {s : σ}

@[simp] theorem after_nil : after h s [] = s := rfl

@[simp] theorem after_cons (o : O) (os : List O) : after h s (o :: os) = after h (h o s).2 os := rfl

theorem after_append (os os' : List O) : after h s (os ++ os') = after h (after h s os) os' :=
  List.foldl_append

theorem interp_after (p : Prog A ε α) : (p.interp h s).2 = after h s (p.ops h s) := by
  induction p generalizing s with
  | ret a => rfl
  | raise e => rfl
  | op o k ih => exact ih _

theorem killed_eq (n : Nat) (p : Prog A ε α) : p.killed h n s = after h s ((p.ops h s).take n) := by
  induction p generalizing s n with
  | ret a =>
    cases n <;> rfl
  | raise e =>
    cases n <;> rfl
  | op o k ih =>
    cases n with
    | zero => rfl
    | succ n => exact ih _ n

theorem ops_bind_ok {p : Prog A ε β} {f : β → Prog A ε α} {b : β}
    (hp : (p.interp h s).1 = .ok b) :
    (p >>= f).ops h s = p.ops h s ++ (f b).ops h (p.interp h s).2 := by
  induction p generalizing s with
  | ret b' =>
    cases hp
    rfl
  | raise e => cases hp
  | op o k ih => exact congrArg (o :: ·) (ih _ hp)

end

/-! ## The same operations in every state -/

/-- The program returns and performs the operations `os`, whatever the state. -/
def Performs (h : Handler A ε σ) (p : Prog A ε α) (os : List O) : Prop :=
  ∀ s, (∃ a, (p.interp h s).1 = .ok a) ∧ p.ops h s = os

section
variable {h : Handler A ε σ} {os os' : List O}

theorem performs_ret (a : α) : Performs h (.ret a) [] := fun _ => ⟨⟨a, rfl⟩, rfl⟩

theorem performs_call {o : O} (ho : ∀ s, ∃ a, (h o s).1 = .ok a) : Performs h (call o) [o] := by
  intro s
  obtain ⟨a, ha⟩ := ho s
  refine ⟨⟨a, ?_⟩, ?_⟩
  · rw [interp_call]
    exact ha
  · rw [call, ops, ha]
    rfl

theorem Performs.bind {p : Prog A ε β} {f : β → Prog A ε α} (hp : Performs h p os)
    (hf : ∀ b, Performs h (f b) os') : Performs h (p >>= f) (os ++ os') := by
  intro s
  obtain ⟨⟨b, hb⟩, hops⟩ := hp s
  obtain ⟨⟨a, ha⟩, hops'⟩ := hf b (p.interp h s).2
  refine ⟨⟨a, ?_⟩, ?_⟩
  · rw [interp_bind_ok h s (Prod.ext hb rfl)]
    exact ha
  · rw [ops_bind_ok hb, hops, hops']

theorem Performs.forEach {f : γ → Prog A ε Unit} (os : γ → List O)
    (hf : ∀ x, Performs h (f x) (os x)) (xs : List γ) :
    Performs h (forEach xs f) (xs.flatMap os) := by
  induction xs with
  | nil => exact performs_ret ()
  | cons x xs ih => exact (hf x).bind fun _ => ih

theorem Performs.interp {p : Prog A ε α} (hp : Performs h p os) (s : σ) :
    (p.interp h s).2 = after h s os := by
  rw [interp_after, (hp s).2]

theorem Performs.killed {p : Prog A ε α} (hp : Performs h p os) (n : Nat) (s : σ) :
    p.killed h n s = after h s (os.take n) := by
  rw [killed_eq, (hp s).2]

end

end Prog
