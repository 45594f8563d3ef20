import Mathlib

/-! Outcomes of a modelled call. A call returns a value, performs an access the
language leaves undefined, breaks an assertion, or keeps looping past its fuel. -/
namespace CoreCommon
universe u

inductive Fault
  | undefined
  | assertion
  | diverges
  deriving DecidableEq, Repr

abbrev Run (α : Type u) := Except Fault α

@[simp] lemma Run.bind_eq_ok {α β : Type u} {x : Run α} {f : α → Run β} {r : β} :
    x >>= f = .ok r ↔ ∃ a, x = .ok a ∧ f a = .ok r := by
  cases x <;> simp [bind, Except.bind]

@[simp] lemma Run.bind_ok {α β : Type u} (a : α) (f : α → Run β) :
    (Except.ok a : Run α) >>= f = f a := rfl

@[simp] lemma Run.pure_eq_ok {α : Type u} (a : α) : (pure a : Run α) = .ok a := rfl

/-- The call does not keep looping. -/
def Run.Ends {α : Type u} (x : Run α) : Prop := x ≠ .error .diverges

lemma Run.ends_ok {α : Type u} (a : α) : Run.Ends (.ok a) := nofun

lemma Run.Ends.bind {α β : Type u} {x : Run α} {f : α → Run β} (hx : x.Ends)
    (hf : ∀ a, x = .ok a → (f a).Ends) : (x >>= f).Ends := by
  cases x with
  | ok a => exact hf a rfl
  | error e => exact fun h => hx (congrArg Except.error (Except.error.inj h))

/-- A computation on fuel whose result, once returned, does not depend on the fuel. -/
def Run.Steady {α : Type u} (f : ℕ → Run α) : Prop :=
  ∀ n x, f n = .ok x → f (n + 1) = .ok x

section steady
variable {α β : Type u} {f : ℕ → Run α}

lemma Run.steady_const (x : Run α) : Run.Steady fun _ => x := fun _ _ h => h

lemma Run.Steady.bind (hf : Run.Steady f) {g : ℕ → α → Run β}
    (hg : ∀ a, Run.Steady fun n => g n a) : Run.Steady fun n => f n >>= g n := by
  intro n x h
  obtain ⟨a, ha, hx⟩ := Run.bind_eq_ok.1 h
  exact Run.bind_eq_ok.2 ⟨a, hf n a ha, hg a n x hx⟩

lemma Run.Steady.mono (hf : Run.Steady f) {n n' : ℕ} (hle : n ≤ n') {x : α} (h : f n = .ok x) :
    f n' = .ok x := by
  induction hle with
  | refl => exact h
  | step _ ih => exact hf _ x ih

lemma Run.Steady.unique (hf : Run.Steady f) {n n' : ℕ} {x y : α} (hx : f n = .ok x)
    (hy : f n' = .ok y) : x = y := by
  have hx' := hf.mono (le_max_left n n') hx
  exact Except.ok.inj (hx'.symm.trans (hf.mono (le_max_right n n') hy))

end steady

end CoreCommon
