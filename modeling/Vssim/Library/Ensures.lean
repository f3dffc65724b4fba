import Mathlib.Data.Nat.Notation

/-!
# Computations that may fail

`Ensures x P`: if the computation `x` returns, what it returns satisfies `P`. The rules follow the
ways in which computations are put together.
-/

variable {ε α β : Type} {a : α} {x : Except ε α} {f : α → Except ε β} {P Q : α → Prop}
  {R : β → Prop}

/-- A computation in two parts succeeds as its parts do. -/
theorem Except.bind_eq_ok {y : β} (h : x >>= f = .ok y) : ∃ a, x = .ok a ∧ f a = .ok y := by
  cases x with
  | error e => cases h
  | ok a => exact ⟨a, rfl, h⟩

/-- A computation that is mapped over succeeds as the computation does. -/
theorem Except.map_eq_ok {k : α → β} {y : β} (h : x.map k = .ok y) : ∃ a, x = .ok a ∧ k a = y := by
  cases x with
  | error e => cases h
  | ok a => exact ⟨a, rfl, Except.ok.inj h⟩

/-- What the computation returns, if it returns, satisfies `P`. -/
def Ensures (x : Except ε α) (P : α → Prop) : Prop := ∀ a, x = .ok a → P a

namespace Ensures

theorem ok (h : P a) : Ensures (.ok a : Except ε α) P := by
  intro a' heq
  cases heq
  exact h

theorem error {e : ε} : Ensures (.error e) P := by
  intro a heq
  cases heq

theorem mono (h : Ensures x P) (hPQ : ∀ a, P a → Q a) : Ensures x Q :=
  fun a heq => hPQ a (h a heq)

theorem bind (hx : Ensures x P) (hf : ∀ a, P a → Ensures (f a) R) : Ensures (x >>= f) R := by
  intro y heq
  obtain ⟨a, ha, hy⟩ := Except.bind_eq_ok heq
  exact hf a (hx a ha) y hy

private theorem map {k : α → β} (h : Ensures x fun a => R (k a)) : Ensures (x.map k) R := by
  intro y heq
  obtain ⟨a, ha, rfl⟩ := Except.map_eq_ok heq
  exact h a ha

/-- A part whose result is only passed on. -/
theorem bind_any (hf : ∀ a, Ensures (f a) R) : Ensures (x >>= f) R := by
  intro y heq
  obtain ⟨a, -, hy⟩ := Except.bind_eq_ok heq
  exact hf a y hy

theorem map_any {k : α → β} (h : ∀ a, R (k a)) : Ensures (x.map k) R :=
  map fun a _ => h a

end Ensures
