import Mathlib.Data.Nat.Notation

/-!
# Labelled traces

Finite runs of a labelled step relation, and the two rules every result about a run goes
through: a property that each step keeps holds at the end (`Trace.invariant`), and so does
a relation to a ghost value that each label updates (`Trace.foldl`). A goal is reached when a step
towards it can always be taken (`Trace.reaches`).
-/

variable {S A G : Type} {step : S → A → S → Prop}

/-- `Trace step s as s'`: steps labelled `as` lead from `s` to `s'`. -/
inductive Trace (step : S → A → S → Prop) : S → List A → S → Prop
  | nil (s : S) : Trace step s [] s
  | cons {s m s' : S} {a : A} {as : List A} (h : step s a m) (t : Trace step m as s') :
      Trace step s (a :: as) s'

namespace Trace

variable {s m s' : S} {a : A} {as bs : List A}

theorem single (h : step s a s') : Trace step s [a] s' := .cons h (.nil s')

theorem append (t : Trace step s as m) (u : Trace step m bs s') : Trace step s (as ++ bs) s' := by
  induction t with
  | nil => exact u
  | cons h _ ih => exact .cons h (ih u)

theorem append_iff : Trace step s (as ++ bs) s' ↔
    ∃ m, Trace step s as m ∧ Trace step m bs s' := by
  refine ⟨fun t => ?_, fun ⟨m, t, u⟩ => t.append u⟩
  induction as generalizing s with
  | nil => exact ⟨s, .nil s, t⟩
  | cons a as ih =>
    cases t with
    | cons h t =>
      obtain ⟨m, t₁, t₂⟩ := ih t
      exact ⟨m, .cons h t₁, t₂⟩

/-- A property that every step keeps holds at the end of a trace. -/
theorem invariant {P : S → Prop} (hstep : ∀ s a s', P s → step s a s' → P s')
    (t : Trace step s as s') (hs : P s) : P s' := by
  induction t with
  | nil => exact hs
  | cons h _ ih => exact ih (hstep _ _ _ hs h)

/-- A relation between the state and a ghost value, kept when both move along a step, holds
at the end of a trace. -/
theorem foldl {R : S → G → Prop} {f : G → A → G}
    (hstep : ∀ s a s' x, R s x → step s a s' → R s' (f x a)) (t : Trace step s as s') {x : G}
    (hs : R s x) : R s' (as.foldl f x) := by
  induction t generalizing x with
  | nil => exact hs
  | cons h _ ih => exact ih (hstep _ _ _ _ hs h)

/-- Where some step of a kind always leads closer to a goal, steps of that kind lead to the goal. -/
theorem reaches {P Q : S → Prop} {kind : A → Prop} (dist : S → ℕ)
    (hstep : ∀ s, P s → ¬ Q s → ∃ a s', kind a ∧ step s a s' ∧ P s' ∧ dist s' < dist s) (hs : P s) :
    ∃ as s', Trace step s as s' ∧ (∀ a ∈ as, kind a) ∧ P s' ∧ Q s' := by
  obtain ⟨n, hn⟩ : ∃ n, dist s = n := ⟨_, rfl⟩
  induction n using Nat.strongRecOn generalizing s with
  | ind n ih =>
    by_cases hQ : Q s
    · exact ⟨[], s, .nil s, by simp, hs, hQ⟩
    · obtain ⟨a, m, ha, hm, hPm, hlt⟩ := hstep s hs hQ
      obtain ⟨as, s', t, has, hP, hQ⟩ := ih (dist m) (hn ▸ hlt) hPm rfl
      exact ⟨a :: as, s', .cons hm t, List.forall_mem_cons.mpr ⟨ha, has⟩, hP, hQ⟩

end Trace
