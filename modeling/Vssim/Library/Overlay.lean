import Mathlib.Data.List.Induction
import Mathlib.Data.Option.Basic

/-!
# Stacks of partial maps

A write that is pending gives values to some places and says nothing about the others: it is a
partial map `X → Option V`. Pending writes over a base are a **stack**, in which the last map
that speaks about a place decides. The rules are those a write-behind queue lives by: applying
the oldest map to the base changes nothing, a map that a later one hides can be dropped, and the
two newest can be merged.
-/

namespace Overlay

variable {X V : Type}

/-- The map `p` on top of `q`. -/
def layer (p q : X → Option V) : X → Option V := fun x => (p x).or (q x)

/-- The maps `ps`, oldest first, on top of `base`. -/
def stack (base : X → Option V) (ps : List (X → Option V)) : X → Option V :=
  ps.foldl (fun q p => layer p q) base

variable {base p q : X → Option V} {ps qs : List (X → Option V)} {x : X}

theorem layer_apply : layer p q x = (p x).or (q x) := rfl

theorem layer_assoc (p q r : X → Option V) : layer (layer p q) r = layer p (layer q r) :=
  funext fun _ => Option.or_assoc

@[simp] theorem stack_nil : stack base [] = base := rfl

theorem stack_cons : stack base (p :: ps) = stack (layer p base) ps := rfl

private theorem stack_append : stack base (ps ++ qs) = stack (stack base ps) qs := List.foldl_append

theorem stack_concat : stack base (ps ++ [p]) = layer p (stack base ps) := by
  rw [stack_append]
  rfl

/-- A map that says nothing can be dropped. -/
theorem layer_none (h : ∀ x, p x = none) : layer p q = q := by
  funext x
  rw [layer_apply, h x, Option.none_or]

/-- Where no map speaks, the base shows. -/
theorem stack_apply_base (h : ∀ p ∈ ps, p x = none) : stack base ps x = base x := by
  induction ps generalizing base with
  | nil => rfl
  | cons p ps ih =>
    rw [stack_cons, ih fun q hq => h q (List.mem_cons_of_mem _ hq), layer_apply,
      h p List.mem_cons_self, Option.none_or]

/-- The last map that speaks decides. -/
theorem stack_apply_last {v : V} (hp : p x = some v) (hqs : ∀ q ∈ qs, q x = none) :
    stack base (ps ++ p :: qs) x = some v := by
  rw [stack_append, stack_cons, stack_apply_base hqs, layer_apply, hp, Option.some_or]

/-- Under a map that hides them, values can be forgotten. -/
theorem layer_stack_congr {I : Type} {is : List I} {s s' : I → X → Option V}
    (h : ∀ i ∈ is, ∀ x, s' i x = s i x ∨ (s' i x = none ∧ (p x).isSome)) :
    layer p (stack base (is.map s')) = layer p (stack base (is.map s)) := by
  funext x
  rw [layer_apply, layer_apply]
  by_cases hx : (p x).isSome
  · rw [Option.or_of_isSome hx, Option.or_of_isSome hx]
  · congr 1
    induction is using List.reverseRecOn with
    | nil => rfl
    | append_singleton is i ih =>
      have hi : s' i x = s i x := (h i (by simp) x).resolve_right fun hn => hx hn.2
      rw [List.map_append, List.map_append, List.map_singleton, List.map_singleton, stack_concat,
        stack_concat, layer_apply, layer_apply, hi, ih fun j hj => h j (List.mem_append_left _ hj)]

end Overlay
