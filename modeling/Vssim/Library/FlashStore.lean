import Vssim.Library.Trace
import Mathlib.Data.Finset.Erase
import Mathlib.Data.Finset.Insert
import Mathlib.Logic.Function.Basic

/-!
# Out-of-place page stores

An abstract log-structured store over flash blocks of `n` pages. A logical page is written
by programming the next page of some block and mapping to it; the old copy is left behind. A
full block is reclaimed by taking it out of use (it is in **limbo**), relocating the pages
still mapped into it and erasing it.

`Step` is the discipline: pages of a block are used in order, nothing is programmed into a
block in limbo, and a block is erased only when nothing maps into it. The main result,
`Step.holds`, is what the discipline is for: the cells that logical pages map to always hold
the logical contents, whatever is relocated or erased.
-/

namespace FlashStore

variable {Λ B δ C : Type}

/-- The state of a store: where each logical page is, how many pages of each block are used,
and the blocks being reclaimed. -/
structure Store (Λ B : Type) where
  map : Λ → Option (B × ℕ)
  fill : B → ℕ
  limbo : Finset B

/-- What a store does. A `program` carries a description of what is written. -/
inductive Action (Λ B δ : Type)
  | skip
  | program (l : Λ) (b : B) (d : δ)
  | collect (b : B)
  | relocate (l : Λ) (b : B)
  | erase (b : B)

variable [DecidableEq Λ] [DecidableEq B]

/-- Put logical page `l` on the next page of block `b`. -/
def Store.place (σ : Store Λ B) (l : Λ) (b : B) : Store Λ B where
  map := Function.update σ.map l (some (b, σ.fill b))
  fill := Function.update σ.fill b (σ.fill b + 1)
  limbo := σ.limbo

/-- The steps of a store with `n` pages to a block. -/
inductive Step (n : ℕ) : Store Λ B → Action Λ B δ → Store Λ B → Prop
  | skip (σ : Store Λ B) : Step n σ .skip σ
  | program {σ : Store Λ B} {l : Λ} {b : B} {d : δ} (hb : b ∉ σ.limbo) (hlt : σ.fill b < n) :
      Step n σ (.program l b d) (σ.place l b)
  | collect {σ : Store Λ B} {b : B} (hb : b ∉ σ.limbo) (hfull : σ.fill b = n) :
      Step n σ (.collect b) { σ with limbo := insert b σ.limbo }
  | relocate {σ : Store Λ B} {l : Λ} {b : B} {q : B × ℕ} (hmap : σ.map l = some q)
      (hq : q.1 ∈ σ.limbo) (hb : b ∉ σ.limbo) (hlt : σ.fill b < n) :
      Step n σ (.relocate l b) (σ.place l b)
  | erase {σ : Store Λ B} {b : B} (hb : b ∈ σ.limbo) (hfull : σ.fill b = n)
      (hfree : ∀ l q, σ.map l = some q → q.1 ≠ b) :
      Step n σ (.erase b)
        { σ with fill := Function.update σ.fill b 0, limbo := σ.limbo.erase b }

/-- Every mapped page has been programmed since its block was erased. -/
def Store.Wf (σ : Store Λ B) : Prop := ∀ l q, σ.map l = some q → q.2 < σ.fill q.1

private theorem Store.Wf.place {σ : Store Λ B} (hσ : σ.Wf) (l : Λ) (b : B) : (σ.place l b).Wf := by
  intro k q hq
  by_cases hk : k = l
  · subst hk
    simp only [Store.place, Function.update_self, Option.some.injEq] at hq ⊢
    subst hq
    simp
  · simp only [Store.place, Function.update_of_ne hk] at hq ⊢
    have hlt := hσ k q hq
    by_cases hb : q.1 = b
    · rw [hb, Function.update_self]
      rw [hb] at hlt
      omega
    · rw [Function.update_of_ne hb]
      exact hlt

theorem Step.wf {n : ℕ} {σ σ' : Store Λ B} {a : Action Λ B δ} (h : Step n σ a σ') (hσ : σ.Wf) :
    σ'.Wf := by
  cases h with
  | skip => exact hσ
  | program _ _ => exact hσ.place _ _
  | collect _ _ => exact hσ
  | relocate _ _ _ _ => exact hσ.place _ _
  | erase _ _ hfree =>
    intro l q hq
    simp only [Function.update_of_ne (hfree l q hq)]
    exact hσ l q hq

/-- Every page in use is mapped to, so that there is nothing to reclaim. -/
def Store.Dense (σ : Store Λ B) : Prop := ∀ b i, i < σ.fill b → ∃ l, σ.map l = some (b, i)

/-- Writing a logical page for the first time leaves nothing behind. -/
theorem Store.Dense.place {σ : Store Λ B} (hσ : σ.Dense) {l : Λ} (hl : σ.map l = none) (b : B) :
    (σ.place l b).Dense := by
  intro c i hi
  by_cases hnew : c = b ∧ i = σ.fill b
  · obtain ⟨rfl, rfl⟩ := hnew
    exact ⟨l, Function.update_self ..⟩
  · have hold : i < σ.fill c := by
      by_cases hc : c = b
      · subst hc
        have hne : i ≠ σ.fill c := fun heq => hnew ⟨rfl, heq⟩
        simp only [Store.place, Function.update_self] at hi
        omega
      · simpa only [Store.place, Function.update_of_ne hc] using hi
    obtain ⟨k, hk⟩ := hσ c i hold
    have hne : k ≠ l := by
      rintro rfl
      rw [hl] at hk
      cases hk
    exact ⟨k, (Function.update_of_ne hne ..).trans hk⟩

/-! ### Contents

`cells` is what the pages hold, `none` for an erased one; `array` is what a client of the
store believes it has written. A program with description `d` turns the old contents of its
logical page into `edit d old`. -/

variable (edit : δ → Option C → C)

/-- The contents of the cell logical page `l` maps to. -/
def Store.fetch (σ : Store Λ B) (cells : B × ℕ → Option C) (l : Λ) : Option C :=
  (σ.map l).bind cells

/-- What an action does to the cells. -/
def cellsAfter (σ : Store Λ B) (cells : B × ℕ → Option C) :
    Action Λ B δ → B × ℕ → Option C
  | .skip => cells
  | .program l b d => Function.update cells (b, σ.fill b) (some (edit d (σ.fetch cells l)))
  | .collect _ => cells
  | .relocate l b => Function.update cells (b, σ.fill b) (σ.fetch cells l)
  | .erase b => fun q => if q.1 = b then none else cells q

/-- What an action means to the client: only programs are writes. -/
def arrayAfter (array : Λ → Option C) : Action Λ B δ → Λ → Option C
  | .program l _ d => Function.update array l (some (edit d (array l)))
  | .skip | .collect _ | .relocate _ _ | .erase _ => array

variable {edit}

private theorem fetch_place {σ : Store Λ B} (hσ : σ.Wf) (cells : B × ℕ → Option C) (l : Λ) (b : B)
    (c : Option C) (k : Λ) :
    (σ.place l b).fetch (Function.update cells (b, σ.fill b) c) k =
      if k = l then c else σ.fetch cells k := by
  by_cases hk : k = l
  · simp [Store.fetch, Store.place, hk]
  · simp only [Store.fetch, Store.place, Function.update_of_ne hk, if_neg hk]
    cases hq : σ.map k with
    | none => rfl
    | some q =>
      have hne : q ≠ (b, σ.fill b) := by
        intro heq
        have hlt := hσ k q hq
        rw [heq] at hlt
        exact lt_irrefl _ hlt
      exact Function.update_of_ne hne ..

/-- **The store holds what was written**: along every step, if the cells agree with the
client's array before, they agree after. -/
theorem Step.holds {n : ℕ} {σ σ' : Store Λ B} {a : Action Λ B δ} (h : Step n σ a σ') (hσ : σ.Wf)
    {cells : B × ℕ → Option C} {array : Λ → Option C} (hA : ∀ l, σ.fetch cells l = array l)
    (l : Λ) : σ'.fetch (cellsAfter edit σ cells a) l = arrayAfter edit array a l := by
  cases h with
  | skip => exact hA l
  | @program k b d _ _ =>
    rw [cellsAfter, fetch_place hσ, arrayAfter, Function.update_apply, hA, hA]
  | collect _ _ => exact hA l
  | @relocate k b q _ _ _ _ =>
    rw [cellsAfter, fetch_place hσ, arrayAfter]
    by_cases hl : l = k
    · rw [if_pos hl, hl, hA]
    · rw [if_neg hl, hA]
  | @erase b _ _ hfree =>
    rw [arrayAfter, ← hA]
    simp only [Store.fetch, cellsAfter]
    cases hq : σ.map l with
    | none => rfl
    | some q => exact if_neg (hfree l q hq)

end FlashStore
