import Mathlib.Data.List.Basic
import Mathlib.Data.List.Nodup
import Mathlib.Data.Nat.ModEq
import Mathlib.Logic.Function.Iterate
import Mathlib.Order.Fin.Basic

/-!
# Rings of cells

A ring is a function on `Fin N`; a pointer into it moves forward and wraps at the end. The
cells that `k` steps from a pointer visit are a list without repetitions as long as
`k ≤ N` (`span`), and the loops that walk a ring are described by the span they walk over:
`scan` looks for a number of cells that pass a test and rewrites each of them, `sweep`
rewrites every cell until the pointer meets another one, and `chase` only moves the pointer.
None of them changes a cell outside its span.

The loops take fuel, one unit per cell visited. The rules say how much is enough: as many
units as there are cells in the span.
-/

namespace Ring

variable {N : ℕ} {σ : Type}

/-! ### Pointers -/

/-- The cell after `p`; the first cell comes after the last. -/
def next (p : Fin N) : Fin N := if h : p.val + 1 < N then ⟨p + 1, h⟩ else ⟨0, p.pos⟩

/-- The cell `k` steps after `p`. -/
def advance (p : Fin N) (k : ℕ) : Fin N := ⟨(p + k) % N, Nat.mod_lt _ p.pos⟩

@[simp] theorem advance_zero (p : Fin N) : advance p 0 = p :=
  Fin.ext (Nat.mod_eq_of_lt p.isLt)

@[simp] theorem advance_self (p : Fin N) : advance p N = p :=
  Fin.ext ((Nat.add_mod_right _ _).trans (Nat.mod_eq_of_lt p.isLt))

theorem advance_advance (p : Fin N) (j k : ℕ) : advance (advance p j) k = advance p (j + k) :=
  Fin.ext (by simp only [advance, Nat.mod_add_mod, Nat.add_assoc])

theorem next_eq_advance (p : Fin N) : next p = advance p 1 := by
  rw [next]
  split
  · next h => exact Fin.ext (Nat.mod_eq_of_lt h).symm
  · next h =>
    have hp : p.val + 1 = N := by have := p.isLt; omega
    exact Fin.ext (by simp [advance, hp])

theorem advance_next (p : Fin N) (k : ℕ) : advance (next p) k = advance p (k + 1) := by
  rw [next_eq_advance, advance_advance, Nat.add_comm]

theorem iterate_next (p : Fin N) (k : ℕ) : next^[k] p = advance p k := by
  induction k generalizing p with
  | zero => simp
  | succ k ih => rw [Function.iterate_succ_apply, ih, advance_next]

/-- Fewer than `N` steps apart, two pointers are the same only if the steps are. -/
theorem advance_inj (p : Fin N) {j k : ℕ} (hjk : j ≤ k) (hlt : k < j + N)
    (h : advance p j = advance p k) : j = k := by
  have hmod : p.val + j ≡ p.val + k [MOD N] := congrArg Fin.val h
  have hdvd := (Nat.modEq_iff_dvd' hjk).mp (Nat.ModEq.add_left_cancel' _ hmod)
  have := Nat.eq_zero_of_dvd_of_lt hdvd (by omega)
  omega

/-- Every cell is fewer than `N` steps away. -/
private theorem exists_advance_eq (p q : Fin N) : ∃ k, k < N ∧ advance p k = q := by
  have hp := p.isLt
  have hq := q.isLt
  rcases Nat.lt_or_ge q.val p.val with hlt | hge
  · refine ⟨q + N - p, by omega, Fin.ext ?_⟩
    exact (congrArg (· % N) (by omega : p.val + (q + N - p) = q + N)).trans
      ((Nat.add_mod_right _ _).trans (Nat.mod_eq_of_lt hq))
  · refine ⟨q - p, by omega, Fin.ext ?_⟩
    exact (congrArg (· % N) (by omega : p.val + (q - p) = q)).trans (Nat.mod_eq_of_lt hq)

/-! ### Spans -/

/-- The cells that `k` steps from `p` visit. -/
def span (p : Fin N) (k : ℕ) : List (Fin N) := (List.range k).map (advance p)

@[simp] theorem span_zero (p : Fin N) : span p 0 = [] := rfl

@[simp] theorem length_span (p : Fin N) (k : ℕ) : (span p k).length = k := by simp [span]

theorem span_succ (p : Fin N) (k : ℕ) : span p (k + 1) = p :: span (next p) k := by
  rw [span, List.range_succ_eq_map, List.map_cons, advance_zero, List.map_map]
  congr 1
  exact List.map_congr_left fun i _ => (advance_next p i).symm

theorem span_add (p : Fin N) (j k : ℕ) : span p (j + k) = span p j ++ span (advance p j) k := by
  rw [span, List.range_add, List.map_append, List.map_map]
  congr 1
  exact List.map_congr_left fun i _ => (advance_advance p j i).symm

theorem mem_span {p q : Fin N} {k : ℕ} : q ∈ span p k ↔ ∃ i < k, advance p i = q := by
  simp [span]

theorem nodup_span (p : Fin N) {k : ℕ} (hk : k ≤ N) : (span p k).Nodup := by
  refine (List.nodup_range (n := k)).map_on fun i hi j hj h => ?_
  rw [List.mem_range] at hi hj
  rcases Nat.le_total i j with hij | hij
  · exact advance_inj p hij (by omega) h
  · exact (advance_inj p hij (by omega) h.symm).symm

/-- The parts of a span are spans. -/
theorem span_split {p : Fin N} {k : ℕ} {xs ys : List (Fin N)} (h : span p k = xs ++ ys) :
    xs = span p xs.length ∧ ys = span (advance p xs.length) ys.length := by
  have hk : k = xs.length + ys.length := by
    rw [← List.length_append, ← h, length_span]
  rw [hk, span_add] at h
  have := List.append_inj h (by simp)
  exact ⟨this.1.symm, this.2.symm⟩

private theorem notMem_span_next (p : Fin N) {k : ℕ} (hk : k + 1 ≤ N) : p ∉ span (next p) k := by
  have h := nodup_span p hk
  rw [span_succ] at h
  exact (List.nodup_cons.mp h).1

/-! ### Looking for cells -/

/-- Walk from `p` over `n` cells that pass `test`, rewriting each with `put`: the pointer after the
last of them and the ring. `none` when the fuel runs out first. -/
def scan (test : σ → Bool) (put : σ → σ) :
    ℕ → ℕ → Fin N → (Fin N → σ) → Option (Fin N × (Fin N → σ))
  | _, 0, p, f => some (p, f)
  | 0, _ + 1, _, _ => none
  | fuel + 1, n + 1, p, f =>
    if test (f p) then scan test put fuel n (next p) (Function.update f p (put (f p)))
    else scan test put fuel (n + 1) (next p) f

/-- Rewrite the cells of `ps` that pass the test. -/
def rewrite (test : σ → Bool) (put : σ → σ) (ps : List (Fin N)) (f : Fin N → σ) : Fin N → σ :=
  fun q => if q ∈ ps ∧ test (f q) then put (f q) else f q

/-- A stretch of cells that a scan ends with: nothing, or a last cell that passes the test. -/
def Ends (test : σ → Bool) (cs : List σ) : Prop := ∀ c ∈ cs.getLast?, test c = true

section Scan

variable {test : σ → Bool} {put : σ → σ} {f : Fin N → σ} {p : Fin N} {cs ds : List σ}

private theorem Ends.nil : Ends test [] := by simp [Ends]

theorem Ends.of_append (cs : List σ) (h : Ends test (cs ++ ds)) : Ends test ds := by
  intro c hc
  refine h c ?_
  rw [List.getLast?_append, hc]
  rfl

theorem Ends.append (hds : Ends test ds) (cs : List σ) (hcs : ds = [] → Ends test cs) :
    Ends test (cs ++ ds) := by
  intro c hc
  rcases List.eq_nil_or_concat' ds with rfl | ⟨ds, d, rfl⟩
  · exact hcs rfl c (by simpa using hc)
  · refine hds c ?_
    rw [List.getLast?_append] at hc
    simpa using hc

theorem Ends.countP_pos (h : Ends test cs) (hne : cs ≠ []) : 0 < cs.countP test :=
  List.countP_pos_iff.mpr
    ⟨_, List.getLast_mem hne, h _ (List.getLast?_eq_some_getLast hne)⟩

theorem rewrite_of_notMem {ps : List (Fin N)} {q : Fin N} (h : q ∉ ps) :
    rewrite test put ps f q = f q := if_neg fun hq => h hq.1

/-- **A scan** for as many cells as a span has rewrites those and stops at its end. -/
theorem scan_span {k fuel : ℕ} (hk : k ≤ N) (hends : Ends test ((span p k).map f))
    (hfuel : k ≤ fuel) :
    scan test put fuel (((span p k).map f).countP test) p f =
      some (advance p k, rewrite test put (span p k) f) := by
  induction k generalizing f p fuel with
  | zero =>
    simp [scan]
    funext q
    exact (rewrite_of_notMem List.not_mem_nil).symm
  | succ k ih =>
    obtain ⟨fuel, rfl⟩ : ∃ m, fuel = m + 1 := ⟨fuel - 1, by omega⟩
    have hp := notMem_span_next p hk
    rw [span_succ, List.map_cons] at hends ⊢
    have hends' := Ends.of_append [f p] hends
    by_cases hx : test (f p)
    · -- writing the first cell leaves the others as they are
      have hmap : (span (next p) k).map (Function.update f p (put (f p))) =
          (span (next p) k).map f :=
        List.map_congr_left fun q hq => Function.update_of_ne (ne_of_mem_of_not_mem hq hp) _ _
      have hrun := @ih (Function.update f p (put (f p))) (next p) fuel (by omega)
        (by rwa [hmap]) (by omega)
      rw [hmap] at hrun
      rw [List.countP_cons_of_pos hx, scan, if_pos hx, hrun, advance_next]
      congr 2
      funext q
      by_cases hq : q = p
      · subst hq
        rw [rewrite_of_notMem hp, Function.update_self]
        simp [rewrite, hx]
      · simp [rewrite, hq]
    · have hne : span (next p) k ≠ [] := by
        intro hnil
        rw [hnil] at hends
        exact hx (hends (f p) rfl)
      obtain ⟨n, hn⟩ : ∃ n, ((span (next p) k).map f).countP test = n + 1 := by
        have := hends'.countP_pos (by simpa using hne)
        exact ⟨((span (next p) k).map f).countP test - 1, by omega⟩
      have hrun := @ih f (next p) fuel (by omega) hends' (by omega)
      rw [List.countP_cons_of_neg hx, hn, scan, if_neg hx, ← hn, hrun, advance_next]
      congr 2
      funext q
      by_cases hq : q = p
      · subst hq
        rw [rewrite_of_notMem hp]
        simp [rewrite, hx]
      · simp [rewrite, hq]

/-- Cut a list after its `n`-th cell that passes the test. -/
theorem exists_split {n : ℕ} (hn : n ≤ cs.countP test) :
    ∃ us vs, cs = us ++ vs ∧ us.countP test = n ∧ Ends test us := by
  induction cs generalizing n with
  | nil => exact ⟨[], [], rfl, (Nat.le_zero.mp hn).symm, .nil⟩
  | cons x cs ih =>
    rcases n with _ | n
    · exact ⟨[], x :: cs, rfl, rfl, .nil⟩
    by_cases hx : test x
    · rw [List.countP_cons_of_pos hx] at hn
      obtain ⟨us, vs, rfl, hus, hends⟩ := ih (Nat.le_of_succ_le_succ hn)
      refine ⟨x :: us, vs, rfl, by rw [List.countP_cons_of_pos hx, hus], ?_⟩
      exact hends.append [x] fun _ => by simpa [Ends] using hx
    · rw [List.countP_cons_of_neg hx] at hn
      obtain ⟨us, vs, rfl, hus, hends⟩ := ih hn
      refine ⟨x :: us, vs, rfl, by rw [List.countP_cons_of_neg hx, hus], ?_⟩
      refine hends.append [x] fun hnil => ?_
      rw [hnil] at hus
      simp at hus

/-- Where no cell passes the test, a scan does not end. -/
theorem scan_none {n fuel : ℕ} (hn : 0 < n) (h : ∀ q, test (f q) = false) :
    scan test put fuel n p f = none := by
  obtain ⟨n, rfl⟩ : ∃ m, n = m + 1 := ⟨n - 1, by omega⟩
  induction fuel generalizing p with
  | zero => rfl
  | succ fuel ih => rw [scan, if_neg (by simp [h]), ih]

end Scan

/-! ### Moving a pointer up to another -/

/-- The loop `do { ring[p] = put(ring[p]); p++ } while (p != stop)`: the ring, and the number of
rounds. -/
def sweep (put : σ → σ) (stop : Fin N) :
    ℕ → Fin N → (Fin N → σ) → Option ((Fin N → σ) × ℕ)
  | 0, _, _ => none
  | fuel + 1, p, f =>
    if next p = stop then some (Function.update f p (put (f p)), 1)
    else (sweep put stop fuel (next p) (Function.update f p (put (f p)))).map
      fun r => (r.1, r.2 + 1)

/-- **A sweep** rewrites the cells from its pointer up to the one it meets. -/
theorem sweep_span {put : σ → σ} {f : Fin N → σ} {p : Fin N} {k fuel : ℕ} (hpos : 0 < k)
    (hk : k ≤ N) (hfuel : k ≤ fuel) :
    sweep put (advance p k) fuel p f =
      some (fun q => if q ∈ span p k then put (f q) else f q, k) := by
  induction k generalizing f p fuel with
  | zero => omega
  | succ k ih =>
    obtain ⟨fuel, rfl⟩ : ∃ m, fuel = m + 1 := ⟨fuel - 1, by omega⟩
    have hp := notMem_span_next p hk
    rw [sweep, ← advance_next]
    rcases Nat.eq_zero_or_pos k with rfl | hk0
    · rw [if_pos (advance_zero _).symm]
      congr 2
      funext q
      by_cases hq : q = p
      · subst hq
        simp [span_succ]
      · simp [span_succ, hq]
    · have hgo : next p ≠ advance (next p) k := by
        intro h
        have := advance_inj (next p) (Nat.zero_le k) (by omega) ((advance_zero _).trans h)
        omega
      rw [if_neg hgo, ih hk0 (by omega) (by omega), Option.map_some]
      congr 2
      funext q
      rw [span_succ]
      by_cases hq : q = p
      · subst hq
        simp [hp]
      · simp [hq]

/-- The loop `do { p++ } while (p != stop)`. -/
def chase (stop : Fin N) : ℕ → Fin N → Option (Fin N)
  | 0, _ => none
  | fuel + 1, p => if next p = stop then some stop else chase stop fuel (next p)

/-- A pointer reaches any other within one turn. -/
theorem chase_eq (p stop : Fin N) : chase stop N p = some stop := by
  have haux : ∀ (fuel k : ℕ) (p : Fin N), k < fuel → advance (next p) k = stop →
      chase stop fuel p = some stop := by
    intro fuel
    induction fuel with
    | zero => intro k p hk; omega
    | succ fuel ih =>
      intro k p hk hstop
      rw [chase]
      split
      · rfl
      · next hgo =>
        rcases k with _ | k
        · exact absurd (by simpa using hstop) hgo
        · exact ih k (next p) (by omega) (by rw [advance_next]; exact hstop)
  obtain ⟨k, hk, hstop⟩ := exists_advance_eq (next p) stop
  exact haux N k p hk hstop

end Ring
