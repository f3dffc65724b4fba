import Vssim.Ftl.ListInv
import Vssim.Ftl.Request
import Mathlib.Data.List.MinMax

/-!
# Selecting a victim

`SELECT_VICTIM_BLOCK` scans all victim lists, list after list and each from its head, and keeps the
first entry that no later one beats: `List.argmin` over the entries in scan order
(`scanVictims_eq`). It fails when there is no entry or all pages of the best one are valid
(`selectVictimBlock_fail`), otherwise it takes the best one off its list
(`selectVictimBlock_take`).
-/

namespace Vssim

open LinkedHeap Finset

variable (g : Geometry)

/-- The valid pages of a victim, as its block state entry counts them. -/
def validPages (t : PageTables) (v : VictimBlock) : ℕ :=
  (t.getBlockStateEntry g v.phyFlashNb v.phyBlockNb).validPageNb

/-- The entries of all victim lists in the order of the scan. -/
def scanOrder (V : ℕ → List (ℕ × VictimBlock)) : List (ℕ × VictimBlock) :=
  (List.range g.emptyTableEntryNb).flatMap V

/-- The victim lists are well formed: their pointers and counts represent the entries `V`, each
entry in the list its block belongs to, the total counts them all, and no block has more valid
pages than pages. -/
structure VictimLists (s : Ftl) (V : ℕ → List (ℕ × VictimBlock)) : Prop where
  rep : ∀ i < g.emptyTableEntryNb, DRep s.lists.victimHeap (s.lists.victimBlockList i) (V i)
  total : s.lists.totalVictimBlockNb = ∑ i ∈ range g.emptyTableEntryNb, (V i).length
  own : ∀ i < g.emptyTableEntryNb, ∀ x ∈ V i, g.mappingIndex x.2.phyFlashNb x.2.phyBlockNb = i
  valid_le : ∀ i < g.emptyTableEntryNb, ∀ x ∈ V i, validPages g s.tables x.2 ≤ g.pageNb

variable {g} {s : Ftl} {V : ℕ → List (ℕ × VictimBlock)}

@[simp] theorem mem_scanOrder {x : ℕ × VictimBlock} :
    x ∈ scanOrder g V ↔ ∃ i < g.emptyTableEntryNb, x ∈ V i := by
  simp [scanOrder]

private theorem scanOrder_length :
    (scanOrder g V).length = ∑ i ∈ range g.emptyTableEntryNb, (V i).length := by
  rw [scanOrder, List.length_flatMap]
  rfl

/-! ### The scan -/

private theorem scanVictimList_eq {b p : Option ℕ} {xs : List (ℕ × VictimBlock)}
    (hseg : DSeg s.lists.victimHeap b p xs none) (best : Option (ℕ × ℕ)) :
    scanVictimList g s xs.length p best =
      some (xs.foldl (fun o x => betterVictim o x.1 (validPages g s.tables x.2)) best) := by
  induction xs generalizing b p best with
  | nil => rfl
  | cons x xs ih =>
    obtain ⟨rfl, n, hcell, hrest⟩ := hseg
    simp only [List.length_cons, scanVictimList, hcell, Option.bind_eq_bind, Option.bind_some,
      List.foldl_cons]
    exact ih hrest _

private theorem scanVictims_foldl {is : List ℕ}
    (hrep : ∀ i ∈ is, DRep s.lists.victimHeap (s.lists.victimBlockList i) (V i))
    (best : Option (ℕ × ℕ)) :
    scanVictims g s is best = some ((is.flatMap V).foldl
      (fun o x => betterVictim o x.1 (validPages g s.tables x.2)) best) := by
  induction is generalizing best with
  | nil => rfl
  | cons i is ih =>
    have hi := hrep i (by simp)
    rw [scanVictims, hi.count]
    simp only [scanVictimList_eq hi.seg, Option.bind_eq_bind, Option.bind_some,
      List.flatMap_cons, List.foldl_append]
    exact ih (fun j hj => hrep j (List.mem_cons_of_mem _ hj)) _

private theorem foldl_betterVictim (t : PageTables) (xs : List (ℕ × VictimBlock))
    (o : Option (ℕ × VictimBlock)) :
    xs.foldl (fun o x => betterVictim o x.1 (validPages g t x.2))
        (o.map fun x => (x.1, validPages g t x.2)) =
      (xs.foldl (List.argAux fun x y => validPages g t x.2 < validPages g t y.2) o).map fun x =>
        (x.1, validPages g t x.2) := by
  induction xs generalizing o with
  | nil => rfl
  | cons x xs ih =>
    rw [List.foldl_cons, List.foldl_cons, ← ih]
    congr 1
    cases o with
    | none => rfl
    | some y =>
      simp only [List.argAux, Option.map_some, betterVictim]
      split <;> rfl

/-- The scan keeps the first of the entries with the fewest valid pages. -/
theorem scanVictims_eq
    (hrep : ∀ i < g.emptyTableEntryNb,
      DRep s.lists.victimHeap (s.lists.victimBlockList i) (V i)) :
    scanVictims g s (List.range g.emptyTableEntryNb) none =
      some (((scanOrder g V).argmin fun x => validPages g s.tables x.2).map fun x =>
        (x.1, validPages g s.tables x.2)) := by
  rw [scanVictims_foldl fun i hi => hrep i (List.mem_range.mp hi)]
  exact congrArg some (foldl_betterVictim s.tables _ none)

/-- An `argmin` is the first of the minimal entries. -/
private theorem argmin_first {α : Type} {f : α → ℕ} {xs : List α} {m : α}
    (h : m ∈ xs.argmin f) :
    ∃ ys zs, xs = ys ++ m :: zs ∧ (∀ y ∈ ys, f m < f y) ∧ ∀ z ∈ zs, f m ≤ f z := by
  induction xs using List.reverseRecOn with
  | nil => simp at h
  | append_singleton xs a ih =>
    rw [List.argmin_concat] at h
    cases hc : xs.argmin f with
    | none =>
      simp only [hc, Option.mem_def, Option.some.injEq] at h
      exact ⟨[], [], by simp [List.argmin_eq_none.mp hc, h], by simp, by simp⟩
    | some c =>
      simp only [hc] at h
      split at h
      · next hlt =>
        cases h
        exact ⟨xs, [], rfl, fun y hy => hlt.trans_le (List.le_of_mem_argmin hy hc), by simp⟩
      · next hge =>
        cases h
        obtain ⟨ys, zs, rfl, hys, hzs⟩ := ih hc
        refine ⟨ys, zs ++ [a], by simp, hys, fun z hz => ?_⟩
        rcases List.mem_append.mp hz with hz | hz
        · exact hzs z hz
        · rw [List.mem_singleton.mp hz]
          exact not_lt.mp hge

/-! ### The two outcomes -/

private theorem VictimLists.total_eq (h : VictimLists g s V) :
    s.lists.totalVictimBlockNb = (scanOrder g V).length :=
  h.total.trans scanOrder_length.symm

/-- With nothing to reclaim, only the counter of failures changes. -/
theorem selectVictimBlock_fail (h : VictimLists g s V)
    (hall : ∀ x ∈ scanOrder g V, validPages g s.tables x.2 = g.pageNb) :
    ∃ c events, selectVictimBlock g s = some (none, { s with failCnt := c }, events) ∧
      ∀ e ∈ events, e = ⟨.error .selectVictimBlockNoVictim, s⟩ := by
  by_cases h0 : s.lists.totalVictimBlockNb = 0
  · exact ⟨s.failCnt, _, if_pos h0, by simp⟩
  cases hbest : (scanOrder g V).argmin fun x => validPages g s.tables x.2 with
  | none =>
    rw [List.argmin_eq_none] at hbest
    rw [h.total_eq, hbest] at h0
    exact absurd rfl h0
  | some x =>
    refine ⟨s.failCnt + 1, [], ?_, by simp⟩
    simp only [selectVictimBlock, h0, if_false, scanVictims_eq h.rep, hbest, Option.map_some,
      Option.bind_eq_bind, Option.bind_some, hall x (List.argmin_mem hbest), if_true]

/-- Otherwise the first of the best entries comes off its list. -/
theorem selectVictimBlock_take (h : VictimLists g s V) {x : ℕ × VictimBlock}
    (hbest : x ∈ (scanOrder g V).argmin fun x => validPages g s.tables x.2)
    (hlt : validPages g s.tables x.2 < g.pageNb) {lists : BlockLists}
    (heject : ejectVictimBlock g x.1 s.lists = some lists) :
    selectVictimBlock g s = some (some x.2, { s with lists }, []) := by
  have hmem := List.argmin_mem hbest
  obtain ⟨i, hi, hxi⟩ := mem_scanOrder.mp hmem
  obtain ⟨_, _, hcell⟩ := (h.rep i hi).seg.cell_of_mem hxi
  have h0 : s.lists.totalVictimBlockNb ≠ 0 := by
    rw [h.total_eq]
    exact (List.length_pos_of_mem hmem).ne'
  simp only [selectVictimBlock, h0, if_false, scanVictims_eq h.rep, Option.mem_def.mp hbest,
    Option.map_some, Option.bind_eq_bind, Option.bind_some, hlt.ne, hcell, heject]

/-- Unless all pages of all victims are valid, the best victim has one that is not. -/
theorem VictimLists.exists_best (h : VictimLists g s V)
    (hall : ¬ ∀ x ∈ scanOrder g V, validPages g s.tables x.2 = g.pageNb) :
    ∃ x ∈ (scanOrder g V).argmin fun x => validPages g s.tables x.2,
      validPages g s.tables x.2 < g.pageNb := by
  push Not at hall
  obtain ⟨y, hy, hne⟩ := hall
  cases hbest : (scanOrder g V).argmin fun x => validPages g s.tables x.2 with
  | none =>
    rw [List.argmin_eq_none.mp hbest] at hy
    cases hy
  | some x =>
    have hxy : validPages g s.tables x.2 ≤ validPages g s.tables y.2 :=
      List.le_of_mem_argmin (f := fun x : ℕ × VictimBlock => validPages g s.tables x.2) hy hbest
    obtain ⟨i, hi, hyi⟩ := mem_scanOrder.mp hy
    exact ⟨x, rfl, hxy.trans_lt ((h.valid_le i hi y hyi).lt_of_ne hne)⟩

/-- Taking an entry off the list it stands in. -/
private theorem VictimLists.eject (h : VictimLists g s V) {i a : ℕ} (hi : i < g.emptyTableEntryNb)
    {v : VictimBlock} {ys zs : List (ℕ × VictimBlock)} (hV : V i = ys ++ (a, v) :: zs) :
    ∃ lists, ejectVictimBlock g a s.lists = some lists ∧
      VictimLists g { s with lists } (Function.update V i (ys ++ zs)) := by
  have hmem : (a, v) ∈ V i := by simp [hV]
  have hrep := h.rep i hi
  obtain ⟨_, _, hcell⟩ := hrep.seg.cell_of_mem hmem
  rw [hV] at hrep
  obtain ⟨heap, root, hunlink, hrep', hframe⟩ := dUnlink_spec hrep
  have hrun : ejectVictimBlock g a s.lists = some
      { s.lists with
        victimHeap := heap
        victimBlockList := Function.update s.lists.victimBlockList i root
        totalVictimBlockNb := s.lists.totalVictimBlockNb - 1 } := by
    simp only [ejectVictimBlock, hcell, Option.bind_eq_bind, Option.bind_some, h.own i hi _ hmem,
      hunlink]
  have hsub : ∀ j, ∀ x ∈ Function.update V i (ys ++ zs) j, x ∈ V j := by
    intro j x hx
    by_cases hji : j = i
    · subst hji
      rw [Function.update_self] at hx
      rw [hV]
      exact List.mem_append.mpr ((List.mem_append.mp hx).imp_right (List.mem_cons_of_mem _))
    · rwa [Function.update_of_ne hji] at hx
  refine ⟨_, hrun, fun j hj => ?_, ?_, fun j hj x hx => h.own j hj x (hsub j x hx),
    fun j hj x hx => h.valid_le j hj x (hsub j x hx)⟩
  · dsimp only
    by_cases hji : j = i
    · rw [hji, Function.update_self, Function.update_self]
      exact hrep'
    · rw [Function.update_of_ne hji, Function.update_of_ne hji]
      refine (h.rep j hj).frame fun b hb => hframe b fun hbi => hji ?_
      -- an address on two lists would be a block with two places
      obtain ⟨x, hx, rfl⟩ := List.mem_map.mp hb
      obtain ⟨y, hy, hxy⟩ := List.mem_map.mp hbi
      rw [← hV] at hy
      have hval := (h.rep j hj).seg.val_eq (h.rep i hi).seg hx hy hxy.symm
      rw [← h.own j hj x hx, ← h.own i hi y hy, hval]
  · have hsum := sum_length_update hi V (ys ++ zs)
    have hold := h.total
    simp only [hV, List.length_append, List.length_cons] at hsum ⊢
    omega

/-- **`SELECT_VICTIM_BLOCK`** fails exactly when no victim has a page to reclaim, and then leaves
the lists and the block states alone. Otherwise it returns the first entry in scan order among those
with the fewest valid pages, and exactly that entry is gone from the lists afterwards. -/
theorem selectVictimBlock_first (h : VictimLists g s V) :
    ∃ r s' events, selectVictimBlock g s = some (r, s', events) ∧ s'.tables = s.tables ∧
      (r = none ↔ scanOrder g V = [] ∨
        ∀ x ∈ scanOrder g V, validPages g s.tables x.2 = g.pageNb) ∧
      (r = none → s'.lists = s.lists) ∧
      ∀ v, r = some v → ∃ a,
        (∃ before after, scanOrder g V = before ++ (a, v) :: after ∧
          (∀ y ∈ before, validPages g s.tables v < validPages g s.tables y.2) ∧
          ∀ y ∈ after, validPages g s.tables v ≤ validPages g s.tables y.2) ∧
        ∃ i < g.emptyTableEntryNb, ∃ ys zs, V i = ys ++ (a, v) :: zs ∧
        VictimLists g s' (Function.update V i (ys ++ zs)) ∧
        (s'.lists.victimBlockList i).count + 1 = (s.lists.victimBlockList i).count ∧
        s'.lists.totalVictimBlockNb + 1 = s.lists.totalVictimBlockNb := by
  by_cases hall : ∀ x ∈ scanOrder g V, validPages g s.tables x.2 = g.pageNb
  · obtain ⟨c, events, hrun, -⟩ := selectVictimBlock_fail h hall
    exact ⟨none, _, events, hrun, rfl, iff_of_true rfl (.inr hall), fun _ => rfl,
      fun v hv => absurd hv (by simp)⟩
  obtain ⟨⟨a, v⟩, hbest, hlt⟩ := h.exists_best hall
  obtain ⟨i, hi, hxi⟩ := mem_scanOrder.mp (List.argmin_mem hbest)
  obtain ⟨ys, zs, hV⟩ := List.append_of_mem hxi
  obtain ⟨lists, heject, hnew⟩ := h.eject hi hV
  refine ⟨some v, _, [], selectVictimBlock_take h hbest hlt heject, rfl,
    iff_of_false (by simp) ?_, fun hr => absurd hr (by simp), ?_⟩
  · rintro (hnil | hfull)
    · rw [hnil] at hbest
      cases hbest
    · exact hall hfull
  · rintro _ ⟨⟩
    refine ⟨a, argmin_first hbest, i, hi, ys, zs, hV, hnew, ?_, ?_⟩
    · rw [(hnew.rep i hi).count, (h.rep i hi).count, Function.update_self, hV]
      simp only [List.length_append, List.length_cons]
      omega
    · have hsum := sum_length_update hi V (ys ++ zs)
      rw [hnew.total, h.total]
      simp only [hV, List.length_append, List.length_cons] at hsum
      omega

/-- Two victims of the small device with one valid page each, on the list of plane 0. -/
def tiedVictims : Ftl where
  tables :=
    { mappingTable := fun _ => -1
      inverseMappingTable := fun _ => -1
      blockStateTable := fun _ => ⟨1, .dataBlock, fun i => if i = 0 then .valid else .invalid⟩ }
  lists :=
    { emptyHeap := Heap.empty
      emptyBlockList := fun _ => ⟨none, none, 0⟩
      victimHeap := (Heap.empty.alloc ⟨⟨0, 0⟩, none, some 1⟩).alloc ⟨⟨0, 2⟩, some 0, none⟩
      victimBlockList := fun i => if i = 0 then ⟨some 0, some 1, 2⟩ else ⟨none, none, 0⟩
      totalEmptyBlockNb := 0
      totalVictimBlockNb := 2
      emptyBlockTableIndex := 0 }
  gcCount := 0
  failCnt := 0

/-- Of the two, the first in the list is selected. -/
theorem selectVictimBlock_tied : ∃ s' events,
    selectVictimBlock smallDevice tiedVictims = some (some ⟨0, 0⟩, s', events) ∧
      s'.lists.totalVictimBlockNb = 1 := by
  have h : VictimLists smallDevice tiedVictims
      (fun i => if i = 0 then [(0, ⟨0, 0⟩), (1, ⟨0, 2⟩)] else []) := by
    refine ⟨fun i _ => ?_, by decide, by decide, by decide⟩
    by_cases hi : i = 0
    · subst hi
      exact ⟨⟨rfl, some 1, rfl, rfl, none, rfl, rfl⟩, rfl, rfl⟩
    · simpa only [tiedVictims, if_neg hi] using ⟨rfl, rfl, rfl⟩
  obtain ⟨r, s', events, hrun, -, hfail, -, htake⟩ := selectVictimBlock_first h
  cases r with
  | none => exact absurd (hfail.mp rfl) (by decide)
  | some v =>
    obtain ⟨a, ⟨before, after, horder, hbefore, -⟩, -, -, -, -, -, -, -, htotal⟩ := htake v rfl
    -- both have one valid page, so nothing comes before the selected one
    have hnil : before = [] := List.eq_nil_iff_forall_not_mem.mpr fun y hy =>
      lt_irrefl 1 (hbefore y hy)
    rw [hnil] at horder
    obtain ⟨⟨-, rfl⟩, -⟩ : ((0, ⟨0, 0⟩) : ℕ × VictimBlock) = (a, v) ∧ _ := List.cons.inj horder
    exact ⟨s', events, hrun, Nat.succ.inj htotal⟩

end Vssim
