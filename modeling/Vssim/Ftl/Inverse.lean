import Vssim.Ftl.Reclaim

/-!
# Stale inverse entries

`UPDATE_OLD_PAGE_MAPPING` clears the inverse entry of the page it invalidates, but
`GARBAGE_COLLECTION` copies a page without clearing the inverse entry of the original, and neither
does the erase behind it. So a collection leaves every page of an empty block without inverse entry
exactly if its victim had no valid page (`garbageCollection_inverse_iff`), and a run in which that
is so at every collection keeps the inverse table the inverse of the mapping (`run_inverse`).
-/

namespace Vssim

open FlashStore Finset LinkedHeap

variable {g : Geometry} {s s' : Ftl} {σ : Store} {fuel : ℕ} {events : List Event}

variable (g) in
/-- Only pages marked `'V'` have an inverse entry. -/
def InverseClean (t : PageTables) : Prop :=
  ∀ q, g.IsPage q → t.cellAt g q ≠ .valid → t.inverseMappingTable (g.ppnOf q) = -1

/-! ### Host writes -/

private theorem InverseClean.write {t : PageTables} {map : ℤ → Option Page} {fill : ℕ × ℕ → ℕ}
    {limbo : Finset (ℕ × ℕ)} (hclean : InverseClean g t) (h : TableInv g t map fill limbo)
    (lpn : ℤ) {q : Page} (hq : g.IsPage q) :
    InverseClean g (updateNewPageMapping g lpn (g.ppnOf q) (updateOldPageMapping g lpn t)) := by
  -- the old page of `lpn`, if there is one, loses its entry
  have hold : InverseClean g (updateOldPageMapping g lpn t) := by
    cases hmap : map lpn with
    | none => rwa [updateOldPageMapping, if_pos (h.unmapped lpn hmap)]
    | some p =>
      obtain ⟨hp, -, -, hppn, -⟩ := h.mapped lpn p hmap
      obtain ⟨-, hinv, hcell, -⟩ := updateOldPageMapping_spec hp hppn rfl
      intro r hr hne
      rw [hinv, Function.update_apply]
      split
      · rfl
      · next hrp =>
        rw [hcell r hr, Function.update_of_ne fun heq => hrp (congrArg g.ppnOf heq)] at hne
        exact hclean r hr hne
  obtain ⟨-, hinv, hcell, -⟩ := updateNewPageMapping_spec (updateOldPageMapping g lpn t) lpn hq rfl
  intro r hr hne
  have hrq : r ≠ q := by
    rintro rfl
    rw [hcell r hr, Function.update_self] at hne
    exact hne rfl
  rw [hcell r hr, Function.update_of_ne hrq] at hne
  rw [hinv, Function.update_of_ne ((Geometry.ppnOf_inj hr hq).not.mpr hrq)]
  exact hold r hr hne

private theorem writePages_inverse {n rounds k : ℕ} {c : Cursor} {ret : Ret} {r : Option Ret}
    (h : FtlInv g s σ) (hclean : InverseClean g s.tables) (hc : 0 < c.remain → c.Ok g)
    (hrun : writePages g fuel n rounds c k ret s = some (r, s', events)) :
    InverseClean g s'.tables := by
  induction rounds generalizing c k ret s σ events with
  | zero =>
    simp only [writePages, Option.some.injEq, Prod.mk.injEq] at hrun
    obtain ⟨-, rfl, -⟩ := hrun
    exact hclean
  | succ rounds ih =>
    by_cases hpos : 0 < c.remain
    swap
    · rw [writePages, if_neg hpos] at hrun
      simp only [Option.some.injEq, Prod.mk.injEq] at hrun
      obtain ⟨-, rfl, -⟩ := hrun
      exact hclean
    obtain ⟨L, hL⟩ := h.lists
    rcases writePages_succ hpos hrun with ⟨-, lists, -, rfl, -⟩ | ⟨e, lists, ev₁, hget, hloop, -⟩
    · exact hclean
    · have hgot := hostNewPage_spec hL hget
      obtain ⟨hinv₁, -⟩ := program_step h hgot (hc hpos) hpos k n
      refine ih hinv₁ ?_ (fun hnext => (hc hpos).next hnext) hloop
      obtain ⟨hlive, hcurr, hlt, -⟩ := hgot
      rw [Geometry.ppn_eq_ppnOf, hcurr]
      exact hclean.write h.tables _ ⟨(mem_sdiff.mp hlive).1, hlt⟩

/-! ### Collections -/

/-- **A successful collection** of a clean inverse table leaves it clean exactly if its victim had
no valid page. -/
theorem garbageCollection_inverse_iff (h : FtlInv g s σ) (hclean : InverseClean g s.tables)
    {v : VictimBlock} {t : Ftl} {ev : List Event}
    (hselect : selectVictimBlock g s = some (some v, t, ev))
    (hrun : garbageCollection g fuel s = some (.success, s', events)) :
    InverseClean g s'.tables ↔ validPages g s.tables v = 0 := by
  rcases garbageCollection_cases hrun with ⟨_, -, hr, -⟩ |
    ⟨v', s₁, ev₁, copied, s₂, ev₂, hselect', hcopy, hend⟩
  · cases hr
  rw [hselect] at hselect'
  simp only [Option.some.injEq, Prod.mk.injEq] at hselect'
  obtain ⟨rfl, rfl, rfl⟩ := hselect'
  rcases hend with ⟨-, hr, -⟩ | ⟨n, rfl, ⟨-, hr, -⟩ | ⟨lists, -, -, -, rfl, -⟩⟩
  · cases hr
  · cases hr
  obtain ⟨hlive, hmoved, -⟩ := collection_copied h hselect hcopy
  obtain ⟨hvb, hvl⟩ := mem_sdiff.mp hlive
  obtain ⟨-, hinv, hcell, -⟩ := updateBlockState_empty_spec hvb s₂.tables rfl
  rw [h.tables.validPages_eq hvb, List.countP_eq_zero]
  constructor
  · -- a copied page keeps its entry
    intro hclean' i hi
    have hpage : g.IsPage (v.block, i) := ⟨hvb, by have := List.mem_range'_1.mp hi; omega⟩
    rw [decide_eq_true_eq]
    intro hvalid
    have hstale := hclean' _ hpage (by rw [hcell _ hpage, if_pos rfl]; simp)
    rw [hinv, hmoved.inverse _ hpage (.inl rfl)] at hstale
    have hmap := h.tables.valid _ hpage hvl hvalid
    rw [hstale] at hmap
    have hneg := (h.tables.mapped _ _ hmap).2.1
    omega
  · intro hnone q hq hne
    rw [hinv]
    rw [hcell q hq] at hne
    by_cases hqv : q.1 = v.block
    · rw [hmoved.inverse q hq (.inl hqv)]
      refine hclean q hq ?_
      have hq2 : q.2 ∈ List.range' 0 g.pageNb := List.mem_range'_1.mpr ⟨Nat.zero_le _, by
        have := hq.2
        omega⟩
      simpa [← hqv] using hnone q.2 hq2
    · rw [if_neg hqv] at hne
      rw [hmoved.inverse q hq (.inr hne)]
      refine hclean q hq fun hvalid => hne (by_contra fun hnv => ?_)
      obtain ⟨-, hempty, -⟩ := hmoved.cells q hq fun heq => hnv (heq.trans hvalid)
      rw [hvalid] at hempty
      cases hempty

variable (g) in
/-- A collection entered in this state has no page to copy: if some victim has a page that is not
marked `'V'`, then some victim has none that is. -/
def CopyFree (s : Ftl) : Prop :=
  Reclaimable g s →
    ∃ i < g.emptyTableEntryNb, ∃ v ∈ s.lists.victimEntries i, validPages g s.tables v = 0

instance : DecidablePred (CopyFree g) := fun s => inferInstanceAs (Decidable (Reclaimable g s →
  ∃ i < g.emptyTableEntryNb, ∃ v ∈ s.lists.victimEntries i, validPages g s.tables v = 0))

private theorem garbageCollection_inverse {r : Ret} (h : FtlInv g s σ)
    (hclean : InverseClean g s.tables)
    (hcopy : CopyFree g s) (hrun : garbageCollection g fuel s = some (r, s', events))
    (hno : ¬ GcAborted events) : InverseClean g s'.tables := by
  obtain ⟨L, hL⟩ := h.lists
  obtain ⟨labels, σ', -, -, hout⟩ := garbageCollection_sim h hL hrun
  cases hout with
  | nothing hs _ _ _ =>
    obtain ⟨c, rfl⟩ := hs
    exact hclean
  | aborted _ _ hev _ _ => exact absurd hev hno
  | collected _ _ _ _ =>
    obtain ⟨sel, t, evs, hsel, hspec⟩ := selectVictimBlock_spec h hL
    cases sel with
    | none =>
      rcases garbageCollection_cases hrun with ⟨_, -, hr, -⟩ | ⟨_, _, _, _, _, _, hselect, -⟩
      · cases hr
      · rw [hsel] at hselect
        cases hselect
    | some v =>
      refine (garbageCollection_inverse_iff h hclean hsel hrun).mpr ?_
      obtain ⟨-, -, -, ⟨i, hi, a, ha⟩, hlt, hmin⟩ := hspec
      obtain ⟨j, hj, w, hw, hzero⟩ := hcopy ((reclaimable_iff h hL).mpr ⟨i, hi, _, ha, hlt⟩)
      rw [BlockLists.victimEntries, (hL.rep.victim j hj).walk_eq] at hw
      obtain ⟨x, hx, rfl⟩ := List.mem_map.mp hw
      have hle := hmin j hj x hx
      omega

/-! ### Runs -/

variable (g) in
/-- Every collection that starts among these events has no page to copy. -/
def CopyFreeEvents (events : List Event) : Prop :=
  ∀ e ∈ events, e.call = .garbageCollection → CopyFree g e.ftl

instance : DecidablePred (CopyFreeEvents g) := fun events => inferInstanceAs (Decidable
  (∀ e ∈ events, e.call = .garbageCollection → CopyFree g e.ftl))

private theorem copyFreeEvents_append {xs ys : List Event} :
    CopyFreeEvents g (xs ++ ys) ↔ CopyFreeEvents g xs ∧ CopyFreeEvents g ys := by
  simp only [CopyFreeEvents, List.mem_append, or_imp, forall_and]

private theorem collectLoop_inverse {n : ℕ} {u : Unit} (h : FtlInv g s σ)
    (hclean : InverseClean g s.tables) (hcopy : CopyFreeEvents g events)
    (hrun : collectLoop g fuel n s = some (u, s', events)) (hno : ¬ GcAborted events) :
    InverseClean g s'.tables := by
  induction n generalizing s σ events with
  | zero =>
    simp only [collectLoop, Option.some.injEq, Prod.mk.injEq] at hrun
    obtain ⟨-, rfl, -⟩ := hrun
    exact hclean
  | succ n ih =>
    obtain ⟨L, hL⟩ := h.lists
    simp only [collectLoop, Option.bind_eq_bind, Option.bind_eq_some_iff] at hrun
    obtain ⟨⟨r, s₁, ev₁⟩, hgc, hrun⟩ := hrun
    obtain ⟨_, _, hsim₁, -, -⟩ := garbageCollection_sim h hL hgc
    -- the first event of a collection is its start
    have hstart : ⟨.garbageCollection, s⟩ ∈ ev₁ := by
      rcases garbageCollection_cases hgc with ⟨_, -, -, rfl⟩ |
        ⟨_, _, _, _, _, _, -, -, ⟨-, -, -, rfl⟩ | ⟨_, -, ⟨-, -, -, rfl⟩ | ⟨_, -, -, -, -, rfl⟩⟩⟩ <;>
      exact List.mem_cons_self ..
    cases r with
    | fail =>
      simp only [Option.some.injEq, Prod.mk.injEq] at hrun
      obtain ⟨-, rfl, rfl⟩ := hrun
      exact garbageCollection_inverse h hclean (hcopy _ hstart rfl) hgc hno
    | success =>
      simp only [Option.bind_eq_some_iff] at hrun
      obtain ⟨⟨u', s₂, ev₂⟩, hloop, hrun⟩ := hrun
      simp only [Option.some.injEq, Prod.mk.injEq] at hrun
      obtain ⟨-, rfl, rfl⟩ := hrun
      rw [gcAborted_append, not_or] at hno
      obtain ⟨hcopy₁, hcopy₂⟩ := copyFreeEvents_append.mp hcopy
      have hclean₁ := garbageCollection_inverse h hclean (hcopy₁ _ hstart rfl) hgc hno.1
      exact ih hsim₁.inv hclean₁ hcopy₂ hloop hno.2

private theorem Serve.inverse {e : Served} (h : FtlInv g s σ) (hclean : InverseClean g s.tables)
    (hcopy : CopyFreeEvents g e.events) (hserve : Serve g s e s') (hno : ¬ GcAborted e.events) :
    InverseClean g s'.tables := by
  cases hserve with
  | read _ _ => exact hclean
  | write hreq hrun =>
    obtain ⟨r₁, s₁, ev₁, hloop, hend⟩ := ftlWrite_cases hreq hrun
    obtain ⟨_, _, hsim₁, -, -, -⟩ := writePages_sim h (fun _ => .start hreq) hloop
    have hclean₁ := writePages_inverse h hclean (fun _ => .start hreq) hloop
    rcases hend with ⟨-, -, rfl, -⟩ | ⟨ev₂, -, hcheck, rfl⟩
    · exact hclean₁
    rw [gcCheck] at hcheck
    split at hcheck
    · simp only [gcAborted_cons, gcAborted_append, not_or] at hno
      exact collectLoop_inverse hsim₁.inv hclean₁ (fun e he => hcopy e (by simp [he])) hcheck
        hno.2.2.2
    · simp only [Option.some.injEq, Prod.mk.injEq] at hcheck
      obtain ⟨-, rfl, -⟩ := hcheck
      exact hclean₁

private theorem serves_inverse {hist : List Served} (h : FtlInv g s σ)
    (hclean : InverseClean g s.tables)
    (hcopy : CopyFreeEvents g (eventLog hist)) (hrun : Trace (Serve g) s hist s')
    (hgc : NoGcAbort hist) : InverseClean g s'.tables := by
  induction hrun generalizing σ with
  | nil s => exact hclean
  | cons hserve _ ih =>
    obtain ⟨_, _, hsim, -⟩ := hserve.sim h
    obtain ⟨hcopy₁, hcopy₂⟩ := copyFreeEvents_append.mp hcopy
    have hclean₁ := hserve.inverse h hclean hcopy₁ (hgc _ (by simp))
    exact ih hsim.inv hclean₁ hcopy₂ fun f hf => hgc f (List.mem_cons_of_mem _ hf)

/-- Every number below `PAGE_MAPPING_ENTRY_NB` is the number of a page. -/
private theorem Geometry.exists_page {ppn : ℤ} (h0 : 0 ≤ ppn) (hlt : ppn < g.pageMappingEntryNb) :
    ∃ q, g.IsPage q ∧ g.ppnOf q = ppn := by
  obtain ⟨n, rfl⟩ := Int.eq_ofNat_of_zero_le h0
  have hn : n < g.pageNb * (g.blockNb * g.flashNb) := by
    rw [← Nat.mul_assoc]
    exact_mod_cast hlt
  refine ⟨((n / g.pageNb / g.blockNb, n / g.pageNb % g.blockNb), n % g.pageNb),
    ⟨g.mem_blocks.mpr ⟨?_, Nat.mod_lt _ g.blockNb_pos⟩, Nat.mod_lt _ g.pageNb_pos⟩, ?_⟩
  · exact Nat.div_lt_of_lt_mul (Nat.div_lt_of_lt_mul hn)
  · rw [Geometry.ppnOf, ← Nat.add_mul, Nat.mul_comm _ g.blockNb, Nat.div_add_mod,
      Nat.mul_comm _ g.pageNb, Nat.div_add_mod]

/-- **The inverse table** is the inverse of the mapping in every state of a run in which no
collection has a page to copy. -/
theorem run_inverse (hdvd : g.planesPerFlash ∣ g.blockNb) {hist : List Served}
    (hrun : Run g hist s) (hgc : NoGcAbort hist) (hcopy : CopyFreeEvents g (eventLog hist)) :
    (∀ ppn : ℤ, 0 ≤ ppn → ppn < g.pageMappingEntryNb → s.tables.inverseMappingTable ppn ≠ -1 →
      s.tables.mappingTable (s.tables.inverseMappingTable ppn) = ppn) ∧
    InverseClean g s.tables := by
  have hfresh : InverseClean g (ftlInit g).tables := fun q _ _ => congrFun ftlInit_inverse _
  have hclean := serves_inverse (ftlInit_inv hdvd) hfresh hcopy hrun hgc
  refine ⟨fun ppn h0 hlt hne => ?_, hclean⟩
  obtain ⟨q, hq, rfl⟩ := Geometry.exists_page h0 hlt
  obtain ⟨σ, h, hlimbo⟩ := Run.inv hdvd hrun hgc
  have hvalid : s.tables.cellAt g q = .valid := by_contra fun hnv => hne (hclean q hq hnv)
  exact (h.tables.mapped _ q (h.tables.valid q hq (by simp [hlimbo]) hvalid)).2.2.2.1

/-- Two logical pages written in turn: the victim of the collection has no valid page. -/
theorem run_inverse_twoChips : ∃ hist s, Run twoChips hist s ∧
    (∃ e ∈ eventLog hist, e.call = .ssdBlockErase 0 0) ∧ InverseClean twoChips s.tables := by
  obtain ⟨hist, s, hrun, hP⟩ := exists_run (g := twoChips) 40
    [.write 0 2, .write 2 2, .write 0 2, .write 2 2, .write 0 2, .write 2 2]
    (fun hist _ => decide (NoGcAbort hist ∧ CopyFreeEvents twoChips (eventLog hist) ∧
      ∃ e ∈ eventLog hist, e.call = .ssdBlockErase 0 0)) (by decide +kernel) (by decide +kernel)
  obtain ⟨hgc, hcopy, herase⟩ := of_decide_eq_true hP
  exact ⟨hist, s, hrun, herase, (run_inverse (by decide) hrun hgc hcopy).2⟩

/-- Logical page 2 is copied from page 1 to page 3 and page 1 is erased, but its inverse entry
still names logical page 2. -/
theorem staleInverse : ∃ hist s, Run twoChips hist s ∧ NoGcAbort hist ∧
    s.tables.inverseMappingTable 1 = 2 ∧ s.tables.mappingTable 2 = 3 ∧
    s.tables.cellAt twoChips ((0, 0), 1) = .empty := by
  obtain ⟨hist, s, hrun, hP⟩ := exists_run (g := twoChips) 40
    [.write 0 2, .write 2 2, .write 4 2, .write 0 2, .write 2 2]
    (fun hist s => decide (NoGcAbort hist ∧ s.tables.inverseMappingTable 1 = 2 ∧
      s.tables.mappingTable 2 = 3 ∧ s.tables.cellAt twoChips ((0, 0), 1) = .empty))
    (by decide +kernel) (by decide +kernel)
  exact ⟨hist, s, hrun, of_decide_eq_true hP⟩

end Vssim
