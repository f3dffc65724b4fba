import Vssim.Ftl.Files
import Vssim.Ftl.Space

/-!
# Power cycles

`FTL_TERM` followed by an `FTL_INIT` of a new process restores the state (`run_powerCycle`): every
table entry, every list in its order, and the totals. The lists are rebuilt in a new heap, and the
allocator starts again from the first of them, so the restored state is not the old one; it
represents the same store (`FtlInv.powerCycle`).
-/

namespace Vssim

open LinkedHeap RecordFile FlashStore Finset

variable (g : Geometry)

/-- The state `s'` is the state `s` up to the addresses of list entries, the allocator's position
and the statistics. -/
structure Restored (s s' : Ftl) : Prop where
  mapping : ∀ lpn : ℤ, 0 ≤ lpn → lpn < g.pageMappingEntryNb →
    s'.tables.mappingTable lpn = s.tables.mappingTable lpn
  inverse : ∀ ppn : ℤ, 0 ≤ ppn → ppn < g.pageMappingEntryNb →
    s'.tables.inverseMappingTable ppn = s.tables.inverseMappingTable ppn
  type : ∀ i < g.blockMappingEntryNb,
    (s'.tables.blockStateTable i).type = (s.tables.blockStateTable i).type
  validPageNb : ∀ i < g.blockMappingEntryNb,
    (s'.tables.blockStateTable i).validPageNb = (s.tables.blockStateTable i).validPageNb
  validArray : ∀ i < g.blockMappingEntryNb, ∀ p < g.pageNb,
    (s'.tables.blockStateTable i).validArray p = (s.tables.blockStateTable i).validArray p
  emptyCount : ∀ i < g.emptyTableEntryNb,
    (s'.lists.emptyBlockList i).count = (s.lists.emptyBlockList i).count
  empty : ∀ i < g.emptyTableEntryNb, s'.lists.emptyEntries i = s.lists.emptyEntries i
  victimCount : ∀ i < g.emptyTableEntryNb,
    (s'.lists.victimBlockList i).count = (s.lists.victimBlockList i).count
  victim : ∀ i < g.emptyTableEntryNb, s'.lists.victimEntries i = s.lists.victimEntries i
  totalEmpty : s'.lists.totalEmptyBlockNb = s.lists.totalEmptyBlockNb
  totalVictim : s'.lists.totalVictimBlockNb = s.lists.totalVictimBlockNb
  index : s'.lists.emptyBlockTableIndex = 0

variable {g} {s : Ftl} {σ : Store}

/-! ### The tables -/

private theorem blockStateIndex_lt {β : ℕ × ℕ} (hβ : β ∈ g.blocks) :
    blockStateIndex g β.1 β.2 < g.blockMappingEntryNb := by
  obtain ⟨hf, hb⟩ := g.mem_blocks.mp hβ
  calc blockStateIndex g β.1 β.2 < β.1 * g.blockNb + g.blockNb := Nat.add_lt_add_left hb _
    _ = (β.1 + 1) * g.blockNb := by ring
    _ ≤ g.flashNb * g.blockNb := Nat.mul_le_mul_right _ hf
    _ = g.blockMappingEntryNb := Nat.mul_comm _ _

private theorem initPageTable_term (table : ℤ → ℤ) {i : ℤ} (hi : 0 ≤ i)
    (hlt : i < g.pageMappingEntryNb) : initPageTable g (termPageTable g table) i = table i := by
  have hmem : i.toNat < g.pageMappingEntryNb := by omega
  rw [initPageTable, if_pos ⟨hi, hlt⟩, termPageTable, fread_table]
  simp [List.getD_eq_getElem?_getD, hmem, Int.toNat_of_nonneg hi]

private theorem initBlockStateTable_term (t : PageTables) {i : ℕ} (hi : i < g.blockMappingEntryNb) :
    let e := initBlockStateTable g (termBlockStateTable g t) (termValidArray g t) i
    e.type = (t.blockStateTable i).type ∧ e.validPageNb = (t.blockStateTable i).validPageNb ∧
      ∀ p < g.pageNb, e.validArray p = (t.blockStateTable i).validArray p := by
  simp only [initBlockStateTable, termBlockStateTable, termValidArray, fread_table,
    freadArrays_table]
  refine ⟨?_, ?_, fun p hp => ?_⟩
  all_goals simp [List.getD_eq_getElem?_getD, *]

private theorem Restored.cellAt {s' : Ftl} (hr : Restored g s s') {q : Page} (hq : g.IsPage q) :
    s'.tables.cellAt g q = s.tables.cellAt g q :=
  hr.validArray _ (blockStateIndex_lt hq.1) _ hq.2

private theorem countValid_congr {arr arr' : ℕ → PageState} {n : ℕ}
    (heq : ∀ p < n, arr' p = arr p) : countValid arr' n = countValid arr n := by
  induction n with
  | zero => rfl
  | succ n ih => rw [countValid, countValid, ih fun p hp => heq p (by omega), heq n (by omega)]

/-- The restored tables represent what the saved ones did. -/
private theorem Restored.tableInv {s' : Ftl} {map : ℤ → Option Page} {fill : ℕ × ℕ → ℕ}
    {limbo : Finset (ℕ × ℕ)} (hr : Restored g s s') (h : TableInv g s.tables map fill limbo)
    (hout : ∀ lpn : ℤ, ¬ (0 ≤ lpn ∧ lpn < g.pageMappingEntryNb) →
      s'.tables.mappingTable lpn = -1) : TableInv g s'.tables map fill limbo where
  cell_empty q hq := by
    rw [hr.cellAt hq]
    exact h.cell_empty q hq
  counts β hβ := by
    have hi := blockStateIndex_lt hβ
    have hcount := h.counts β hβ
    rw [PageTables.getBlockStateEntry] at hcount ⊢
    rw [hr.validPageNb _ hi, hcount]
    exact (countValid_congr (hr.validArray _ hi)).symm
  unmapped lpn hlpn := by
    by_cases hin : 0 ≤ lpn ∧ lpn < g.pageMappingEntryNb
    · rw [hr.mapping lpn hin.1 hin.2]
      exact h.unmapped lpn hlpn
    · exact hout lpn hin
  mapped lpn q hq := by
    obtain ⟨hpage, hlpn, hlt, hmap, hcell, hinv⟩ := h.mapped lpn q hq
    refine ⟨hpage, hlpn, hlt, ?_, ?_, ?_⟩
    · rw [hr.mapping lpn hlpn hlt, hmap]
    · rw [hr.cellAt hpage, hcell]
    · rw [hr.inverse _ (Geometry.ppnOf_nonneg q) (Geometry.ppnOf_lt hpage), hinv]
  valid q hq hlimbo hcell := by
    rw [hr.cellAt hq] at hcell
    rw [hr.inverse _ (Geometry.ppnOf_nonneg q) (Geometry.ppnOf_lt hq)]
    exact h.valid q hq hlimbo hcell

/-! ### The lists -/

/-- Where the blocks are depends on the entries of the lists, not on their addresses. -/
private theorem Placed.congr {L L' : ListView} {fill : ℕ × ℕ → ℕ} {limbo : Finset (ℕ × ℕ)}
    (hp : Placed g L fill limbo)
    (hempty : ∀ i < g.emptyTableEntryNb, (L'.empty i).map Prod.snd = (L.empty i).map Prod.snd)
    (hvictim : ∀ i < g.emptyTableEntryNb,
      (L'.victim i).map Prod.snd = (L.victim i).map Prod.snd) :
    Placed g L' fill limbo := by
  have hblocks : ∀ i < g.emptyTableEntryNb, L'.blocks i = L.blocks i := fun i hi => by
    have he := congrArg (List.map EmptyBlock.block) (hempty i hi)
    have hv := congrArg (List.map VictimBlock.block) (hvictim i hi)
    simp only [List.map_map] at he hv
    exact congrArg₂ (· ++ ·) he hv
  -- a property of the payloads is inherited along either list
  have transfer : ∀ {α : Type} {P : α → Prop} {xs ys : List (ℕ × α)},
      ys.map Prod.snd = xs.map Prod.snd → (∀ x ∈ xs, P x.2) → ∀ y ∈ ys, P y.2 :=
    fun heq hP y hy => by
      obtain ⟨x, hx, hxy⟩ := List.mem_map.mp (heq ▸ List.mem_map_of_mem hy)
      exact hxy ▸ hP x hx
  refine ⟨⟨hp.buckets.key_lt, fun i hi => ?_, fun i hi => ?_⟩, fun i hi => ?_, fun i hi => ?_,
    fun i hi => ?_, hp.limbo_sub, hp.limbo_full, hp.fill_le⟩
  · rw [hblocks i hi]
    exact hp.buckets.nodup i hi
  · rw [hblocks i hi]
    exact hp.buckets.mem_iff i hi
  · exact transfer (P := fun e : EmptyBlock => e.currPhyPageNb = fill e.block) (hempty i hi) (hp.curr i hi)
  · refine transfer (P := fun e : EmptyBlock => fill e.block = 0) ?_ (hp.fresh_tail i hi)
    rw [List.map_tail, List.map_tail, hempty i hi]
  · exact transfer (P := fun v : VictimBlock => fill v.block = g.pageNb) (hvictim i hi) (hp.victim_full i hi)

/-- Lists of the same entries have the same length. -/
private theorem length_eq_of_entries {α : Type} {xs ys : List (ℕ × α)}
    (heq : ys.map Prod.snd = xs.map Prod.snd) : ys.length = xs.length := by
  simpa using congrArg List.length heq

/-- Writing the lists succeeds, and reading them gives lists of the same entries. The tables are
those of the files. -/
private theorem exists_restored {L : ListView} (hL : ListRep g s.lists L) :
    ∃ (files : DataFiles) (s' : Ftl) (L' : ListView),
      ftlTerm g s = some files ∧ ftlInitFrom g files = some s' ∧
      s'.tables =
        { mappingTable := initPageTable g (termMappingTable g s.tables)
          inverseMappingTable := initPageTable g (termInverseMappingTable g s.tables)
          blockStateTable := initBlockStateTable g (termBlockStateTable g s.tables)
            (termValidArray g s.tables) } ∧
      ListRep g s'.lists L' ∧ s'.lists.emptyBlockTableIndex = 0 ∧
      (∀ i < g.emptyTableEntryNb, (L'.empty i).map Prod.snd = (L.empty i).map Prod.snd) ∧
      ∀ i < g.emptyTableEntryNb, (L'.victim i).map Prod.snd = (L.victim i).map Prod.snd := by
  obtain ⟨emptyFile, es, eh, ys, hesave, heload, hempty⟩ :=
    emptyShape.load_save rootLayout hL.empty
  obtain ⟨victimFile, vs, vh, zs, hvsave, hvload, hvictim⟩ :=
    victimShape.load_save rootLayout hL.victim
  have hterm : termEmptyBlockList g s.lists = some emptyFile := hesave
  have hterm' : termVictimBlockList g s.lists = some victimFile := hvsave
  refine ⟨_, _, ⟨ys, zs⟩, by rw [ftlTerm, hterm, hterm']; rfl,
    by simp only [ftlInitFrom, heload, hvload]; rfl, ?_, ?_, ?_, fun i hi => (hempty i hi).2,
    fun i hi => (hvictim i hi).2⟩
  · rfl
  · refine ⟨fun i hi => (hempty i hi).1, fun i hi => (hvictim i hi).1, ?_, ?_⟩
    · exact sum_congr rfl fun i hi =>
        (length_eq_of_entries (hempty i (mem_range.mp hi)).2).symm
    · exact sum_congr rfl fun i hi =>
        (length_eq_of_entries (hvictim i (mem_range.mp hi)).2).symm
  · rfl

/-- **A power cycle restores the state**, and the new state represents the same store. -/
theorem FtlInv.powerCycle (h : FtlInv g s σ) :
    ∃ files s', ftlTerm g s = some files ∧ ftlInitFrom g files = some s' ∧ Restored g s s' ∧
      FtlInv g s' σ := by
  obtain ⟨L, hL⟩ := h.lists
  obtain ⟨files, s', L', hterm, hinit, htables, hL', hindex, hempty, hvictim⟩ :=
    exists_restored hL.rep
  have hstates := fun i (hi : i < g.blockMappingEntryNb) => initBlockStateTable_term s.tables hi
  have hrestored : Restored g s s' :=
    { mapping := fun lpn hlpn hlt => by
        rw [htables]
        exact initPageTable_term _ hlpn hlt
      inverse := fun ppn hppn hlt => by
        rw [htables]
        exact initPageTable_term _ hppn hlt
      type := fun i hi => by
        rw [htables]
        exact (hstates i hi).1
      validPageNb := fun i hi => by
        rw [htables]
        exact (hstates i hi).2.1
      validArray := fun i hi => by
        rw [htables]
        exact (hstates i hi).2.2
      emptyCount := fun i hi => by
        rw [(hL'.empty i hi).count, (hL.rep.empty i hi).count, length_eq_of_entries (hempty i hi)]
      empty := fun i hi => by
        rw [BlockLists.emptyEntries, (hL'.empty i hi).walk_eq, hempty i hi, BlockLists.emptyEntries,
          (hL.rep.empty i hi).walk_eq]
      victimCount := fun i hi => by
        rw [(hL'.victim i hi).count, (hL.rep.victim i hi).count,
          length_eq_of_entries (hvictim i hi)]
      victim := fun i hi => by
        rw [BlockLists.victimEntries, (hL'.victim i hi).walk_eq, hvictim i hi,
          BlockLists.victimEntries, (hL.rep.victim i hi).walk_eq]
      totalEmpty := by
        rw [hL'.totalEmpty, hL.rep.totalEmpty]
        exact sum_congr rfl fun i hi => length_eq_of_entries (hempty i (mem_range.mp hi))
      totalVictim := by
        rw [hL'.totalVictim, hL.rep.totalVictim]
        exact sum_congr rfl fun i hi => length_eq_of_entries (hvictim i (mem_range.mp hi))
      index := hindex }
  refine ⟨files, s', hterm, hinit, hrestored, ⟨L', hL', hL.placed.congr hempty hvictim, ?_⟩,
    hrestored.tableInv h.tables fun lpn hlpn => ?_⟩
  · rw [hindex]
    exact g.emptyTableEntryNb_pos
  · rw [htables]
    exact if_neg hlpn

/-- **Power-cycle round trip**: a state reached by requests on a fresh device can be written out, and
`FTL_INIT` restores it from the files. -/
theorem run_powerCycle (hdvd : g.planesPerFlash ∣ g.blockNb) {hist : List Served}
    (hrun : Run g hist s) :
    ∃ files s', ftlTerm g s = some files ∧ ftlInitFrom g files = some s' ∧ Restored g s s' := by
  obtain ⟨labels, σ, hsim, -⟩ := Run.sim hdvd hrun
  obtain ⟨files, s', hterm, hinit, hrestored, -⟩ := hsim.inv.powerCycle
  exact ⟨files, s', hterm, hinit, hrestored⟩

/-- A power cycle of the small device with blocks on lists of both kinds. -/
theorem run_powerCycle_smallDevice : ∃ hist s, Run smallDevice hist s ∧ NoGcAbort hist ∧
    s.lists.totalEmptyBlockNb ≠ 0 ∧ s.lists.totalVictimBlockNb ≠ 0 ∧
    ∃ files s', ftlTerm smallDevice s = some files ∧ ftlInitFrom smallDevice files = some s' ∧
      Restored smallDevice s s' := by
  obtain ⟨hist, s, hrun, hP⟩ := exists_run (g := smallDevice) 30
    [.write 0 4, .write 1 2, .write 0 3, .write 2 2, .read 0 4, .write 0 1, .write 3 1]
    (fun hist s => decide (NoGcAbort hist ∧ s.lists.totalEmptyBlockNb ≠ 0 ∧
      s.lists.totalVictimBlockNb ≠ 0))
    (by decide +kernel) (by decide +kernel)
  obtain ⟨hgc, hempty, hvictim⟩ := of_decide_eq_true hP
  exact ⟨hist, s, hrun, hgc, hempty, hvictim, run_powerCycle (by decide) hrun⟩

end Vssim
