import Vssim.Ftl.Run
import Mathlib.Algebra.BigOperators.Group.Finset.Piecewise

/-!
# What holds between requests

In every state a run reaches without an aborted collection, the mapping tables agree with one
another (`run_mappingAgree`) and the block lists partition the device (`run_listsPartition`).
-/

namespace Vssim

open FlashStore Finset LinkedHeap

variable {g : Geometry} {s : Ftl} {σ : Store}

/-! ### The mapping tables -/

variable (g) in
/-- The forward mapping, the inverse mapping, the `valid_array` cells and the counts agree. -/
structure MappingAgree (t : PageTables) : Prop where
  /-- A mapped lpn maps to a page of the device that is marked `'V'` and maps back. -/
  mapped : ∀ lpn, t.mappingTable lpn ≠ -1 →
    0 ≤ t.mappingTable lpn ∧ t.mappingTable lpn < g.pageMappingEntryNb ∧
    (t.getBlockStateEntry g (calcFlash g (t.mappingTable lpn))
      (calcBlock g (t.mappingTable lpn))).validArray (calcPage g (t.mappingTable lpn)) = .valid ∧
    t.inverseMappingTable (t.mappingTable lpn) = lpn
  /-- A page marked `'V'` is the image of exactly one lpn. -/
  valid : ∀ f < g.flashNb, ∀ b < g.blockNb, ∀ p < g.pageNb,
    (t.getBlockStateEntry g f b).validArray p = .valid →
    ∃! lpn, t.mappingTable lpn = (f * g.blockNb * g.pageNb + b * g.pageNb + p : ℕ)
  /-- `valid_page_nb` is the number of `'V'` cells. -/
  count : ∀ f < g.flashNb, ∀ b < g.blockNb, (t.getBlockStateEntry g f b).validPageNb =
    #{p ∈ range g.pageNb | (t.getBlockStateEntry g f b).validArray p = .valid}
  /-- The valid pages of all blocks are as many as the mapped lpns. -/
  total : ∑ f ∈ range g.flashNb, ∑ b ∈ range g.blockNb, (t.getBlockStateEntry g f b).validPageNb =
    #{lpn ∈ range g.pageMappingEntryNb | t.mappingTable (lpn : ℕ) ≠ -1}

private theorem countValid_eq_card (arr : ℕ → PageState) (n : ℕ) :
    countValid arr n = #{p ∈ range n | arr p = .valid} := by
  induction n with
  | zero => rfl
  | succ n ih =>
    rw [countValid, ih, range_add_one, filter_insert]
    split
    · rw [card_insert_of_notMem (by simp)]
    · rfl

/-- A mapped lpn, as the tables show it. -/
private theorem exists_page (h : TableInv g s.tables σ.map σ.fill σ.limbo) {lpn : ℤ}
    (hlpn : s.tables.mappingTable lpn ≠ -1) : ∃ q, σ.map lpn = some q ∧ g.IsPage q ∧ 0 ≤ lpn ∧
      lpn < g.pageMappingEntryNb ∧ s.tables.mappingTable lpn = g.ppnOf q ∧
      s.tables.cellAt g q = .valid ∧ s.tables.inverseMappingTable (g.ppnOf q) = lpn := by
  obtain ⟨q, hq⟩ := Option.ne_none_iff_exists'.mp ((h.map_eq_none lpn).not.mp hlpn)
  exact ⟨q, hq, h.mapped lpn q hq⟩

/-- A page marked `'V'`, as the tables show it. -/
private theorem exists_lpn (h : TableInv g s.tables σ.map σ.fill σ.limbo) (hlimbo : σ.limbo = ∅)
    {q : Page} (hq : g.IsPage q) (hv : s.tables.cellAt g q = .valid) :
    ∃ n : ℕ, n < g.pageMappingEntryNb ∧ s.tables.inverseMappingTable (g.ppnOf q) = n ∧
      σ.map n = some q ∧ s.tables.mappingTable n = g.ppnOf q := by
  have hmap := h.valid q hq (by simp [hlimbo]) hv
  obtain ⟨-, h0, hlt, hppn, -, -⟩ := h.mapped _ q hmap
  obtain ⟨n, hn⟩ := Int.eq_ofNat_of_zero_le h0
  rw [hn] at hmap hlt hppn ⊢
  exact ⟨n, by exact_mod_cast hlt, rfl, hmap, hppn⟩

/-- With no block in limbo, the pages marked `'V'` are in bijection with the mapped lpns. -/
theorem card_valid_eq_card_mapped (h : TableInv g s.tables σ.map σ.fill σ.limbo)
    (hlimbo : σ.limbo = ∅) :
    #{q ∈ g.blocks ×ˢ range g.pageNb | s.tables.cellAt g q = .valid} =
      #{lpn ∈ range g.pageMappingEntryNb | s.tables.mappingTable (lpn : ℕ) ≠ -1} := by
  have hpage : ∀ q, q ∈ g.blocks ×ˢ range g.pageNb ↔ g.IsPage q := fun q => by
    rw [mem_product, mem_range, Geometry.IsPage]
  refine card_nbij' (fun q => (s.tables.inverseMappingTable (g.ppnOf q)).toNat)
    (fun lpn => g.pageOf (s.tables.mappingTable (lpn : ℕ))) ?_ ?_ ?_ ?_
  · intro q hq
    obtain ⟨hq, hv⟩ := mem_filter.mp hq
    obtain ⟨n, hn, hinv, -, hmap⟩ := exists_lpn h hlimbo ((hpage q).mp hq) hv
    simp only [hinv, Int.toNat_natCast, coe_filter, Set.mem_ofPred_eq, mem_range]
    exact ⟨hn, by rw [hmap]; exact Geometry.ppnOf_ne_neg_one q⟩
  · intro lpn hlpn
    obtain ⟨-, hne⟩ := mem_filter.mp hlpn
    obtain ⟨q, -, hq, -, -, hmap, hv, -⟩ := exists_page h hne
    simp only [hmap, Geometry.pageOf_ppnOf hq, coe_filter, Set.mem_ofPred_eq, hpage]
    exact ⟨hq, hv⟩
  · intro q hq
    obtain ⟨hq, hv⟩ := mem_filter.mp hq
    obtain ⟨n, -, hinv, -, hmap⟩ := exists_lpn h hlimbo ((hpage q).mp hq) hv
    simp only [hinv, Int.toNat_natCast, hmap]
    exact Geometry.pageOf_ppnOf ((hpage q).mp hq)
  · intro lpn hlpn
    obtain ⟨-, hne⟩ := mem_filter.mp hlpn
    obtain ⟨q, -, hq, -, -, hmap, -, hinv⟩ := exists_page h hne
    simp only [hmap, Geometry.pageOf_ppnOf hq, hinv, Int.toNat_natCast]

/-- The counts of all blocks add up to the number of pages marked `'V'`. -/
theorem sum_validPageNb (h : TableInv g s.tables σ.map σ.fill σ.limbo) :
    ∑ β ∈ g.blocks, (s.tables.getBlockStateEntry g β.1 β.2).validPageNb =
      #{q ∈ g.blocks ×ˢ range g.pageNb | s.tables.cellAt g q = .valid} := by
  rw [card_filter, sum_product]
  refine sum_congr rfl fun β hβ => ?_
  rw [h.counts β hβ, countValid_eq_card, card_filter]
  rfl

theorem TableInv.mappingAgree (h : TableInv g s.tables σ.map σ.fill σ.limbo)
    (hlimbo : σ.limbo = ∅) : MappingAgree g s.tables where
  mapped lpn hlpn := by
    obtain ⟨q, -, hq, -, -, hmap, hv, hinv⟩ := exists_page h hlpn
    rw [hmap, Geometry.calcFlash_ppnOf hq, Geometry.calcBlock_ppnOf hq, Geometry.calcPage_ppnOf hq]
    exact ⟨Geometry.ppnOf_nonneg q, Geometry.ppnOf_lt hq, hv, hinv⟩
  valid f hf b hb p hp hv := by
    have hq : g.IsPage ((f, b), p) := ⟨g.mem_blocks.mpr ⟨hf, hb⟩, hp⟩
    obtain ⟨n, -, hinv, -, hmap⟩ := exists_lpn h hlimbo hq hv
    refine ⟨n, hmap, fun lpn hlpn => ?_⟩
    have hne : s.tables.mappingTable lpn ≠ -1 := by
      rw [hlpn]
      exact Geometry.ppnOf_ne_neg_one ((f, b), p)
    obtain ⟨r, -, hr, -, -, hrmap, -, hrinv⟩ := exists_page h hne
    have hrq : g.ppnOf r = g.ppnOf ((f, b), p) := hrmap.symm.trans hlpn
    rw [← hrinv, hrq, hinv]
  count f hf b hb := by
    rw [h.counts (f, b) (g.mem_blocks.mpr ⟨hf, hb⟩), countValid_eq_card]
  total := by
    rw [← card_valid_eq_card_mapped h hlimbo, ← sum_validPageNb h, Geometry.blocks, sum_product]

/-- **The tables agree** in every state of a run without aborted collections. -/
theorem run_mappingAgree (hdvd : g.planesPerFlash ∣ g.blockNb) {hist : List Served}
    (hrun : Run g hist s) (hgc : NoGcAbort hist) : MappingAgree g s.tables := by
  obtain ⟨σ, h, hlimbo⟩ := Run.inv hdvd hrun hgc
  exact h.tables.mappingAgree hlimbo

/-- The run of `smallDevice_run`. -/
theorem run_mappingAgree_smallDevice : ∃ hist s, Run smallDevice hist s ∧ NoGcAbort hist ∧
    hist.map Served.ret = List.replicate 7 .success ∧ MappingAgree smallDevice s.tables := by
  obtain ⟨hist, s, hrun, hgc, hret, -⟩ := smallDevice_run
  exact ⟨hist, s, hrun, hgc, hret, run_mappingAgree (by decide) hrun hgc⟩

/-! ### The block lists -/

variable (g) in
/-- The block lists partition the blocks of the device. `L` is what the pointers spell out. -/
structure ListsPartition (s : Ftl) (L : ListView) : Prop where
  /-- Heads, tails, links and counts spell out the lists of `L`, and the totals add up. -/
  rep : ListRep g s.lists L
  /-- A block is once on the list of its chip and plane ... -/
  once : ∀ f < g.flashNb, ∀ b < g.blockNb,
    (L.blocks (b % g.planesPerFlash * g.flashNb + f)).count (f, b) = 1
  /-- ... and on no other. -/
  only : ∀ f < g.flashNb, ∀ b < g.blockNb, ∀ i < g.emptyTableEntryNb, (f, b) ∈ L.blocks i →
    i = b % g.planesPerFlash * g.flashNb + f
  /-- The lists hold blocks of the device and nothing else. -/
  inRange : ∀ i < g.emptyTableEntryNb, ∀ β ∈ L.blocks i, β.1 < g.flashNb ∧ β.2 < g.blockNb
  /-- Only the head of an empty list has been started. -/
  head : ∀ i < g.emptyTableEntryNb, ∀ x ∈ (L.empty i).tail, x.2.currPhyPageNb = 0
  /-- In a block of an empty list, exactly the pages below `curr_phy_page_nb` are not `'0'`. -/
  empty : ∀ i < g.emptyTableEntryNb, ∀ x ∈ L.empty i, x.2.currPhyPageNb ≤ g.pageNb ∧
    ∀ p < g.pageNb, (s.tables.getBlockStateEntry g x.2.phyFlashNb x.2.phyBlockNb).validArray p ≠
      .empty ↔ p < x.2.currPhyPageNb
  /-- A victim has no `'0'` page. -/
  victim : ∀ i < g.emptyTableEntryNb, ∀ x ∈ L.victim i, ∀ p < g.pageNb,
    (s.tables.getBlockStateEntry g x.2.phyFlashNb x.2.phyBlockNb).validArray p ≠ .empty

private theorem FtlInv.listsPartition (h : FtlInv g s σ) (hlimbo : σ.limbo = ∅) :
    ∃ L, ListsPartition g s L := by
  obtain ⟨L, hL⟩ := h.lists
  have hlive : g.blocks \ σ.limbo = g.blocks := by simp [hlimbo]
  have hbuckets := hL.placed.buckets
  rw [hlive] at hbuckets
  refine ⟨L, hL.rep, fun f hf b hb => ?_, fun f hf b hb i hi hmem => (hbuckets.key_eq hi hmem).symm,
    fun i hi β hβ => g.mem_blocks.mp (hbuckets.mem_live hi hβ), fun i hi x hx => ?_,
    fun i hi x hx => ⟨?_, fun p hp => ?_⟩, fun i hi x hx p hp => ?_⟩
  · have hβ : (f, b) ∈ g.blocks := g.mem_blocks.mpr ⟨hf, hb⟩
    exact List.count_eq_one_of_mem (hbuckets.nodup _ (hbuckets.key_lt _ hβ)) (hbuckets.mem_key hβ)
  · rw [hL.placed.curr i hi x (List.mem_of_mem_tail hx)]
    exact hL.placed.fresh_tail i hi x hx
  · rw [hL.placed.curr i hi x hx]
    exact hL.placed.fill_le _ (mem_sdiff.mp (hL.placed.empty_mem hi hx).1).1
  · have hq : g.IsPage (x.2.block, p) := ⟨(mem_sdiff.mp (hL.placed.empty_mem hi hx).1).1, hp⟩
    rw [hL.placed.curr i hi x hx, ← Nat.not_le, ← h.tables.cell_empty _ hq]
    rfl
  · have hq : g.IsPage (x.2.block, p) := ⟨(mem_sdiff.mp (hL.placed.victim_mem hi hx).1).1, hp⟩
    refine (h.tables.cell_empty _ hq).not.mpr ?_
    rw [hL.placed.victim_full i hi x hx]
    omega

/-- **The block lists partition the device** in every state of a run without aborted
collections. -/
theorem run_listsPartition (hdvd : g.planesPerFlash ∣ g.blockNb) {hist : List Served}
    (hrun : Run g hist s) (hgc : NoGcAbort hist) : ∃ L, ListsPartition g s L := by
  obtain ⟨σ, h, hlimbo⟩ := Run.inv hdvd hrun hgc
  exact h.listsPartition hlimbo

/-- The run of `smallDevice_run`. -/
theorem run_listsPartition_smallDevice : ∃ hist s, Run smallDevice hist s ∧ NoGcAbort hist ∧
    hist.map Served.ret = List.replicate 7 .success ∧ ∃ L, ListsPartition smallDevice s L := by
  obtain ⟨hist, s, hrun, hgc, hret, -⟩ := smallDevice_run
  exact ⟨hist, s, hrun, hgc, hret, run_listsPartition (by decide) hrun hgc⟩

end Vssim
