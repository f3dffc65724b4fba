import Vssim.Ftl.Total
import Mathlib.Algebra.BigOperators.Ring.Finset
import Mathlib.Data.Int.Interval
import Mathlib.Tactic.IntervalCases
import Mathlib.Data.Int.ConditionallyCompleteOrder
import Mathlib.Order.ConditionallyCompleteLattice.Basic

/-!
# Allocating every page

`GET_NEW_PAGE` called again and again on a fresh device, over all chips. If `PLANES_PER_FLASH`
divides `BLOCK_NB`, the counts of the lists add up to `total_empty_block_nb`, every page is handed
out once and then every call fails. Otherwise the total stays ahead of the counts, no call ever
fails, and once the lists have run dry the search for an empty block does not end
(`allocatesAll_iff`). A page number is an `int32_t`, so there are enough of them for at most `2 ^ 32`
pages.
-/

namespace Vssim

open LinkedHeap Finset

variable (g : Geometry)

/-- The page number that `GET_NEW_PAGE` stores, an `int32_t`. -/
def EmptyBlock.storedPpn (e : EmptyBlock) : ℤ := toI32 (e.ppn g)

/-- The results of `n` calls of `GET_NEW_PAGE(VICTIM_OVERALL, ...)`, one after the other. -/
def getNewPages (fuel mappingIndex : ℕ) :
    ℕ → BlockLists → Option (List (Option EmptyBlock) × BlockLists)
  | 0, l => some ([], l)
  | n + 1, l => do
    let (taken, l₁) ← getNewPage g fuel .overall mappingIndex l
    let (rest, l₂) ← getNewPages fuel mappingIndex n l₁
    some (taken :: rest, l₂)

/-- On a fresh device all calls return, the first `PAGE_NB * BLOCK_NB * FLASH_NB` of them succeed with
different page numbers, and the others fail. -/
def AllocatesAll : Prop :=
  ∃ fuel, ∀ mappingIndex k, ∃ (es : List EmptyBlock) (l : BlockLists),
    getNewPages g fuel mappingIndex (g.pageMappingEntryNb + k) (ftlInit g).lists =
        some (es.map some ++ List.replicate k none, l) ∧
      es.length = g.pageMappingEntryNb ∧ (es.map fun e => e.storedPpn g).Nodup

variable {g} {l l' : BlockLists} {L : ListView} {fill : ℕ × ℕ → ℕ} {limbo : Finset (ℕ × ℕ)}
  {fuel mappingIndex : ℕ}

/-! ### Lists that add up -/

/-- The page an entry hands out next. -/
def EmptyBlock.page (e : EmptyBlock) : Page := (e.block, e.currPhyPageNb)

variable (g) in
/-- The number of pages that are left. -/
def pagesLeft (fill : ℕ × ℕ → ℕ) : ℕ := ∑ β ∈ g.blocks, (g.pageNb - fill β)

private theorem pagesLeft_take {β : ℕ × ℕ} (hβ : β ∈ g.blocks) (hlt : fill β < g.pageNb) :
    pagesLeft g fill = pagesLeft g (Function.update fill β (fill β + 1)) + 1 :=
  freePages_place (σ := { emptyStore with fill }) 0 hβ hlt

private theorem pagesLeft_zero (hfull : ∀ β ∈ g.blocks, fill β = g.pageNb) : pagesLeft g fill = 0 :=
  freePages_eq_zero (σ := { emptyStore with fill }) hfull

/-- **Calls on lists that add up** take every page that is left once, and then fail. -/
theorem getNewPages_spec (mappingIndex n : ℕ) (h : ListInv g l L fill limbo)
    (hfuel : allocFuel g ≤ fuel) :
    ∃ (es : List EmptyBlock) (k : ℕ) (l' : BlockLists),
      getNewPages g fuel mappingIndex n l = some (es.map some ++ List.replicate k none, l') ∧
      n = es.length + k ∧ es.length = min n (pagesLeft g fill) ∧
      (es.map EmptyBlock.page).Nodup ∧
      ∀ e ∈ es, g.IsPage e.page ∧ fill e.block ≤ e.currPhyPageNb := by
  induction n generalizing l L fill with
  | zero => exact ⟨[], 0, l, rfl, rfl, by simp, by simp, by simp⟩
  | succ n ih =>
    obtain ⟨taken, l₁, hrun⟩ :
        ∃ taken l', getNewPage g fuel .overall mappingIndex l = some (taken, l') :=
      getNewPage_returns (by simp) h trivial hfuel
    have hgot := getNewPage_spec h (show ModeOk g .overall _ _ from trivial) hrun
    cases taken with
    | none =>
      obtain ⟨⟨L₁, h₁⟩, hfull⟩ := hgot
      obtain ⟨es, k, l₂, hrest, hn, hlen, -, -⟩ := ih h₁
      have hzero := pagesLeft_zero hfull
      obtain rfl : es = [] := List.length_eq_zero_iff.mp (by omega)
      refine ⟨[], k + 1, l₂, ?_, by simp [hn], by simp [hzero], by simp, by simp⟩
      simp [getNewPages, hrun, hrest, List.replicate_succ]
    | some e =>
      obtain ⟨hlive, hcurr, hlt, L₁, h₁⟩ := hgot
      obtain ⟨es, k, l₂, hrest, hn, hlen, hnd, hpages⟩ := ih h₁
      have hβ := (mem_sdiff.mp hlive).1
      have hleft := pagesLeft_take hβ hlt
      refine ⟨e :: es, k, l₂, by simp [getNewPages, hrun, hrest], by simp; omega, by simp; omega, ?_,
        ?_⟩
      · -- the block of `e` is filled beyond this page by now
        refine List.nodup_cons.mpr ⟨fun hmem => ?_, hnd⟩
        obtain ⟨e', he', heq⟩ := List.mem_map.mp hmem
        have hle := (hpages e' he').2
        obtain ⟨hblock, hpage⟩ := Prod.mk.inj heq
        rw [hblock, Function.update_self] at hle
        omega
      · intro e' he'
        rcases List.mem_cons.mp he' with rfl | he'
        · exact ⟨⟨hβ, hcurr.trans_lt hlt⟩, hcurr.ge⟩
        · refine ⟨(hpages e' he').1, le_trans ?_ (hpages e' he').2⟩
          rw [Function.update_apply]
          split
          · next heq => rw [heq]; omega
          · exact le_rfl

/-- Calls leave well-formed lists. -/
theorem getNewPages_listInv {n : ℕ} {rs : List (Option EmptyBlock)} (h : ListInv g l L fill limbo)
    (hrun : getNewPages g fuel mappingIndex n l = some (rs, l')) :
    ∃ L' fill', ListInv g l' L' fill' limbo := by
  induction n generalizing l L fill rs with
  | zero =>
    cases hrun
    exact ⟨L, fill, h⟩
  | succ n ih =>
    simp only [getNewPages, Option.bind_eq_bind, Option.bind_eq_some_iff] at hrun
    obtain ⟨⟨taken, l₁⟩, hcall, ⟨rest, l₂⟩, hrest, hrun⟩ := hrun
    cases hrun
    have hgot := getNewPage_spec h (show ModeOk g .overall _ _ from trivial) hcall
    cases taken with
    | none =>
      obtain ⟨⟨L₁, h₁⟩, -⟩ := hgot
      exact ih h₁ hrest
    | some e =>
      obtain ⟨-, -, -, L₁, h₁⟩ := hgot
      exact ih h₁ hrest

private theorem toI32_inj {x y : ℤ} (hx : 0 ≤ x) (hx' : x < 2 ^ 32) (hy : 0 ≤ y) (hy' : y < 2 ^ 32)
    (h : toI32 x = toI32 y) : x = y := by
  rw [toI32, toI32, Int.bmod_def, Int.bmod_def] at h
  split at h <;> split at h <;> omega

private theorem toI32_mem (x : ℤ) : toI32 x ∈ Finset.Ico (-2 ^ 31 : ℤ) (2 ^ 31) := by
  rw [toI32, Int.bmod_def, Finset.mem_Ico]
  split <;> omega

private theorem storedPpn_inj (hsize : g.pageMappingEntryNb ≤ 2 ^ 32) {e e' : EmptyBlock}
    (he : g.IsPage e.page) (he' : g.IsPage e'.page) (h : e.storedPpn g = e'.storedPpn g) :
    e.page = e'.page := by
  have hlt := Geometry.ppnOf_lt he
  have hlt' := Geometry.ppnOf_lt he'
  have hppn : g.ppnOf e.page = g.ppnOf e'.page :=
    toI32_inj (Geometry.ppnOf_nonneg _) (by omega) (Geometry.ppnOf_nonneg _) (by omega) h
  exact (Geometry.ppnOf_inj he he').mp hppn

private theorem allocatesAll_of_dvd (hdvd : g.planesPerFlash ∣ g.blockNb)
    (hsize : g.pageMappingEntryNb ≤ 2 ^ 32) : AllocatesAll g := by
  obtain ⟨L, hL⟩ := (ftlInit_inv hdvd).lists
  have hleft : pagesLeft g emptyStore.fill = g.pageMappingEntryNb := by
    have hfresh : ∀ β ∈ g.blocks, g.pageNb - emptyStore.fill β = g.pageNb := fun _ _ => rfl
    rw [pagesLeft, sum_const_nat hfresh, Geometry.blocks, card_product, card_range, card_range,
      Geometry.pageMappingEntryNb]
    ring
  refine ⟨allocFuel g, fun mappingIndex k => ?_⟩
  obtain ⟨es, k', l, hrun, hn, hlen, hnd, hpages⟩ :=
    getNewPages_spec mappingIndex (g.pageMappingEntryNb + k) hL le_rfl
  obtain rfl : k' = k := by omega
  refine ⟨es, l, hrun, by omega, ?_⟩
  refine List.Nodup.map_on (fun e he e' he' heq => ?_) (List.Nodup.of_map _ hnd)
  exact List.inj_on_of_nodup_map hnd he he' (storedPpn_inj hsize (hpages e he).1 (hpages e' he').1 heq)

/-! ### Entries on their lists -/

variable (g) in
/-- Block lists the searches can work with: the pointers and counts are right, every entry is a
block of a chip on its own list, and no entry has had more pages written than it has. -/
structure Filed (l : BlockLists) (L : ListView) : Prop where
  rep : ListRep g l L
  own : Own g L
  chip : ∀ i < g.emptyTableEntryNb, ∀ x ∈ L.empty i, x.2.phyFlashNb < g.flashNb
  curr_le : ∀ i < g.emptyTableEntryNb, ∀ x ∈ L.empty i, x.2.currPhyPageNb ≤ g.pageNb

theorem ListInv.filed (h : ListInv g l L fill limbo) : Filed g l L where
  rep := h.rep
  own := h.placed.own
  chip _ hi _ hx := (g.mem_blocks.mp (mem_sdiff.mp (h.placed.empty_mem hi hx).1).1).1
  curr_le i hi x hx := by
    rw [h.placed.curr i hi x hx]
    exact h.placed.fill_le _ (mem_sdiff.mp (h.placed.empty_mem hi hx).1).1

namespace Filed

/-- The chip of an entry, from the list it is on. -/
theorem chip_eq (h : Filed g l L) {i : ℕ} (hi : i < g.emptyTableEntryNb) {x : ℕ × EmptyBlock}
    (hx : x ∈ L.empty i) : x.2.phyFlashNb = i % g.flashNb :=
  ((listOf_eq_iff (h.chip i hi x hx)).mp (h.own.empty i hi x hx)).2

/-- Replacing both lists `i`: what is left to say is about them alone. -/
private theorem set (h : Filed g l L) {i : ℕ} {xs : List (ℕ × EmptyBlock)}
    {ys : List (ℕ × VictimBlock)} (hrep : ListRep g l' (L.set i xs ys))
    (hxs : ∀ x ∈ xs, g.listOf x.2.block = i ∧ x.2.phyFlashNb < g.flashNb ∧
      x.2.currPhyPageNb ≤ g.pageNb)
    (hys : ∀ y ∈ ys, g.listOf y.2.block = i) : Filed g l' (L.set i xs ys) := by
  have hempty : ∀ j < g.emptyTableEntryNb, ∀ x ∈ (L.set i xs ys).empty j,
      g.listOf x.2.block = j ∧ x.2.phyFlashNb < g.flashNb ∧ x.2.currPhyPageNb ≤ g.pageNb := by
    intro j hj x hx
    by_cases hji : j = i
    · rw [hji, ListView.set_empty_self] at hx
      rw [hji]
      exact hxs x hx
    · rw [ListView.set_empty_of_ne hji] at hx
      exact ⟨h.own.empty j hj x hx, h.chip j hj x hx, h.curr_le j hj x hx⟩
  refine ⟨hrep, ⟨fun j hj x hx => (hempty j hj x hx).1, fun j hj y hy => ?_⟩,
    fun j hj x hx => (hempty j hj x hx).2.1, fun j hj x hx => (hempty j hj x hx).2.2⟩
  by_cases hji : j = i
  · rw [hji, ListView.set_victim_self] at hy
    rw [hji]
    exact hys y hy
  · rw [ListView.set_victim_of_ne hji] at hy
    exact h.own.victim j hj y hy

theorem retire (h : Filed g l L) {i p : ℕ} (hi : i < g.emptyTableEntryNb) {e : EmptyBlock}
    {xs : List (ℕ × EmptyBlock)} (hL : L.empty i = (p, e) :: xs) :
    ∃ l' ys, retireFullBlock g i p l = some l' ∧ Filed g l' (L.set i xs ys) ∧
      l'.emptyBlockTableIndex = l.emptyBlockTableIndex ∧
      l.totalEmptyBlockNb = l'.totalEmptyBlockNb + 1 := by
  obtain ⟨l', a, hrun, hrep, hindex, htotal⟩ := h.rep.retire h.own hi hL
  refine ⟨l', _, hrun, h.set hrep (fun x hx => ?_) fun y hy => ?_, hindex, htotal⟩
  · have hmem : x ∈ L.empty i := hL ▸ List.mem_cons_of_mem _ hx
    exact ⟨h.own.empty i hi x hmem, h.chip i hi x hmem, h.curr_le i hi x hmem⟩
  · rcases List.mem_append.mp hy with hy | hy
    · exact h.own.victim i hi y hy
    · rw [List.mem_singleton.mp hy]
      exact h.own.empty i hi (p, e) (by simp [hL])

theorem take (h : Filed g l L) {i p : ℕ} (hi : i < g.emptyTableEntryNb) {e : EmptyBlock}
    {xs : List (ℕ × EmptyBlock)} (hL : L.empty i = (p, e) :: xs)
    (hlt : e.currPhyPageNb < g.pageNb) :
    Filed g
      { l with emptyHeap := l.emptyHeap.modify p fun c =>
          { c with val := { c.val with currPhyPageNb := c.val.currPhyPageNb + 1 } } }
      (L.set i ((p, { e with currPhyPageNb := e.currPhyPageNb + 1 }) :: xs) (L.victim i)) := by
  refine h.set (h.rep.take h.own hi hL) (fun x hx => ?_) (h.own.victim i hi)
  have hhead : (p, e) ∈ L.empty i := by simp [hL]
  rcases List.mem_cons.mp hx with rfl | hx
  · exact ⟨h.own.empty i hi (p, e) hhead, h.chip i hi (p, e) hhead, hlt⟩
  · have hmem : x ∈ L.empty i := hL ▸ List.mem_cons_of_mem _ hx
    exact ⟨h.own.empty i hi x hmem, h.chip i hi x hmem, h.curr_le i hi x hmem⟩

theorem setIndex (h : Filed g l L) (i : ℕ) : Filed g { l with emptyBlockTableIndex := i } L :=
  ⟨⟨h.rep.empty, h.rep.victim, h.rep.totalEmpty, h.rep.totalVictim⟩, h.own, h.chip, h.curr_le⟩

end Filed

/-! ### Lists that do not add up -/

variable (g) in
/-- The total counts more blocks than the lists do. -/
structure Ahead (l : BlockLists) : Prop where
  index : l.emptyBlockTableIndex < g.emptyTableEntryNb
  total : ∑ i ∈ range g.emptyTableEntryNb, (l.emptyBlockList i).count < l.totalEmptyBlockNb

private theorem Ahead.advance (h : Ahead g l) : Ahead g (advanceTableIndex g l) := by
  refine ⟨?_, h.total⟩
  have hlt := h.index
  rw [advanceTableIndex]
  dsimp only
  split <;> omega

/-- Retiring a block takes one off its count and one off the total. -/
private theorem Ahead.retire (h : Ahead g l) {i p : ℕ} (hi : i < g.emptyTableEntryNb)
    (hcount : (l.emptyBlockList i).count ≠ 0) (hrun : retireFullBlock g i p l = some l') :
    Ahead g l' := by
  simp only [retireFullBlock, insertVictimBlock, Option.bind_eq_bind, Option.bind_eq_some_iff,
    Option.some.injEq] at hrun
  obtain ⟨c, hcell, l₁, ⟨c', -, ⟨vh, vr⟩, -, rfl⟩, rfl⟩ := hrun
  refine ⟨h.index, ?_⟩
  dsimp only
  have hmem := mem_range.mpr hi
  have htotal := h.total
  rw [← add_sum_erase _ _ hmem] at htotal ⊢
  rw [Function.update_self]
  have hrest : ∀ root, ∑ k ∈ (range g.emptyTableEntryNb).erase i,
      (Function.update l.emptyBlockList i root k).count =
        ∑ k ∈ (range g.emptyTableEntryNb).erase i, (l.emptyBlockList k).count := fun root =>
    sum_congr rfl fun k hk => by rw [Function.update_of_ne (ne_of_mem_erase hk)]
  rw [hrest]
  split
  · dsimp only
    omega
  · dsimp only
    omega

/-- The search over all chips does not give up. -/
private theorem Ahead.search (h : Ahead g l) {inputIndex : ℕ} {r : Option ℕ}
    (hrun : getEmptyBlockLoop g .overall inputIndex fuel mappingIndex l = some (r, l')) :
    r ≠ none ∧ Ahead g l' := by
  induction fuel generalizing l with
  | zero => simp [getEmptyBlockLoop] at hrun
  | succ fuel ih =>
    have h0 : l.totalEmptyBlockNb ≠ 0 := by
      have := h.total
      omega
    rw [getEmptyBlockLoop, if_neg h0] at hrun
    by_cases hcount : (l.emptyBlockList l.emptyBlockTableIndex).count = 0
    · simp only [hcount, if_true] at hrun
      exact ih h.advance hrun
    · simp only [hcount, if_false, Option.bind_eq_bind, Option.bind_eq_some_iff] at hrun
      obtain ⟨p, -, c, -, hrun⟩ := hrun
      split at hrun
      · obtain ⟨l₁, hretire, hrun⟩ := Option.bind_eq_some_iff.mp hrun
        exact ih (h.retire h.index hcount hretire).advance hrun
      · cases hrun
        exact ⟨by simp, h.advance⟩

private theorem Ahead.getNewPage {taken : Option EmptyBlock} (h : Ahead g l)
    (hrun : getNewPage g fuel .overall mappingIndex l = some (taken, l')) :
    taken ≠ none ∧ Ahead g l' := by
  simp only [Vssim.getNewPage, reduceCtorEq, false_and, if_false, Option.bind_eq_bind,
    Option.bind_eq_some_iff] at hrun
  obtain ⟨⟨found, l₁⟩, hsearch, ⟨found', l₂⟩, heq, hrun⟩ := hrun
  cases heq
  obtain ⟨hfound, h₁⟩ := h.search hsearch
  obtain ⟨p, rfl⟩ := Option.ne_none_iff_exists'.mp hfound
  simp only [takePage, Option.map_eq_some_iff, Prod.mk.injEq] at hrun
  obtain ⟨c, -, rfl, rfl⟩ := hrun
  exact ⟨by simp, h₁.index, h₁.total⟩

/-- As long as the total is ahead, no call fails. -/
private theorem Ahead.getNewPages {n : ℕ} {rs : List (Option EmptyBlock)} (h : Ahead g l)
    (hrun : getNewPages g fuel mappingIndex n l = some (rs, l')) : none ∉ rs := by
  induction n generalizing l rs with
  | zero =>
    cases hrun
    simp
  | succ n ih =>
    simp only [Vssim.getNewPages, Option.bind_eq_bind, Option.bind_eq_some_iff] at hrun
    obtain ⟨⟨taken, l₁⟩, hcall, ⟨rest, l₂⟩, hrest, hrun⟩ := hrun
    cases hrun
    obtain ⟨htaken, h₁⟩ := h.getNewPage hcall
    rw [List.mem_cons, not_or]
    exact ⟨htaken.symm, ih h₁ hrest⟩

/-- Unless the number of planes divides the number of blocks, a fresh device starts like this. -/
private theorem ftlInit_ahead (hdvd : ¬ g.planesPerFlash ∣ g.blockNb) :
    Ahead g (ftlInit g).lists := by
  refine ⟨g.emptyTableEntryNb_pos, ?_⟩
  have hcounts : ∑ i ∈ range g.emptyTableEntryNb, ((ftlInit g).lists.emptyBlockList i).count =
      g.flashNb * (g.planesPerFlash * (g.blockNb / g.planesPerFlash)) := by
    rw [sum_const_nat fun i hi => ftlInit_count (mem_range.mp hi), card_range,
      Geometry.emptyTableEntryNb, Geometry.eachEmptyTableEntryNb, Nat.mul_assoc]
  have hlt : g.planesPerFlash * (g.blockNb / g.planesPerFlash) < g.blockNb :=
    lt_of_le_of_ne (Nat.mul_div_le _ _) fun heq => hdvd ⟨_, heq.symm⟩
  rw [hcounts]
  calc g.flashNb * (g.planesPerFlash * (g.blockNb / g.planesPerFlash))
      < g.flashNb * g.blockNb := Nat.mul_lt_mul_of_pos_left hlt g.flashNb_pos
    _ = (ftlInit g).lists.totalEmptyBlockNb := Nat.mul_comm _ _

/-- **Every page of every accepted configuration can be allocated** exactly if the number of planes
divides the number of blocks and there are enough page numbers. -/
theorem allocatesAll_iff (g : Geometry) :
    AllocatesAll g ↔ g.planesPerFlash ∣ g.blockNb ∧ g.pageMappingEntryNb ≤ 2 ^ 32 := by
  refine ⟨fun ⟨fuel, h⟩ => ⟨?_, ?_⟩, fun ⟨hdvd, hsize⟩ => allocatesAll_of_dvd hdvd hsize⟩
  · -- a call that fails shows that the total was not ahead
    by_contra hdvd
    obtain ⟨es, l, hrun, -⟩ := h 0 1
    exact (ftlInit_ahead hdvd).getNewPages hrun (by simp)
  · obtain ⟨es, l, -, hlen, hnd⟩ := h 0 0
    have hsub : (es.map fun e => e.storedPpn g).toFinset ⊆ Finset.Ico (-2 ^ 31 : ℤ) (2 ^ 31) := by
      intro x hx
      obtain ⟨e, -, rfl⟩ := List.mem_map.mp (List.mem_toFinset.mp hx)
      exact toI32_mem _
    have hcard := card_le_card hsub
    rw [List.toFinset_card_of_nodup hnd, List.length_map, hlen, Int.card_Ico] at hcard
    omega

/-- With nothing left on the lists but a total that says otherwise, the search does not end. -/
private theorem Ahead.spins (h : Ahead g l) (hcounts : ∀ i < g.emptyTableEntryNb,
    (l.emptyBlockList i).count = 0) {inputIndex : ℕ} :
    getEmptyBlockLoop g .overall inputIndex fuel mappingIndex l = none := by
  induction fuel generalizing l with
  | zero => rfl
  | succ fuel ih =>
    have h0 : l.totalEmptyBlockNb ≠ 0 := by
      have := h.total
      omega
    simp only [getEmptyBlockLoop, if_neg h0, if_pos (hcounts _ h.index)]
    exact ih h.advance hcounts

/-- A chip of three blocks of one page, in two planes. -/
def threeBlocks : Geometry where
  sectorsPerPage := 1
  pageNb := 1
  blockNb := 3
  flashNb := 1
  planesPerFlash := 2
  gcVictimNb := 20
  writeNoparal := false
  gcVictimOverall := false
  sectorsPerPage_pos := Nat.one_pos
  sectorsPerPage_lt := Nat.one_lt_two_pow' 30
  pageNb_pos := Nat.one_pos
  blockNb_pos := by decide
  flashNb_pos := Nat.one_pos
  planesPerFlash_pos := Nat.two_pos

/-- The third call on this chip retires both heads and then does not end, because the last block is
counted in `total_empty_block_nb` but not in the count of its list. -/
private theorem threeBlocks_getNewPages (fuel : ℕ) :
    getNewPages threeBlocks fuel 0 3 (ftlInit threeBlocks).lists = none := by
  match fuel with
  | 0 | 1 => rfl
  | fuel + 2 =>
    have hcalls : ∃ l₁ l₂ l₃ e₁ e₂ K,
        getNewPage threeBlocks (fuel + 2) .overall 0 (ftlInit threeBlocks).lists =
          some (some e₁, l₁) ∧
        getNewPage threeBlocks (fuel + 2) .overall 0 l₁ = some (some e₂, l₂) ∧
        getNewPage threeBlocks (fuel + 2) .overall 0 l₂ =
          (getEmptyBlockLoop threeBlocks .overall 0 fuel 0 l₃).bind K ∧
        l₃.emptyBlockTableIndex = 0 ∧ l₃.totalEmptyBlockNb = 1 ∧
        (l₃.emptyBlockList 0).count = 0 ∧ (l₃.emptyBlockList 1).count = 0 :=
      ⟨_, _, _, _, _, _, rfl, rfl, rfl, rfl, rfl, rfl, rfl⟩
    obtain ⟨l₁, l₂, l₃, e₁, e₂, K, h₁, h₂, h₃, hindex, htotal, hzero, hone⟩ := hcalls
    have hcounts : ∀ i < threeBlocks.emptyTableEntryNb, (l₃.emptyBlockList i).count = 0 := by
      intro i hi
      have hi : i < 2 := hi
      interval_cases i
      · exact hzero
      · exact hone
    have hahead : Ahead threeBlocks l₃ := by
      refine ⟨by rw [hindex]; decide, ?_⟩
      rw [sum_eq_zero fun i hi => hcounts i (mem_range.mp hi), htotal]
      decide
    simp only [getNewPages, h₁, h₂, h₃, hahead.spins hcounts, Option.bind_eq_bind, Option.bind_some,
      Option.bind_none]

/-- Two of the three pages can be allocated, and the third call does not end. -/
theorem threeBlocks_spins : ¬ AllocatesAll threeBlocks ∧
    (∃ (es : List EmptyBlock) (l : BlockLists), es.length = 2 ∧
      getNewPages threeBlocks 3 0 2 (ftlInit threeBlocks).lists = some (es.map some, l)) ∧
    ∀ fuel, getNewPages threeBlocks fuel 0 3 (ftlInit threeBlocks).lists = none := by
  refine ⟨fun ⟨fuel, h⟩ => ?_, ⟨[_, _], _, rfl, rfl⟩, threeBlocks_getNewPages⟩
  obtain ⟨es, l, hrun, -⟩ := h 0 0
  rw [Nat.add_zero, show threeBlocks.pageMappingEntryNb = 3 from rfl,
    threeBlocks_getNewPages fuel] at hrun
  exact absurd hrun (by simp)

end Vssim
