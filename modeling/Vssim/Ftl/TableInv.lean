import Vssim.Ftl.Mapping
import Vssim.Ftl.ListInv

/-!
# The mapping-table invariant

Pages are addressed here as a block and a page within it; `ppnOf` is the number the code
uses and `calc_ppnOf` says that `CALC_FLASH`, `CALC_BLOCK` and `CALC_PAGE` undo it.

`TableInv` ties the four tables to one another through the abstract map: a mapped page is
marked `'V'` and its inverse entry names the logical page; a page marked `'V'` outside limbo
is mapped to; the pages marked `'0'` are exactly those not handed out. The updates of a host
write, of a garbage-collection copy and of an erase each keep it.
-/

namespace Vssim

open Finset

/-- A physical page: its block and its number in the block. -/
abbrev Page := (ℕ × ℕ) × ℕ

namespace Geometry

variable (g : Geometry)

/-- The pages of the device. -/
def IsPage (q : Page) : Prop := q.1 ∈ g.blocks ∧ q.2 < g.pageNb

/-- The number of a page. -/
def ppnOf (q : Page) : ℤ := (q.1.1 * g.blockNb * g.pageNb + q.1.2 * g.pageNb + q.2 : ℕ)

/-- The page a number denotes. -/
def pageOf (ppn : ℤ) : Page := ((calcFlash g ppn, calcBlock g ppn), calcPage g ppn)

variable {g}

private theorem ppnOf_eq (q : Page) :
    g.ppnOf q = (((q.1.1 * g.blockNb + q.1.2) * g.pageNb + q.2 : ℕ) : ℤ) := by
  rw [ppnOf]
  congr 1
  ring

private theorem div_pageNb {q : Page} (hq : g.IsPage q) :
    ((q.1.1 * g.blockNb + q.1.2) * g.pageNb + q.2) / g.pageNb = q.1.1 * g.blockNb + q.1.2 := by
  rw [Nat.add_comm, Nat.add_mul_div_right _ _ g.pageNb_pos, Nat.div_eq_of_lt hq.2, Nat.zero_add]

theorem calcFlash_ppnOf {q : Page} (hq : g.IsPage q) : calcFlash g (g.ppnOf q) = q.1.1 := by
  have hb : q.1.2 < g.blockNb := (g.mem_blocks.mp hq.1).2
  rw [calcFlash, ppnOf_eq, ← Int.ofNat_tdiv, ← Int.ofNat_tdiv, Int.toNat_natCast, div_pageNb hq,
    Nat.add_comm, Nat.add_mul_div_right _ _ g.blockNb_pos, Nat.div_eq_of_lt hb, Nat.zero_add]

theorem calcBlock_ppnOf {q : Page} (hq : g.IsPage q) : calcBlock g (g.ppnOf q) = q.1.2 := by
  have hb : q.1.2 < g.blockNb := (g.mem_blocks.mp hq.1).2
  rw [calcBlock, ppnOf_eq, ← Int.ofNat_tdiv, ← Int.ofNat_tmod, Int.toNat_natCast, div_pageNb hq,
    Nat.add_comm, Nat.add_mul_mod_self_right, Nat.mod_eq_of_lt hb]

theorem calcPage_ppnOf {q : Page} (hq : g.IsPage q) : calcPage g (g.ppnOf q) = q.2 := by
  rw [calcPage, ppnOf_eq, ← Int.ofNat_tmod, Int.toNat_natCast, Nat.add_comm,
    Nat.add_mul_mod_self_right, Nat.mod_eq_of_lt hq.2]

/-- `CALC_FLASH`, `CALC_BLOCK` and `CALC_PAGE` recover the page from its number. -/
@[simp] theorem pageOf_ppnOf {q : Page} (hq : g.IsPage q) : g.pageOf (g.ppnOf q) = q := by
  rw [pageOf, calcFlash_ppnOf hq, calcBlock_ppnOf hq, calcPage_ppnOf hq]

theorem ppnOf_inj {q q' : Page} (hq : g.IsPage q) (hq' : g.IsPage q') :
    g.ppnOf q = g.ppnOf q' ↔ q = q' :=
  ⟨fun heq => by rw [← pageOf_ppnOf hq, heq, pageOf_ppnOf hq'], congrArg _⟩

theorem ppnOf_nonneg (q : Page) : 0 ≤ g.ppnOf q := Int.natCast_nonneg _

theorem ppnOf_ne_neg_one (q : Page) : g.ppnOf q ≠ -1 := by
  have := ppnOf_nonneg (g := g) q
  omega

theorem ppnOf_lt {q : Page} (hq : g.IsPage q) : g.ppnOf q < g.pageMappingEntryNb := by
  obtain ⟨hf, hb⟩ := g.mem_blocks.mp hq.1
  have hblock : q.1.1 * g.blockNb + q.1.2 + 1 ≤ g.flashNb * g.blockNb := by
    calc q.1.1 * g.blockNb + q.1.2 + 1 ≤ q.1.1 * g.blockNb + g.blockNb := by omega
      _ = (q.1.1 + 1) * g.blockNb := by ring
      _ ≤ g.flashNb * g.blockNb := Nat.mul_le_mul_right _ hf
  have hpage : (q.1.1 * g.blockNb + q.1.2) * g.pageNb + q.2 < g.pageMappingEntryNb := by
    calc (q.1.1 * g.blockNb + q.1.2) * g.pageNb + q.2
        < (q.1.1 * g.blockNb + q.1.2) * g.pageNb + g.pageNb := by have := hq.2; omega
      _ = (q.1.1 * g.blockNb + q.1.2 + 1) * g.pageNb := by ring
      _ ≤ g.flashNb * g.blockNb * g.pageNb := Nat.mul_le_mul_right _ hblock
      _ = g.pageMappingEntryNb := by rw [pageMappingEntryNb]; ring
  rw [ppnOf_eq]
  exact_mod_cast hpage

/-- The page an empty-list entry hands out next, under its number. -/
theorem ppn_eq_ppnOf (e : EmptyBlock) : e.ppn g = g.ppnOf (e.block, e.currPhyPageNb) := rfl

end Geometry

/-! ### Cells and counts of the block state table -/

variable (g : Geometry)

/-- The `valid_array` cell of a page. -/
def PageTables.cellAt (t : PageTables) (q : Page) : PageState :=
  (t.getBlockStateEntry g q.1.1 q.1.2).validArray q.2

/-- Every `valid_page_nb` is the number of `'V'` cells of its block. -/
def PageTables.CountsOk (t : PageTables) : Prop :=
  ∀ β ∈ g.blocks, (t.getBlockStateEntry g β.1 β.2).validPageNb =
    countValid (t.getBlockStateEntry g β.1 β.2).validArray g.pageNb

variable {g}

private theorem blockStateIndex_inj {β γ : ℕ × ℕ} (hβ : β ∈ g.blocks) (hγ : γ ∈ g.blocks) :
    blockStateIndex g β.1 β.2 = blockStateIndex g γ.1 γ.2 ↔ β = γ := by
  refine ⟨fun heq => ?_, fun heq => by rw [heq]⟩
  obtain ⟨-, hb⟩ := g.mem_blocks.mp hβ
  obtain ⟨-, hc⟩ := g.mem_blocks.mp hγ
  simp only [blockStateIndex] at heq
  have hdiv := congrArg (· / g.blockNb) heq
  have hmod := congrArg (· % g.blockNb) heq
  simp only [Nat.add_comm (_ * g.blockNb), Nat.add_mul_div_right _ _ g.blockNb_pos,
    Nat.div_eq_of_lt hb, Nat.div_eq_of_lt hc, Nat.zero_add] at hdiv
  simp only [Nat.add_comm (_ * g.blockNb), Nat.add_mul_mod_self_right, Nat.mod_eq_of_lt hb,
    Nat.mod_eq_of_lt hc] at hmod
  exact Prod.ext hdiv hmod

/-- Reading the block state table after one of its entries was written. -/
private theorem getBlockStateEntry_update {t : PageTables} {β γ : ℕ × ℕ} (hβ : β ∈ g.blocks)
    (hγ : γ ∈ g.blocks) (e : BlockStateEntry) :
    PageTables.getBlockStateEntry g
      { t with
        blockStateTable := Function.update t.blockStateTable (blockStateIndex g β.1 β.2) e }
      γ.1 γ.2 = if γ = β then e else t.getBlockStateEntry g γ.1 γ.2 := by
  simp only [PageTables.getBlockStateEntry, Function.update_apply, blockStateIndex_inj hγ hβ]

/-- `UPDATE_BLOCK_STATE_ENTRY` sets one cell and nothing else, and keeps the counts. -/
private theorem updateBlockStateEntry_spec {q : Page} (hq : g.IsPage q) (state : PageState)
    (t : PageTables) : ∃ t', updateBlockStateEntry g q.1.1 q.1.2 q.2 state t = (.success, t') ∧
      t'.mappingTable = t.mappingTable ∧ t'.inverseMappingTable = t.inverseMappingTable ∧
      (∀ r, g.IsPage r → t'.cellAt g r = Function.update (t.cellAt g) q state r) ∧
      (t.CountsOk g → t'.CountsOk g) := by
  obtain ⟨hβ, hi⟩ := hq
  obtain ⟨hf, hb⟩ := g.mem_blocks.mp hβ
  have hrun : ¬(g.flashNb ≤ q.1.1 ∨ g.blockNb ≤ q.1.2 ∨ g.pageNb ≤ q.2) := by omega
  refine ⟨_, if_neg hrun, rfl, rfl, fun r hr => ?_, fun hcounts γ hγ => ?_⟩
  · rw [PageTables.cellAt, getBlockStateEntry_update hβ hr.1]
    by_cases hrq : r.1 = q.1
    · rw [if_pos hrq]
      simp only
      by_cases hi : r.2 = q.2
      · rw [Prod.ext hrq hi, Function.update_self, Function.update_self]
      · rw [Function.update_of_ne hi, Function.update_of_ne fun h => hi (congrArg Prod.snd h),
          PageTables.cellAt, hrq]
    · rw [if_neg hrq, Function.update_of_ne fun h => hrq (congrArg Prod.fst h), PageTables.cellAt]
  · rw [getBlockStateEntry_update hβ hγ]
    by_cases hγβ : γ = q.1
    · rw [if_pos hγβ]
    · rw [if_neg hγβ]
      exact hcounts γ hγ

/-- Setting a block's type changes neither cells nor counts. -/
private theorem setType_spec {β : ℕ × ℕ} (hβ : β ∈ g.blocks) (type : BlockType) (t : PageTables)
    {t' : PageTables} (ht' : t' =
      { t with
        blockStateTable := Function.update t.blockStateTable (blockStateIndex g β.1 β.2)
          { t.getBlockStateEntry g β.1 β.2 with type } }) :
    (∀ r, g.IsPage r → t'.cellAt g r = t.cellAt g r) ∧ (t.CountsOk g → t'.CountsOk g) := by
  subst ht'
  refine ⟨fun r hr => ?_, fun hcounts γ hγ => ?_⟩
  · rw [PageTables.cellAt, getBlockStateEntry_update hβ hr.1, PageTables.cellAt]
    by_cases hrβ : r.1 = β
    · rw [if_pos hrβ, hrβ]
    · rw [if_neg hrβ]
  · rw [getBlockStateEntry_update hβ hγ]
    by_cases hγβ : γ = β
    · rw [if_pos hγβ]
      exact hcounts β hβ
    · rw [if_neg hγβ]
      exact hcounts γ hγ

/-- The erasing loop of `UPDATE_BLOCK_STATE`, over the pages `is`. -/
private theorem eraseCells_spec {β : ℕ × ℕ} (hβ : β ∈ g.blocks) {is : List ℕ}
    (his : ∀ i ∈ is, i < g.pageNb) (t : PageTables) {t' : PageTables}
    (ht' : t' = is.foldl (fun t i => (updateBlockStateEntry g β.1 β.2 i .empty t).2) t) :
    t'.mappingTable = t.mappingTable ∧ t'.inverseMappingTable = t.inverseMappingTable ∧
      (∀ r, g.IsPage r →
        t'.cellAt g r = if r.1 = β ∧ r.2 ∈ is then .empty else t.cellAt g r) ∧
      (t.CountsOk g → t'.CountsOk g) := by
  induction is generalizing t with
  | nil =>
    subst ht'
    exact ⟨rfl, rfl, fun r _ => by simp, id⟩
  | cons i is ih =>
    obtain ⟨t₁, hrun, hmap, hinv, hcell, hcounts⟩ :=
      updateBlockStateEntry_spec (q := (β, i)) ⟨hβ, his i (by simp)⟩ .empty t
    rw [List.foldl_cons, hrun] at ht'
    obtain ⟨hmap', hinv', hcell', hcounts'⟩ :=
      ih (fun j hj => his j (List.mem_cons_of_mem _ hj)) t₁ ht'
    refine ⟨hmap'.trans hmap, hinv'.trans hinv, fun r hr => ?_, fun h => hcounts' (hcounts h)⟩
    rw [hcell' r hr, hcell r hr, Function.update_apply]
    by_cases hrβ : r.1 = β
    · by_cases hri : r.2 = i
      · simp [hrβ, hri, Prod.ext_iff]
      · simp [hrβ, hri, Prod.ext_iff]
    · simp [hrβ, Prod.ext_iff]

/-- `UPDATE_BLOCK_STATE(.., EMPTY_BLOCK)` sets every cell of the block to `'0'`. -/
theorem updateBlockState_empty_spec {β : ℕ × ℕ} (hβ : β ∈ g.blocks) (t : PageTables)
    {t' : PageTables} (ht' : t' = updateBlockState g β.1 β.2 .emptyBlock t) :
    t'.mappingTable = t.mappingTable ∧ t'.inverseMappingTable = t.inverseMappingTable ∧
      (∀ r, g.IsPage r → t'.cellAt g r = if r.1 = β then .empty else t.cellAt g r) ∧
      (t.CountsOk g → t'.CountsOk g) := by
  obtain ⟨hcell₁, hcounts₁⟩ := setType_spec hβ .emptyBlock t rfl
  obtain ⟨hmap, hinv, hcell, hcounts⟩ :=
    eraseCells_spec hβ (fun i hi => List.mem_range.mp hi) _ ht'
  refine ⟨hmap, hinv, fun r hr => ?_, fun h => hcounts (hcounts₁ h)⟩
  rw [hcell r hr, hcell₁ r hr]
  simp [hr.2]

/-- `UPDATE_OLD_PAGE_MAPPING` of a mapped logical page invalidates its page. -/
theorem updateOldPageMapping_spec {t : PageTables} {lpn : ℤ} {q : Page} (hq : g.IsPage q)
    (hmap : t.mappingTable lpn = g.ppnOf q) {t' : PageTables}
    (ht' : t' = updateOldPageMapping g lpn t) : t'.mappingTable = t.mappingTable ∧
      t'.inverseMappingTable = Function.update t.inverseMappingTable (g.ppnOf q) (-1) ∧
      (∀ r, g.IsPage r → t'.cellAt g r = Function.update (t.cellAt g) q .invalid r) ∧
      (t.CountsOk g → t'.CountsOk g) := by
  obtain ⟨t₁, hrun, hmap₁, hinv₁, hcell, hcounts⟩ := updateBlockStateEntry_spec hq .invalid t
  have ht : t' = updateInverseMapping (g.ppnOf q) (-1) t₁ := by
    rw [ht', updateOldPageMapping, hmap, if_neg (Geometry.ppnOf_ne_neg_one q),
      Geometry.calcFlash_ppnOf hq, Geometry.calcBlock_ppnOf hq, Geometry.calcPage_ppnOf hq, hrun]
  subst ht
  exact ⟨hmap₁, by rw [updateInverseMapping, hinv₁], hcell, hcounts⟩

/-- `UPDATE_NEW_PAGE_MAPPING` maps the logical page and marks the page valid. -/
theorem updateNewPageMapping_spec (t : PageTables) (lpn : ℤ) {q : Page} (hq : g.IsPage q)
    {t' : PageTables} (ht' : t' = updateNewPageMapping g lpn (g.ppnOf q) t) :
    t'.mappingTable = Function.update t.mappingTable lpn (g.ppnOf q) ∧
      t'.inverseMappingTable = Function.update t.inverseMappingTable (g.ppnOf q) lpn ∧
      (∀ r, g.IsPage r → t'.cellAt g r = Function.update (t.cellAt g) q .valid r) ∧
      (t.CountsOk g → t'.CountsOk g) := by
  obtain ⟨t₁, hrun, hmap₁, hinv₁, hcell₁, hcounts₁⟩ := updateBlockStateEntry_spec hq .valid
    { t with mappingTable := Function.update t.mappingTable lpn (g.ppnOf q) }
  obtain ⟨hcell, hcounts⟩ := setType_spec hq.1 .dataBlock t₁ rfl
  rw [updateNewPageMapping, Geometry.calcFlash_ppnOf hq, Geometry.calcBlock_ppnOf hq,
    Geometry.calcPage_ppnOf hq, hrun] at ht'
  subst ht'
  refine ⟨hmap₁, ?_, fun r hr => (hcell r hr).trans (hcell₁ r hr), fun h => hcounts (hcounts₁ h)⟩
  simp only [updateInverseMapping, updateBlockState, hinv₁]

/-! ### The invariant -/

variable (g) in
/-- The tables agree with one another and with the abstract map. -/
structure TableInv (t : PageTables) (map : ℤ → Option Page) (fill : ℕ × ℕ → ℕ)
    (limbo : Finset (ℕ × ℕ)) : Prop where
  /-- The pages marked `'0'` are those not handed out. -/
  cell_empty : ∀ q, g.IsPage q → (t.cellAt g q = .empty ↔ fill q.1 ≤ q.2)
  counts : t.CountsOk g
  unmapped : ∀ lpn, map lpn = none → t.mappingTable lpn = -1
  mapped : ∀ lpn q, map lpn = some q → g.IsPage q ∧ 0 ≤ lpn ∧ lpn < g.pageMappingEntryNb ∧
    t.mappingTable lpn = g.ppnOf q ∧ t.cellAt g q = .valid ∧
    t.inverseMappingTable (g.ppnOf q) = lpn
  /-- A page marked `'V'` outside limbo is mapped to. -/
  valid : ∀ q, g.IsPage q → q.1 ∉ limbo → t.cellAt g q = .valid →
    map (t.inverseMappingTable (g.ppnOf q)) = some q

namespace TableInv

variable {t t' : PageTables} {map : ℤ → Option Page} {fill : ℕ × ℕ → ℕ} {limbo : Finset (ℕ × ℕ)}

/-- A mapped page has been handed out. -/
theorem lt_fill (h : TableInv g t map fill limbo) {lpn : ℤ} {q : Page} (hq : map lpn = some q) :
    q.2 < fill q.1 := by
  obtain ⟨hpage, -, -, -, hcell, -⟩ := h.mapped lpn q hq
  by_contra hle
  rw [(h.cell_empty q hpage).mpr (by omega)] at hcell
  cases hcell

/-- Two logical pages are never mapped to one page. -/
theorem map_inj (h : TableInv g t map fill limbo) {lpn lpn' : ℤ} {q : Page}
    (hq : map lpn = some q) (hq' : map lpn' = some q) : lpn = lpn' := by
  obtain ⟨-, -, -, -, -, hinv⟩ := h.mapped lpn q hq
  obtain ⟨-, -, -, -, -, hinv'⟩ := h.mapped lpn' q hq'
  exact hinv.symm.trans hinv'

theorem map_eq_none (h : TableInv g t map fill limbo) (lpn : ℤ) :
    t.mappingTable lpn = -1 ↔ map lpn = none := by
  refine ⟨fun hlpn => ?_, h.unmapped lpn⟩
  cases hq : map lpn with
  | none => rfl
  | some q =>
    rw [(h.mapped lpn q hq).2.2.2.1] at hlpn
    exact absurd hlpn (Geometry.ppnOf_ne_neg_one q)

/-- Mapping a logical page to the next page of a block, whether or not its old page is
invalidated: that page must be marked `'I'` or be in limbo, all others are untouched. -/
private theorem place_aux (h : TableInv g t map fill limbo) {lpn : ℤ} (hlpn : 0 ≤ lpn)
    (hlt : lpn < g.pageMappingEntryNb) {q : Page} (hq : g.IsPage q) (hfill : q.2 = fill q.1)
    (hmap : t'.mappingTable = Function.update t.mappingTable lpn (g.ppnOf q))
    (hinv : t'.inverseMappingTable (g.ppnOf q) = lpn) (hcell : t'.cellAt g q = .valid)
    (hother : ∀ r, g.IsPage r → r ≠ q → map lpn ≠ some r → t'.cellAt g r = t.cellAt g r ∧
      t'.inverseMappingTable (g.ppnOf r) = t.inverseMappingTable (g.ppnOf r))
    (hold : ∀ r, map lpn = some r → t'.cellAt g r = .invalid ∨
      r.1 ∈ limbo ∧ t'.cellAt g r = .valid)
    (hcounts : t'.CountsOk g) : TableInv g t' (Function.update map lpn (some q))
      (Function.update fill q.1 (fill q.1 + 1)) limbo where
  cell_empty r hr := by
    by_cases hrq : r = q
    · rw [hrq, hcell, Function.update_self]
      simp only [reduceCtorEq, false_iff]
      omega
    have hbound : Function.update fill q.1 (fill q.1 + 1) r.1 ≤ r.2 ↔ fill r.1 ≤ r.2 := by
      by_cases hβ : r.1 = q.1
      · have hne : r.2 ≠ q.2 := fun hi => hrq (Prod.ext hβ hi)
        rw [hβ, Function.update_self]
        omega
      · rw [Function.update_of_ne hβ]
    rw [hbound]
    by_cases hlr : map lpn = some r
    · have hused := h.lt_fill hlr
      have hne : t'.cellAt g r ≠ .empty := by
        rcases hold r hlr with hcell' | ⟨-, hcell'⟩ <;> simp [hcell']
      exact ⟨fun h0 => absurd h0 hne, fun hle => by omega⟩
    · rw [(hother r hr hrq hlr).1]
      exact h.cell_empty r hr
  counts := hcounts
  unmapped k hk := by
    by_cases hkl : k = lpn
    · simp [hkl] at hk
    · rw [Function.update_of_ne hkl] at hk
      rw [hmap, Function.update_of_ne hkl]
      exact h.unmapped k hk
  mapped k r hk := by
    by_cases hkl : k = lpn
    · subst hkl
      rw [Function.update_self, Option.some.injEq] at hk
      subst hk
      exact ⟨hq, hlpn, hlt, by rw [hmap, Function.update_self], hcell, hinv⟩
    · rw [Function.update_of_ne hkl] at hk
      obtain ⟨hr, hk0, hklt, hkmap, hkcell, hkinv⟩ := h.mapped k r hk
      have hrq : r ≠ q := by
        rintro rfl
        have hused := h.lt_fill hk
        omega
      obtain ⟨hcell', hinv'⟩ := hother r hr hrq fun hlr => hkl (h.map_inj hk hlr)
      exact ⟨hr, hk0, hklt, by rw [hmap, Function.update_of_ne hkl, hkmap],
        hcell'.trans hkcell, hinv'.trans hkinv⟩
  valid r hr hlimbo hv := by
    by_cases hrq : r = q
    · rw [hrq, hinv, Function.update_self]
    by_cases hlr : map lpn = some r
    · rcases hold r hlr with hcell' | ⟨hin, -⟩
      · rw [hcell'] at hv
        cases hv
      · exact absurd hin hlimbo
    · obtain ⟨hcell', hinv'⟩ := hother r hr hrq hlr
      have hmapr := h.valid r hr hlimbo (hcell' ▸ hv)
      rw [hinv', Function.update_of_ne, hmapr]
      rintro rfl
      exact hlr hmapr

/-- **A host write**: the old page is invalidated, then the new one mapped. -/
theorem write (h : TableInv g t map fill limbo) {lpn : ℤ} (hlpn : 0 ≤ lpn)
    (hlt : lpn < g.pageMappingEntryNb) {q : Page} (hq : g.IsPage q) (hfill : q.2 = fill q.1) :
    TableInv g (updateNewPageMapping g lpn (g.ppnOf q) (updateOldPageMapping g lpn t))
      (Function.update map lpn (some q)) (Function.update fill q.1 (fill q.1 + 1)) limbo := by
  obtain ⟨hmap', hinv', hcell', hcounts'⟩ :=
    updateNewPageMapping_spec (updateOldPageMapping g lpn t) lpn hq rfl
  cases hm : map lpn with
  | none =>
    have hold : updateOldPageMapping g lpn t = t := if_pos (h.unmapped lpn hm)
    rw [hold] at hmap' hinv' hcell' hcounts' ⊢
    refine h.place_aux hlpn hlt hq hfill hmap' (by rw [hinv', Function.update_self])
      (by rw [hcell' q hq, Function.update_self]) (fun r hr hrq _ => ⟨?_, ?_⟩)
      (fun r hr => by simp [hm] at hr) (hcounts' h.counts)
    · rw [hcell' r hr, Function.update_of_ne hrq]
    · rw [hinv', Function.update_of_ne ((Geometry.ppnOf_inj hr hq).not.mpr hrq)]
  | some p =>
    obtain ⟨hp, -, -, hpmap, -, -⟩ := h.mapped lpn p hm
    obtain ⟨hmap₁, hinv₁, hcell₁, hcounts₁⟩ := updateOldPageMapping_spec hp hpmap rfl
    have hpq : p ≠ q := by
      rintro rfl
      have hused := h.lt_fill hm
      omega
    refine h.place_aux hlpn hlt hq hfill (by rw [hmap', hmap₁])
      (by rw [hinv', Function.update_self]) (by rw [hcell' q hq, Function.update_self])
      (fun r hr hrq hlr => ⟨?_, ?_⟩) (fun r hr => .inl ?_) (hcounts' (hcounts₁ h.counts))
    · have hrp : r ≠ p := fun heq => hlr (heq ▸ hm)
      rw [hcell' r hr, Function.update_of_ne hrq, hcell₁ r hr, Function.update_of_ne hrp]
    · have hrp : r ≠ p := fun heq => hlr (heq ▸ hm)
      rw [hinv', Function.update_of_ne ((Geometry.ppnOf_inj hr hq).not.mpr hrq), hinv₁,
        Function.update_of_ne ((Geometry.ppnOf_inj hr hp).not.mpr hrp)]
    · rw [hm, Option.some.injEq] at hr
      subst hr
      rw [hcell' p hp, Function.update_of_ne hpq, hcell₁ p hp, Function.update_self]

/-- **A garbage-collection copy**: only the new page is mapped; the old one is in limbo. -/
theorem copy (h : TableInv g t map fill limbo) {lpn : ℤ} {p q : Page} (hp : map lpn = some p)
    (hlimbo : p.1 ∈ limbo) (hq : g.IsPage q) (hfill : q.2 = fill q.1) :
    TableInv g (updateNewPageMapping g lpn (g.ppnOf q) t)
      (Function.update map lpn (some q)) (Function.update fill q.1 (fill q.1 + 1)) limbo := by
  obtain ⟨hmap', hinv', hcell', hcounts'⟩ := updateNewPageMapping_spec t lpn hq rfl
  obtain ⟨hpage, hlpn, hlt, -, hpcell, -⟩ := h.mapped lpn p hp
  have hpq : p ≠ q := by
    rintro rfl
    have hused := h.lt_fill hp
    omega
  refine h.place_aux hlpn hlt hq hfill hmap' (by rw [hinv', Function.update_self])
    (by rw [hcell' q hq, Function.update_self]) (fun r hr hrq _ => ⟨?_, ?_⟩)
    (fun r hr => .inr ?_) (hcounts' h.counts)
  · rw [hcell' r hr, Function.update_of_ne hrq]
  · rw [hinv', Function.update_of_ne ((Geometry.ppnOf_inj hr hq).not.mpr hrq)]
  · rw [hp, Option.some.injEq] at hr
    subst hr
    exact ⟨hlimbo, by rw [hcell' p hpage, Function.update_of_ne hpq, hpcell]⟩

/-- Taking a block out of use asks less of it. -/
theorem collect (h : TableInv g t map fill limbo) (β : ℕ × ℕ) :
    TableInv g t map fill (insert β limbo) where
  cell_empty := h.cell_empty
  counts := h.counts
  unmapped := h.unmapped
  mapped := h.mapped
  valid q hq hlimbo := h.valid q hq fun hin => hlimbo (mem_insert_of_mem hin)

/-- **An erase** of a block nothing is mapped into. -/
theorem erase (h : TableInv g t map fill limbo) {β : ℕ × ℕ} (hβ : β ∈ g.blocks)
    (hfree : ∀ lpn q, map lpn = some q → q.1 ≠ β) :
    TableInv g (updateBlockState g β.1 β.2 .emptyBlock t) map (Function.update fill β 0)
      (limbo.erase β) := by
  obtain ⟨hmap, hinv, hcell, hcounts⟩ := updateBlockState_empty_spec hβ t rfl
  refine ⟨fun q hq => ?_, hcounts h.counts, fun lpn hm => by rw [hmap, h.unmapped lpn hm],
    fun lpn q hm => ?_, fun q hq hlimbo hv => ?_⟩
  · rw [hcell q hq]
    by_cases hqβ : q.1 = β
    · simp [hqβ]
    · rw [if_neg hqβ, Function.update_of_ne hqβ]
      exact h.cell_empty q hq
  · obtain ⟨hq, h0, hlt, hqmap, hqcell, hqinv⟩ := h.mapped lpn q hm
    exact ⟨hq, h0, hlt, by rw [hmap, hqmap], by rw [hcell q hq, if_neg (hfree lpn q hm), hqcell],
      by rw [hinv, hqinv]⟩
  · rw [hcell q hq] at hv
    by_cases hqβ : q.1 = β
    · simp [hqβ] at hv
    · rw [if_neg hqβ] at hv
      rw [hinv]
      exact h.valid q hq (fun hin => hlimbo (mem_erase.mpr ⟨hqβ, hin⟩)) hv

end TableInv

end Vssim
