import Vssim.Ftl.Space

/-!
# What a collection does

A call of `GARBAGE_COLLECTION` that returns `SUCCESS` moves every logical page that was mapped into
the victim to a page that was marked `'0'`, leaves the rest of the mapping alone, erases the victim
and appends it to its empty list (`garbageCollection_reclaims`). The count of copied pages is
always the one in the victim's block state, so the check behind the copy loop never fires.
-/

namespace Vssim

open FlashStore Finset LinkedHeap

variable {g : Geometry} {s s' : Ftl} {σ : Store} {L : ListView} {fuel : ℕ} {events : List Event}

/-! ### Free pages on the empty lists -/

variable (g) in
/-- The number of unwritten pages of the blocks on the empty lists. -/
def listedFreePages (l : BlockLists) : ℕ :=
  ∑ i ∈ range g.emptyTableEntryNb,
    ((l.emptyEntries i).map fun e => g.pageNb - e.currPhyPageNb).sum

/-- Blocks off the empty lists are full, so those on them have all the free pages. -/
private theorem ListInv.listedFreePages_eq (hL : ListInv g s.lists L σ.fill σ.limbo) :
    listedFreePages g s.lists = freePages g σ := by
  have hlimbo : ∑ β ∈ σ.limbo, (g.pageNb - σ.fill β) = 0 :=
    sum_eq_zero fun β hβ => by rw [hL.placed.limbo_full β hβ, Nat.sub_self]
  rw [freePages, ← sum_sdiff hL.placed.limbo_sub, hlimbo, add_zero, ← hL.placed.buckets.sum_eq,
    listedFreePages]
  refine sum_congr rfl fun i hi => ?_
  have hi := mem_range.mp hi
  have hvictim : ((L.victimBlocks i).map fun β => g.pageNb - σ.fill β).sum = 0 := by
    refine List.sum_eq_zero fun n hn => ?_
    simp only [ListView.victimBlocks, List.map_map, List.mem_map] at hn
    obtain ⟨x, hx, rfl⟩ := hn
    exact Nat.sub_eq_zero_of_le (hL.placed.victim_full i hi x hx).ge
  rw [ListView.blocks, List.map_append, List.sum_append, hvictim, add_zero, BlockLists.emptyEntries,
    (hL.rep.empty i hi).walk_eq, ListView.emptyBlocks, List.map_map, List.map_map]
  refine congrArg List.sum (List.map_congr_left fun x hx => ?_)
  exact congrArg (g.pageNb - ·) (hL.placed.curr i hi x hx)

/-! ### The copy loop -/

section TableInv

variable {t : PageTables} {map : ℤ → Option Page} {fill : ℕ × ℕ → ℕ} {limbo : Finset (ℕ × ℕ)}

private theorem TableInv.map_eq_some_iff (h : TableInv g t map fill limbo) {lpn : ℤ} {q : Page}
    (hq : g.IsPage q) : map lpn = some q ↔ t.mappingTable lpn = g.ppnOf q := by
  refine ⟨fun hmap => (h.mapped lpn q hmap).2.2.2.1, fun hppn => ?_⟩
  cases hmap : map lpn with
  | none =>
    rw [h.unmapped lpn hmap] at hppn
    exact absurd hppn.symm (Geometry.ppnOf_ne_neg_one q)
  | some r =>
    obtain ⟨hr, -, -, hr', -⟩ := h.mapped lpn r hmap
    rw [(Geometry.ppnOf_inj hr hq).mp (hr'.symm.trans hppn)]

/-- Two mapped logical pages have different entries in the mapping table. -/
private theorem TableInv.mappingTable_inj (h : TableInv g t map fill limbo) {lpn lpn' : ℤ}
    (hne : t.mappingTable lpn ≠ -1) (heq : t.mappingTable lpn = t.mappingTable lpn') :
    lpn = lpn' := by
  obtain ⟨q, hq⟩ := Option.ne_none_iff_exists'.mp ((h.map_eq_none lpn).not.mp hne)
  obtain ⟨hpage, -, -, hppn, -⟩ := h.mapped lpn q hq
  exact h.map_inj hq ((h.map_eq_some_iff hpage).mpr (heq.symm.trans hppn))

end TableInv

variable (g) in
/-- From tables `t` to `t'`, the logical pages mapped into block `β` have moved to pages that were
unwritten, and nothing else has changed in the mapping, the cells and the inverse mapping. -/
structure Moved (β : ℕ × ℕ) (map : ℤ → Option Page) (t t' : PageTables) : Prop where
  moved : ∀ lpn i, map lpn = some (β, i) → ∃ q, g.IsPage q ∧ q.1 ≠ β ∧
    t.cellAt g q = .empty ∧ t'.mappingTable lpn = g.ppnOf q
  kept : ∀ lpn, (∀ i, map lpn ≠ some (β, i)) → t'.mappingTable lpn = t.mappingTable lpn
  cells : ∀ q, g.IsPage q → t'.cellAt g q ≠ t.cellAt g q → q.1 ≠ β ∧ t.cellAt g q = .empty ∧
    t'.cellAt g q = .valid ∧ ∃ lpn i, map lpn = some (β, i) ∧ t'.mappingTable lpn = g.ppnOf q
  inverse : ∀ q, g.IsPage q → q.1 = β ∨ t'.cellAt g q ≠ .valid →
    t'.inverseMappingTable (g.ppnOf q) = t.inverseMappingTable (g.ppnOf q)

/-- With no logical page mapped into the block there is nothing to move. -/
private theorem Moved.refl {β : ℕ × ℕ} {map : ℤ → Option Page} {t : PageTables}
    (hnone : ∀ lpn i, map lpn ≠ some (β, i)) : Moved g β map t t :=
  ⟨fun lpn i hmap => absurd hmap (hnone lpn i), fun _ _ => rfl, fun _ _ hne => absurd rfl hne,
    fun _ _ _ => rfl⟩

/-- Moving one logical page first. -/
private theorem Moved.cons {β : ℕ × ℕ} {map : ℤ → Option Page} {t t₁ t' : PageTables} {lpn : ℤ}
    {i : ℕ} (hmap : map lpn = some (β, i)) {q : Page} (hq : g.IsPage q) (hqβ : q.1 ≠ β)
    (hempty : t.cellAt g q = .empty) (ht₁ : t₁ = updateNewPageMapping g lpn (g.ppnOf q) t)
    (h : Moved g β (Function.update map lpn (some q)) t₁ t') : Moved g β map t t' := by
  obtain ⟨hmapping, hinverse, hcell, -⟩ := updateNewPageMapping_spec t lpn hq ht₁
  have hnew : t'.mappingTable lpn = g.ppnOf q := by
    rw [h.kept lpn, hmapping, Function.update_self]
    intro j hj
    rw [Function.update_self, Option.some.injEq] at hj
    exact hqβ (congrArg Prod.fst hj)
  -- an unwritten page of the tables in between is not the page just written
  have hfree : ∀ r, g.IsPage r → t₁.cellAt g r = .empty → r ≠ q ∧ t.cellAt g r = .empty := by
    intro r hr hrempty
    rw [hcell r hr] at hrempty
    by_cases hrq : r = q
    · rw [hrq, Function.update_self] at hrempty
      cases hrempty
    · rw [Function.update_of_ne hrq] at hrempty
      exact ⟨hrq, hrempty⟩
  refine ⟨fun k j hk => ?_, fun k hk => ?_, fun r hr hne => ?_, fun r hr hor => ?_⟩
  · by_cases hkl : k = lpn
    · exact ⟨q, hq, hqβ, hempty, hkl ▸ hnew⟩
    · obtain ⟨r, hr, hrβ, hrempty, hrmap⟩ := h.moved k j (by rwa [Function.update_of_ne hkl])
      exact ⟨r, hr, hrβ, (hfree r hr hrempty).2, hrmap⟩
  · have hkl : k ≠ lpn := fun heq => hk i (heq ▸ hmap)
    rw [h.kept k (by rwa [Function.update_of_ne hkl]), hmapping, Function.update_of_ne hkl]
  · by_cases hsame : t'.cellAt g r = t₁.cellAt g r
    · -- changed by this move alone
      rw [hsame, hcell r hr] at hne ⊢
      by_cases hrq : r = q
      · rw [hrq, Function.update_self]
        exact ⟨hqβ, hempty, rfl, lpn, i, hmap, hnew⟩
      · exact absurd (Function.update_of_ne hrq ..) hne
    · obtain ⟨hrβ, hrempty, hrvalid, k, j, hk, hkmap⟩ := h.cells r hr hsame
      refine ⟨hrβ, (hfree r hr hrempty).2, hrvalid, k, j, ?_, hkmap⟩
      rwa [Function.update_of_ne] at hk
      rintro rfl
      rw [Function.update_self, Option.some.injEq] at hk
      exact hqβ (congrArg Prod.fst hk)
  · -- the page just written stays marked `'V'`
    have hrq : r ≠ q := by
      rintro rfl
      refine hor.resolve_left hqβ (by_contra fun hne => ?_)
      have hvalid : t₁.cellAt g r = .valid := by rw [hcell r hr, Function.update_self]
      obtain ⟨-, hrempty, -⟩ := h.cells r hr (hvalid.symm ▸ hne)
      rw [hvalid] at hrempty
      cases hrempty
    rw [h.inverse r hr hor, hinverse,
      Function.update_of_ne ((Geometry.ppnOf_inj hr hq).not.mpr hrq)]

/-- **The copy loop**, when it does not give up, moves the pages of the victim. -/
theorem copyValidPages_moves {v : VictimBlock} {k i c n : ℕ} (h : FtlInv g s σ)
    (hv : v.block ∈ σ.limbo) (hk : i + k = g.pageNb) (hp : Pending g s.tables σ.map v.block i)
    (hrun : copyValidPages g fuel v (List.range' i k) c s = some (some n, s', events)) :
    Moved g v.block σ.map s.tables s'.tables := by
  induction k generalizing i c s σ events with
  | zero =>
    simp only [List.range'_zero, copyValidPages, Option.some.injEq, Prod.mk.injEq] at hrun
    obtain ⟨-, rfl, -⟩ := hrun
    refine .refl fun lpn j hmap => ?_
    have hle := hp.done lpn j hmap
    have hlt := (h.tables.mapped lpn _ hmap).1.2
    omega
  | succ k ih =>
    obtain ⟨L, hL⟩ := h.lists
    have hvb : v.block ∈ g.blocks := hL.placed.limbo_sub hv
    rw [List.range'_succ] at hrun
    rcases copyValidPages_cons hrun with ⟨hvalid, hrun⟩ | ⟨-, hnone, -⟩ |
      ⟨hvalid, e, lists, ev₁, hget, hloop, -⟩
    · exact ih h hv (by omega) (hp.skip h.tables hvalid) hrun
    · cases hnone
    · have hgot := gcNewPage_spec hL hvb hget
      have hmap := hp.next i le_rfl (by omega) hvalid
      generalize s.tables.inverseMappingTable (g.ppnOf (v.block, i)) = lpn at hmap hloop
      obtain ⟨hinv₁, -⟩ := relocate_step h hgot hmap hv
      obtain ⟨hpend, -⟩ := relocate_pending h hgot hmap hv hp
      have hrest := ih hinv₁ hv (by omega) hpend hloop
      obtain ⟨hlive, hcurr, hlt, -⟩ := hgot
      obtain ⟨heb, hel⟩ := mem_sdiff.mp hlive
      have hnew : g.IsPage (e.block, σ.fill e.block) := ⟨heb, hlt⟩
      refine .cons hmap hnew (fun heq : e.block = v.block => hel (heq ▸ hv))
        ((h.tables.cell_empty _ hnew).mpr le_rfl) ?_ hrest
      rw [Geometry.ppn_eq_ppnOf, hcurr]

/-! ### A whole collection -/

variable (g) in
/-- What a successful collection of victim `v` has done. -/
structure VictimReclaimed (s : Ftl) (v : VictimBlock) (s' : Ftl) : Prop where
  /-- A logical page mapped into the victim is now mapped to a page of another block that was
  marked `'0'`, ... -/
  moved : ∀ lpn, ∀ i < g.pageNb, s.tables.mappingTable lpn = g.ppnOf (v.block, i) →
    ∃ q, g.IsPage q ∧ q.1 ≠ v.block ∧ s.tables.cellAt g q = .empty ∧
      s'.tables.mappingTable lpn = g.ppnOf q
  /-- ... different ones to different pages. -/
  distinct : ∀ lpn lpn', s'.tables.mappingTable lpn ≠ -1 →
    s'.tables.mappingTable lpn = s'.tables.mappingTable lpn' → lpn = lpn'
  kept : ∀ lpn, (∀ i < g.pageNb, s.tables.mappingTable lpn ≠ g.ppnOf (v.block, i)) →
    s'.tables.mappingTable lpn = s.tables.mappingTable lpn
  mapped_iff : ∀ lpn, s'.tables.mappingTable lpn ≠ -1 ↔ s.tables.mappingTable lpn ≠ -1
  erased : ∀ i < g.pageNb, s'.tables.cellAt g (v.block, i) = .empty
  count : validPages g s'.tables v = 0
  /-- The victim is the last entry of its empty list, behind the tail pointer. -/
  tail : ∃ a es, (s'.lists.emptyBlockList (g.listOf v.block)).tail = some a ∧
    s'.lists.emptyHeap.cell a = some ⟨⟨v.phyFlashNb, v.phyBlockNb, 0⟩, none⟩ ∧
    s'.lists.emptyEntries (g.listOf v.block) = es ++ [⟨v.phyFlashNb, v.phyBlockNb, 0⟩]
  /-- Cells of other blocks change only where a page of the victim was copied to. -/
  cells : ∀ q, g.IsPage q → q.1 ≠ v.block → s'.tables.cellAt g q ≠ s.tables.cellAt g q →
    s.tables.cellAt g q = .empty ∧ s'.tables.cellAt g q = .valid ∧
      ∃ lpn, ∃ i < g.pageNb, s.tables.mappingTable lpn = g.ppnOf (v.block, i) ∧
        s'.tables.mappingTable lpn = g.ppnOf q
  free : listedFreePages g s'.lists + validPages g s.tables v =
    listedFreePages g s.lists + g.pageNb

/-- The copy loop prints no error but its own. -/
private theorem copyValidPages_error {v : VictimBlock} {is : List ℕ} {c : ℕ} {r : Option ℕ}
    (hrun : copyValidPages g fuel v is c s = some (r, s', events)) {m : ErrorMessage} :
    ∀ e ∈ events, e.call = .error m → m = .garbageCollectionGetNewPageFail := by
  induction is generalizing c s events with
  | nil =>
    simp only [copyValidPages, Option.some.injEq, Prod.mk.injEq] at hrun
    obtain ⟨-, -, rfl⟩ := hrun
    simp
  | cons i is ih =>
    rcases copyValidPages_cons hrun with ⟨-, hrun⟩ | ⟨-, -, lists, -, -, rfl⟩ |
      ⟨-, e, lists, ev₁, -, hloop, rfl⟩
    · exact ih hrun
    · simp [eq_comm]
    · simpa using ih hloop

/-- The state a collection is in when all valid pages of its victim have been copied. -/
theorem collection_copied (h : FtlInv g s σ) {v : VictimBlock} {s₁ s₂ : Ftl}
    {ev₁ ev₂ : List Event} {n : ℕ}
    (hselect : selectVictimBlock g s = some (some v, s₁, ev₁))
    (hcopy : copyValidPages g fuel v (List.range' 0 g.pageNb) 0 s₁ = some (some n, s₂, ev₂)) :
    v.block ∈ g.blocks \ σ.limbo ∧ Moved g v.block σ.map s.tables s₂.tables ∧
      n = validPages g s.tables v ∧ validPages g s₂.tables v = validPages g s.tables v ∧
      ∃ σ₂, FtlInv g s₂ σ₂ ∧ v.block ∈ σ₂.limbo ∧
        (∀ lpn q, σ₂.map lpn = some q → q.1 ≠ v.block) ∧
        freePages g σ = freePages g σ₂ + validPages g s.tables v := by
  obtain ⟨L, hL⟩ := h.lists
  obtain ⟨sel, t, evs, hsel, hspec⟩ := selectVictimBlock_spec h hL
  rw [hsel, Option.some.injEq, Prod.mk.injEq, Prod.mk.injEq] at hselect
  obtain ⟨rfl, rfl, rfl⟩ := hselect
  obtain ⟨-, ⟨lists, rfl⟩, hL₁, ⟨i, hi, a, ha⟩, -⟩ := hspec
  have hlive := (hL.placed.victim_mem hi ha).1
  obtain ⟨hvb, hvl⟩ := mem_sdiff.mp hlive
  obtain ⟨hinv₁, -⟩ := collect_step h hL₁ hvl
  have hv₁ : v.block ∈ insert v.block σ.limbo := mem_insert_self ..
  have hpend : Pending g s.tables σ.map v.block 0 := .start h hvb hvl
  obtain ⟨labels, σ₂, hsim, -, hlimbo, hcells, hn, hnone, hfree, -⟩ :=
    copyValidPages_sim hinv₁ hv₁ (Nat.zero_add _) hpend hcopy
  have hmoved := copyValidPages_moves hinv₁ hv₁ (Nat.zero_add _) hpend hcopy
  have hcount := h.tables.validPages_eq hvb
  refine ⟨hlive, hmoved, ?_, ?_, σ₂, hsim.inv, hlimbo.symm ▸ hv₁, hnone, ?_⟩
  · rw [hcount, hn, Nat.zero_add]
  · rw [hsim.inv.tables.validPages_eq hvb, hcount]
    refine List.countP_congr fun j hj => ?_
    rw [hcells j (by have := List.mem_range'_1.mp hj; omega)]
  · rw [hcount]
    exact hfree

/-- What the copies have done to the mapping table, in terms of the table alone. -/
private theorem Moved.mappingTable (h : FtlInv g s σ) {β : ℕ × ℕ} (hβ : β ∈ g.blocks)
    {t : PageTables} (hmoved : Moved g β σ.map s.tables t) :
    (∀ lpn, ∀ i < g.pageNb, s.tables.mappingTable lpn = g.ppnOf (β, i) →
      ∃ q, g.IsPage q ∧ q.1 ≠ β ∧ s.tables.cellAt g q = .empty ∧ t.mappingTable lpn = g.ppnOf q) ∧
    (∀ lpn, (∀ i < g.pageNb, s.tables.mappingTable lpn ≠ g.ppnOf (β, i)) →
      t.mappingTable lpn = s.tables.mappingTable lpn) ∧
    ∀ lpn, t.mappingTable lpn ≠ -1 ↔ s.tables.mappingTable lpn ≠ -1 := by
  have hmove : ∀ lpn, ∀ i < g.pageNb, s.tables.mappingTable lpn = g.ppnOf (β, i) →
      ∃ q, g.IsPage q ∧ q.1 ≠ β ∧ s.tables.cellAt g q = .empty ∧ t.mappingTable lpn = g.ppnOf q :=
    fun lpn i hi hlpn => hmoved.moved lpn i ((h.tables.map_eq_some_iff ⟨hβ, hi⟩).mpr hlpn)
  have hkept : ∀ lpn, (∀ i < g.pageNb, s.tables.mappingTable lpn ≠ g.ppnOf (β, i)) →
      t.mappingTable lpn = s.tables.mappingTable lpn := by
    intro lpn hlpn
    refine hmoved.kept lpn fun i hmap => ?_
    have hi : i < g.pageNb := (h.tables.mapped lpn _ hmap).1.2
    exact hlpn i hi ((h.tables.map_eq_some_iff ⟨hβ, hi⟩).mp hmap)
  refine ⟨hmove, hkept, fun lpn => ?_⟩
  by_cases hin : ∃ i < g.pageNb, s.tables.mappingTable lpn = g.ppnOf (β, i)
  · obtain ⟨i, hi, hlpn⟩ := hin
    obtain ⟨q, -, -, -, hq⟩ := hmove lpn i hi hlpn
    rw [hq, hlpn]
    exact iff_of_true (Geometry.ppnOf_ne_neg_one q) (Geometry.ppnOf_ne_neg_one _)
  · push Not at hin
    rw [hkept lpn hin]

/-- Erasing the victim and appending it to its empty list. -/
private theorem Moved.reclaimed (h : FtlInv g s σ) {v : VictimBlock} (hvb : v.block ∈ g.blocks)
    {s₂ : Ftl} (hmoved : Moved g v.block σ.map s.tables s₂.tables) {σ₂ : Store}
    (h₂ : FtlInv g s₂ σ₂) (hv₂ : v.block ∈ σ₂.limbo)
    (hnone : ∀ lpn q, σ₂.map lpn = some q → q.1 ≠ v.block)
    (hfree : freePages g σ = freePages g σ₂ + validPages g s.tables v) {lists : BlockLists}
    (hinsert : insertEmptyBlock g v.block.1 v.block.2 s₂.lists = some lists) (c : ℕ) :
    VictimReclaimed g s v { s₂ with
      tables := updateBlockState g v.block.1 v.block.2 .emptyBlock s₂.tables
      lists
      gcCount := c } := by
  obtain ⟨L, hL⟩ := h.lists
  obtain ⟨L₂, hL₂⟩ := h₂.lists
  obtain ⟨l', L', hinsert', hL', -, a, hempty⟩ := insertEmptyBlock_spec hL₂ hv₂
  rw [hinsert, Option.some.injEq] at hinsert'
  subst hinsert'
  have hinv := (erase_step h₂ hv₂ hnone hinsert rfl).1 c
  obtain ⟨s', hs'⟩ : ∃ s' : Ftl, s' = { s₂ with
    tables := updateBlockState g v.block.1 v.block.2 .emptyBlock s₂.tables
    lists
    gcCount := c } := ⟨_, rfl⟩
  rw [← hs'] at hinv ⊢
  obtain ⟨hmapping, -, hcell, -⟩ := updateBlockState_empty_spec hvb s₂.tables
    (congrArg Ftl.tables hs')
  have hlists : s'.lists = lists := congrArg Ftl.lists hs'
  obtain ⟨hmove, hkept, hmapped⟩ := hmoved.mappingTable h hvb
  rw [← hmapping] at hmove hkept hmapped
  refine ⟨hmove, fun lpn lpn' => hinv.tables.mappingTable_inj, hkept, hmapped, fun i hi => ?_, ?_,
    ?_, fun q hq hqv hne => ?_, ?_⟩
  · rw [hcell _ ⟨hvb, hi⟩, if_pos rfl]
  · rw [hinv.tables.validPages_eq hvb, List.countP_eq_zero]
    intro i hi
    rw [hcell _ ⟨hvb, by have := List.mem_range'_1.mp hi; omega⟩, if_pos rfl]
    simp
  · have hrep := hL'.rep.empty _ (g.listOf_lt hvb)
    rw [hempty] at hrep
    refine ⟨a, (L₂.empty (g.listOf v.block)).map Prod.snd, hlists ▸ hrep.last.1,
      hlists ▸ hrep.last.2, ?_⟩
    rw [hlists, BlockLists.emptyEntries, hrep.walk_eq, List.map_append]
    rfl
  · rw [hcell q hq, if_neg hqv] at hne ⊢
    obtain ⟨-, hqempty, hqvalid, lpn, i, hmap, hlpn⟩ := hmoved.cells q hq hne
    have hi : i < g.pageNb := (h.tables.mapped lpn _ hmap).1.2
    exact ⟨hqempty, hqvalid, lpn, i, hi, (h.tables.map_eq_some_iff ⟨hvb, hi⟩).mp hmap,
      hmapping ▸ hlpn⟩
  · obtain ⟨L₃, hL₃⟩ := hinv.lists
    rw [hL₃.listedFreePages_eq, hL.listedFreePages_eq, hfree,
      freePages_erase hvb (hL₂.placed.limbo_full _ hv₂) rfl]
    omega

/-- **`GARBAGE_COLLECTION`** never finds the count of valid pages wrong, and when it returns
`SUCCESS` it has reclaimed the block it selected. -/
theorem garbageCollection_reclaims {r : Ret} (h : FtlInv g s σ)
    (hrun : garbageCollection g fuel s = some (r, s', events)) :
    (∀ e ∈ events, e.call ≠ .error .garbageCollectionValidPageNotCorrect) ∧
    (r = .success → ∃ v t ev, selectVictimBlock g s = some (some v, t, ev) ∧
      VictimReclaimed g s v s') := by
  obtain ⟨L, hL⟩ := h.lists
  obtain ⟨sel, t, evs, hsel, hspec⟩ := selectVictimBlock_spec h hL
  have hevs : ∀ e ∈ evs, e.call ≠ .error .garbageCollectionValidPageNotCorrect := by
    cases sel with
    | none =>
      intro e he
      rw [hspec.2.1 e he]
      simp
    | some v => simp [hspec.1]
  rcases garbageCollection_cases hrun with ⟨ev₁, hselect, rfl, rfl⟩ |
    ⟨v, s₁, ev₁, copied, s₂, ev₂, hselect, hcopy, hend⟩
  · rw [hsel, Option.some.injEq, Prod.mk.injEq, Prod.mk.injEq] at hselect
    obtain ⟨rfl, rfl, rfl⟩ := hselect
    exact ⟨by simpa using hevs, fun hr => by cases hr⟩
  · have hev₁ : ev₁ = evs := by
      rw [hsel] at hselect
      simp only [Option.some.injEq, Prod.mk.injEq] at hselect
      exact hselect.2.2.symm
    have hcopied : ∀ e ∈ ev₂, e.call ≠ .error .garbageCollectionValidPageNotCorrect :=
      fun e he heq => by cases copyValidPages_error hcopy e he heq
    rcases hend with ⟨rfl, rfl, rfl, rfl⟩ | ⟨n, rfl, hend⟩
    · refine ⟨?_, fun hr => by cases hr⟩
      simp only [List.mem_cons, List.mem_append, hev₁]
      rintro e (rfl | he | he)
      · simp
      · exact hevs e he
      · exact hcopied e he
    · obtain ⟨hlive, hmoved, hn, hsame, σ₂, h₂, hv₂, hnone, hfree⟩ :=
        collection_copied h hselect hcopy
      rcases hend with ⟨hne, -⟩ | ⟨lists, -, hinsert, rfl, rfl, rfl⟩
      · exact absurd (hn.trans hsame.symm) hne
      refine ⟨?_, fun _ => ⟨v, s₁, ev₁, hselect,
        hmoved.reclaimed h (mem_sdiff.mp hlive).1 h₂ hv₂ hnone hfree hinsert _⟩⟩
      simp only [List.mem_cons, List.mem_append, List.not_mem_nil, or_false, hev₁]
      rintro e (rfl | (he | he) | rfl)
      · simp
      · exact hevs e he
      · exact hcopied e he
      · simp

/-- Five page writes, after which a collection copies one page and erases a block. -/
theorem garbageCollection_reclaims_twoChips : ∃ s s' v events,
    garbageCollection twoChips 40 s = some (.success, s', events) ∧
    VictimReclaimed twoChips s v s' ∧
      ∃ e ∈ events, e.call = .ssdPageWrite 1 1 0 1 .gcWrite (-1) := by
  obtain ⟨hist, s, hrun, hP⟩ := exists_run (g := twoChips) 40
    [.write 0 2, .write 2 2, .write 4 2, .write 0 2, .write 2 2]
    (fun hist s => decide (NoGcAbort hist) &&
      (garbageCollection twoChips 40 s).any fun x : Ret × Ftl × List Event =>
        decide (x.1 = .success ∧ ∃ e ∈ x.2.2, e.call = .ssdPageWrite 1 1 0 1 .gcWrite (-1)))
    (by decide +kernel) (by decide +kernel)
  rw [Bool.and_eq_true, Option.any_eq_true] at hP
  obtain ⟨hgc, ⟨r, s', events⟩, hcollect, hP⟩ := hP
  obtain ⟨rfl, hwrite⟩ := of_decide_eq_true hP
  obtain ⟨σ, hinv, -⟩ := Run.inv (by decide) hrun (of_decide_eq_true hgc)
  obtain ⟨v, -, -, -, hv⟩ := (garbageCollection_reclaims hinv hcollect).2 rfl
  exact ⟨s, s', v, events, hcollect, hv, hwrite⟩

end Vssim
