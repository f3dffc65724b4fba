import Vssim.Ftl.BlockList
import Vssim.Library.Buckets
import Mathlib.Data.Finset.Prod
import Mathlib.Tactic.Ring

/-!
# The block-list invariant

What the pointers of `BlockLists` represent (`ListRep`), and where every block of the device
is (`Placed`): each block is on exactly one list, the one its chip and plane determine, or
in **limbo** — a victim that has been taken off its list and not yet put back. `fill` is
the number of pages of a block handed out since it was last erased.

Each list operation has one specification here: it succeeds on represented lists and says
what becomes of the lists, of `fill` and of the limbo. Nothing above this module follows a
pointer.
-/

namespace Vssim

open LinkedHeap Finset

/-- The block of an empty-list entry, as a chip and a block number. -/
def EmptyBlock.block (e : EmptyBlock) : ℕ × ℕ := (e.phyFlashNb, e.phyBlockNb)

/-- The block of a victim-list entry. -/
def VictimBlock.block (v : VictimBlock) : ℕ × ℕ := (v.phyFlashNb, v.phyBlockNb)

/-- The lists the roots stand for: entries with their addresses, in list order. -/
structure ListView where
  empty : ℕ → List (ℕ × EmptyBlock)
  victim : ℕ → List (ℕ × VictimBlock)

namespace ListView

variable (L : ListView) (i : ℕ)

/-- The blocks on empty list `i`. -/
def emptyBlocks : List (ℕ × ℕ) := (L.empty i).map fun x => x.2.block

/-- The blocks on victim list `i`. -/
def victimBlocks : List (ℕ × ℕ) := (L.victim i).map fun x => x.2.block

/-- The blocks on either list `i`. -/
def blocks : List (ℕ × ℕ) := L.emptyBlocks i ++ L.victimBlocks i

/-- Replace both lists `i`. -/
def set (xs : List (ℕ × EmptyBlock)) (ys : List (ℕ × VictimBlock)) : ListView where
  empty := Function.update L.empty i xs
  victim := Function.update L.victim i ys

variable {L i} {j : ℕ} {xs : List (ℕ × EmptyBlock)} {ys : List (ℕ × VictimBlock)}

@[simp] theorem set_empty_self : (L.set i xs ys).empty i = xs := Function.update_self ..

@[simp] theorem set_victim_self : (L.set i xs ys).victim i = ys := Function.update_self ..

theorem set_empty_of_ne (hji : j ≠ i) : (L.set i xs ys).empty j = L.empty j :=
  Function.update_of_ne hji ..

theorem set_victim_of_ne (hji : j ≠ i) : (L.set i xs ys).victim j = L.victim j :=
  Function.update_of_ne hji ..

@[simp] theorem set_blocks_self : (L.set i xs ys).blocks i =
    (xs.map fun x => x.2.block) ++ ys.map fun y => y.2.block := by
  simp [blocks, emptyBlocks, victimBlocks]

private theorem set_blocks_of_ne (hji : j ≠ i) : (L.set i xs ys).blocks j = L.blocks j := by
  simp [blocks, emptyBlocks, victimBlocks, set_empty_of_ne hji, set_victim_of_ne hji]

end ListView

namespace Geometry

variable (g : Geometry)

/-- The blocks of the device. -/
def blocks : Finset (ℕ × ℕ) := range g.flashNb ×ˢ range g.blockNb

@[simp] theorem mem_blocks {β : ℕ × ℕ} :
    β ∈ g.blocks ↔ β.1 < g.flashNb ∧ β.2 < g.blockNb := by
  simp [blocks]

/-- The index of the lists a block may be on. -/
def listOf (β : ℕ × ℕ) : ℕ := g.mappingIndex β.1 β.2

theorem listOf_lt {β : ℕ × ℕ} (hβ : β ∈ g.blocks) : g.listOf β < g.emptyTableEntryNb := by
  have hmod : β.2 % g.planesPerFlash < g.planesPerFlash := Nat.mod_lt _ g.planesPerFlash_pos
  have hchip : β.1 < g.flashNb := (g.mem_blocks.mp hβ).1
  calc g.listOf β = β.2 % g.planesPerFlash * g.flashNb + β.1 := rfl
    _ < β.2 % g.planesPerFlash * g.flashNb + g.flashNb := by omega
    _ = (β.2 % g.planesPerFlash + 1) * g.flashNb := by ring
    _ ≤ g.planesPerFlash * g.flashNb := Nat.mul_le_mul_right _ hmod
    _ = g.emptyTableEntryNb := Nat.mul_comm _ _

theorem emptyTableEntryNb_pos : 0 < g.emptyTableEntryNb :=
  Nat.mul_pos g.flashNb_pos g.planesPerFlash_pos

end Geometry

variable (g : Geometry)

/-- The pointers represent the lists of `L`, and the totals count their entries. -/
structure ListRep (l : BlockLists) (L : ListView) : Prop where
  empty : ∀ i < g.emptyTableEntryNb, SRep l.emptyHeap (l.emptyBlockList i) (L.empty i)
  victim : ∀ i < g.emptyTableEntryNb, DRep l.victimHeap (l.victimBlockList i) (L.victim i)
  totalEmpty : l.totalEmptyBlockNb = ∑ i ∈ range g.emptyTableEntryNb, (L.empty i).length
  totalVictim : l.totalVictimBlockNb = ∑ i ∈ range g.emptyTableEntryNb, (L.victim i).length

/-- Every entry stands in the list its block belongs to. -/
structure Own (L : ListView) : Prop where
  empty : ∀ i < g.emptyTableEntryNb, ∀ x ∈ L.empty i, g.listOf x.2.block = i
  victim : ∀ i < g.emptyTableEntryNb, ∀ x ∈ L.victim i, g.listOf x.2.block = i

/-- Where the blocks are and how far each is filled. -/
structure Placed (L : ListView) (fill : ℕ × ℕ → ℕ) (limbo : Finset (ℕ × ℕ)) : Prop where
  buckets : Buckets g.listOf g.emptyTableEntryNb (g.blocks \ limbo) L.blocks
  curr : ∀ i < g.emptyTableEntryNb, ∀ x ∈ L.empty i, x.2.currPhyPageNb = fill x.2.block
  fresh_tail : ∀ i < g.emptyTableEntryNb, ∀ x ∈ (L.empty i).tail, fill x.2.block = 0
  victim_full : ∀ i < g.emptyTableEntryNb, ∀ x ∈ L.victim i, fill x.2.block = g.pageNb
  limbo_sub : limbo ⊆ g.blocks
  limbo_full : ∀ β ∈ limbo, fill β = g.pageNb
  fill_le : ∀ β ∈ g.blocks, fill β ≤ g.pageNb

/-- The block lists are well formed. -/
structure ListInv (l : BlockLists) (L : ListView) (fill : ℕ × ℕ → ℕ) (limbo : Finset (ℕ × ℕ)) :
    Prop where
  rep : ListRep g l L
  placed : Placed g L fill limbo
  index_lt : l.emptyBlockTableIndex < g.emptyTableEntryNb

variable {g}
variable {l l' : BlockLists} {L L' : ListView} {fill : ℕ × ℕ → ℕ} {limbo : Finset (ℕ × ℕ)}

/-! ### Where an entry's block is -/

namespace Placed

theorem empty_mem (hp : Placed g L fill limbo) {i : ℕ} (hi : i < g.emptyTableEntryNb)
    {x : ℕ × EmptyBlock} (hx : x ∈ L.empty i) : x.2.block ∈ g.blocks \ limbo ∧
      g.listOf x.2.block = i :=
  (hp.buckets.mem_iff i hi _).mp (List.mem_append_left _ (List.mem_map_of_mem hx))

theorem victim_mem (hp : Placed g L fill limbo) {i : ℕ} (hi : i < g.emptyTableEntryNb)
    {x : ℕ × VictimBlock} (hx : x ∈ L.victim i) : x.2.block ∈ g.blocks \ limbo ∧
      g.listOf x.2.block = i :=
  (hp.buckets.mem_iff i hi _).mp (List.mem_append_right _ (List.mem_map_of_mem hx))

theorem own (hp : Placed g L fill limbo) : Own g L where
  empty _ hi _ hx := (hp.empty_mem hi hx).2
  victim _ hi _ hx := (hp.victim_mem hi hx).2

/-- A block is on a list or in limbo. -/
private theorem cover (hp : Placed g L fill limbo) {β : ℕ × ℕ} (hβ : β ∈ g.blocks) :
    β ∈ limbo ∨ (∃ x ∈ L.empty (g.listOf β), x.2.block = β) ∨
      ∃ x ∈ L.victim (g.listOf β), x.2.block = β := by
  by_cases hl : β ∈ limbo
  · exact .inl hl
  · have hmem := hp.buckets.mem_key (mem_sdiff.mpr ⟨hβ, hl⟩)
    rcases List.mem_append.mp hmem with hmem | hmem
    · exact .inr (.inl (List.mem_map.mp hmem))
    · exact .inr (.inr (List.mem_map.mp hmem))

end Placed

/-! ### Separation of the lists -/

/-- Replacing one list of a family changes the total length by the difference. -/
theorem sum_length_update {α : Type} {n i : ℕ} (hi : i < n) (M : ℕ → List α) (xs : List α) :
    ∑ k ∈ range n, (Function.update M i xs k).length + (M i).length =
      ∑ k ∈ range n, (M k).length + xs.length := by
  have hmem : i ∈ range n := mem_range.mpr hi
  rw [← add_sum_erase _ _ hmem, ← add_sum_erase _ (fun k => (M k).length) hmem,
    Function.update_self]
  have hrest : ∑ k ∈ (range n).erase i, (Function.update M i xs k).length =
      ∑ k ∈ (range n).erase i, (M k).length :=
    sum_congr rfl fun k hk => by rw [Function.update_of_ne (ne_of_mem_erase hk)]
  omega

namespace ListRep

/-- One address is an entry of at most one empty list. -/
private theorem emptyAddr_inj (hr : ListRep g l L) (ho : Own g L) {i j a : ℕ}
    (hi : i < g.emptyTableEntryNb) (hj : j < g.emptyTableEntryNb)
    (hai : a ∈ addrs (L.empty i)) (haj : a ∈ addrs (L.empty j)) : i = j := by
  obtain ⟨x, hx, rfl⟩ := List.mem_map.mp hai
  obtain ⟨y, hy, hxy⟩ := List.mem_map.mp haj
  have hval := (hr.empty i hi).seg.val_eq (hr.empty j hj).seg hx hy hxy.symm
  rw [← ho.empty i hi x hx, ← ho.empty j hj y hy, hval]

/-- One address is an entry of at most one victim list. -/
private theorem victimAddr_inj (hr : ListRep g l L) (ho : Own g L) {i j a : ℕ}
    (hi : i < g.emptyTableEntryNb) (hj : j < g.emptyTableEntryNb)
    (hai : a ∈ addrs (L.victim i)) (haj : a ∈ addrs (L.victim j)) : i = j := by
  obtain ⟨x, hx, rfl⟩ := List.mem_map.mp hai
  obtain ⟨y, hy, hxy⟩ := List.mem_map.mp haj
  have hval := (hr.victim i hi).seg.val_eq (hr.victim j hj).seg hx hy hxy.symm
  rw [← ho.victim i hi x hx, ← ho.victim j hj y hy, hval]

/-- A heap changed only at fresh addresses and inside empty list `i` represents the others. -/
private theorem empty_frame (hr : ListRep g l L) (ho : Own g L) {i : ℕ}
    (hi : i < g.emptyTableEntryNb) {h : Heap (SNode EmptyBlock)}
    (hh : ∀ a, a < l.emptyHeap.brk → a ∉ addrs (L.empty i) → h.cell a = l.emptyHeap.cell a)
    {j : ℕ} (hj : j < g.emptyTableEntryNb) (hij : j ≠ i) :
    SRep h (l.emptyBlockList j) (L.empty j) :=
  (hr.empty j hj).frame fun a ha => hh a ((hr.empty j hj).seg.lt_brk ha)
    fun hai => hij (hr.emptyAddr_inj ho hj hi ha hai)

/-- A heap changed only at fresh addresses and inside victim list `i` represents the others. -/
private theorem victim_frame (hr : ListRep g l L) (ho : Own g L) {i : ℕ}
    (hi : i < g.emptyTableEntryNb) {h : Heap (DNode VictimBlock)}
    (hh : ∀ a, a < l.victimHeap.brk → a ∉ addrs (L.victim i) → h.cell a = l.victimHeap.cell a)
    {j : ℕ} (hj : j < g.emptyTableEntryNb) (hij : j ≠ i) :
    DRep h (l.victimBlockList j) (L.victim j) :=
  (hr.victim j hj).frame fun a ha => hh a ((hr.victim j hj).seg.lt_brk ha)
    fun hai => hij (hr.victimAddr_inj ho hj hi ha hai)

/-- Replacing both lists `i` by represented ones, other lists left alone. -/
private theorem set (hr : ListRep g l L) (ho : Own g L) {i : ℕ}
    (hi : i < g.emptyTableEntryNb) {xs : List (ℕ × EmptyBlock)} {ys : List (ℕ × VictimBlock)}
    (hxs : SRep l'.emptyHeap (l'.emptyBlockList i) xs)
    (hys : DRep l'.victimHeap (l'.victimBlockList i) ys)
    (hroots : ∀ j ≠ i, l'.emptyBlockList j = l.emptyBlockList j ∧
      l'.victimBlockList j = l.victimBlockList j)
    (hcells : ∀ a, a < l.emptyHeap.brk → a ∉ addrs (L.empty i) →
      l'.emptyHeap.cell a = l.emptyHeap.cell a)
    (hvcells : ∀ a, a < l.victimHeap.brk → a ∉ addrs (L.victim i) →
      l'.victimHeap.cell a = l.victimHeap.cell a)
    (htot : l'.totalEmptyBlockNb + (L.empty i).length = l.totalEmptyBlockNb + xs.length)
    (hvtot : l'.totalVictimBlockNb + (L.victim i).length = l.totalVictimBlockNb + ys.length) :
    ListRep g l' (L.set i xs ys) where
  empty j hj := by
    by_cases hji : j = i
    · rw [hji, ListView.set_empty_self]
      exact hxs
    · rw [(hroots j hji).1, ListView.set_empty_of_ne hji]
      exact hr.empty_frame ho hi hcells hj hji
  victim j hj := by
    by_cases hji : j = i
    · rw [hji, ListView.set_victim_self]
      exact hys
    · rw [(hroots j hji).2, ListView.set_victim_of_ne hji]
      exact hr.victim_frame ho hi hvcells hj hji
  totalEmpty := by
    have hsum := sum_length_update hi L.empty xs
    have htotal := hr.totalEmpty
    simp only [ListView.set]
    omega
  totalVictim := by
    have hsum := sum_length_update hi L.victim ys
    have htotal := hr.totalVictim
    simp only [ListView.set]
    omega

end ListRep

/-- Replacing both lists `i`: what is left to say is about them alone. -/
private theorem Placed.set (hp : Placed g L fill limbo) {i : ℕ} {fill' : ℕ × ℕ → ℕ}
    {limbo' : Finset (ℕ × ℕ)} {xs : List (ℕ × EmptyBlock)} {ys : List (ℕ × VictimBlock)}
    (hb : Buckets g.listOf g.emptyTableEntryNb (g.blocks \ limbo') (L.set i xs ys).blocks)
    (hfill : ∀ β, g.listOf β ≠ i → fill' β = fill β)
    (hcurr : ∀ x ∈ xs, x.2.currPhyPageNb = fill' x.2.block)
    (htail : ∀ x ∈ xs.tail, fill' x.2.block = 0)
    (hvictim : ∀ y ∈ ys, fill' y.2.block = g.pageNb)
    (hsub : limbo' ⊆ g.blocks) (hlimbo : ∀ β ∈ limbo', fill' β = g.pageNb)
    (hle : ∀ β ∈ g.blocks, fill' β ≤ g.pageNb) : Placed g (L.set i xs ys) fill' limbo' where
  buckets := hb
  curr j hj x hx := by
    by_cases hji : j = i
    · rw [hji, ListView.set_empty_self] at hx
      exact hcurr x hx
    · rw [ListView.set_empty_of_ne hji] at hx
      rw [hfill _ (by rw [(hp.empty_mem hj hx).2]; exact hji)]
      exact hp.curr j hj x hx
  fresh_tail j hj x hx := by
    by_cases hji : j = i
    · rw [hji, ListView.set_empty_self] at hx
      exact htail x hx
    · rw [ListView.set_empty_of_ne hji] at hx
      rw [hfill _ (by rw [(hp.empty_mem hj (List.mem_of_mem_tail hx)).2]; exact hji)]
      exact hp.fresh_tail j hj x hx
  victim_full j hj x hx := by
    by_cases hji : j = i
    · rw [hji, ListView.set_victim_self] at hx
      exact hvictim x hx
    · rw [ListView.set_victim_of_ne hji] at hx
      rw [hfill _ (by rw [(hp.victim_mem hj hx).2]; exact hji)]
      exact hp.victim_full j hj x hx
  limbo_sub := hsub
  limbo_full := hlimbo
  fill_le := hle

/-! ### The list operations -/

theorem ListRep.totalEmpty_pos (hr : ListRep g l L) {i : ℕ} (hi : i < g.emptyTableEntryNb)
    (hne : L.empty i ≠ []) : 0 < l.totalEmptyBlockNb := by
  have hle := single_le_sum (f := fun j => (L.empty j).length) (fun _ _ => Nat.zero_le _)
    (mem_range.mpr hi)
  have hpos := List.length_pos_iff.mpr hne
  rw [← hr.totalEmpty] at hle
  omega

private theorem Placed.retire (hp : Placed g L fill limbo) {i p : ℕ} (hi : i < g.emptyTableEntryNb)
    {e : EmptyBlock} {xs : List (ℕ × EmptyBlock)} (hL : L.empty i = (p, e) :: xs)
    (hfull : e.currPhyPageNb = g.pageNb) (a : ℕ) :
    Placed g (L.set i xs (L.victim i ++ [(a, ⟨e.phyFlashNb, e.phyBlockNb⟩)])) fill limbo := by
  refine hp.set ?_ (fun _ _ => rfl) ?_ ?_ ?_ hp.limbo_sub hp.limbo_full hp.fill_le
  · refine hp.buckets.perm fun j _ => ?_
    by_cases hji : j = i
    · subst hji
      rw [ListView.set_blocks_self]
      simp only [ListView.blocks, ListView.emptyBlocks, ListView.victimBlocks, hL,
        List.map_append, List.map_cons, List.map_nil, List.cons_append]
      rw [← List.append_assoc]
      exact List.perm_append_singleton _ _
    · rw [ListView.set_blocks_of_ne hji]
  · exact fun x hx => hp.curr i hi x (hL ▸ List.mem_cons_of_mem _ hx)
  · exact fun x hx => hp.fresh_tail i hi x (by rw [hL]; exact List.mem_of_mem_tail hx)
  · intro y hy
    rcases List.mem_append.mp hy with hy | hy
    · exact hp.victim_full i hi y hy
    · have hcurr := hp.curr i hi (p, e) (by simp [hL])
      rw [List.mem_singleton.mp hy, ← hfull]
      exact hcurr.symm

/-- Making the head of an empty list a victim succeeds and takes one block off the empty lists. -/
theorem ListRep.retire (hr : ListRep g l L) (ho : Own g L) {i p : ℕ}
    (hi : i < g.emptyTableEntryNb) {e : EmptyBlock} {xs : List (ℕ × EmptyBlock)}
    (hL : L.empty i = (p, e) :: xs) :
    ∃ l' a, retireFullBlock g i p l = some l' ∧
      ListRep g l' (L.set i xs (L.victim i ++ [(a, ⟨e.phyFlashNb, e.phyBlockNb⟩)])) ∧
      l'.emptyBlockTableIndex = l.emptyBlockTableIndex ∧
      l.totalEmptyBlockNb = l'.totalEmptyBlockNb + 1 := by
  have hrep := hr.empty i hi
  have hmem : (p, e) ∈ L.empty i := by simp [hL]
  obtain ⟨n, hcell⟩ := hrep.seg.cell_of_mem hmem
  have hidx : g.mappingIndex e.phyFlashNb e.phyBlockNb = i := ho.empty i hi _ hmem
  obtain ⟨vh, vr, hpush, hvrep, hvframe⟩ :=
    dPush_spec (hr.victim i hi) ⟨e.phyFlashNb, e.phyBlockNb⟩
  have htot := hr.totalEmpty_pos hi (by simp [hL])
  have hrun : retireFullBlock g i p l = some
      { l with
        emptyHeap := l.emptyHeap.free p
        emptyBlockList := Function.update l.emptyBlockList i
          (if (l.emptyBlockList i).count = 1 then { l.emptyBlockList i with head := none, count := 0 }
            else { l.emptyBlockList i with head := n, count := (l.emptyBlockList i).count - 1 })
        victimHeap := vh
        victimBlockList := Function.update l.victimBlockList i vr
        totalEmptyBlockNb := l.totalEmptyBlockNb - 1
        totalVictimBlockNb := l.totalVictimBlockNb + 1 } := by
    simp only [retireFullBlock, insertVictimBlock, hcell, Option.bind_eq_bind, Option.bind_some,
      hidx, hpush]
  refine ⟨_, _, hrun, hr.set ho hi ?_ (by simpa using hvrep) ?_ ?_ ?_ ?_ ?_, rfl,
    by simp only; omega⟩
  · rw [hL] at hrep
    simpa using hrep.pop hcell
  · intro j hji
    simp [hji]
  · intro a _ ha
    exact Heap.free_cell_of_ne _ fun hap => ha (by rw [hap]; exact List.mem_map_of_mem hmem)
  · exact fun a hlt ha => hvframe a (by omega) ha
  · simp only [hL, List.length_cons]
    omega
  · simp only [List.length_append, List.length_singleton]
    omega

/-- **Retiring** the full head of an empty list keeps the invariant. -/
theorem retireFullBlock_spec (h : ListInv g l L fill limbo) {i p : ℕ}
    (hi : i < g.emptyTableEntryNb) {e : EmptyBlock} {xs : List (ℕ × EmptyBlock)}
    (hL : L.empty i = (p, e) :: xs) (hfull : e.currPhyPageNb = g.pageNb) :
    ∃ l' ys, retireFullBlock g i p l = some l' ∧ ListInv g l' (L.set i xs ys) fill limbo ∧
      l'.emptyBlockTableIndex = l.emptyBlockTableIndex ∧
      l.totalEmptyBlockNb = l'.totalEmptyBlockNb + 1 := by
  obtain ⟨l', a, hrun, hr, hindex, htotal⟩ := h.rep.retire h.placed.own hi hL
  exact ⟨l', _, hrun, ⟨hr, h.placed.retire hi hL hfull a, hindex ▸ h.index_lt⟩, hindex, htotal⟩

private theorem Placed.putBack (hp : Placed g L fill limbo) {β : ℕ × ℕ} (hβ : β ∈ limbo) (a : ℕ) :
    Placed g (L.set (g.listOf β) (L.empty (g.listOf β) ++ [(a, ⟨β.1, β.2, 0⟩)])
      (L.victim (g.listOf β))) (Function.update fill β 0) (limbo.erase β) := by
  have hβb : β ∈ g.blocks := hp.limbo_sub hβ
  have hi := g.listOf_lt hβb
  have hβL : β ∉ g.blocks \ limbo := fun hmem => (mem_sdiff.mp hmem).2 hβ
  -- nothing but the new entry is about `β`, which was on no list
  have hold : ∀ x ∈ L.empty (g.listOf β), Function.update fill β 0 x.2.block = fill x.2.block :=
    fun x hx => Function.update_of_ne
      (fun hxβ : x.2.block = β => hβL (hxβ ▸ (hp.empty_mem hi hx).1)) ..
  have hnew : Function.update fill β 0 (β.1, β.2) = 0 := Function.update_self ..
  refine hp.set ?_ ?_ ?_ ?_ ?_ ?_ ?_ ?_
  · have hlive : g.blocks \ limbo.erase β = insert β (g.blocks \ limbo) := by
      ext γ
      by_cases hγ : γ = β
      · simp [hγ, g.mem_blocks.mp hβb]
      · simp [hγ]
    rw [hlive]
    refine hp.buckets.insert hβL hi ?_ fun j _ hj => ?_
    · rw [ListView.set_blocks_self]
      simp only [ListView.blocks, ListView.emptyBlocks, ListView.victimBlocks, List.map_append,
        List.map_cons, List.map_nil, List.append_assoc, List.singleton_append]
      exact List.perm_middle
    · rw [ListView.set_blocks_of_ne hj]
  · intro γ hγ
    exact Function.update_of_ne (fun hγβ : γ = β => hγ (hγβ ▸ rfl)) ..
  · intro x hx
    rcases List.mem_append.mp hx with hx | hx
    · rw [hold x hx]
      exact hp.curr _ hi x hx
    · rw [List.mem_singleton.mp hx]
      exact hnew.symm
  · intro x hx
    rcases List.mem_append.mp (List.mem_of_mem_tail hx) with hmem | hmem
    · cases hL : L.empty (g.listOf β) with
      | nil => simp [hL] at hmem
      | cons y ys =>
        rw [hL, List.cons_append, List.tail_cons] at hx
        rcases List.mem_append.mp hx with hx | hx
        · rw [hold x hmem]
          exact hp.fresh_tail _ hi x (by rw [hL]; exact hx)
        · rw [List.mem_singleton.mp hx]
          exact hnew
    · rw [List.mem_singleton.mp hmem]
      exact hnew
  · intro y hy
    have hne : y.2.block ≠ β := fun hyβ => hβL (hyβ ▸ (hp.victim_mem hi hy).1)
    rw [Function.update_of_ne hne]
    exact hp.victim_full _ hi y hy
  · exact fun γ hγ => hp.limbo_sub (mem_of_mem_erase hγ)
  · intro γ hγ
    rw [Function.update_of_ne (ne_of_mem_erase hγ)]
    exact hp.limbo_full γ (mem_of_mem_erase hγ)
  · intro γ hγ
    by_cases hγβ : γ = β
    · simp [hγβ]
    · rw [Function.update_of_ne hγβ]
      exact hp.fill_le γ hγ

/-- `INSERT_EMPTY_BLOCK` puts an erased block in limbo back on its empty list. -/
theorem insertEmptyBlock_spec (h : ListInv g l L fill limbo) {β : ℕ × ℕ} (hβ : β ∈ limbo) :
    ∃ l' L', insertEmptyBlock g β.1 β.2 l = some l' ∧
      ListInv g l' L' (Function.update fill β 0) (limbo.erase β) ∧
      l'.totalEmptyBlockNb = l.totalEmptyBlockNb + 1 ∧
      ∃ a, L'.empty (g.listOf β) = L.empty (g.listOf β) ++ [(a, ⟨β.1, β.2, 0⟩)] := by
  have hi := g.listOf_lt (h.placed.limbo_sub hβ)
  obtain ⟨eh, er, hpush, hrep, hframe⟩ := sPush_spec (h.rep.empty _ hi) ⟨β.1, β.2, 0⟩
  have hrun : insertEmptyBlock g β.1 β.2 l = some
      { l with
        emptyHeap := eh
        emptyBlockList := Function.update l.emptyBlockList (g.listOf β) er
        totalEmptyBlockNb := l.totalEmptyBlockNb + 1 } := by
    rw [Geometry.listOf] at hpush ⊢
    simp only [insertEmptyBlock, hpush, Option.map_some]
  refine ⟨_, _, hrun, ⟨h.rep.set h.placed.own hi (by simpa using hrep) (h.rep.victim _ hi) ?_ ?_
    (fun _ _ _ => rfl) ?_ rfl, h.placed.putBack hβ _, h.index_lt⟩, rfl, _,
    ListView.set_empty_self⟩
  · intro j hj
    simp [hj]
  · exact fun a hlt ha => hframe a (by omega) ha
  · simp only [List.length_append, List.length_singleton]
    omega

private theorem Placed.eject (hp : Placed g L fill limbo) {i a : ℕ} (hi : i < g.emptyTableEntryNb)
    {v : VictimBlock} {ys zs : List (ℕ × VictimBlock)} (hL : L.victim i = ys ++ (a, v) :: zs) :
    Placed g (L.set i (L.empty i) (ys ++ zs)) fill (insert v.block limbo) := by
  have hmem : (a, v) ∈ L.victim i := by simp [hL]
  obtain ⟨hlive, hidx⟩ := hp.victim_mem hi hmem
  refine hp.set ?_ (fun _ _ => rfl) (hp.curr i hi) (hp.fresh_tail i hi) ?_ ?_ ?_ hp.fill_le
  · rw [sdiff_insert]
    refine hp.buckets.erase ?_ fun j _ hj => ?_
    · rw [hidx, ListView.set_blocks_self]
      simp only [ListView.blocks, ListView.emptyBlocks, ListView.victimBlocks, hL, List.map_append,
        List.map_cons]
      rw [← List.append_assoc, ← List.append_assoc]
      exact List.perm_middle.symm
    · rw [ListView.set_blocks_of_ne (by rw [← hidx]; exact hj)]
  · intro y hy
    refine hp.victim_full i hi y ?_
    rw [hL]
    rcases List.mem_append.mp hy with hy | hy
    · exact List.mem_append_left _ hy
    · exact List.mem_append_right _ (List.mem_cons_of_mem _ hy)
  · exact insert_subset (mem_sdiff.mp hlive).1 hp.limbo_sub
  · intro β hβ
    rcases mem_insert.mp hβ with rfl | hβ
    · exact hp.victim_full i hi _ hmem
    · exact hp.limbo_full β hβ

/-- `EJECT_VICTIM_BLOCK` takes a block off its victim list. -/
theorem ejectVictimBlock_spec (h : ListInv g l L fill limbo) {i a : ℕ}
    (hi : i < g.emptyTableEntryNb) {v : VictimBlock} (hmem : (a, v) ∈ L.victim i) :
    ∃ l' L', ejectVictimBlock g a l = some l' ∧ ListInv g l' L' fill (insert v.block limbo) ∧
      l'.totalEmptyBlockNb = l.totalEmptyBlockNb := by
  obtain ⟨ys, zs, hL⟩ := List.append_of_mem hmem
  have hrep := h.rep.victim i hi
  obtain ⟨b, n, hcell⟩ := hrep.seg.cell_of_mem hmem
  have hidx : g.mappingIndex v.phyFlashNb v.phyBlockNb = i := (h.placed.victim_mem hi hmem).2
  rw [hL] at hrep
  obtain ⟨vh, vr, hunlink, hvrep, hframe⟩ := dUnlink_spec hrep
  have htot : 0 < l.totalVictimBlockNb := by
    have hle := single_le_sum (f := fun j => (L.victim j).length) (fun _ _ => Nat.zero_le _)
      (mem_range.mpr hi)
    rw [← h.rep.totalVictim, hL, List.length_append, List.length_cons] at hle
    omega
  have hrun : ejectVictimBlock g a l = some
      { l with
        victimHeap := vh
        victimBlockList := Function.update l.victimBlockList i vr
        totalVictimBlockNb := l.totalVictimBlockNb - 1 } := by
    simp only [ejectVictimBlock, hcell, Option.bind_eq_bind, Option.bind_some, hidx, hunlink]
  refine ⟨_, _, hrun, ⟨h.rep.set h.placed.own hi (h.rep.empty i hi) (by simpa using hvrep) ?_
    (fun _ _ _ => rfl) ?_ rfl ?_, h.placed.eject hi hL, h.index_lt⟩, rfl⟩
  · intro j hj
    simp [hj]
  · exact fun c _ hc => hframe c (hL ▸ hc)
  · simp only [hL, List.length_append, List.length_cons]
    omega

/-! ### Finding an empty block -/

namespace ListRep

/-- What reading the root of empty list `i` can find. -/
theorem head_cases (hr : ListRep g l L) {i : ℕ} (hi : i < g.emptyTableEntryNb) :
    ((l.emptyBlockList i).count = 0 ∧ L.empty i = []) ∨
    ∃ p e xs n, L.empty i = (p, e) :: xs ∧ (l.emptyBlockList i).count ≠ 0 ∧
      (l.emptyBlockList i).head = some p ∧ l.emptyHeap.cell p = some ⟨e, n⟩ := by
  have hrep := hr.empty i hi
  cases hL : L.empty i with
  | nil => exact .inl ⟨hrep.count_eq_zero.mpr hL, rfl⟩
  | cons x xs =>
    obtain ⟨p, e⟩ := x
    rw [hL] at hrep
    obtain ⟨hp, n, hcell, -⟩ := hrep.seg
    exact .inr ⟨p, e, xs, n, rfl, fun h0 => by simpa using hrep.count_eq_zero.mp h0, hp, hcell⟩

theorem totalEmpty_eq_zero (hr : ListRep g l L) (h0 : l.totalEmptyBlockNb = 0) {i : ℕ}
    (hi : i < g.emptyTableEntryNb) : L.empty i = [] := by
  by_contra hne
  have hpos := hr.totalEmpty_pos hi hne
  omega

end ListRep

namespace ListInv

/-- Moving the round-robin position. -/
theorem setIndex (h : ListInv g l L fill limbo) {k : ℕ} (hk : k < g.emptyTableEntryNb) :
    ListInv g { l with emptyBlockTableIndex := k } L fill limbo :=
  ⟨⟨h.rep.empty, h.rep.victim, h.rep.totalEmpty, h.rep.totalVictim⟩, h.placed, hk⟩

theorem advance (h : ListInv g l L fill limbo) :
    ListInv g (advanceTableIndex g l) L fill limbo := by
  refine h.setIndex ?_
  have hlt := h.index_lt
  split <;> omega

theorem head_cases (h : ListInv g l L fill limbo) {i : ℕ} (hi : i < g.emptyTableEntryNb) :
    ((l.emptyBlockList i).count = 0 ∧ L.empty i = []) ∨
    ∃ p e xs n, L.empty i = (p, e) :: xs ∧ (l.emptyBlockList i).count ≠ 0 ∧
      (l.emptyBlockList i).head = some p ∧ l.emptyHeap.cell p = some ⟨e, n⟩ :=
  h.rep.head_cases hi

theorem totalEmpty_eq_zero (h : ListInv g l L fill limbo) (h0 : l.totalEmptyBlockNb = 0) {i : ℕ}
    (hi : i < g.emptyTableEntryNb) : L.empty i = [] :=
  h.rep.totalEmpty_eq_zero h0 hi

end ListInv

variable (g) in
/-- What `GET_EMPTY_BLOCK` leaves: the head of an empty list that still has an unwritten page,
or `NULL`, and then, unless the search was confined to a chip, no empty block at all. -/
def GotBlock (mode : VictimMode) (fill : ℕ × ℕ → ℕ) (limbo : Finset (ℕ × ℕ)) (r : Option ℕ)
    (l : BlockLists) : Prop :=
  ∃ L, ListInv g l L fill limbo ∧
    (∀ p, r = some p → ∃ i < g.emptyTableEntryNb, ∃ e xs, L.empty i = (p, e) :: xs ∧
      e.currPhyPageNb ≠ g.pageNb) ∧
    (r = none → mode ≠ .inchip → l.totalEmptyBlockNb = 0)

private theorem GotBlock.of_head {mode : VictimMode} {i p : ℕ} {e : EmptyBlock}
    {xs : List (ℕ × EmptyBlock)} (h : ListInv g l L fill limbo) (hi : i < g.emptyTableEntryNb)
    (hL : L.empty i = (p, e) :: xs) (he : e.currPhyPageNb ≠ g.pageNb) :
    GotBlock g mode fill limbo (some p) l := by
  refine ⟨L, h, fun q hq => ?_, fun h0 => absurd h0 (by simp)⟩
  cases hq
  exact ⟨i, hi, e, xs, hL, he⟩

private theorem GotBlock.of_none {mode : VictimMode} (h : ListInv g l L fill limbo)
    (h0 : mode ≠ .inchip → l.totalEmptyBlockNb = 0) : GotBlock g mode fill limbo none l :=
  ⟨L, h, fun q hq => absurd hq (by simp), fun _ => h0⟩

/-- The next list the in-chip search looks at is one of the table. -/
private theorem inchip_next_lt {i : ℕ} (hi : i < g.emptyTableEntryNb)
    (hplanes : g.planesPerFlash ≠ 1) :
    (if (i + 1) % g.planesPerFlash = 0 then i + 1 - (g.planesPerFlash - 1) else i + 1) <
      g.emptyTableEntryNb := by
  have hpos := g.planesPerFlash_pos
  split
  · omega
  · rename_i hmod
    have hne : i + 1 ≠ g.emptyTableEntryNb := by
      intro heq
      rw [heq, Geometry.emptyTableEntryNb, Nat.mul_mod_left] at hmod
      exact hmod rfl
    omega

/-- The search over all chips. -/
private theorem getEmptyBlockLoop_overall {inputIndex mappingIndex fuel : ℕ} {r : Option ℕ}
    (h : ListInv g l L fill limbo)
    (hrun : getEmptyBlockLoop g .overall inputIndex fuel mappingIndex l = some (r, l')) :
    GotBlock g .overall fill limbo r l' := by
  induction fuel generalizing l L with
  | zero => simp [getEmptyBlockLoop] at hrun
  | succ fuel ih =>
    rw [getEmptyBlockLoop] at hrun
    by_cases h0 : l.totalEmptyBlockNb = 0
    · simp only [h0, if_true, Option.some.injEq, Prod.mk.injEq] at hrun
      obtain ⟨rfl, rfl⟩ := hrun
      exact .of_none h fun _ => h0
    simp only [h0, if_false] at hrun
    rcases h.head_cases h.index_lt with ⟨hcount, -⟩ | ⟨p, e, xs, n, hL, hcount, hhead, hcell⟩
    · simp only [hcount, if_true] at hrun
      exact ih h.advance hrun
    simp only [hcount, if_false, hhead, hcell, Option.bind_eq_bind, Option.bind_some] at hrun
    by_cases hfull : e.currPhyPageNb = g.pageNb
    · obtain ⟨l₁, ys, hretire, h₁, -⟩ := retireFullBlock_spec h h.index_lt hL hfull
      simp only [hfull, if_true, hretire, Option.bind_some] at hrun
      exact ih h₁.advance hrun
    · simp only [hfull, if_false, Option.some.injEq, Prod.mk.injEq] at hrun
      obtain ⟨rfl, rfl⟩ := hrun
      exact .of_head h.advance h.index_lt hL hfull

/-- The search confined to a chip. -/
private theorem getEmptyBlockLoop_inchip {inputIndex mappingIndex fuel : ℕ} {r : Option ℕ}
    (h : ListInv g l L fill limbo) (hi : mappingIndex < g.emptyTableEntryNb)
    (hrun : getEmptyBlockLoop g .inchip inputIndex fuel mappingIndex l = some (r, l')) :
    GotBlock g .inchip fill limbo r l' := by
  induction fuel generalizing l L mappingIndex with
  | zero => simp [getEmptyBlockLoop] at hrun
  | succ fuel ih =>
    rw [getEmptyBlockLoop] at hrun
    by_cases h0 : l.totalEmptyBlockNb = 0
    · simp only [h0, if_true, Option.some.injEq, Prod.mk.injEq] at hrun
      obtain ⟨rfl, rfl⟩ := hrun
      exact .of_none h fun hmode => absurd rfl hmode
    simp only [h0, if_false] at hrun
    rcases h.head_cases hi with ⟨hcount, -⟩ | ⟨p, e, xs, n, hL, hcount, hhead, hcell⟩
    · simp only [hcount, if_true] at hrun
      by_cases hplanes : g.planesPerFlash = 1
      · simp only [hplanes, ne_eq, not_true_eq_false, if_false, Option.some.injEq,
          Prod.mk.injEq] at hrun
        obtain ⟨rfl, rfl⟩ := hrun
        exact .of_none h fun hmode => absurd rfl hmode
      · have hnext := inchip_next_lt hi hplanes
        simp only [hplanes, ne_eq, not_false_eq_true, if_true] at hrun
        generalize (if (mappingIndex + 1) % g.planesPerFlash = 0 then
          mappingIndex + 1 - (g.planesPerFlash - 1) else mappingIndex + 1) = next at hrun hnext
        split at hrun
        · cases hrun
          exact .of_none h fun hmode => absurd rfl hmode
        · exact ih h hnext hrun
    simp only [hcount, if_false, hhead, hcell, Option.bind_eq_bind, Option.bind_some] at hrun
    by_cases hfull : e.currPhyPageNb = g.pageNb
    · obtain ⟨l₁, ys, hretire, h₁, -⟩ := retireFullBlock_spec h hi hL hfull
      simp only [hfull, if_true, hretire, Option.bind_some] at hrun
      exact ih h₁ hi hrun
    · simp only [hfull, if_false, Option.some.injEq, Prod.mk.injEq] at hrun
      obtain ⟨rfl, rfl⟩ := hrun
      exact .of_head h hi hL hfull

/-- The search that empties one list after the other; it starts at the round-robin position
and moves it along. -/
private theorem getEmptyBlockLoop_noparal {inputIndex mappingIndex fuel : ℕ} {r : Option ℕ}
    (h : ListInv g l L fill limbo) (hi : mappingIndex = l.emptyBlockTableIndex)
    (hrun : getEmptyBlockLoop g .noparal inputIndex fuel mappingIndex l = some (r, l')) :
    GotBlock g .noparal fill limbo r l' := by
  induction fuel generalizing l L mappingIndex with
  | zero => simp [getEmptyBlockLoop] at hrun
  | succ fuel ih =>
    rw [getEmptyBlockLoop] at hrun
    have hlt : mappingIndex < g.emptyTableEntryNb := hi ▸ h.index_lt
    by_cases h0 : l.totalEmptyBlockNb = 0
    · simp only [h0, if_true, Option.some.injEq, Prod.mk.injEq] at hrun
      obtain ⟨rfl, rfl⟩ := hrun
      exact .of_none h fun _ => h0
    simp only [h0, if_false] at hrun
    rcases h.head_cases hlt with ⟨hcount, -⟩ | ⟨p, e, xs, n, hL, hcount, hhead, hcell⟩
    · simp only [hcount, if_true] at hrun
      split at hrun
      · exact ih (h.setIndex g.emptyTableEntryNb_pos) rfl hrun
      · rename_i hne
        exact ih (h.setIndex (by omega)) (by simp only; omega) hrun
    simp only [hcount, if_false, hhead, hcell, Option.bind_eq_bind, Option.bind_some] at hrun
    by_cases hfull : e.currPhyPageNb = g.pageNb
    · obtain ⟨l₁, ys, hretire, h₁, hidx, -⟩ := retireFullBlock_spec h hlt hL hfull
      simp only [hfull, if_true, hretire, Option.bind_some] at hrun
      exact ih h₁ (hi.trans hidx.symm) hrun
    · simp only [hfull, if_false, Option.some.injEq, Prod.mk.injEq] at hrun
      obtain ⟨rfl, rfl⟩ := hrun
      exact .of_head h hlt hL hfull

variable (g) in
/-- How the callers use the list index: it names a list, or is the round-robin position, or
is not looked at. -/
def ModeOk (mode : VictimMode) (mappingIndex : ℕ) (l : BlockLists) : Prop :=
  match mode with
  | .overall => True
  | .inchip => mappingIndex < g.emptyTableEntryNb
  | .noparal => mappingIndex = l.emptyBlockTableIndex

theorem getEmptyBlock_spec {mode : VictimMode} {mappingIndex fuel : ℕ} {r : Option ℕ}
    (h : ListInv g l L fill limbo) (hm : ModeOk g mode mappingIndex l)
    (hrun : getEmptyBlock g fuel mode mappingIndex l = some (r, l')) :
    GotBlock g mode fill limbo r l' := by
  cases mode with
  | overall => exact getEmptyBlockLoop_overall h hrun
  | inchip => exact getEmptyBlockLoop_inchip h hm hrun
  | noparal => exact getEmptyBlockLoop_noparal h hm hrun

/-! ### Handing out a page -/

private theorem Placed.take (hp : Placed g L fill limbo) {i p : ℕ} (hi : i < g.emptyTableEntryNb)
    {e : EmptyBlock} {xs : List (ℕ × EmptyBlock)} (hL : L.empty i = (p, e) :: xs)
    (hlt : fill e.block < g.pageNb) :
    Placed g (L.set i ((p, { e with currPhyPageNb := e.currPhyPageNb + 1 }) :: xs) (L.victim i))
      (Function.update fill e.block (fill e.block + 1)) limbo := by
  have hmem : (p, e) ∈ L.empty i := by simp [hL]
  obtain ⟨hlive, hidx⟩ := hp.empty_mem hi hmem
  -- the block occurs once on list `i`, so no other entry's fill changes
  have hnd := hp.buckets.nodup i hi
  simp only [ListView.blocks, ListView.emptyBlocks, ListView.victimBlocks, hL, List.map_cons,
    List.cons_append, List.nodup_cons, List.mem_append, not_or] at hnd
  have hne : ∀ x ∈ xs, x.2.block ≠ e.block := fun x hx heq =>
    hnd.1.1 (List.mem_map.mpr ⟨x, hx, heq⟩)
  have hvne : ∀ y ∈ L.victim i, y.2.block ≠ e.block := fun y hy heq =>
    hnd.1.2 (List.mem_map.mpr ⟨y, hy, heq⟩)
  refine hp.set ?_ ?_ ?_ ?_ ?_ hp.limbo_sub ?_ ?_
  · refine hp.buckets.perm fun j _ => ?_
    by_cases hji : j = i
    · subst hji
      rw [ListView.set_blocks_self]
      simp only [ListView.blocks, ListView.emptyBlocks, ListView.victimBlocks, hL]
      exact List.Perm.refl _
    · rw [ListView.set_blocks_of_ne hji]
  · intro β hβ
    exact Function.update_of_ne (fun heq : β = e.block => hβ (heq ▸ hidx)) ..
  · intro x hx
    rcases List.mem_cons.mp hx with rfl | hx
    · have hcurr : e.currPhyPageNb = fill e.block := hp.curr i hi (p, e) hmem
      have hself : Function.update fill e.block (fill e.block + 1) e.block = fill e.block + 1 :=
        Function.update_self ..
      exact (congrArg (· + 1) hcurr).trans hself.symm
    · rw [Function.update_of_ne (hne x hx)]
      exact hp.curr i hi x (hL ▸ List.mem_cons_of_mem _ hx)
  · intro x hx
    rw [Function.update_of_ne (hne x hx)]
    exact hp.fresh_tail i hi x (by rw [hL]; exact hx)
  · intro y hy
    rw [Function.update_of_ne (hvne y hy)]
    exact hp.victim_full i hi y hy
  · intro β hβ
    rw [Function.update_of_ne (fun heq : β = e.block => (mem_sdiff.mp hlive).2 (heq ▸ hβ))]
    exact hp.limbo_full β hβ
  · intro β hβ
    by_cases heq : β = e.block
    · rw [heq, Function.update_self]
      omega
    · rw [Function.update_of_ne heq]
      exact hp.fill_le β hβ

theorem ListRep.take (hr : ListRep g l L) (ho : Own g L) {i p : ℕ} (hi : i < g.emptyTableEntryNb)
    {e : EmptyBlock} {xs : List (ℕ × EmptyBlock)} (hL : L.empty i = (p, e) :: xs) :
    ListRep g
      { l with emptyHeap := l.emptyHeap.modify p fun c =>
          { c with val := { c.val with currPhyPageNb := c.val.currPhyPageNb + 1 } } }
      (L.set i ((p, { e with currPhyPageNb := e.currPhyPageNb + 1 }) :: xs) (L.victim i)) := by
  have hrep := hr.empty i hi
  rw [hL] at hrep
  refine hr.set ho hi ?_ (hr.victim i hi) (fun _ _ => ⟨rfl, rfl⟩) ?_ (fun _ _ _ => rfl) ?_ rfl
  · exact hrep.set_head fun e => { e with currPhyPageNb := e.currPhyPageNb + 1 }
  · intro a _ ha
    exact Heap.modify_cell_of_ne _ _ fun hap => ha (by simp [hL, hap])
  · simp [hL]

private theorem ListInv.take (h : ListInv g l L fill limbo) {i p : ℕ} (hi : i < g.emptyTableEntryNb)
    {e : EmptyBlock} {xs : List (ℕ × EmptyBlock)} (hL : L.empty i = (p, e) :: xs)
    (hlt : fill e.block < g.pageNb) :
    ListInv g
      { l with emptyHeap := l.emptyHeap.modify p fun c =>
          { c with val := { c.val with currPhyPageNb := c.val.currPhyPageNb + 1 } } }
      (L.set i ((p, { e with currPhyPageNb := e.currPhyPageNb + 1 }) :: xs) (L.victim i))
      (Function.update fill e.block (fill e.block + 1)) limbo :=
  ⟨h.rep.take h.placed.own hi hL, h.placed.take hi hL hlt, h.index_lt⟩

/-- With no block on the empty lists, every block is full. -/
private theorem ListInv.all_full (h : ListInv g l L fill limbo) (h0 : l.totalEmptyBlockNb = 0)
    {β : ℕ × ℕ} (hβ : β ∈ g.blocks) : fill β = g.pageNb := by
  have hi := g.listOf_lt hβ
  rcases h.placed.cover hβ with hl | ⟨x, hx, -⟩ | ⟨y, hy, rfl⟩
  · exact h.placed.limbo_full β hl
  · simp [h.totalEmpty_eq_zero h0 hi] at hx
  · exact h.placed.victim_full _ hi y hy

variable (g) in
/-- What `GET_NEW_PAGE` leaves. A page is taken from a block that is on a list, at the
block's fill; there is none only when every block is full. -/
def GotPage (fill : ℕ × ℕ → ℕ) (limbo : Finset (ℕ × ℕ)) (l : BlockLists) :
    Option EmptyBlock → Prop
  | none => (∃ L, ListInv g l L fill limbo) ∧ ∀ β ∈ g.blocks, fill β = g.pageNb
  | some e => e.block ∈ g.blocks \ limbo ∧ e.currPhyPageNb = fill e.block ∧
      fill e.block < g.pageNb ∧
      ∃ L, ListInv g l L (Function.update fill e.block (fill e.block + 1)) limbo

private theorem takePage_spec {mode : VictimMode} {found : Option ℕ} {taken : Option EmptyBlock}
    (hgot : GotBlock g mode fill limbo found l) (hmode : found = none → mode ≠ .inchip)
    (hrun : takePage found l = some (taken, l')) : GotPage g fill limbo l' taken := by
  obtain ⟨L, h, hsome, hnone⟩ := hgot
  cases found with
  | none =>
    cases hrun
    exact ⟨⟨L, h⟩, fun β hβ => h.all_full (hnone rfl (hmode rfl)) hβ⟩
  | some p =>
    obtain ⟨i, hi, e, xs, hL, hne⟩ := hsome p rfl
    have hmem : (p, e) ∈ L.empty i := by simp [hL]
    obtain ⟨n, hcell⟩ := (h.rep.empty i hi).seg.cell_of_mem hmem
    simp only [takePage, hcell, Option.map_some, Option.some.injEq, Prod.mk.injEq] at hrun
    obtain ⟨rfl, rfl⟩ := hrun
    have hlive := (h.placed.empty_mem hi hmem).1
    have hcurr : e.currPhyPageNb = fill e.block := h.placed.curr i hi _ hmem
    have hle := h.placed.fill_le _ (mem_sdiff.mp hlive).1
    have hlt : fill e.block < g.pageNb := by
      refine lt_of_le_of_ne hle fun heq => hne ?_
      rw [hcurr]
      exact heq
    exact ⟨hlive, hcurr, hlt, _, h.take hi hL hlt⟩

/-- **`GET_NEW_PAGE`**, in every mode. -/
theorem getNewPage_spec {mode : VictimMode} {mappingIndex fuel : ℕ} {taken : Option EmptyBlock}
    (h : ListInv g l L fill limbo) (hm : ModeOk g mode mappingIndex l)
    (hrun : getNewPage g fuel mode mappingIndex l = some (taken, l')) :
    GotPage g fill limbo l' taken := by
  rw [getNewPage, Option.bind_eq_bind, Option.bind_eq_some_iff] at hrun
  obtain ⟨⟨first, l₁⟩, hfirst, hrun⟩ := hrun
  have hgot := getEmptyBlock_spec h hm hfirst
  by_cases hretry : mode = .inchip ∧ first = none
  · simp only [hretry, if_true, and_self, Option.bind_eq_some_iff] at hrun
    obtain ⟨⟨found, l₂⟩, hfound, hrun⟩ := hrun
    obtain ⟨L₁, h₁, -⟩ := hgot
    have hgot₂ : GotBlock g .overall fill limbo found l₂ := getEmptyBlock_spec h₁ trivial hfound
    exact takePage_spec hgot₂ (fun _ => by simp) hrun
  · simp only [hretry, if_false, Option.bind_some] at hrun
    exact takePage_spec hgot (fun hnone hmode => hretry ⟨hmode, hnone⟩) hrun

end Vssim
