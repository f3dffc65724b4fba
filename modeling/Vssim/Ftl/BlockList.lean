import Vssim.Config
import Vssim.Library.LinkedHeap

/-!
# Empty and victim block lists

The allocator of `ftl_inverse_mapping_manager.c` and `GET_NEW_PAGE`. Every flash block sits
in one of two families of linked lists, one list per plane of every chip: the singly linked
**empty** lists, whose heads are being filled page by page, and the doubly linked
**victim** lists of full blocks waiting to be collected.

A function that follows a `NULL` pointer, or whose loop has not ended after `fuel` rounds,
returns `none`; every other outcome is a value. Allocation of list entries never fails.
-/

namespace Vssim

open LinkedHeap

/-- The payload of an `empty_block_entry`: a block and its next unwritten page. -/
structure EmptyBlock where
  phyFlashNb : ℕ
  phyBlockNb : ℕ
  currPhyPageNb : ℕ
  deriving DecidableEq, Repr

/-- The payload of a `victim_block_entry`. -/
structure VictimBlock where
  phyFlashNb : ℕ
  phyBlockNb : ℕ
  deriving DecidableEq, Repr

/-- The block lists: both heaps, both tables of roots, the totals and the round-robin
position of the allocator. -/
structure BlockLists where
  emptyHeap : Heap (SNode EmptyBlock)
  emptyBlockList : ℕ → ListRoot
  victimHeap : Heap (DNode VictimBlock)
  victimBlockList : ℕ → ListRoot
  totalEmptyBlockNb : ℕ
  totalVictimBlockNb : ℕ
  emptyBlockTableIndex : ℕ

/-- Where the next page comes from: `VICTIM_OVERALL`, `VICTIM_INCHIP` or `VICTIM_NOPARAL`. -/
inductive VictimMode
  | overall
  | inchip
  | noparal
  deriving DecidableEq, Repr

variable (g : Geometry)

/-- `INSERT_EMPTY_BLOCK`: append a fresh entry to the block's own empty list. -/
def insertEmptyBlock (phyFlashNb phyBlockNb : ℕ) (l : BlockLists) : Option BlockLists :=
  let i := g.mappingIndex phyFlashNb phyBlockNb
  (sPush l.emptyHeap (l.emptyBlockList i) ⟨phyFlashNb, phyBlockNb, 0⟩).map fun (h, r) =>
    { l with
      emptyHeap := h
      emptyBlockList := Function.update l.emptyBlockList i r
      totalEmptyBlockNb := l.totalEmptyBlockNb + 1 }

/-- `INSERT_VICTIM_BLOCK`: append the block of the full entry at `p` to its victim list and
release the entry. -/
def insertVictimBlock (p : ℕ) (l : BlockLists) : Option BlockLists := do
  let c ← l.emptyHeap.cell p
  let i := g.mappingIndex c.val.phyFlashNb c.val.phyBlockNb
  let (h, r) ← dPush l.victimHeap (l.victimBlockList i) ⟨c.val.phyFlashNb, c.val.phyBlockNb⟩
  some
    { l with
      emptyHeap := l.emptyHeap.free p
      victimHeap := h
      victimBlockList := Function.update l.victimBlockList i r
      totalVictimBlockNb := l.totalVictimBlockNb + 1 }

/-- `EJECT_VICTIM_BLOCK`: unlink the victim entry at `p` from its list and release it. -/
def ejectVictimBlock (p : ℕ) (l : BlockLists) : Option BlockLists := do
  let c ← l.victimHeap.cell p
  let i := g.mappingIndex c.val.phyFlashNb c.val.phyBlockNb
  let (h, r) ← dUnlink l.victimHeap (l.victimBlockList i) p
  some
    { l with
      victimHeap := h
      victimBlockList := Function.update l.victimBlockList i r
      totalVictimBlockNb := l.totalVictimBlockNb - 1 }

/-- The step the three modes of `GET_EMPTY_BLOCK` share when the head `p` of list `i` is
full: take it off the empty list, make it a victim, count one empty block less. The tail
pointer of a list emptied here goes stale. -/
def retireFullBlock (i p : ℕ) (l : BlockLists) : Option BlockLists := do
  let c ← l.emptyHeap.cell p
  let root := l.emptyBlockList i
  let root' : ListRoot :=
    if root.count = 1 then { root with head := none, count := 0 }
    else { root with head := c.next, count := root.count - 1 }
  let l' ← insertVictimBlock g p
    { l with emptyBlockList := Function.update l.emptyBlockList i root' }
  some { l' with totalEmptyBlockNb := l'.totalEmptyBlockNb - 1 }

/-- Advance `empty_block_table_index`, wrapping at `EMPTY_TABLE_ENTRY_NB`. -/
def advanceTableIndex (l : BlockLists) : BlockLists :=
  { l with
    emptyBlockTableIndex :=
      if l.emptyBlockTableIndex + 1 = g.emptyTableEntryNb then 0
      else l.emptyBlockTableIndex + 1 }

/-- The `while(total_empty_block_nb != 0)` loop of `GET_EMPTY_BLOCK`. The result is the
pointer returned (`none` for `NULL`) and the lists afterwards. -/
def getEmptyBlockLoop (mode : VictimMode) (inputMappingIndex : ℕ) :
    ℕ → ℕ → BlockLists → Option (Option ℕ × BlockLists)
  | 0, _, _ => none
  | fuel + 1, mappingIndex, l =>
    if l.totalEmptyBlockNb = 0 then some (none, l)
    else match mode with
    | .overall =>
      let i := l.emptyBlockTableIndex
      let root := l.emptyBlockList i
      if root.count = 0 then
        getEmptyBlockLoop mode inputMappingIndex fuel mappingIndex (advanceTableIndex g l)
      else do
        let p ← root.head
        let c ← l.emptyHeap.cell p
        if c.val.currPhyPageNb = g.pageNb then
          let l' ← retireFullBlock g i p l
          getEmptyBlockLoop mode inputMappingIndex fuel mappingIndex (advanceTableIndex g l')
        else some (some p, advanceTableIndex g l)
    | .inchip =>
      let root := l.emptyBlockList mappingIndex
      if root.count = 0 then
        -- the next plane, as the code computes it
        if g.planesPerFlash ≠ 1 then
          let next := if (mappingIndex + 1) % g.planesPerFlash = 0
            then mappingIndex + 1 - (g.planesPerFlash - 1) else mappingIndex + 1
          if next = inputMappingIndex then some (none, l)
          else getEmptyBlockLoop mode inputMappingIndex fuel next l
        else some (none, l)
      else do
        let p ← root.head
        let c ← l.emptyHeap.cell p
        if c.val.currPhyPageNb = g.pageNb then
          let l' ← retireFullBlock g mappingIndex p l
          getEmptyBlockLoop mode inputMappingIndex fuel mappingIndex l'
        else some (some p, l)
    | .noparal =>
      let root := l.emptyBlockList mappingIndex
      if root.count = 0 then
        if mappingIndex + 1 = g.emptyTableEntryNb then
          getEmptyBlockLoop mode inputMappingIndex fuel 0 { l with emptyBlockTableIndex := 0 }
        else
          getEmptyBlockLoop mode inputMappingIndex fuel (mappingIndex + 1)
            { l with emptyBlockTableIndex := l.emptyBlockTableIndex + 1 }
      else do
        let p ← root.head
        let c ← l.emptyHeap.cell p
        if c.val.currPhyPageNb = g.pageNb then
          let l' ← retireFullBlock g mappingIndex p l
          getEmptyBlockLoop mode inputMappingIndex fuel mappingIndex l'
        else some (some p, l)

/-- `GET_EMPTY_BLOCK`. The test before the loop is the loop's own. -/
def getEmptyBlock (fuel : ℕ) (mode : VictimMode) (mappingIndex : ℕ) (l : BlockLists) :
    Option (Option ℕ × BlockLists) :=
  getEmptyBlockLoop g mode mappingIndex fuel mappingIndex l

/-- The physical page number of the next unwritten page of an entry. The program stores it in an
`int32_t`, which makes no difference for a device of at most `2 ^ 31` pages. -/
def EmptyBlock.ppn (e : EmptyBlock) : ℤ :=
  (e.phyFlashNb * g.blockNb * g.pageNb + e.phyBlockNb * g.pageNb + e.currPhyPageNb : ℕ)

/-- The end of `GET_NEW_PAGE`, with the entry pointer it has found: `none` for `FAIL`, otherwise
the entry the page is taken from, as it stood before its `curr_phy_page_nb` was advanced. -/
def takePage (found : Option ℕ) (l : BlockLists) : Option (Option EmptyBlock × BlockLists) :=
  match found with
  | none => some (none, l)
  | some p => (l.emptyHeap.cell p).map fun c =>
    (some c.val,
      { l with
        emptyHeap := l.emptyHeap.modify p fun c =>
          { c with val := { c.val with currPhyPageNb := c.val.currPhyPageNb + 1 } } })

/-- `GET_NEW_PAGE`; the page number it stores is the `ppn` of the entry. An in-chip request
that finds nothing is retried over all chips. -/
def getNewPage (fuel : ℕ) (mode : VictimMode) (mappingIndex : ℕ) (l : BlockLists) :
    Option (Option EmptyBlock × BlockLists) := do
  let (first, l₁) ← getEmptyBlock g fuel mode mappingIndex l
  let (found, l₂) ←
    if mode = .inchip ∧ first = none then getEmptyBlock g fuel .overall mappingIndex l₁
    else some (first, l₁)
  takePage found l₂

end Vssim
