import Vssim.Config
import Mathlib.Logic.Function.Basic

/-!
# Mapping tables

The page tables of `ftl_mapping_manager.c` and `ftl_inverse_mapping_manager.c`: the forward
and the inverse mapping, and for every block its type, its `valid_array` and the count of
valid pages. Page numbers are integers, with `-1` for "not mapped".
-/

namespace Vssim

/-- A cell of a `valid_array`: the zero byte it is allocated with, `'0'`, `'V'` or `'I'`. -/
inductive PageState
  | nul
  | empty
  | valid
  | invalid
  deriving DecidableEq, Repr

/-- `EMPTY_BLOCK` and `DATA_BLOCK`, the block types the page-mapping FTL uses. -/
inductive BlockType
  | emptyBlock
  | dataBlock
  deriving DecidableEq, Repr

/-- A `block_state_entry`. Its `erase_count` is never advanced and is left out. -/
structure BlockStateEntry where
  validPageNb : ℕ
  type : BlockType
  validArray : ℕ → PageState

/-- The mapping tables. -/
structure PageTables where
  mappingTable : ℤ → ℤ
  inverseMappingTable : ℤ → ℤ
  blockStateTable : ℕ → BlockStateEntry

variable (g : Geometry)

/-- `CALC_FLASH`: the chip of a physical page. -/
def calcFlash (ppn : ℤ) : ℕ := ((ppn.tdiv g.pageNb).tdiv g.blockNb).toNat

/-- `CALC_BLOCK`: the block of a physical page within its chip. -/
def calcBlock (ppn : ℤ) : ℕ := ((ppn.tdiv g.pageNb).tmod g.blockNb).toNat

/-- `CALC_PAGE`: the page of a physical page within its block. -/
def calcPage (ppn : ℤ) : ℕ := (ppn.tmod g.pageNb).toNat

/-- The index `GET_BLOCK_STATE_ENTRY` computes. -/
def blockStateIndex (phyFlashNb phyBlockNb : ℕ) : ℕ := phyFlashNb * g.blockNb + phyBlockNb

/-- `GET_BLOCK_STATE_ENTRY`. -/
def PageTables.getBlockStateEntry (t : PageTables) (phyFlashNb phyBlockNb : ℕ) :
    BlockStateEntry :=
  t.blockStateTable (blockStateIndex g phyFlashNb phyBlockNb)

/-- The counting loop of `UPDATE_BLOCK_STATE_ENTRY`. -/
def countValid (validArray : ℕ → PageState) : ℕ → ℕ
  | 0 => 0
  | n + 1 => countValid validArray n + if validArray n = .valid then 1 else 0

/-- `UPDATE_BLOCK_STATE_ENTRY`: set one cell of a block's `valid_array` and recount. -/
def updateBlockStateEntry (phyFlashNb phyBlockNb phyPageNb : ℕ) (state : PageState)
    (t : PageTables) : Ret × PageTables :=
  if g.flashNb ≤ phyFlashNb ∨ g.blockNb ≤ phyBlockNb ∨ g.pageNb ≤ phyPageNb then (.fail, t)
  else
    let e := t.getBlockStateEntry g phyFlashNb phyBlockNb
    let validArray := Function.update e.validArray phyPageNb state
    (.success,
      { t with
        blockStateTable := Function.update t.blockStateTable
          (blockStateIndex g phyFlashNb phyBlockNb)
          { e with validArray, validPageNb := countValid validArray g.pageNb } })

/-- `UPDATE_BLOCK_STATE`: set a block's type; an `EMPTY_BLOCK` has every page set to `'0'`,
one call of `UPDATE_BLOCK_STATE_ENTRY` after the other. -/
def updateBlockState (phyFlashNb phyBlockNb : ℕ) (type : BlockType) (t : PageTables) :
    PageTables :=
  let t := { t with
    blockStateTable := Function.update t.blockStateTable (blockStateIndex g phyFlashNb phyBlockNb)
      { t.getBlockStateEntry g phyFlashNb phyBlockNb with type } }
  match type with
  | .emptyBlock => (List.range g.pageNb).foldl
      (fun t i => (updateBlockStateEntry g phyFlashNb phyBlockNb i .empty t).2) t
  | .dataBlock => t

/-- `UPDATE_INVERSE_MAPPING`. -/
def updateInverseMapping (ppn lpn : ℤ) (t : PageTables) : PageTables :=
  { t with inverseMappingTable := Function.update t.inverseMappingTable ppn lpn }

/-- `UPDATE_OLD_PAGE_MAPPING`: invalidate the page `lpn` is mapped to, if any. -/
def updateOldPageMapping (lpn : ℤ) (t : PageTables) : PageTables :=
  let oldPpn := t.mappingTable lpn
  if oldPpn = -1 then t
  else
    let t := (updateBlockStateEntry g (calcFlash g oldPpn) (calcBlock g oldPpn)
      (calcPage g oldPpn) .invalid t).2
    updateInverseMapping oldPpn (-1) t

/-- `UPDATE_NEW_PAGE_MAPPING`: map `lpn` to `ppn`. -/
def updateNewPageMapping (lpn ppn : ℤ) (t : PageTables) : PageTables :=
  let t := { t with mappingTable := Function.update t.mappingTable lpn ppn }
  let t := (updateBlockStateEntry g (calcFlash g ppn) (calcBlock g ppn) (calcPage g ppn)
    .valid t).2
  let t := updateBlockState g (calcFlash g ppn) (calcBlock g ppn) .dataBlock t
  updateInverseMapping ppn lpn t

end Vssim
