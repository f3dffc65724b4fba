import Mathlib.Algebra.Group.Int.Defs
import Mathlib.Algebra.Group.Nat.Defs

/-!
# Configuration and machine integers

The globals that `INIT_SSD_CONFIG` leaves behind and the rest of the simulator reads
(`vssim_config_manager.c`), the codes of `common.h` that travel between modules, and the
two C conversions the request arithmetic goes through.
-/

namespace Vssim

/-- Function results: `SUCCESS` and `FAIL`. -/
inductive Ret
  | success
  | fail
  deriving DecidableEq, Repr

/-- Operation codes of `common.h`: what a register is doing and on whose behalf. -/
inductive IoType
  | noop
  | read
  | write
  | erase
  | gcRead
  | gcWrite
  | seqWrite
  | ranWrite
  | ranColdWrite
  | ranHotWrite
  | seqMergeRead
  | ranMergeRead
  | seqMergeWrite
  | ranMergeWrite
  | ranColdMergeWrite
  | ranHotMergeWrite
  | mapRead
  | mapWrite
  deriving DecidableEq, Repr

/-- Conversion of an integer to `unsigned int`. -/
@[irreducible] def toU32 (x : ℤ) : ℕ := (x % 2 ^ 32).toNat

/-- Conversion of an integer to `int32_t`. -/
@[irreducible] def toI32 (x : ℤ) : ℤ := x.bmod (2 ^ 32)

/-- The geometry of the simulated SSD, with the two build switches of `common.h` that pick
an allocation mode. Every size is at least one, and `SECTORS_PER_PAGE` is a C `int`.
`INIT_SSD_CONFIG` also rejects an odd number of planes other than one; where a result needs
more than positive sizes it says so. -/
structure Geometry where
  sectorsPerPage : ℕ
  pageNb : ℕ
  blockNb : ℕ
  flashNb : ℕ
  planesPerFlash : ℕ
  /-- `GC_VICTIM_NB`, the number of collections one `GC_CHECK` attempts. -/
  gcVictimNb : ℕ
  /-- `WRITE_NOPARAL`: host writes fill one list after the other. -/
  writeNoparal : Bool
  /-- `GC_VICTIM_OVERALL`: collections copy to any chip, not to the victim's. -/
  gcVictimOverall : Bool
  sectorsPerPage_pos : 0 < sectorsPerPage
  sectorsPerPage_lt : sectorsPerPage < 2 ^ 31
  pageNb_pos : 0 < pageNb
  blockNb_pos : 0 < blockNb
  flashNb_pos : 0 < flashNb
  planesPerFlash_pos : 0 < planesPerFlash

namespace Geometry

variable (g : Geometry)

/-- `SECTOR_NB`, the number of sectors of the device. -/
def sectorNb : ℕ := g.sectorsPerPage * g.pageNb * g.blockNb * g.flashNb

/-- `PAGE_MAPPING_ENTRY_NB`, the number of pages of the device. -/
def pageMappingEntryNb : ℕ := g.pageNb * g.blockNb * g.flashNb

/-- `PAGES_PER_FLASH`, the number of pages of one chip. -/
def pagesPerFlash : ℕ := g.pageNb * g.blockNb

/-- `BLOCK_MAPPING_ENTRY_NB`, the number of blocks of the device. -/
def blockMappingEntryNb : ℕ := g.blockNb * g.flashNb

/-- `EMPTY_TABLE_ENTRY_NB` and `VICTIM_TABLE_ENTRY_NB`, the number of block lists. -/
def emptyTableEntryNb : ℕ := g.flashNb * g.planesPerFlash

/-- `EACH_EMPTY_TABLE_ENTRY_NB`, the count a fresh empty list starts with. -/
def eachEmptyTableEntryNb : ℕ := g.blockNb / g.planesPerFlash

/-- The list a block belongs to: `plane_nb * FLASH_NB + phy_flash_nb`. -/
def mappingIndex (phyFlashNb phyBlockNb : ℕ) : ℕ :=
  phyBlockNb % g.planesPerFlash * g.flashNb + phyFlashNb

end Geometry

/-- A device of one chip with two planes and four blocks of two pages. -/
def smallDevice : Geometry where
  sectorsPerPage := 2
  pageNb := 2
  blockNb := 4
  flashNb := 1
  planesPerFlash := 2
  gcVictimNb := 1
  writeNoparal := false
  gcVictimOverall := false
  sectorsPerPage_pos := Nat.two_pos
  sectorsPerPage_lt := by decide
  pageNb_pos := Nat.two_pos
  blockNb_pos := by decide
  flashNb_pos := Nat.one_pos
  planesPerFlash_pos := Nat.two_pos

end Vssim
