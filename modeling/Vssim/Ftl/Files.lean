import Vssim.Ftl.Request
import Vssim.Library.RecordFile

/-!
# The data files

`FTL_TERM` writes the tables and the block lists to six files under `./data/`, and an `FTL_INIT`
that finds the files starts from them. The `TERM_*` functions write what is in memory, pointers
included; the `INIT_*` functions read as many records as the configuration says and relink the
lists. The `valid_array` of a block is in a file of its own, so the pointer to it that
`block_state_table.dat` holds is left out of the model, as is `erase_count`.
-/

namespace Vssim

open LinkedHeap RecordFile

/-! ### Records -/

/-- A pointer as a word: `NULL` is zero. -/
def encodePtr : Option ℕ → ℤ
  | none => 0
  | some a => a + 1

/-- The pointer a word stands for. -/
def decodePtr (w : ℤ) : Option ℕ := if w = 0 then none else some (w - 1).toNat

private theorem decodePtr_encodePtr (p : Option ℕ) : decodePtr (encodePtr p) = p := by
  cases p with
  | none => rfl
  | some a =>
    have hne : (a : ℤ) + 1 ≠ 0 := by omega
    simp [encodePtr, decodePtr, hne]

/-- The character of a `valid_array` cell. -/
def PageState.char : PageState → ℤ
  | .nul => 0
  | .empty => 48
  | .valid => 86
  | .invalid => 73

/-- The cell of a character. -/
def PageState.ofChar (w : ℤ) : PageState :=
  if w = 48 then .empty else if w = 86 then .valid else if w = 73 then .invalid else .nul

/-- The code of a block type in `common.h`. -/
def BlockType.code : BlockType → ℤ
  | .emptyBlock => 30
  | .dataBlock => 39

/-- The block type of a code. -/
def BlockType.ofCode (w : ℤ) : BlockType := if w = 39 then .dataBlock else .emptyBlock

/-- An `int32_t`. -/
def int32Layout : Layout ℤ where
  size := 1
  encode x := [x]
  decode ws := ws.getD 0 0
  length_encode _ := rfl
  decode_encode _ := rfl

/-- A `char` of a `valid_array`. -/
def charLayout : Layout PageState where
  size := 1
  encode c := [c.char]
  decode ws := PageState.ofChar (ws.getD 0 0)
  length_encode _ := rfl
  decode_encode c := by cases c <;> rfl

/-- A `block_state_entry`: its `valid_page_nb` and its `type`. -/
def blockStateLayout : Layout (ℕ × BlockType) where
  size := 2
  encode e := [e.1, e.2.code]
  decode ws := ((ws.getD 0 0).toNat, BlockType.ofCode (ws.getD 1 0))
  length_encode _ := rfl
  decode_encode := by
    rintro ⟨n, type⟩
    cases type <;> rfl

/-- An `empty_block_root` or a `victim_block_root`. -/
def rootLayout : Layout ListRoot where
  size := 3
  encode r := [encodePtr r.head, encodePtr r.tail, r.count]
  decode ws := ⟨decodePtr (ws.getD 0 0), decodePtr (ws.getD 1 0), (ws.getD 2 0).toNat⟩
  length_encode _ := rfl
  decode_encode r := by simp [decodePtr_encodePtr]

/-- An `empty_block_entry`. -/
def emptyEntryLayout : Layout (SNode EmptyBlock) where
  size := 4
  encode c := [c.val.phyFlashNb, c.val.phyBlockNb, c.val.currPhyPageNb, encodePtr c.next]
  decode ws :=
    { val := ⟨(ws.getD 0 0).toNat, (ws.getD 1 0).toNat, (ws.getD 2 0).toNat⟩
      next := decodePtr (ws.getD 3 0) }
  length_encode _ := rfl
  decode_encode c := by simp [decodePtr_encodePtr]

/-- A `victim_block_entry`. -/
def victimEntryLayout : Layout (DNode VictimBlock) where
  size := 4
  encode c := [c.val.phyFlashNb, c.val.phyBlockNb, encodePtr c.prev, encodePtr c.next]
  decode ws :=
    { val := ⟨(ws.getD 0 0).toNat, (ws.getD 1 0).toNat⟩
      prev := decodePtr (ws.getD 2 0)
      next := decodePtr (ws.getD 3 0) }
  length_encode _ := rfl
  decode_encode c := by simp [decodePtr_encodePtr]

/-- The singly linked lists of empty blocks. -/
def emptyShape : Shape (SNode EmptyBlock) EmptyBlock := singly emptyEntryLayout

/-- The doubly linked lists of victim blocks. -/
def victimShape : Shape (DNode VictimBlock) VictimBlock := doubly victimEntryLayout

/-! ### Writing and reading the files -/

/-- The contents of the six files, word by word. -/
structure DataFiles where
  mappingTable : List ℤ
  inverseMapping : List ℤ
  validArray : List ℤ
  blockStateTable : List ℤ
  emptyBlockList : List ℤ
  victimBlockList : List ℤ

variable (g : Geometry)

/-- A table of `PAGE_MAPPING_ENTRY_NB` page numbers, as `TERM_MAPPING_TABLE` and
`TERM_INVERSE_MAPPING_TABLE` write it. -/
def termPageTable (table : ℤ → ℤ) : List ℤ :=
  fwrite int32Layout ((List.range g.pageMappingEntryNb).map fun i : ℕ => table i)

/-- `TERM_MAPPING_TABLE`. -/
def termMappingTable (t : PageTables) : List ℤ := termPageTable g t.mappingTable

/-- `TERM_INVERSE_MAPPING_TABLE`. -/
def termInverseMappingTable (t : PageTables) : List ℤ := termPageTable g t.inverseMappingTable

/-- `TERM_VALID_ARRAY`: the `PAGE_NB` cells of one block after the other. -/
def termValidArray (t : PageTables) : List ℤ :=
  ((List.range g.blockMappingEntryNb).map fun i =>
    (List.range g.pageNb).map (t.blockStateTable i).validArray).flatMap (fwrite charLayout)

/-- `TERM_BLOCK_STATE_TABLE`. -/
def termBlockStateTable (t : PageTables) : List ℤ :=
  fwrite blockStateLayout ((List.range g.blockMappingEntryNb).map fun i =>
    ((t.blockStateTable i).validPageNb, (t.blockStateTable i).type))

/-- `TERM_EMPTY_BLOCK_LIST`. -/
def termEmptyBlockList (l : BlockLists) : Option (List ℤ) :=
  saveLists rootLayout emptyEntryLayout SNode.next l.emptyHeap
    ((List.range g.emptyTableEntryNb).map l.emptyBlockList)

/-- `TERM_VICTIM_BLOCK_LIST`. -/
def termVictimBlockList (l : BlockLists) : Option (List ℤ) :=
  saveLists rootLayout victimEntryLayout DNode.next l.victimHeap
    ((List.range g.emptyTableEntryNb).map l.victimBlockList)

/-- `FTL_TERM`. -/
def ftlTerm (s : Ftl) : Option DataFiles := do
  let emptyBlockList ← termEmptyBlockList g s.lists
  let victimBlockList ← termVictimBlockList g s.lists
  some
    { mappingTable := termMappingTable g s.tables
      inverseMapping := termInverseMappingTable g s.tables
      validArray := termValidArray g s.tables
      blockStateTable := termBlockStateTable g s.tables
      emptyBlockList
      victimBlockList }

/-- The file branch of `INIT_MAPPING_TABLE` and of `INIT_INVERSE_MAPPING_TABLE`. What the file does
not fill is zero; outside the table every page is unmapped. -/
def initPageTable (file : List ℤ) (i : ℤ) : ℤ :=
  if 0 ≤ i ∧ i < g.pageMappingEntryNb then
    (fread int32Layout g.pageMappingEntryNb file).1.getD i.toNat 0
  else -1

/-- The file branches of `INIT_BLOCK_STATE_TABLE` and `INIT_VALID_ARRAY`. -/
def initBlockStateTable (states arrays : List ℤ) (i : ℕ) : BlockStateEntry :=
  let e := (fread blockStateLayout g.blockMappingEntryNb states).1.getD i (0, .emptyBlock)
  let validArray := (freadArrays charLayout g.pageNb g.blockMappingEntryNb arrays).getD i []
  { validPageNb := e.1, type := e.2, validArray := fun p => validArray.getD p .nul }

/-- `FTL_INIT` in a process that finds the files of an earlier `FTL_TERM`. -/
def ftlInitFrom (files : DataFiles) : Option Ftl := do
  let (empty, emptyHeap, totalEmptyBlockNb) ←
    emptyShape.loadTable rootLayout g.emptyTableEntryNb files.emptyBlockList
  let (victim, victimHeap, totalVictimBlockNb) ←
    victimShape.loadTable rootLayout g.emptyTableEntryNb files.victimBlockList
  some
    { tables :=
        { mappingTable := initPageTable g files.mappingTable
          inverseMappingTable := initPageTable g files.inverseMapping
          blockStateTable := initBlockStateTable g files.blockStateTable files.validArray }
      lists :=
        { emptyHeap
          emptyBlockList := fun i => empty.getD i ⟨none, none, 0⟩
          victimHeap
          victimBlockList := fun i => victim.getD i ⟨none, none, 0⟩
          totalEmptyBlockNb
          totalVictimBlockNb
          emptyBlockTableIndex := 0 }
      gcCount := 0
      failCnt := 0 }

end Vssim
