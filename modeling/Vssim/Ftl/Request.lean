import Vssim.Ftl.BlockList
import Vssim.Ftl.Mapping

/-!
# Garbage collection and host requests

`ftl_gc_manager.c` and `ftl.c` in the page-mapping build (`GC_ON`, `GC_TRIGGER_OVERALL`,
no map cache). The functions pass the FTL state along and return the list of **events** they
cause, in order: the calls they make into the SSD module and the request bookkeeping, the
pages handed out, the collections started and the errors printed. Each event carries the
FTL state it was raised in.
-/

namespace Vssim

open LinkedHeap

/-- The state of the flash translation layer. -/
structure Ftl where
  tables : PageTables
  lists : BlockLists
  gcCount : ℕ
  failCnt : ℕ

/-- The error messages of the garbage collector and the request functions. -/
inductive ErrorMessage
  | garbageCollectionGetNewPageFail
  | garbageCollectionValidPageNotCorrect
  | selectVictimBlockNoVictim
  | ftlReadExceedSectorNumber
  | ftlWriteExceedSectorNumber
  | ftlWriteGetNewPageFail
  deriving DecidableEq, Repr

/-- What the FTL does that can be seen from outside its tables. -/
inductive Call
  /-- `ALLOC_IO_REQUEST(sector_nb, length, io_type)`. -/
  | allocIoRequest (sectorNb : ℤ) (length : ℕ) (ioType : IoType)
  /-- `INCREASE_IO_REQUEST_SEQ_NB()`. -/
  | increaseIoRequestSeqNb
  /-- `GET_NEW_PAGE` returned: `FAIL`, or the entry the page was taken from. -/
  | getNewPage (taken : Option EmptyBlock)
  | ssdPageWrite (flash block page : ℕ) (offset : ℤ) (type : IoType) (ioPageNb : ℤ)
  | ssdPagePartialWrite (oldFlash oldBlock oldPage newFlash newBlock newPage : ℕ) (offset : ℤ)
      (type : IoType) (ioPageNb : ℤ)
  | ssdPageRead (flash block page : ℕ) (offset : ℤ) (type : IoType) (ioPageNb : ℤ)
  | ssdBlockErase (flash block : ℕ)
  /-- `GARBAGE_COLLECTION()` was entered. -/
  | garbageCollection
  /-- `printf("ERROR[...] ...")`. -/
  | error (message : ErrorMessage)
  deriving DecidableEq, Repr

/-- A call together with the FTL state it is made in. -/
structure Event where
  call : Call
  ftl : Ftl

variable (g : Geometry)

/-! ### Garbage collection -/

/-- One comparison of `SELECT_VICTIM_BLOCK`: the entry at `a` has `n` valid pages. The first
entry met is the first candidate; a later one replaces it only with strictly fewer. -/
def betterVictim (best : Option (ℕ × ℕ)) (a n : ℕ) : Option (ℕ × ℕ) :=
  match best with
  | none => some (a, n)
  | some (a₀, n₀) => if n < n₀ then some (a, n) else some (a₀, n₀)

/-- The inner loop of `SELECT_VICTIM_BLOCK` over the `entryNb` entries of one list, from the
entry at `p`. The candidate so far is its pointer and its number of valid pages. -/
def scanVictimList (s : Ftl) :
    ℕ → Option ℕ → Option (ℕ × ℕ) → Option (Option (ℕ × ℕ))
  | 0, _, best => some best
  | entryNb + 1, p, best => do
    let a ← p
    let c ← s.lists.victimHeap.cell a
    let n := (s.tables.getBlockStateEntry g c.val.phyFlashNb c.val.phyBlockNb).validPageNb
    scanVictimList s entryNb c.next (betterVictim best a n)

/-- The outer loop of `SELECT_VICTIM_BLOCK` over the victim lists. -/
def scanVictims (s : Ftl) : List ℕ → Option (ℕ × ℕ) → Option (Option (ℕ × ℕ))
  | [], best => some best
  | i :: is, best => do
    let root := s.lists.victimBlockList i
    let best ← scanVictimList g s root.count root.head best
    scanVictims s is best

/-- `SELECT_VICTIM_BLOCK`: the block with the fewest valid pages over all victim lists, taken
off its list; `none` as the result is `FAIL`, because there is no victim block or because
all pages of the best one are valid. -/
def selectVictimBlock (s : Ftl) : Option (Option VictimBlock × Ftl × List Event) :=
  if s.lists.totalVictimBlockNb = 0 then
    some (none, s, [⟨.error .selectVictimBlockNoVictim, s⟩])
  else do
    let best ← scanVictims g s (List.range g.emptyTableEntryNb) none
    let (a, n) ← best
    if n = g.pageNb then some (none, { s with failCnt := s.failCnt + 1 }, [])
    else
      let c ← s.lists.victimHeap.cell a
      let lists ← ejectVictimBlock g a s.lists
      some (some c.val, { s with lists }, [])

/-- The `GET_NEW_PAGE` call of `GARBAGE_COLLECTION`: over all chips with `GC_VICTIM_OVERALL`,
otherwise in the victim's chip first. -/
def gcNewPage (fuel : ℕ) (victim : VictimBlock) (l : BlockLists) :
    Option (Option EmptyBlock × BlockLists) :=
  if g.gcVictimOverall then getNewPage g fuel .overall g.emptyTableEntryNb l
  else getNewPage g fuel .inchip (g.mappingIndex victim.phyFlashNb victim.phyBlockNb) l

/-- The copy loop of `GARBAGE_COLLECTION` over the remaining pages `is` of the victim: every
valid page moves to a new one. The result is `copy_page_nb`, or `none` when the loop gave
up because `GET_NEW_PAGE` failed. -/
def copyValidPages (fuel : ℕ) (victim : VictimBlock) :
    List ℕ → ℕ → Ftl → Option (Option ℕ × Ftl × List Event)
  | [], copyPageNb, s => some (some copyPageNb, s, [])
  | i :: is, copyPageNb, s =>
    let f := victim.phyFlashNb
    let b := victim.phyBlockNb
    if (s.tables.getBlockStateEntry g f b).validArray i = .valid then do
      let (taken, lists) ← gcNewPage g fuel victim s.lists
      match taken with
      | none =>
        some (none, { s with lists },
          [⟨.getNewPage none, s⟩, ⟨.error .garbageCollectionGetNewPageFail, { s with lists }⟩])
      | some e =>
        let newPpn := e.ppn g
        let s₁ := { s with lists }
        let oldPpn : ℤ := (f * g.pagesPerFlash + b * g.pageNb + i : ℕ)
        let lpn := s₁.tables.inverseMappingTable oldPpn
        let s₂ := { s₁ with tables := updateNewPageMapping g lpn newPpn s₁.tables }
        let (r, s₃, events) ← copyValidPages fuel victim is (copyPageNb + 1) s₂
        some (r, s₃,
          ⟨.getNewPage (some e), s⟩ :: ⟨.ssdPageRead f b i i .gcRead (-1), s₁⟩ ::
          ⟨.ssdPageWrite (calcFlash g newPpn) (calcBlock g newPpn) (calcPage g newPpn) i
            .gcWrite (-1), s₁⟩ :: events)
    else copyValidPages fuel victim is copyPageNb s

/-- `GARBAGE_COLLECTION`: select a victim, copy its valid pages, erase it and put it back on
its empty list. -/
def garbageCollection (fuel : ℕ) (s : Ftl) : Option (Ret × Ftl × List Event) := do
  let (selected, s₁, ev₁) ← selectVictimBlock g s
  match selected with
  | none => some (.fail, s₁, ⟨.garbageCollection, s⟩ :: ev₁)
  | some victim =>
    let f := victim.phyFlashNb
    let b := victim.phyBlockNb
    let (copied, s₂, ev₂) ← copyValidPages g fuel victim (List.range g.pageNb) 0 s₁
    match copied with
    | none => some (.fail, s₂, ⟨.garbageCollection, s⟩ :: (ev₁ ++ ev₂))
    | some copyPageNb =>
      if copyPageNb ≠ (s₂.tables.getBlockStateEntry g f b).validPageNb then
        some (.fail, s₂, ⟨.garbageCollection, s⟩ ::
          (ev₁ ++ ev₂ ++ [⟨.error .garbageCollectionValidPageNotCorrect, s₂⟩]))
      else
        let tables := updateBlockState g f b .emptyBlock s₂.tables
        let lists ← insertEmptyBlock g f b s₂.lists
        some (.success, { s₂ with tables, lists, gcCount := s₂.gcCount + 1 },
          ⟨.garbageCollection, s⟩ :: (ev₁ ++ ev₂ ++ [⟨.ssdBlockErase f b, s₂⟩]))

/-- The loop of `GC_CHECK`: up to `n` collections, stopping at the first that fails. -/
def collectLoop (fuel : ℕ) : ℕ → Ftl → Option (Unit × Ftl × List Event)
  | 0, s => some ((), s, [])
  | n + 1, s => do
    let (r, s₁, ev₁) ← garbageCollection g fuel s
    match r with
    | .fail => some ((), s₁, ev₁)
    | .success =>
      let (_, s₂, ev₂) ← collectLoop fuel n s₁
      some ((), s₂, ev₁ ++ ev₂)

/-- `GC_CHECK` with `GC_TRIGGER_OVERALL`: its block arguments only feed the other trigger. -/
def gcCheck (fuel : ℕ) (s : Ftl) : Option (Unit × Ftl × List Event) :=
  if s.lists.totalEmptyBlockNb ≤ g.flashNb * g.planesPerFlash then
    collectLoop g fuel g.gcVictimNb s
  else some ((), s, [])

/-! ### Splitting a request into pages -/

/-- The loop variables that `_FTL_READ`, `_FTL_WRITE` and `ALLOC_IO_REQUEST` share: `lba` is
an `int32_t`, `remain` and `left_skip` are `unsigned int`. -/
structure Cursor where
  lba : ℤ
  remain : ℕ
  leftSkip : ℕ
  deriving DecidableEq, Repr

namespace Cursor

/-- The loop variables before the first round. -/
def start (sectorNb : ℤ) (length : ℕ) : Cursor :=
  ⟨sectorNb, length, toU32 (sectorNb.tmod g.sectorsPerPage)⟩

variable (c : Cursor)

/-- `right_skip` of the current round. -/
def rightSkip : ℕ :=
  if toU32 (g.sectorsPerPage - c.leftSkip) < c.remain then 0
  else toU32 (g.sectorsPerPage - c.leftSkip - c.remain)

/-- The number of sectors the current round handles. -/
def sects : ℕ := toU32 (g.sectorsPerPage - c.leftSkip - c.rightSkip g)

/-- The logical page of the current round. -/
def lpn : ℤ := c.lba.tdiv g.sectorsPerPage

/-- The loop variables after the current round. -/
def next : Cursor := ⟨toI32 (c.lba + c.sects g), toU32 (c.remain - c.sects g), 0⟩

end Cursor

/-- The page count `ALLOC_IO_REQUEST` computes: rounds of the loop, at most `fuel`. -/
def countPages : ℕ → Cursor → ℕ
  | 0, _ => 0
  | fuel + 1, c => if 0 < c.remain then countPages fuel (c.next g) + 1 else 0

/-- `io_page_nb` of a request. Every round handles at least one sector, so `length` rounds
are enough. -/
def ioPageNb (sectorNb : ℤ) (length : ℕ) : ℕ := countPages g length (.start g sectorNb length)

/-! ### Host requests -/

/-- The `GET_NEW_PAGE` call of `_FTL_WRITE`: list after list with `WRITE_NOPARAL`, otherwise
over all chips in turn. -/
def hostNewPage (fuel : ℕ) (l : BlockLists) : Option (Option EmptyBlock × BlockLists) :=
  if g.writeNoparal then getNewPage g fuel .noparal l.emptyBlockTableIndex l
  else getNewPage g fuel .overall g.emptyTableEntryNb l

/-- The page loop of `_FTL_WRITE`, from loop variables `c` and `write_page_nb`, with the value
`ret` has so far. The result is the new `ret`, or `none` when the function returns `FAIL`
from inside the loop. -/
def writePages (fuel ioPageNb : ℕ) :
    ℕ → Cursor → ℕ → Ret → Ftl → Option (Option Ret × Ftl × List Event)
  | 0, _, _, ret, s => some (some ret, s, [])
  | rounds + 1, c, writePageNb, ret, s =>
    if 0 < c.remain then do
      let (taken, lists) ← hostNewPage g fuel s.lists
      match taken with
      | none =>
        some (none, { s with lists },
          [⟨.getNewPage none, s⟩, ⟨.error .ftlWriteGetNewPageFail, { s with lists }⟩])
      | some e =>
        let newPpn := e.ppn g
        let s₁ := { s with lists }
        let lpn := c.lpn g
        let oldPpn := s₁.tables.mappingTable lpn
        let program : Call :=
          if (c.leftSkip ≠ 0 ∨ c.rightSkip g ≠ 0) ∧ oldPpn ≠ -1 then
            .ssdPagePartialWrite (calcFlash g oldPpn) (calcBlock g oldPpn) (calcPage g oldPpn)
              (calcFlash g newPpn) (calcBlock g newPpn) (calcPage g newPpn) writePageNb .write
              ioPageNb
          else
            .ssdPageWrite (calcFlash g newPpn) (calcBlock g newPpn) (calcPage g newPpn)
              writePageNb .write ioPageNb
        let s₂ := { s₁ with
          tables := updateNewPageMapping g lpn newPpn (updateOldPageMapping g lpn s₁.tables) }
        let (r, s₃, events) ← writePages fuel ioPageNb rounds (c.next g) (writePageNb + 1)
          .success s₂
        some (r, s₃, ⟨.getNewPage (some e), s⟩ :: ⟨program, s₁⟩ :: events)
    else some (some ret, s, [])

/-- `_FTL_WRITE`. -/
def ftlWrite (fuel : ℕ) (sectorNb : ℤ) (length : ℕ) (s : Ftl) : Option (Ret × Ftl × List Event) :=
  if g.sectorNb < toU32 (sectorNb + length) then
    some (.fail, s, [⟨.error .ftlWriteExceedSectorNumber, s⟩])
  else do
    let n := ioPageNb g sectorNb length
    let alloc : Event := ⟨.allocIoRequest sectorNb length .write, s⟩
    let (r, s₁, ev₁) ← writePages g fuel n length (.start g sectorNb length) 0 .fail s
    match r with
    | none => some (.fail, s₁, alloc :: ev₁)
    | some ret =>
      let (_, s₂, ev₂) ← gcCheck g fuel s₁
      some (ret, s₂, alloc :: (ev₁ ++ ⟨.increaseIoRequestSeqNb, s₁⟩ :: ev₂))

/-- The first pass of `_FTL_READ`: is every page mapped? -/
def checkMapped (t : PageTables) : ℕ → Cursor → Bool
  | 0, _ => true
  | rounds + 1, c =>
    if 0 < c.remain then
      if t.mappingTable (c.lpn g) = -1 then false else checkMapped t rounds (c.next g)
    else true

/-- The second pass of `_FTL_READ`: the pages read, and the value of `ret` after it. -/
def readPages (ioPageNb : ℕ) (s : Ftl) : ℕ → Cursor → ℕ → Ret → Ret × List Event
  | 0, _, _, ret => (ret, [])
  | rounds + 1, c, readPageNb, ret =>
    if 0 < c.remain then
      let ppn := s.tables.mappingTable (c.lpn g)
      let (r, events) := readPages ioPageNb s rounds (c.next g) (readPageNb + 1) .success
      (r, ⟨.ssdPageRead (calcFlash g ppn) (calcBlock g ppn) (calcPage g ppn) readPageNb .read
        ioPageNb, s⟩ :: events)
    else (ret, [])

/-- `_FTL_READ`. It leaves the FTL state alone. -/
def ftlRead (sectorNb : ℤ) (length : ℕ) (s : Ftl) : Ret × List Event :=
  if g.sectorNb < toU32 (sectorNb + length) then
    (.fail, [⟨.error .ftlReadExceedSectorNumber, s⟩])
  else if checkMapped g s.tables length (.start g sectorNb length) then
    let (r, events) := readPages g (ioPageNb g sectorNb length) s length
      (.start g sectorNb length) 0 .fail
    (r, ⟨.allocIoRequest sectorNb length .read, s⟩ ::
      (events ++ [⟨.increaseIoRequestSeqNb, s⟩]))
  else (.fail, [])

/-! ### Start-up -/

/-- The innermost loop of a fresh `INIT_EMPTY_BLOCK_LIST`: append the blocks `ks` of chip `j`
to the list of plane `i` with root `r`, and reset the state of each. The block whose number
is the plane's starts the list. -/
def initEmptyBlocks (i j : ℕ) :
    List ℕ → Heap (SNode EmptyBlock) × ListRoot × PageTables →
      Heap (SNode EmptyBlock) × ListRoot × PageTables
  | [], st => st
  | k :: ks, (h, r, t) =>
    let h₁ := h.alloc ⟨⟨j, k, 0⟩, none⟩
    let st := if k = i then (h₁, { r with head := some h.brk, tail := some h.brk })
      else match r.tail with
        | none => (h₁, r)
        | some p => (h₁.modify p (SNode.link (some h.brk)), { r with tail := some h.brk })
    initEmptyBlocks i j ks (st.1, st.2, updateBlockState g j k .emptyBlock t)

/-- The block numbers `i, i + PLANES_PER_FLASH, ...` below `BLOCK_NB`. -/
def planeBlocks (i : ℕ) : List ℕ :=
  List.range' i ((g.blockNb - i + (g.planesPerFlash - 1)) / g.planesPerFlash) g.planesPerFlash

/-- A fresh `INIT_EMPTY_BLOCK_LIST`: one list per plane `i` and chip `j`, its count set to
`EACH_EMPTY_TABLE_ENTRY_NB` whatever its length. -/
def initEmptyBlockList (t : PageTables) :
    Heap (SNode EmptyBlock) × (ℕ → ListRoot) × PageTables :=
  (List.range g.planesPerFlash).foldl
    (fun st i => (List.range g.flashNb).foldl
      (fun (h, roots, t) j =>
        let (h, r, t) := initEmptyBlocks g i j (planeBlocks g i) (h, ⟨none, none, 0⟩, t)
        (h, Function.update roots (i * g.flashNb + j) { r with count := g.eachEmptyTableEntryNb },
          t)) st)
    (Heap.empty, fun _ => ⟨none, none, 0⟩, t)

/-- `FTL_INIT` with no saved state: nothing mapped, every block erased and on its empty list,
no victims. -/
def ftlInit : Ftl :=
  let t : PageTables :=
    { mappingTable := fun _ => -1
      inverseMappingTable := fun _ => -1
      blockStateTable := fun _ => ⟨0, .emptyBlock, fun _ => .nul⟩ }
  let (h, roots, t) := initEmptyBlockList g t
  { tables := t
    lists :=
      { emptyHeap := h
        emptyBlockList := roots
        victimHeap := Heap.empty
        victimBlockList := fun _ => ⟨none, none, 0⟩
        totalEmptyBlockNb := g.blockMappingEntryNb
        totalVictimBlockNb := 0
        emptyBlockTableIndex := 0 }
    gcCount := 0
    failCnt := 0 }

end Vssim
