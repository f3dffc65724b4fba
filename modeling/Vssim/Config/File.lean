import Vssim.Ftl.Cursor
import Vssim.Library.Scan

/-!
# The configuration file

`INIT_SSD_CONFIG` (`vssim_config_manager.c`) reads `ssd.conf` word by word: a keyword is followed
by its value, anything else is skipped. It then checks three of the values and computes the sizes
that the rest of the simulator uses. The monitor reads the same file with a reader of its own
(`Form1::init_var`, `form1.ui.h`).

A file is given by its entries: what is read depends only on the words of the text, not on white
space (`readConfig_eq`). From there, a file that describes a geometry is accepted and leaves the
sizes of that geometry (`initSsdConfig_geometry`), and the monitor agrees with the simulator on the
values that it reads (`initVar_agrees`).
-/

namespace Vssim

open Scan

/-! ### Conversions -/

/-- Conversion of an integer to `int64_t`. -/
def toI64 (x : ℤ) : ℤ := x.bmod (2 ^ 64)

/-- `%lld`: the number, or the nearest `long long` if it is too large. -/
def scanLong (z : ℤ) : ℤ := if z < -2 ^ 63 then -2 ^ 63 else if 2 ^ 63 ≤ z then 2 ^ 63 - 1 else z

/-- `%d`: the number as a `long`, stored as an `int`. -/
def scanInt (z : ℤ) : ℤ := toI32 (scanLong z)

/-- `%u`: the number as an `unsigned long`, the largest one if it is too large, stored as an
`unsigned int`. -/
def scanUnsigned (z : ℤ) : ℤ := toU32 (if -2 ^ 64 < z ∧ z < 2 ^ 64 then z else 2 ^ 64 - 1)

private theorem toI32_eq_self {x : ℤ} (h : -2 ^ 31 ≤ x) (h' : x < 2 ^ 31) : toI32 x = x := by
  rw [toI32]
  exact Int.bmod_eq_of_le (by omega) (by omega)

private theorem toI64_eq_self {x : ℤ} (h : 0 ≤ x) (h' : x < 2 ^ 63) : toI64 x = x :=
  Int.bmod_eq_of_le (by omega) (by omega)

theorem scanLong_eq {z : ℤ} (h : -2 ^ 63 ≤ z) (h' : z < 2 ^ 63) : scanLong z = z := by
  rw [scanLong, if_neg (by omega), if_neg (by omega)]

private theorem scanInt_eq {z : ℤ} (h : -2 ^ 31 ≤ z) (h' : z < 2 ^ 31) : scanInt z = z := by
  rw [scanInt, scanLong_eq (by omega) (by omega), toI32_eq_self h h']

private theorem scanUnsigned_eq {z : ℤ} (h : 0 ≤ z) (h' : z < 2 ^ 32) : scanUnsigned z = z := by
  rw [scanUnsigned, if_pos (by omega), toU32_of_nonneg h h']

/-! ### Keywords -/

/-- The switches of `common.h` that add keywords and checks. -/
structure Build where
  ftlMapCache : Bool
  firmIoBuffer : Bool
  hostQueue : Bool

/-- The keywords with a number. -/
inductive ConfigKey
  | pageSize
  | pageNb
  | sectorSize
  | flashNb
  | blockNb
  | planesPerFlash
  | regWriteDelay
  | cellProgramDelay
  | regReadDelay
  | cellReadDelay
  | blockEraseDelay
  | channelSwitchDelayR
  | channelSwitchDelayW
  | dsmTrimEnable
  | ioParallelism
  | channelNb
  | ovp
  | cacheIdxSize
  | writeBufferFrameNb
  | readBufferFrameNb
  | hostQueueEntryNb
  deriving DecidableEq

namespace ConfigKey

/-- The keyword as it stands in the file. -/
def name : ConfigKey → String
  | pageSize => "PAGE_SIZE"
  | pageNb => "PAGE_NB"
  | sectorSize => "SECTOR_SIZE"
  | flashNb => "FLASH_NB"
  | blockNb => "BLOCK_NB"
  | planesPerFlash => "PLANES_PER_FLASH"
  | regWriteDelay => "REG_WRITE_DELAY"
  | cellProgramDelay => "CELL_PROGRAM_DELAY"
  | regReadDelay => "REG_READ_DELAY"
  | cellReadDelay => "CELL_READ_DELAY"
  | blockEraseDelay => "BLOCK_ERASE_DELAY"
  | channelSwitchDelayR => "CHANNEL_SWITCH_DELAY_R"
  | channelSwitchDelayW => "CHANNEL_SWITCH_DELAY_W"
  | dsmTrimEnable => "DSM_TRIM_ENABLE"
  | ioParallelism => "IO_PARALLELISM"
  | channelNb => "CHANNEL_NB"
  | ovp => "OVP"
  | cacheIdxSize => "CACHE_IDX_SIZE"
  | writeBufferFrameNb => "WRITE_BUFFER_FRAME_NB"
  | readBufferFrameNb => "READ_BUFFER_FRAME_NB"
  | hostQueueEntryNb => "HOST_QUEUE_ENTRY_NB"

/-- All keywords, in the order in which `INIT_SSD_CONFIG` compares them. -/
def all : List ConfigKey :=
  [pageSize, pageNb, sectorSize, flashNb, blockNb, planesPerFlash, regWriteDelay, cellProgramDelay,
    regReadDelay, cellReadDelay, blockEraseDelay, channelSwitchDelayR, channelSwitchDelayW,
    dsmTrimEnable, ioParallelism, channelNb, ovp, cacheIdxSize, writeBufferFrameNb,
    readBufferFrameNb, hostQueueEntryNb]

/-- The keyword is compiled in. -/
def enabled (build : Build) : ConfigKey → Bool
  | cacheIdxSize => build.ftlMapCache
  | writeBufferFrameNb | readBufferFrameNb => build.firmIoBuffer
  | hostQueueEntryNb => build.hostQueue
  | _ => true

/-- The value is read with `%u`. -/
def isUnsigned : ConfigKey → Bool
  | writeBufferFrameNb | readBufferFrameNb | hostQueueEntryNb => true
  | _ => false

/-- The conversion of the value. -/
def convert (k : ConfigKey) (z : ℤ) : ℤ := if k.isUnsigned then scanUnsigned z else scanInt z

/-- The value fits into the variable. -/
def InRange (k : ConfigKey) (z : ℤ) : Prop :=
  if k.isUnsigned then 0 ≤ z ∧ z < 2 ^ 32 else -2 ^ 31 ≤ z ∧ z < 2 ^ 31

private theorem convert_eq {k : ConfigKey} {z : ℤ} (h : k.InRange z) : k.convert z = z := by
  rw [convert]
  rw [InRange] at h
  split
  · next hk =>
    rw [if_pos hk] at h
    exact scanUnsigned_eq h.1 h.2
  · next hk =>
    rw [if_neg hk] at h
    exact scanInt_eq h.1 h.2

/-- The keyword that a word is. -/
def ofWord (build : Build) (w : List Char) : Option ConfigKey :=
  all.find? fun k => k.enabled build && k.name.toList == w

private theorem mem_all (k : ConfigKey) : k ∈ all := by cases k <;> decide

private theorem name_inj {k k' : ConfigKey} (h : k.name.toList = k'.name.toList) : k = k' := by
  have hall : ∀ k ∈ all, ∀ k' ∈ all, k.name.toList = k'.name.toList → k = k' := by decide
  exact hall k k.mem_all k' k'.mem_all h

private theorem ofWord_name {build : Build} {k : ConfigKey} (h : k.enabled build = true) :
    ofWord build k.name.toList = some k := by
  cases hfind : ofWord build k.name.toList with
  | none =>
    have hnone := List.find?_eq_none.mp hfind k k.mem_all
    simp [h] at hnone
  | some k' =>
    have hk' := List.find?_some hfind
    simp only [Bool.and_eq_true, beq_iff_eq] at hk'
    rw [name_inj hk'.2]

end ConfigKey

/-! ### Reading the file -/

/-- The globals that are read from the file. -/
structure Globals where
  num : ConfigKey → ℤ
  fileNameHda : List Char
  fileNameHdb : List Char

/-- Globals start as zeros. -/
def Globals.zero : Globals := ⟨fun _ => 0, [], []⟩

/-- Assign a number. -/
def Globals.set (s : Globals) (k : ConfigKey) (z : ℤ) : Globals :=
  { s with num := Function.update s.num k z }

/-- The size of `szCommand`, `FILE_NAME_HDA` and `FILE_NAME_HDB`. -/
def commandSize : ℕ := 1024

/-- `fscanf(pfData, "%s", buffer)` for a buffer with `commandSize` characters: a longer word
overflows it. At the end of the file the buffer keeps its contents. -/
def scanName (rest old : List Char) : Option (List Char × List Char) :=
  match str rest with
  | none => some (old, [])
  | some (w, rest') => if w.length < commandSize then some (w, rest') else none

/-- `fscanf(pfData, "%d", &variable)`, or with `%u`. The variable keeps its value if there is no
number. -/
def scanNumber (k : ConfigKey) (rest : List Char) (s : Globals) : Globals × List Char :=
  match number rest with
  | (some z, rest') => (s.set k (k.convert z), rest')
  | (none, rest') => (s, rest')

/-- The body of the loop of `INIT_SSD_CONFIG`, for the word `szCommand`. -/
def configCommand (build : Build) (szCommand rest : List Char) (s : Globals) :
    Option (Globals × List Char) :=
  if commandSize ≤ szCommand.length then none
  else if szCommand = "FILE_NAME_HDA".toList then
    (scanName rest s.fileNameHda).map fun x => ({ s with fileNameHda := x.1 }, x.2)
  else if szCommand = "FILE_NAME_HDB".toList then
    (scanName rest s.fileNameHdb).map fun x => ({ s with fileNameHdb := x.1 }, x.2)
  else match ConfigKey.ofWord build szCommand with
    | some k => some (scanNumber k rest s)
    | none => some (s, rest)

/-- The loop of `INIT_SSD_CONFIG`; there is no result if a word overflows its buffer. -/
def readConfig (build : Build) (text : List Char) (s : Globals) : Option Globals :=
  readAll (configCommand build) (text.length + 1) text s

/-- An entry of a file: a number, a file name, or a word that is no keyword. -/
inductive ConfigEntry
  | num (k : ConfigKey) (z : ℤ)
  | fileNameHda (name : List Char)
  | fileNameHdb (name : List Char)
  | other (w : List Char)

namespace ConfigEntry

/-- The words of an entry. -/
def words : ConfigEntry → List (List Char)
  | num k z => [k.name.toList, numeral z]
  | fileNameHda name => ["FILE_NAME_HDA".toList, name]
  | fileNameHdb name => ["FILE_NAME_HDB".toList, name]
  | other w => [w]

/-- What an entry sets. -/
def assign : ConfigEntry → Globals → Globals
  | num k z, s => s.set k z
  | fileNameHda name, s => { s with fileNameHda := name }
  | fileNameHdb name, s => { s with fileNameHdb := name }
  | other _, s => s

/-- The entry can be read by this build: its keyword is compiled in, its value fits. -/
def Ok (build : Build) : ConfigEntry → Prop
  | num k z => k.enabled build = true ∧ k.InRange z
  | fileNameHda name | fileNameHdb name => name.length < commandSize
  | other w => w.length < commandSize ∧ w ≠ "FILE_NAME_HDA".toList ∧ w ≠ "FILE_NAME_HDB".toList ∧
      ConfigKey.ofWord build w = none

end ConfigEntry

private theorem ConfigKey.length_name (k : ConfigKey) : k.name.toList.length < commandSize := by
  cases k <;> decide

/-- A file name is read as it stands. -/
private theorem scanName_eq {rest rest' old w : List Char} (h : str rest = some (w, rest'))
    (hw : w.length < commandSize) : scanName rest old = some (w, rest') := by
  rw [scanName, h]
  exact if_pos hw

/-- One entry. -/
private theorem ConfigEntry.Ok.reads {build : Build} {e : ConfigEntry} (h : e.Ok build) :
    Consumes (configCommand build) e.words e.assign := by
  cases e with
  | num k z =>
    refine .number fun cs rest s hcs => ?_
    have hhda : k.name.toList ≠ "FILE_NAME_HDA".toList := by cases k <;> decide
    have hhdb : k.name.toList ≠ "FILE_NAME_HDB".toList := by cases k <;> decide
    rw [configCommand, if_neg (not_le.mpr k.length_name), if_neg hhda, if_neg hhdb,
      ConfigKey.ofWord_name h.1]
    simp only [scanNumber, hcs, ConfigKey.convert_eq h.2, assign]
  | fileNameHda name =>
    refine .str fun cs rest s hcs => ?_
    rw [configCommand, if_neg (by decide), if_pos rfl, scanName_eq hcs h]
    rfl
  | fileNameHdb name =>
    refine .str fun cs rest s hcs => ?_
    rw [configCommand, if_neg (by decide), if_neg (by decide), if_pos rfl, scanName_eq hcs h]
    rfl
  | other w =>
    obtain ⟨hlen, hhda, hhdb, hw⟩ := h
    refine .word fun rest s => ?_
    rw [configCommand, if_neg (not_le.mpr hlen), if_neg hhda, if_neg hhdb, hw]
    rfl

/-- The globals after the entries of a file; of several values of a variable the last one stays. -/
def configure (entries : List ConfigEntry) (s : Globals) : Globals :=
  entries.foldl (fun s e => e.assign s) s

/-- **Reading a file.** Whatever the white space, a file is read entry by entry. -/
theorem readConfig_eq {build : Build} {text : List Char} {entries : List ConfigEntry}
    (hok : ∀ e ∈ entries, e.Ok build) (htext : Scan.words text = entries.flatMap ConfigEntry.words)
    (s : Globals) : readConfig build text s = some (configure entries s) :=
  readAll_eq (fun e he => (hok e he).reads) htext (Nat.lt_succ_self _) s

/-! ### The sizes -/

/-- The sizes that `INIT_SSD_CONFIG` computes for the page-mapping FTL. -/
structure Sizes where
  sectorsPerPage : ℤ
  pagesPerFlash : ℤ
  sectorNb : ℤ
  wayNb : ℤ
  blockMappingEntryNb : ℤ
  pagesInSsd : ℤ
  pageMappingEntryNb : ℤ
  eachEmptyTableEntryNb : ℤ
  emptyTableEntryNb : ℤ
  victimTableEntryNb : ℤ
  dataBlockNb : ℤ
  gcVictimNb : ℤ
  /-- `MAP_ENTRIES_PER_PAGE` and `MAP_ENTRY_NB`, in builds with the map cache. -/
  mapEntriesPerPage : ℤ
  mapEntryNb : ℤ
  deriving DecidableEq

/-- Globals start as zeros. -/
def Sizes.zero : Sizes := ⟨0, 0, 0, 0, 0, 0, 0, 0, 0, 0, 0, 0, 0, 0⟩

/-- The messages of `INIT_SSD_CONFIG`, each with the number that it prints. -/
inductive ConfigError
  | wrongChannelNb (channelNb : ℤ)
  | wrongPlanesPerFlash (planesPerFlash : ℤ)
  | wrongIoBuffer
  deriving DecidableEq

/-- How `INIT_SSD_CONFIG` can go wrong. -/
inductive ConfigFault
  | bufferOverflow
  | divisionByZero
  deriving DecidableEq

/-- The exception handler. -/
def checkConfig (build : Build) (s : Globals) : Option ConfigError :=
  if s.num .flashNb < s.num .channelNb then some (.wrongChannelNb (s.num .channelNb))
  else if s.num .planesPerFlash ≠ 1 ∧ (s.num .planesPerFlash).tmod 2 ≠ 0 then
    some (.wrongPlanesPerFlash (s.num .planesPerFlash))
  else if build.firmIoBuffer ∧ (s.num .writeBufferFrameNb = 0 ∨ s.num .readBufferFrameNb = 0) then
    some .wrongIoBuffer
  else none

/-- Division of C integers. -/
def cDiv (a b : ℤ) : Except ConfigFault ℤ :=
  if b = 0 then .error .divisionByZero else .ok (a.tdiv b)

/-- The sizes for the map cache. A map entry is an `int32_t`. -/
def computeMapSizes (build : Build) (pageSize pageMappingEntryNb : ℤ) :
    Except ConfigFault (ℤ × ℤ) :=
  if build.ftlMapCache then
    let mapEntriesPerPage : ℤ := toU32 pageSize / 4
    (cDiv pageMappingEntryNb mapEntriesPerPage).map fun q => (mapEntriesPerPage, (toU32 q : ℤ))
  else .ok (0, 0)

/-- The computation of the sizes. -/
def computeSizes (build : Build) (s : Globals) : Except ConfigFault Sizes := do
  let sectorsPerPage ← cDiv (s.num .pageSize) (s.num .sectorSize)
  let wayNb ← cDiv (s.num .flashNb) (s.num .channelNb)
  let eachEmptyTableEntryNb ← cDiv (s.num .blockNb) (s.num .planesPerFlash)
  let gcVictimNb := if s.num .ovp ≠ 0 then
      ((toI32 (toI32 (s.num .flashNb * s.num .blockNb) * s.num .ovp)).tdiv 100).tdiv 2
    else 20
  let pageMappingEntryNb := toI64 (s.num .pageNb * s.num .blockNb * s.num .flashNb)
  let mapSizes ← computeMapSizes build (s.num .pageSize) pageMappingEntryNb
  .ok
    { sectorsPerPage := toI32 sectorsPerPage
      pagesPerFlash := toI32 (s.num .pageNb * s.num .blockNb)
      sectorNb := toI64 (toI32 sectorsPerPage * s.num .pageNb * s.num .blockNb * s.num .flashNb)
      wayNb := toI32 wayNb
      blockMappingEntryNb := toI64 (s.num .blockNb * s.num .flashNb)
      pagesInSsd := toI64 (s.num .pageNb * s.num .blockNb * s.num .flashNb)
      pageMappingEntryNb
      eachEmptyTableEntryNb
      emptyTableEntryNb := toI32 (s.num .flashNb * s.num .planesPerFlash)
      victimTableEntryNb := toI32 (s.num .flashNb * s.num .planesPerFlash)
      dataBlockNb := s.num .blockNb
      gcVictimNb
      mapEntriesPerPage := mapSizes.1
      mapEntryNb := mapSizes.2 }

/-- `INIT_SSD_CONFIG` for a file, if it could be opened: the globals, and the message that it has
printed. After a message it returns and leaves the sizes. -/
def initSsdConfig (build : Build) (file : Option (List Char)) (s : Globals) (sizes : Sizes) :
    Except ConfigFault (Globals × Sizes × Option ConfigError) := do
  let s ← match file with
    | some text => match readConfig build text s with
      | some s => .ok s
      | none => .error .bufferOverflow
    | none => .ok s
  match checkConfig build s with
  | some e => .ok (s, sizes, some e)
  | none => do
    let sizes ← computeSizes build s
    .ok (s, sizes, none)

variable {build : Build} {s : Globals} {g : Geometry} {channels : ℕ}

/-- The values of a file describe the geometry, with so many channels, and the products fit into
their variables. -/
structure Describes (build : Build) (s : Globals) (g : Geometry) (channels : ℕ) : Prop where
  sectorSize : 0 < s.num .sectorSize
  pageSize : s.num .pageSize = g.sectorsPerPage * s.num .sectorSize
  pageNb : s.num .pageNb = g.pageNb
  blockNb : s.num .blockNb = g.blockNb
  flashNb : s.num .flashNb = g.flashNb
  planesPerFlash : s.num .planesPerFlash = g.planesPerFlash
  channelNb : s.num .channelNb = channels
  channels_pos : 0 < channels
  channels_le : channels ≤ g.flashNb
  planes : g.planesPerFlash = 1 ∨ 2 ∣ g.planesPerFlash
  buffers : build.firmIoBuffer = true →
    s.num .writeBufferFrameNb ≠ 0 ∧ s.num .readBufferFrameNb ≠ 0
  /-- A map entry fits into a page. -/
  maps : build.ftlMapCache = true → 4 ≤ s.num .pageSize ∧ g.pageMappingEntryNb < 2 ^ 32
  gcVictimNb : (g.gcVictimNb : ℤ) =
    if s.num .ovp = 0 then 20 else g.flashNb * g.blockNb * s.num .ovp / 100 / 2
  ovp : 0 ≤ g.flashNb * g.blockNb * s.num .ovp ∧ g.flashNb * g.blockNb * s.num .ovp < 2 ^ 31
  pageSize_lt : s.num .pageSize < 2 ^ 31
  blocks_lt : g.flashNb * g.blockNb < 2 ^ 31
  pages_lt : g.pagesPerFlash < 2 ^ 31
  lists_lt : g.emptyTableEntryNb < 2 ^ 31
  sectors_lt : g.sectorNb < 2 ^ 63

/-- The sizes of the geometry. -/
def Geometry.sizes (g : Geometry) (channels : ℕ) (mapEntriesPerPage : ℤ) : Sizes where
  sectorsPerPage := g.sectorsPerPage
  pagesPerFlash := g.pagesPerFlash
  sectorNb := g.sectorNb
  wayNb := g.flashNb / channels
  blockMappingEntryNb := g.blockMappingEntryNb
  pagesInSsd := g.pageMappingEntryNb
  pageMappingEntryNb := g.pageMappingEntryNb
  eachEmptyTableEntryNb := g.eachEmptyTableEntryNb
  emptyTableEntryNb := g.emptyTableEntryNb
  victimTableEntryNb := g.emptyTableEntryNb
  dataBlockNb := g.blockNb
  gcVictimNb := g.gcVictimNb
  mapEntriesPerPage := mapEntriesPerPage
  mapEntryNb := g.pageMappingEntryNb / mapEntriesPerPage

private theorem cDiv_natCast (a : ℕ) {b : ℕ} (hb : 0 < b) : cDiv a b = .ok (a / b : ℕ) := by
  rw [cDiv, if_neg (by omega), Int.tdiv_eq_ediv_of_nonneg (by omega)]
  rfl

private theorem toI32_natCast {n : ℕ} (h : n < 2 ^ 31) : toI32 n = n :=
  toI32_of_bounds (by omega) (by omega)

private theorem toI64_natCast {n : ℕ} (h : n < 2 ^ 63) :
    toI64 n = n := toI64_eq_self (by omega) (by omega)

namespace Describes

/-- The exception handler lets the file pass. -/
private theorem check (h : Describes build s g channels) : checkConfig build s = none := by
  have hchannels := h.channels_le
  have hplanes := h.planes
  rw [checkConfig, h.flashNb, h.channelNb, h.planesPerFlash, if_neg (by omega), if_neg, if_neg]
  · rintro ⟨hbuild, hbuffers⟩
    have hne := h.buffers hbuild
    exact hbuffers.elim hne.1 hne.2
  · rintro ⟨hne, hodd⟩
    rw [Int.tmod_eq_emod_of_nonneg (by omega)] at hodd
    omega

/-- `MAP_ENTRIES_PER_PAGE`. -/
def mapEntriesPerPage (build : Build) (s : Globals) : ℤ :=
  if build.ftlMapCache then s.num .pageSize / 4 else 0

private theorem mapSizes (h : Describes build s g channels) :
    computeMapSizes build (s.num .pageSize) g.pageMappingEntryNb =
      .ok (mapEntriesPerPage build s, g.pageMappingEntryNb / mapEntriesPerPage build s) := by
  rw [computeMapSizes, mapEntriesPerPage]
  split
  · next hbuild =>
    obtain ⟨hsize, hmaps⟩ := h.maps hbuild
    have hlt := h.pageSize_lt
    obtain ⟨m, hm⟩ : ∃ m : ℕ, s.num .pageSize / 4 = m := Int.eq_ofNat_of_zero_le (by omega)
    have hpos : 0 < m := by omega
    have hquot : g.pageMappingEntryNb / m ≤ g.pageMappingEntryNb := Nat.div_le_self _ _
    rw [toU32_of_nonneg (by omega) (by omega), hm]
    dsimp only
    rw [cDiv_natCast _ hpos, Except.map, toU32_of_nonneg (Int.natCast_nonneg _)
      (by exact_mod_cast hquot.trans_lt hmaps), Int.natCast_ediv]
  · simp

/-- The products that become sizes. -/
private theorem products (h : Describes build s g channels) :
    toI32 (s.num .pageNb * s.num .blockNb) = g.pagesPerFlash ∧
    toI64 (g.sectorsPerPage * s.num .pageNb * s.num .blockNb * s.num .flashNb) = g.sectorNb ∧
    toI64 (s.num .blockNb * s.num .flashNb) = g.blockMappingEntryNb ∧
    toI64 (s.num .pageNb * s.num .blockNb * s.num .flashNb) = g.pageMappingEntryNb ∧
    toI32 (s.num .flashNb * s.num .planesPerFlash) = g.emptyTableEntryNb := by
  have hpages : g.pageMappingEntryNb ≤ g.sectorNb := by
    rw [Geometry.pageMappingEntryNb, Geometry.sectorNb, Nat.mul_assoc, Nat.mul_assoc, Nat.mul_assoc]
    exact Nat.le_mul_of_pos_left _ g.sectorsPerPage_pos
  have hblocks : g.blockMappingEntryNb ≤ g.pageMappingEntryNb := by
    rw [Geometry.blockMappingEntryNb, Geometry.pageMappingEntryNb, Nat.mul_assoc]
    exact Nat.le_mul_of_pos_left _ g.pageNb_pos
  have hpages_lt := hpages.trans_lt h.sectors_lt
  simp only [h.pageNb, h.blockNb, h.flashNb, h.planesPerFlash, ← Int.natCast_mul]
  exact ⟨toI32_natCast h.pages_lt, toI64_natCast h.sectors_lt,
    toI64_natCast (hblocks.trans_lt hpages_lt), toI64_natCast hpages_lt, toI32_natCast h.lists_lt⟩

private theorem victims (h : Describes build s g channels) :
    (if s.num .ovp ≠ 0 then
      ((toI32 (toI32 (s.num .flashNb * s.num .blockNb) * s.num .ovp)).tdiv 100).tdiv 2
    else 20) = (g.gcVictimNb : ℤ) := by
  obtain ⟨hovp, hovp_lt⟩ := h.ovp
  have hblocks : toI32 (s.num .flashNb * s.num .blockNb) = g.flashNb * g.blockNb := by
    rw [h.flashNb, h.blockNb, ← Int.natCast_mul, toI32_natCast h.blocks_lt]
  rw [hblocks, toI32_of_bounds hovp hovp_lt, Int.tdiv_eq_ediv_of_nonneg hovp,
    Int.tdiv_eq_ediv_of_nonneg (by omega), h.gcVictimNb]
  split <;> simp_all

/-- The sizes are those of the geometry. -/
private theorem sizes (h : Describes build s g channels) :
    computeSizes build s = .ok (g.sizes channels (mapEntriesPerPage build s)) := by
  have hsector := h.sectorSize
  have hspp : cDiv (s.num .pageSize) (s.num .sectorSize) = .ok g.sectorsPerPage := by
    rw [h.pageSize, cDiv, if_neg (by omega), Int.mul_tdiv_cancel _ (by omega)]
  have hway : cDiv (s.num .flashNb) (s.num .channelNb) = .ok (g.flashNb / channels : ℕ) := by
    rw [h.flashNb, h.channelNb, cDiv_natCast _ h.channels_pos]
  have hway_lt : g.flashNb / channels < 2 ^ 31 := by
    have hle : g.flashNb / channels ≤ g.flashNb := Nat.div_le_self _ _
    have hflash : g.flashNb ≤ g.flashNb * g.blockNb := Nat.le_mul_of_pos_right _ g.blockNb_pos
    have hblocks := h.blocks_lt
    omega
  have heach : cDiv (s.num .blockNb) (s.num .planesPerFlash) = .ok g.eachEmptyTableEntryNb := by
    rw [h.blockNb, h.planesPerFlash, cDiv_natCast _ g.planesPerFlash_pos]
    rfl
  obtain ⟨hpages, hsectors, hblocks, hmapping, hlists⟩ := h.products
  simp only [computeSizes, hspp, hway, heach, bind, Except.bind, toI32_natCast g.sectorsPerPage_lt,
    toI32_natCast hway_lt, hpages, hsectors, hblocks, hmapping, hlists, h.victims, h.mapSizes]
  rw [h.blockNb, Int.natCast_ediv]
  rfl

end Describes

/-- **A file that describes a geometry** is accepted, whatever its white space, the order of its
entries, words that are no keywords and values that later ones replace, and the sizes are those of
the geometry. -/
theorem initSsdConfig_geometry {text : List Char} {entries : List ConfigEntry}
    (hok : ∀ e ∈ entries, e.Ok build) (htext : Scan.words text = entries.flatMap ConfigEntry.words)
    (hg : Describes build (configure entries .zero) g channels) (sizes : Sizes) :
    initSsdConfig build (some text) .zero sizes = .ok (configure entries .zero,
      g.sizes channels (Describes.mapEntriesPerPage build (configure entries .zero)), none) := by
  simp only [initSsdConfig, readConfig_eq hok htext, bind, Except.bind, hg.check, hg.sizes]

/-- The lines of `CONFIG/ssd.conf`. -/
def ssdConfLines : List String :=
  ["PAGE_SIZE\t\t\t4096", "PAGE_NB\t\t\t\t256", "SECTOR_SIZE\t\t\t512", "FLASH_NB\t\t\t20",
    "BLOCK_NB\t\t\t128", "PLANES_PER_FLASH\t\t1", "", "LOG_RAND_BLOCK_NB\t\t0",
    "LOG_SEQ_BLOCK_NB\t\t0", "", "REG_WRITE_DELAY\t\t\t82", "CELL_PROGRAM_DELAY\t\t940",
    "REG_READ_DELAY\t\t\t82", "CELL_READ_DELAY\t\t\t140\t", "BLOCK_ERASE_DELAY\t\t2000", "",
    "CHANNEL_SWITCH_DELAY_R\t\t16", "CHANNEL_SWITCH_DELAY_W\t\t33", "", "IO_PARALLELISM\t\t\t0",
    "", "WRITE_BUFFER_FRAME_NB           2048", "READ_BUFFER_FRAME_NB            2048",
    "CACHE_IDX_SIZE\t\t\t10", "", "CHANNEL_NB\t\t\t10", "OVP\t\t\t\t0", ""]

/-- The text of `CONFIG/ssd.conf`. -/
def ssdConf : List Char := ssdConfLines.flatMap fun line => line.toList ++ ['\n']

/-- Its entries, for a build without the map cache. -/
def ssdConfEntries : List ConfigEntry :=
  [.num .pageSize 4096, .num .pageNb 256, .num .sectorSize 512, .num .flashNb 20,
    .num .blockNb 128, .num .planesPerFlash 1, .other "LOG_RAND_BLOCK_NB".toList, .other ['0'],
    .other "LOG_SEQ_BLOCK_NB".toList, .other ['0'], .num .regWriteDelay 82,
    .num .cellProgramDelay 940, .num .regReadDelay 82, .num .cellReadDelay 140,
    .num .blockEraseDelay 2000, .num .channelSwitchDelayR 16, .num .channelSwitchDelayW 33,
    .num .ioParallelism 0, .num .writeBufferFrameNb 2048, .num .readBufferFrameNb 2048,
    .other "CACHE_IDX_SIZE".toList, .other "10".toList, .num .channelNb 10, .num .ovp 0]

private theorem words_ssdConf : Scan.words ssdConf = ssdConfEntries.flatMap ConfigEntry.words := by
  decide +kernel

instance ConfigKey.decidableInRange (k : ConfigKey) (z : ℤ) : Decidable (k.InRange z) :=
  inferInstanceAs (Decidable
    (if k.isUnsigned then 0 ≤ z ∧ z < 2 ^ 32 else -2 ^ 31 ≤ z ∧ z < 2 ^ 31))

instance ConfigEntry.decidableOk (build : Build) : DecidablePred (ConfigEntry.Ok build)
  | .num k z => inferInstanceAs (Decidable (k.enabled build = true ∧ k.InRange z))
  | .fileNameHda name | .fileNameHdb name =>
    inferInstanceAs (Decidable (name.length < commandSize))
  | .other w => inferInstanceAs (Decidable (w.length < commandSize ∧
      w ≠ "FILE_NAME_HDA".toList ∧ w ≠ "FILE_NAME_HDB".toList ∧ ConfigKey.ofWord build w = none))

/-- A build with the buffers of the firmware. -/
def bufferBuild : Build := ⟨false, true, false⟩

private theorem ssdConf_ok : ∀ e ∈ ssdConfEntries, e.Ok bufferBuild := by decide +kernel

/-- The device of `CONFIG/ssd.conf`: 20 chips with 128 blocks of 256 pages. -/
def ssdConfDevice : Geometry where
  sectorsPerPage := 8
  pageNb := 256
  blockNb := 128
  flashNb := 20
  planesPerFlash := 1
  gcVictimNb := 20
  writeNoparal := false
  gcVictimOverall := true
  sectorsPerPage_pos := Nat.succ_pos 7
  sectorsPerPage_lt := Nat.pow_lt_pow_right (m := 3) Nat.one_lt_two (by decide)
  pageNb_pos := Nat.succ_pos 255
  blockNb_pos := Nat.succ_pos 127
  flashNb_pos := Nat.succ_pos 19
  planesPerFlash_pos := Nat.one_pos

/-- The file that comes with the simulator. -/
theorem initSsdConfig_geometry_ssdConf :
    initSsdConfig bufferBuild (some ssdConf) .zero .zero =
      .ok (configure ssdConfEntries .zero, ssdConfDevice.sizes 10 0, none) := by
  refine initSsdConfig_geometry ssdConf_ok words_ssdConf ?_ .zero
  constructor <;> decide +kernel

/-! ### The reader of the monitor -/

/-- The keywords that `Form1::init_var` knows, in the order of its comparisons. -/
def monitorKeys : List ConfigKey := [.flashNb, .planesPerFlash, .cellProgramDelay]

/-- The body of the loop of `Form1::init_var`. The monitor has variables of the same names. -/
def initVarCommand (szCommand rest : List Char) (s : Globals) : Option (Globals × List Char) :=
  if commandSize ≤ szCommand.length then none
  else match monitorKeys.find? fun k => k.name.toList == szCommand with
    | some k => some (scanNumber k rest s)
    | none => some (s, rest)

/-- The loop of `Form1::init_var`. `CELL_PROGRAM_DELAY` is a member of the form that nothing
initialises, so the variables of the monitor start with values of their own. -/
def initVar (text : List Char) (s : Globals) : Option Globals :=
  readAll initVarCommand (text.length + 1) text s

/-- What the monitor takes from an entry. -/
def ConfigEntry.monitorAssign : ConfigEntry → Globals → Globals
  | num k z, s => if k ∈ monitorKeys then s.set k z else s
  | _, s => s

/-- A word that the monitor skips. -/
def Skipped (w : List Char) : Prop := w.length < commandSize ∧ ∀ k ∈ monitorKeys, w ≠ k.name.toList

private theorem Skipped.consumes {w : List Char} (h : Skipped w) :
    Consumes initVarCommand [w] id := by
  refine .word fun rest s => ?_
  have hfind : (monitorKeys.find? fun k => k.name.toList == w) = none := by
    refine List.find?_eq_none.mpr fun k hk => ?_
    simpa using (h.2 k hk).symm
  rw [initVarCommand, if_neg (not_le.mpr h.1), hfind]
  rfl

/-- Every build knows the keywords of the monitor. -/
private theorem ofWord_monitorKey {k : ConfigKey} (hk : k ∈ monitorKeys) :
    ConfigKey.ofWord build k.name.toList = some k := by
  refine ConfigKey.ofWord_name ?_
  simp only [monitorKeys, List.mem_cons, List.not_mem_nil, or_false] at hk
  rcases hk with rfl | rfl | rfl <;> rfl

/-- The keywords that only the simulator knows. -/
private theorem ConfigKey.skipped {k : ConfigKey} (hk : k ∉ monitorKeys) :
    Skipped k.name.toList := by
  refine ⟨k.length_name, fun k' hk' hname => hk ?_⟩
  rwa [ConfigKey.name_inj hname]

/-- A value whose keyword has been skipped. -/
private theorem ConfigKey.InRange.skipped {k : ConfigKey} {z : ℤ} (h : k.InRange z) :
    Skipped (numeral z) := by
  have hbounds : -2 ^ 32 < z ∧ z < 2 ^ 32 := by
    rw [ConfigKey.InRange] at h
    split at h <;> omega
  constructor
  · have hlen : (Nat.toDigits 10 z.natAbs).length ≤ 10 := by
      rw [Nat.length_toDigits_le_iff (by decide) (by decide)]
      omega
    rw [numeral, commandSize]
    split
    · rw [List.length_cons]
      omega
    · omega
  · -- a keyword starts with a letter
    intro k' hk' hname
    have hspace : ∀ c ∈ (numeral z).head?, c = '-' ∨ c.isDigit = true := by
      intro c hc
      rw [numeral] at hc
      split at hc
      · exact .inl (Option.some.inj hc).symm
      · exact .inr (isDigit_of_mem (List.mem_of_mem_head? hc))
    rw [hname] at hspace
    simp only [monitorKeys, List.mem_cons, List.not_mem_nil, or_false] at hk'
    rcases hk' with rfl | rfl | rfl
    · exact absurd (hspace 'F' rfl) (by decide)
    · exact absurd (hspace 'P' rfl) (by decide)
    · exact absurd (hspace 'C' rfl) (by decide)

/-- One entry. -/
private theorem ConfigEntry.Ok.monitorConsumes {e : ConfigEntry} (h : e.Ok build)
    (hname : ∀ name, e = .fileNameHda name ∨ e = .fileNameHdb name →
      ∀ k ∈ monitorKeys, name ≠ k.name.toList) :
    Consumes initVarCommand e.words e.monitorAssign := by
  cases e with
  | num k z =>
    by_cases hk : k ∈ monitorKeys
    · refine .number fun cs rest s hcs => ?_
      have hfind : (monitorKeys.find? fun k' => k'.name.toList == k.name.toList) = some k := by
        simp only [monitorKeys, List.mem_cons, List.not_mem_nil, or_false] at hk
        rcases hk with rfl | rfl | rfl <;> decide
      rw [initVarCommand, if_neg (not_le.mpr k.length_name), hfind]
      simp only [scanNumber, hcs, ConfigKey.convert_eq h.2, monitorAssign, if_pos hk]
    · have hskip := (ConfigKey.skipped hk).consumes.append (ConfigKey.InRange.skipped h.2).consumes
      have hid : (num k z).monitorAssign = id ∘ id := by
        funext s
        exact if_neg hk
      rw [hid]
      exact hskip
  | fileNameHda name =>
    have hfirst : Skipped "FILE_NAME_HDA".toList := ⟨by decide, by decide⟩
    exact hfirst.consumes.append (Skipped.consumes ⟨h, hname name (.inl rfl)⟩)
  | fileNameHdb name =>
    have hfirst : Skipped "FILE_NAME_HDB".toList := ⟨by decide, by decide⟩
    exact hfirst.consumes.append (Skipped.consumes ⟨h, hname name (.inr rfl)⟩)
  | other w =>
    refine Skipped.consumes ⟨h.1, fun k hk hw => ?_⟩
    have hnone := h.2.2.2
    rw [hw, ofWord_monitorKey hk] at hnone
    cases hnone

/-- Where the two readers agree after an entry: they take the same number, or both leave the variable
as it is. -/
private theorem monitorAssign_agree {k : ConfigKey} (hk : k ∈ monitorKeys) (e : ConfigEntry)
    (s s' : Globals) : (e.monitorAssign s').num k = (e.assign s).num k ↔
      (∃ z, .num k z = e) ∨ s'.num k = s.num k := by
  cases e with
  | num k' z =>
    by_cases hk' : k = k'
    · subst hk'
      simp [ConfigEntry.monitorAssign, ConfigEntry.assign, hk, Globals.set]
    · simp only [ConfigEntry.monitorAssign, ConfigEntry.assign]
      split <;> simp [Globals.set, hk']
  | _ => simp [ConfigEntry.monitorAssign, ConfigEntry.assign]

/-- Where they agree after all entries. -/
private theorem configure_agree {k : ConfigKey} (hk : k ∈ monitorKeys) (entries : List ConfigEntry)
    (s s' : Globals) :
    (entries.foldl (fun s e => e.monitorAssign s) s').num k = (configure entries s).num k ↔
      (∃ z, .num k z ∈ entries) ∨ s'.num k = s.num k := by
  induction entries generalizing s s' with
  | nil =>
    rw [configure]
    simp
  | cons e entries ih =>
    refine (ih (e.assign s) (e.monitorAssign s')).trans ?_
    rw [monitorAssign_agree hk]
    -- an entry of the list is the first one or a later one
    simp only [List.mem_cons, exists_or]
    constructor
    · rintro (hlater | hfirst | hstart)
      · exact .inl (.inr hlater)
      · exact .inl (.inl hfirst)
      · exact .inr hstart
    · rintro ((hfirst | hlater) | hstart)
      · exact .inr (.inl hfirst)
      · exact .inl hlater
      · exact .inr (.inr hstart)

/-- **The monitor agrees with the simulator** on each value that it reads and that has an entry, for
every file that is well formed for some build and whose file names are not keywords of the monitor.
Without an entry both keep what they started with. -/
theorem initVar_agrees {text : List Char} {entries : List ConfigEntry}
    (hok : ∀ e ∈ entries, e.Ok build) (htext : Scan.words text = entries.flatMap ConfigEntry.words)
    (hnames : ∀ name, .fileNameHda name ∈ entries ∨ .fileNameHdb name ∈ entries →
      ∀ k ∈ monitorKeys, name ≠ k.name.toList) (s s' : Globals) :
    ∃ s₁ s₂, readConfig build text s = some s₁ ∧ initVar text s' = some s₂ ∧
      ∀ k ∈ monitorKeys, s₂.num k = s₁.num k ↔
        (∃ z, .num k z ∈ entries) ∨ s'.num k = s.num k := by
  have hread : initVar text s' = some (entries.foldl (fun s e => e.monitorAssign s) s') := by
    refine readAll_eq (fun e he => (hok e he).monitorConsumes ?_) htext (Nat.lt_succ_self _) s'
    rintro name (rfl | rfl)
    · exact hnames name (.inl he)
    · exact hnames name (.inr he)
  exact ⟨_, _, readConfig_eq hok htext s, hread, fun k hk => configure_agree hk entries s s'⟩

/-- The file that comes with the simulator has an entry for each of them, whatever was in the
variables of the monitor. -/
theorem initVar_agrees_ssdConf : ∃ s₁ s₂, readConfig bufferBuild ssdConf .zero = some s₁ ∧
    initVar ssdConf { Globals.zero with num := fun _ => -1 } = some s₂ ∧
    ∀ k ∈ monitorKeys, s₂.num k = s₁.num k := by
  obtain ⟨s₁, s₂, hread, hvar, hagree⟩ := initVar_agrees ssdConf_ok words_ssdConf
    (by simp [ssdConfEntries]) .zero { Globals.zero with num := fun _ => -1 }
  refine ⟨s₁, s₂, hread, hvar, fun k hk => (hagree k hk).mpr (.inl ?_)⟩
  simp only [monitorKeys, List.mem_cons, List.not_mem_nil, or_false] at hk
  rcases hk with rfl | rfl | rfl
  · exact ⟨20, by simp [ssdConfEntries]⟩
  · exact ⟨1, by simp [ssdConfEntries]⟩
  · exact ⟨940, by simp [ssdConfEntries]⟩

end Vssim
