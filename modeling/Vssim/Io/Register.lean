import Vssim.Io.Perf

/-!
# The I/O manager

`ssd_io_manager.c` in the `VSSIM_BENCH` build. An operation on a page is recorded in the register
of its plane, with the time its transfer over the channel and its cell operation start; the
delay is charged later, by whoever next uses the register or the channel. Only then is the end
of a host page reported.

Registers are numbered chip by chip. The functions that always return `SUCCESS` return only
the state.
-/

namespace Vssim

namespace Io

variable (g : Geometry) (t : IoConfig) (clk : Clock)

/-- `WAY_NB`. -/
def wayNb : ℕ := g.flashNb / t.channelNb

/-- The registers that the scans of a channel visit, in order. -/
def channelRegs (channel : ℕ) : List ℕ :=
  (List.range (wayNb g t)).flatMap fun i =>
    (List.range g.planesPerFlash).map fun j =>
      channel * g.planesPerFlash + i * t.channelNb * g.planesPerFlash + j

/-- The register of a block. -/
def regOf (flashNb blockNb : ℕ) : ℕ := flashNb * g.planesPerFlash + blockNb % g.planesPerFlash

/-! ### Overhead and request updates -/

/-- `SSD_UPDATE_IO_OVERHEAD`. -/
def ssdUpdateIoOverhead (reg : ℕ) (overheadTime : ℤ) (s : Io) : Io :=
  { s with
    ioOverhead := Function.update s.ioOverhead reg (s.ioOverhead reg + overheadTime)
    ioAllocOverhead := 0
    ioUpdateOverhead := 0 }

/-- The end of `SSD_UPDATE_IO_REQUEST`. -/
def vacate (reg : ℕ) (overhead : ℤ) (s : Io) : Io :=
  let s := ssdUpdateIoOverhead reg overhead { s with ioUpdateOverhead := overhead }
  { s with accessNb := Function.update s.accessNb reg (-1, (s.accessNb reg).2) }

/-- `SSD_UPDATE_IO_REQUEST`: report the end of the operation in a register. -/
def ssdUpdateIoRequest (reg : ℕ) (s : Io) : Io :=
  let (currTime, s) := getUsec clk s
  let time := if s.initDiffReg ≠ 0 then currTime else 0
  let (overhead, s) :=
    updateIoRequest t clk (s.accessNb reg).1 (s.accessNb reg).2 time .endTime s
  vacate reg overhead s

/-! ### Delays -/

/-- The outcome of a delay: whether it waited, the difference it started from, and the first
and the last reading. -/
structure Spent where
  waited : Bool
  diff : ℤ
  start : ℤ
  stop : ℤ

/-- What the delay functions share: read the clock, busy-wait until `delay` has passed since
`timeStamp`, less the `overhead` already spent, and read the clock again. -/
def spend (timeStamp overhead delay : ℤ) (s : Io) : Spent × Io :=
  let (start, s) := getUsec clk s
  let diff := start - timeStamp + overhead
  let s := { s with
    tick := if diff < delay then clk.wait (timeStamp + delay - overhead) s.tick else s.tick }
  let (stop, s) := getUsec clk s
  (⟨decide (diff < delay), diff, start, stop⟩, s)

/-- A delay that is reported to the performance checker. -/
def charge (reg : ℕ) (timeStamp overhead delay : ℤ) (type : PerfType) (s : Io) : Spent × Io :=
  let (d, s) := spend clk timeStamp overhead delay s
  (d, s.sendToPerfChecker (s.regIoType reg) (d.stop - d.start) type)

/-- `SSD_CH_SWITCH_DELAY`. -/
def ssdChSwitchDelay (s : Io) : Io :=
  match s.oldChannelCmd with
  | .read => (spend clk s.oldChannelTime 0 t.channelSwitchDelayR s).2
  | .write => (spend clk s.oldChannelTime 0 t.channelSwitchDelayW s).2
  | _ => s

/-- `SSD_CH_ENABLE`. -/
def ssdChEnable (channel : ℕ) (s : Io) : Io :=
  if t.channelSwitchDelayR = 0 ∧ t.channelSwitchDelayW = 0 then s
  else if s.oldChannelNb ≠ channel then ssdChSwitchDelay t clk s
  else s

/-- `SSD_REG_WRITE_DELAY`. As for the other delays, the result is whether it waited. -/
def ssdRegWriteDelay (reg : ℕ) (s : Io) : Bool × Io :=
  if s.regIoTime reg = -1 then (false, s)
  else
    let (d, s) := charge clk reg (s.regIoTime reg) 0 t.regWriteDelay .chOp s
    (d.waited, { s with regIoTime := Function.update s.regIoTime reg (-1) })

/-- `SSD_REG_READ_DELAY`. -/
def ssdRegReadDelay (reg : ℕ) (s : Io) : Bool × Io :=
  if s.regIoTime reg = -1 then (false, s)
  else
    let (d, s) := charge clk reg (s.regIoTime reg) 0 t.regReadDelay .chOp s
    let s := ssdUpdateIoRequest t clk reg s
    (d.waited,
      { s with
        regIoTime := Function.update s.regIoTime reg (-1)
        regIoCmd := Function.update s.regIoCmd reg .noop
        regIoType := Function.update s.regIoType reg .noop })

/-- `SSD_CELL_WRITE_DELAY`. -/
def ssdCellWriteDelay (reg : ℕ) (s : Io) : Bool × Io :=
  if s.cellIoTime reg = -1 then (false, s)
  else
    let (d, s) := charge clk reg (s.cellIoTime reg) (s.ioOverhead reg) t.cellProgramDelay .regOp s
    let s := { s with initDiffReg := if d.waited then d.diff else s.initDiffReg }
    let s := ssdUpdateIoRequest t clk reg s
    (d.waited,
      { s with
        cellIoTime := Function.update s.cellIoTime reg (-1)
        regIoCmd := Function.update s.regIoCmd reg .noop
        regIoType := Function.update s.regIoType reg .noop
        ioOverhead := Function.update s.ioOverhead reg 0 })

/-- `SSD_CELL_READ_DELAY`. -/
def ssdCellReadDelay (reg : ℕ) (s : Io) : Bool × Io :=
  if s.cellIoTime reg = -1 then (false, s)
  else
    let (d, s) := charge clk reg (s.cellIoTime reg) (s.ioOverhead reg) t.cellReadDelay .regOp s
    let s := { s with initDiffReg := if d.waited then d.diff else s.initDiffReg }
    (d.waited,
      { s with
        cellIoTime := Function.update s.cellIoTime reg (-1)
        ioOverhead := Function.update s.ioOverhead reg 0 })

/-- `SSD_BLOCK_ERASE_DELAY`. It takes one more reading before it starts to compare. -/
def ssdBlockEraseDelay (reg : ℕ) (s : Io) : Bool × Io :=
  if s.cellIoTime reg = -1 then (false, s)
  else
    let (start, s) := getUsec clk s
    let (d, s) := spend clk (s.cellIoTime reg) 0 t.blockEraseDelay s
    let s := s.sendToPerfChecker (s.regIoType reg) (d.stop - start) .regOp
    (d.waited,
      { s with
        cellIoTime := Function.update s.cellIoTime reg (-1)
        regIoCmd := Function.update s.regIoCmd reg .noop
        regIoType := Function.update s.regIoType reg .noop })

/-! ### Using registers and channels -/

/-- `SSD_REG_ACCESS`: finish the operation in a register. The result is that of the last delay. -/
def ssdRegAccess (reg : ℕ) (s : Io) : Bool × Io :=
  match s.regIoCmd reg with
  | .noop => (false, s)
  | .read => ssdRegReadDelay t clk reg (ssdCellReadDelay t clk reg s).2
  | .write => ssdCellWriteDelay t clk reg (ssdRegWriteDelay t clk reg s).2
  | .erase => ssdBlockEraseDelay t clk reg s
  | _ => (false, s.note [.error .regAccessCommandError])

/-- The loop of `SSD_FLASH_ACCESS` over registers of a chip. The other registers are left alone
while they work on pages of the current request. -/
def flashAccessLoop (reg : ℕ) : List ℕ → Bool × Io → Bool × Io
  | [], st => st
  | r :: rs, (ret, s) =>
    if r ≠ reg ∧ toU32 (s.accessNb r).1 = s.ioRequestSeqNb then flashAccessLoop reg rs (ret, s)
    else flashAccessLoop reg rs (ssdRegAccess t clk r s)

/-- `SSD_FLASH_ACCESS`. -/
def ssdFlashAccess (flashNb reg : ℕ) (s : Io) : Bool × Io :=
  flashAccessLoop t clk reg
    ((List.range g.planesPerFlash).map fun i => flashNb * g.planesPerFlash + i) (false, s)

/-- The access to the register of an operation, by `IO_PARALLELISM`. -/
def access (flashNb reg : ℕ) (s : Io) : Bool × Io :=
  if t.ioParallelism then ssdRegAccess t clk reg s else ssdFlashAccess g t clk flashNb reg s

/-- One register of `SSD_CH_ACCESS`: finish the transfer that is due. -/
def chAccessReg (r : ℕ) (st : Ret × Io) : Ret × Io :=
  let (now, s) := getUsec clk st.2
  if s.regIoTime r ≤ now ∧ s.regIoTime r ≠ -1 then
    match s.regIoCmd r with
    | .read => (.fail, (ssdRegReadDelay t clk r (ssdCellReadDelay t clk r s).2).2)
    | .write => (.fail, (ssdRegWriteDelay t clk r s).2)
    | _ => (st.1, s)
  else (st.1, s)

/-- `SSD_CH_ACCESS`. -/
def ssdChAccess (channel : ℕ) (s : Io) : Ret × Io :=
  (channelRegs g t channel).foldl (fun st r => chAccessReg t clk r st) (.success, s)

/-- The loop `while(ret == FAIL) ret = SSD_CH_ACCESS(channel)`, at most `fuel` rounds. -/
def chAccessLoop (channel : ℕ) : ℕ → Io → Io
  | 0, s => s.note [.error .chAccessHang]
  | fuel + 1, s =>
    match ssdChAccess g t clk channel s with
    | (.success, s) => s
    | (.fail, s) => chAccessLoop channel fuel s

/-- The wait for the channel. Every round but the last finishes a transfer of one of the registers,
so one more than there are is enough. -/
def waitForChannel (channel : ℕ) (s : Io) : Io :=
  chAccessLoop g t clk channel ((channelRegs g t channel).length + 1) s

/-! ### Recording operations -/

/-- `SSD_CH_RECORD`. -/
def ssdChRecord (channel : ℕ) (cmd : IoType) (offset : ℤ) (ret : Bool) (s : Io) : Io :=
  let s := { s with oldChannelNb := channel, oldChannelCmd := cmd }
  if cmd = .read ∧ offset ≠ 0 ∧ ret = false then
    { s with oldChannelTime := s.oldChannelTime + t.channelSwitchDelayR }
  else if cmd = .write ∧ offset ≠ 0 ∧ ret = false then
    { s with oldChannelTime := s.oldChannelTime + t.channelSwitchDelayW }
  else
    let (now, s) := getUsec clk s
    { s with oldChannelTime := now }

/-- `SSD_GET_CH_ACCESS_TIME_FOR_READ`. -/
def ssdGetChAccessTimeForRead (channel reg : ℕ) (s : Io) : ℤ :=
  (channelRegs g t channel).foldl
    (fun latestTime r =>
      let tempTime : ℤ := match s.regIoCmd r with
        | .read => s.regIoTime r + t.regReadDelay
        | .write => s.regIoTime r + t.regWriteDelay
        | _ => 0
      if latestTime < tempTime then tempTime else latestTime)
    (s.cellIoTime reg + t.cellReadDelay)

/-- `SSD_UPDATE_CH_ACCESS_TIME`: a write delays the transfers of later reads on its channel. -/
def ssdUpdateChAccessTime (channel : ℕ) (currentTime : ℤ) (s : Io) : Io :=
  { s with
    regIoTime := (channelRegs g t channel).foldl
      (fun time r =>
        if s.regIoCmd r = .read ∧ currentTime < time r
        then Function.update time r (time r + t.regWriteDelay) else time)
      s.regIoTime }

/-- The register takes up page `offset` of the current request. -/
def tie (reg : ℕ) (offset : ℤ) (s : Io) : Io :=
  { s with accessNb := Function.update s.accessNb reg (toI32 s.ioRequestSeqNb, offset) }

/-- The part of `SSD_REG_RECORD` that ties a host page to its register and reports its start. -/
def recordHostPage (reg : ℕ) (offset : ℤ) (s : Io) : Io :=
  let s := tie reg offset s
  let st := updateIoRequest t clk (toI32 s.ioRequestSeqNb) offset s.oldChannelTime .startTime s
  ssdUpdateIoOverhead reg st.1 { st.2 with ioUpdateOverhead := st.1 }

/-- The types `SSD_REG_RECORD` takes for host writes. -/
def isHostWrite : IoType → Bool
  | .write | .seqWrite | .ranWrite | .ranColdWrite | .ranHotWrite => true
  | _ => false

/-- Clear the `access_nb` of a register. -/
def untie (reg : ℕ) (s : Io) : Io :=
  { s with accessNb := Function.update s.accessNb reg (-1, -1) }

/-- The start of `SSD_REG_RECORD`. -/
def setCommand (reg : ℕ) (cmd type : IoType) (s : Io) : Io :=
  { s with
    regIoCmd := Function.update s.regIoCmd reg cmd
    regIoType := Function.update s.regIoType reg type }

/-- The time stamp of a write in `SSD_REG_RECORD`. -/
def stampWrite (reg channel : ℕ) (s : Io) : Io :=
  let time : ℤ := s.oldChannelTime + t.channelSwitchDelayW
  ssdUpdateChAccessTime g t channel time
    { s with regIoTime := Function.update s.regIoTime reg time }

/-- The time stamp of a read in `SSD_REG_RECORD`. -/
def stampRead (reg channel : ℕ) (s : Io) : Io :=
  { s with
    regIoTime := Function.update s.regIoTime reg (ssdGetChAccessTimeForRead g t channel reg s) }

/-- `SSD_REG_RECORD`. -/
def ssdRegRecord (reg : ℕ) (cmd type : IoType) (offset : ℤ) (channel : ℕ) (s : Io) : Io :=
  let s := setCommand reg cmd type s
  match cmd with
  | .write =>
    let s := stampWrite g t reg channel s
    if isHostWrite type then recordHostPage t clk reg offset s else untie reg s
  | .read =>
    let s := stampRead g t reg channel s
    if type = .read then recordHostPage t clk reg offset s else untie reg s
  | .erase => untie reg s
  | _ => s

/-- `SSD_CELL_RECORD`. -/
def ssdCellRecord (reg : ℕ) (cmd : IoType) (s : Io) : Io :=
  match cmd with
  | .write =>
    { s with cellIoTime := Function.update s.cellIoTime reg (s.regIoTime reg + t.regWriteDelay) }
  | .read =>
    { s with
      cellIoTime := Function.update s.cellIoTime reg (s.oldChannelTime + t.channelSwitchDelayR) }
  | .erase =>
    let (now, s) := getUsec clk s
    { s with cellIoTime := Function.update s.cellIoTime reg now }
  | _ => s

/-! ### Page operations -/

/-- `SSD_REMAIN_IO_DELAY`. -/
def ssdRemainIoDelay (reg : ℕ) (s : Io) : Io := (ssdRegAccess t clk reg s).2

/-- With `O_DIRECT_VSSIM`, the last page of a request is finished at once. -/
def finishLastPage (reg : ℕ) (offset ioPageNb : ℤ) (s : Io) : Io :=
  if t.oDirectVssim ∧ offset = ioPageNb - 1 then ssdRemainIoDelay t clk reg s else s

/-- The write of a page, up to the wait for the channel and from there on. -/
def recordWrite (reg channel : ℕ) (offset : ℤ) (type : IoType) (ioPageNb : ℤ) (ret : Bool) (s : Io) :
    Io :=
  let s := ssdChRecord t clk channel .write offset ret s
  let s := ssdRegRecord g t clk reg .write type offset channel s
  let s := ssdCellRecord t clk reg .write s
  finishLastPage t clk reg offset ioPageNb s

/-- `SSD_PAGE_WRITE`. -/
def ssdPageWrite (flashNb blockNb : ℕ) (offset : ℤ) (type : IoType) (ioPageNb : ℤ) (s : Io) : Io :=
  let channel := flashNb % t.channelNb
  let reg := regOf g flashNb blockNb
  let s := ssdChEnable t clk channel s
  let (ret, s) := access g t clk flashNb reg s
  let s := waitForChannel g t clk channel s
  recordWrite g t clk reg channel offset type ioPageNb ret s

/-- `SSD_PAGE_PARTIAL_WRITE`: read the old page, then write the new one. The variable `ret` is
still `SUCCESS` from the first loop when the second is reached, so the write does not wait
for its channel. -/
def ssdPagePartialWrite (oldFlashNb oldBlockNb newFlashNb newBlockNb : ℕ) (offset : ℤ)
    (type : IoType) (ioPageNb : ℤ) (s : Io) : Io :=
  let channel := oldFlashNb % t.channelNb
  let reg := regOf g oldFlashNb oldBlockNb
  let s := ssdChEnable t clk channel s
  let (ret, s) := access g t clk oldFlashNb reg s
  let s := waitForChannel g t clk channel s
  let s := ssdChRecord t clk channel .read offset ret s
  let s := ssdRegRecord g t clk reg .read type offset channel s
  let s := ssdCellRecord t clk reg .read s
  let s := ssdRemainIoDelay t clk reg s
  let channel := newFlashNb % t.channelNb
  let reg := regOf g newFlashNb newBlockNb
  let s := ssdChEnable t clk channel s
  let (ret, s) := access g t clk newFlashNb reg s
  recordWrite g t clk reg channel offset type ioPageNb ret s

/-- `SSD_PAGE_READ`. The cell operation is recorded before the transfer. -/
def ssdPageRead (flashNb blockNb : ℕ) (offset : ℤ) (type : IoType) (ioPageNb : ℤ) (s : Io) : Io :=
  let channel := flashNb % t.channelNb
  let reg := regOf g flashNb blockNb
  let s := ssdChEnable t clk channel s
  let (ret, s) := access g t clk flashNb reg s
  let s := ssdChRecord t clk channel .read offset ret s
  let s := ssdCellRecord t clk reg .read s
  let s := ssdRegRecord g t clk reg .read type offset channel s
  finishLastPage t clk reg offset ioPageNb s

/-- `SSD_BLOCK_ERASE`. -/
def ssdBlockErase (flashNb blockNb : ℕ) (s : Io) : Io :=
  let channel := flashNb % t.channelNb
  let reg := regOf g flashNb blockNb
  let (_, s) := access g t clk flashNb reg s
  let s := ssdRegRecord g t clk reg .erase .erase (-1) channel s
  ssdCellRecord t clk reg .erase s

/-- The effect of a call of the FTL. -/
def call (c : Call) (s : Io) : Io :=
  match c with
  | .allocIoRequest sectorNb length ioType => allocIoRequest g clk sectorNb length ioType s
  | .increaseIoRequestSeqNb => increaseIoRequestSeqNb s
  | .ssdPageWrite f b _ offset type n => ssdPageWrite g t clk f b offset type n s
  | .ssdPagePartialWrite f₀ b₀ _ f b _ offset type n =>
    ssdPagePartialWrite g t clk f₀ b₀ f b offset type n s
  | .ssdPageRead f b _ offset type n => ssdPageRead g t clk f b offset type n s
  | .ssdBlockErase f b => ssdBlockErase g t clk f b s
  | .getNewPage _ | .garbageCollection | .error _ => s

end Io

end Vssim
