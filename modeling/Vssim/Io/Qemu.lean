import Vssim.Io.Arbitration
import Vssim.Io.Waits

/-!
# The I/O manager under QEMU

`ssd_io_manager.c` in the build without `VSSIM_BENCH`. The emulator leaves the time it has lost in
`qemu_overhead`, and a delay that is not over yet takes it into account: before it waits,
`SSD_UPDATE_QEMU_OVERHEAD` moves **all** time stamps back. The rest of the file is that of the
other build (`Io.Register`), function by function; `SSD_BLOCK_ERASE_DELAY` makes no correction.

A ledger, which is not part of the program and which no function reads, has an entry for every
register: which operations have been recorded and not been charged since, and how many page writes
have been recorded and how many transfers `SSD_REG_WRITE_DELAY` has charged.
-/

namespace Vssim

open Io

/-- The transfer that a register still has to make. -/
inductive Transfer
  | none
  | read
  | write
  deriving DecidableEq

/-- What has been recorded in a register and what has been charged. -/
structure Entry where
  /-- The transfer that has been recorded and not been charged since. -/
  transfer : Transfer
  /-- A cell operation has been recorded and not been charged since. -/
  cell : Bool
  /-- The number of page writes recorded. -/
  writes : ℕ
  /-- The number of transfers charged by `SSD_REG_WRITE_DELAY`. -/
  charges : ℕ
  deriving DecidableEq

namespace Entry

def settleTransfer (e : Entry) : Entry := { e with transfer := .none }

def settleCell (e : Entry) : Entry := { e with cell := false }

def chargeWrite (e : Entry) : Entry := { e with transfer := .none, charges := e.charges + 1 }

def recordErase (e : Entry) : Entry := { e with cell := true }

def recordRead (e : Entry) : Entry := { e with transfer := .read, cell := true }

def recordWrite (e : Entry) : Entry :=
  { e with transfer := .write, cell := true, writes := e.writes + 1 }

end Entry

/-- The state of the I/O manager and `qemu_overhead`, with the ledger. -/
structure QemuIo where
  io : Io
  qemuOverhead : ℤ
  ledger : ℕ → Entry

namespace QemuIo

variable (g : Geometry) (t : IoConfig) (clk : Clock)

/-- `SSD_IO_INIT` and `INIT_PERF_CHECKER`. -/
def init : QemuIo := ⟨Io.init t, 0, fun _ => ⟨.none, false, 0, 0⟩⟩

/-- A step that has nothing to do with the overhead. -/
def onIo (f : Io → Io) (q : QemuIo) : QemuIo := { q with io := f q.io }

/-- An entry in the ledger. -/
def enter (reg : ℕ) (f : Entry → Entry) (q : QemuIo) : QemuIo :=
  { q with ledger := Function.update q.ledger reg (f (q.ledger reg)) }

/-- `SSD_UPDATE_QEMU_OVERHEAD`. -/
def ssdUpdateQemuOverhead (delay : ℤ) (q : QemuIo) : QemuIo :=
  if q.qemuOverhead = 0 then q
  else
    let diff := if q.qemuOverhead < delay then q.qemuOverhead else delay
    let shift := fun (time : ℕ → ℤ) i =>
      if i < g.flashNb * g.planesPerFlash then time i - diff else time i
    { q with
      io := { q.io with
        oldChannelTime := q.io.oldChannelTime - diff
        cellIoTime := shift q.io.cellIoTime
        regIoTime := shift q.io.regIoTime }
      qemuOverhead := q.qemuOverhead - diff }

/-! ### Delays -/

/-- The correction at the start of a delay, after the reading `start`. -/
def correct (start timeStamp overhead delay : ℤ) (q : QemuIo) : QemuIo :=
  let diff := start - timeStamp + overhead
  if diff < delay then ssdUpdateQemuOverhead g (delay - diff) q else q

/-- What the delays of registers share. The difference is taken again from the corrected time stamp,
but the loop waits with the old one. -/
def spend (stamp : Io → ℤ) (overhead delay : ℤ) (q : QemuIo) : Spent × QemuIo :=
  let timeStamp := stamp q.io
  let (start, s) := getUsec clk q.io
  let q := correct g start timeStamp overhead delay { q with io := s }
  let diff := start - stamp q.io + overhead
  let s := { q.io with
    tick := if diff < delay then clk.wait (timeStamp + delay - overhead) q.io.tick
      else q.io.tick }
  let (stop, s) := getUsec clk s
  (⟨decide (diff < delay), diff, start, stop⟩, { q with io := s })

/-- A delay that is reported to the performance checker. -/
def charge (reg : ℕ) (stamp : Io → ℤ) (overhead delay : ℤ) (type : PerfType) (q : QemuIo) :
    Spent × QemuIo :=
  let (d, q) := spend g clk stamp overhead delay q
  (d, q.onIo fun s => s.sendToPerfChecker (s.regIoType reg) (d.stop - d.start) type)

/-- The delay of `SSD_CH_SWITCH_DELAY`. Its loop waits with the corrected time. -/
def spendSwitch (switchDelay : ℤ) (q : QemuIo) : QemuIo :=
  let (start, s) := getUsec clk q.io
  let q := correct g start q.io.oldChannelTime 0 switchDelay { q with io := s }
  let diff := start - q.io.oldChannelTime
  let s := { q.io with
    tick := if diff < switchDelay then clk.wait (q.io.oldChannelTime + switchDelay) q.io.tick
      else q.io.tick }
  let (_, s) := getUsec clk s
  { q with io := s }

/-- `SSD_CH_SWITCH_DELAY`. -/
def ssdChSwitchDelay (q : QemuIo) : QemuIo :=
  match q.io.oldChannelCmd with
  | .read => spendSwitch g clk t.channelSwitchDelayR q
  | .write => spendSwitch g clk t.channelSwitchDelayW q
  | _ => q

/-- `SSD_CH_ENABLE`. -/
def ssdChEnable (channel : ℕ) (q : QemuIo) : QemuIo :=
  if t.channelSwitchDelayR = 0 ∧ t.channelSwitchDelayW = 0 then q
  else if q.io.oldChannelNb ≠ channel then ssdChSwitchDelay g t clk q
  else q

/-- `SSD_REG_WRITE_DELAY`. -/
def ssdRegWriteDelay (reg : ℕ) (q : QemuIo) : Bool × QemuIo :=
  if q.io.regIoTime reg = -1 then (false, q)
  else
    let (d, q) := charge g clk reg (fun s => s.regIoTime reg) 0 t.regWriteDelay .chOp q
    let q := q.onIo fun s => { s with regIoTime := Function.update s.regIoTime reg (-1) }
    (d.waited, q.enter reg Entry.chargeWrite)

/-- `SSD_REG_READ_DELAY`. -/
def ssdRegReadDelay (reg : ℕ) (q : QemuIo) : Bool × QemuIo :=
  if q.io.regIoTime reg = -1 then (false, q)
  else
    let (d, q) := charge g clk reg (fun s => s.regIoTime reg) 0 t.regReadDelay .chOp q
    let q := q.onIo fun s =>
      let s := ssdUpdateIoRequest t clk reg s
      { s with
        regIoTime := Function.update s.regIoTime reg (-1)
        regIoCmd := Function.update s.regIoCmd reg .noop
        regIoType := Function.update s.regIoType reg .noop }
    (d.waited, q.enter reg Entry.settleTransfer)

/-- `SSD_CELL_WRITE_DELAY`. -/
def ssdCellWriteDelay (reg : ℕ) (q : QemuIo) : Bool × QemuIo :=
  if q.io.cellIoTime reg = -1 then (false, q)
  else
    let (d, q) := charge g clk reg (fun s => s.cellIoTime reg) (q.io.ioOverhead reg)
      t.cellProgramDelay .regOp q
    let q := q.onIo fun s =>
      let s := { s with initDiffReg := if d.waited then d.diff else s.initDiffReg }
      let s := ssdUpdateIoRequest t clk reg s
      { s with
        cellIoTime := Function.update s.cellIoTime reg (-1)
        regIoCmd := Function.update s.regIoCmd reg .noop
        regIoType := Function.update s.regIoType reg .noop
        ioOverhead := Function.update s.ioOverhead reg 0 }
    (d.waited, q.enter reg Entry.settleCell)

/-- `SSD_CELL_READ_DELAY`. -/
def ssdCellReadDelay (reg : ℕ) (q : QemuIo) : Bool × QemuIo :=
  if q.io.cellIoTime reg = -1 then (false, q)
  else
    let (d, q) := charge g clk reg (fun s => s.cellIoTime reg) (q.io.ioOverhead reg)
      t.cellReadDelay .regOp q
    let q := q.onIo fun s =>
      let s := { s with initDiffReg := if d.waited then d.diff else s.initDiffReg }
      { s with
        cellIoTime := Function.update s.cellIoTime reg (-1)
        ioOverhead := Function.update s.ioOverhead reg 0 }
    (d.waited, q.enter reg Entry.settleCell)

/-- `SSD_BLOCK_ERASE_DELAY`. -/
def ssdBlockEraseDelay (reg : ℕ) (q : QemuIo) : Bool × QemuIo :=
  if q.io.cellIoTime reg = -1 then (false, q)
  else
    let (ret, s) := Io.ssdBlockEraseDelay t clk reg q.io
    (ret, { q with io := s }.enter reg Entry.settleCell)

/-! ### Using registers and channels -/

/-- `SSD_REG_ACCESS`. -/
def ssdRegAccess (reg : ℕ) (q : QemuIo) : Bool × QemuIo :=
  match q.io.regIoCmd reg with
  | .noop => (false, q)
  | .read => ssdRegReadDelay g t clk reg (ssdCellReadDelay g t clk reg q).2
  | .write => ssdCellWriteDelay g t clk reg (ssdRegWriteDelay g t clk reg q).2
  | .erase => ssdBlockEraseDelay t clk reg q
  | _ => (false, q.onIo fun s => s.note [.error .regAccessCommandError])

/-- The loop of `SSD_FLASH_ACCESS`. -/
def flashAccessLoop (reg : ℕ) : List ℕ → Bool × QemuIo → Bool × QemuIo
  | [], st => st
  | r :: rs, (ret, q) =>
    if r ≠ reg ∧ toU32 (q.io.accessNb r).1 = q.io.ioRequestSeqNb
    then flashAccessLoop reg rs (ret, q)
    else flashAccessLoop reg rs (ssdRegAccess g t clk r q)

/-- `SSD_FLASH_ACCESS`. -/
def ssdFlashAccess (flashNb reg : ℕ) (q : QemuIo) : Bool × QemuIo :=
  flashAccessLoop g t clk reg (chipRegs g flashNb) (false, q)

/-- The access to the register of an operation, by `IO_PARALLELISM`. -/
def access (flashNb reg : ℕ) (q : QemuIo) : Bool × QemuIo :=
  if t.ioParallelism then ssdRegAccess g t clk reg q else ssdFlashAccess g t clk flashNb reg q

/-- One register of `SSD_CH_ACCESS`. -/
def chAccessReg (r : ℕ) (st : Ret × QemuIo) : Ret × QemuIo :=
  let (now, s) := getUsec clk st.2.io
  let q := { st.2 with io := s }
  if s.regIoTime r ≤ now ∧ s.regIoTime r ≠ -1 then
    match s.regIoCmd r with
    | .read => (.fail, (ssdRegReadDelay g t clk r (ssdCellReadDelay g t clk r q).2).2)
    | .write => (.fail, (ssdRegWriteDelay g t clk r q).2)
    | _ => (st.1, q)
  else (st.1, q)

/-- `SSD_CH_ACCESS`. -/
def ssdChAccess (channel : ℕ) (q : QemuIo) : Ret × QemuIo :=
  (channelRegs g t channel).foldl (fun st r => chAccessReg g t clk r st) (.success, q)

/-- The loop `while(ret == FAIL) ret = SSD_CH_ACCESS(channel)`, at most `fuel` rounds. -/
def chAccessLoop (channel : ℕ) : ℕ → QemuIo → QemuIo
  | 0, q => q.onIo fun s => s.note [.error .chAccessHang]
  | fuel + 1, q =>
    match ssdChAccess g t clk channel q with
    | (.success, q) => q
    | (.fail, q) => chAccessLoop channel fuel q

/-- The wait for the channel. A round that fails finishes a transfer or uses up some of the
overhead in a correction, which may give registers a transfer again. -/
def waitForChannel (channel : ℕ) (q : QemuIo) : QemuIo :=
  chAccessLoop g t clk channel
    (((channelRegs g t channel).length + 1) * (q.qemuOverhead.toNat + 1)) q

/-- `SSD_REMAIN_IO_DELAY`. -/
def ssdRemainIoDelay (reg : ℕ) (q : QemuIo) : QemuIo := (ssdRegAccess g t clk reg q).2

/-- With `O_DIRECT_VSSIM`, the last page of a request is finished at once. -/
def finishLastPage (reg : ℕ) (offset ioPageNb : ℤ) (q : QemuIo) : QemuIo :=
  if t.oDirectVssim ∧ offset = ioPageNb - 1 then ssdRemainIoDelay g t clk reg q else q

/-! ### Page operations -/

/-- `SSD_CH_RECORD`, `SSD_REG_RECORD` and `SSD_CELL_RECORD` of a write. -/
def postWrite (reg channel : ℕ) (offset : ℤ) (type : IoType) (ret : Bool) (q : QemuIo) : QemuIo :=
  (q.onIo fun s =>
    let s := ssdChRecord t clk channel .write offset ret s
    let s := ssdRegRecord g t clk reg .write type offset channel s
    ssdCellRecord t clk reg .write s).enter reg Entry.recordWrite

/-- The same for the read of `SSD_PAGE_PARTIAL_WRITE`. -/
def postPartialRead (reg channel : ℕ) (offset : ℤ) (type : IoType) (ret : Bool) (q : QemuIo) :
    QemuIo :=
  (q.onIo fun s =>
    let s := ssdChRecord t clk channel .read offset ret s
    let s := ssdRegRecord g t clk reg .read type offset channel s
    ssdCellRecord t clk reg .read s).enter reg Entry.recordRead

/-- The same for `SSD_PAGE_READ`, which records the cell operation first. -/
def postRead (reg channel : ℕ) (offset : ℤ) (type : IoType) (ret : Bool) (q : QemuIo) : QemuIo :=
  (q.onIo fun s =>
    let s := ssdChRecord t clk channel .read offset ret s
    let s := ssdCellRecord t clk reg .read s
    ssdRegRecord g t clk reg .read type offset channel s).enter reg Entry.recordRead

/-- The same for an erase. -/
def postErase (reg channel : ℕ) (q : QemuIo) : QemuIo :=
  (q.onIo fun s =>
    let s := ssdRegRecord g t clk reg .erase .erase (-1) channel s
    ssdCellRecord t clk reg .erase s).enter reg Entry.recordErase

/-- `SSD_PAGE_WRITE`. -/
def ssdPageWrite (flashNb blockNb : ℕ) (offset : ℤ) (type : IoType) (ioPageNb : ℤ) (q : QemuIo) :
    QemuIo :=
  let channel := flashNb % t.channelNb
  let reg := regOf g flashNb blockNb
  let q := ssdChEnable g t clk channel q
  let (ret, q) := access g t clk flashNb reg q
  let q := waitForChannel g t clk channel q
  let q := postWrite g t clk reg channel offset type ret q
  finishLastPage g t clk reg offset ioPageNb q

/-- `SSD_PAGE_PARTIAL_WRITE`. -/
def ssdPagePartialWrite (oldFlashNb oldBlockNb newFlashNb newBlockNb : ℕ) (offset : ℤ)
    (type : IoType) (ioPageNb : ℤ) (q : QemuIo) : QemuIo :=
  let channel := oldFlashNb % t.channelNb
  let reg := regOf g oldFlashNb oldBlockNb
  let q := ssdChEnable g t clk channel q
  let (ret, q) := access g t clk oldFlashNb reg q
  let q := waitForChannel g t clk channel q
  let q := postPartialRead g t clk reg channel offset type ret q
  let q := ssdRemainIoDelay g t clk reg q
  let channel := newFlashNb % t.channelNb
  let reg := regOf g newFlashNb newBlockNb
  let q := ssdChEnable g t clk channel q
  let (ret, q) := access g t clk newFlashNb reg q
  let q := postWrite g t clk reg channel offset type ret q
  finishLastPage g t clk reg offset ioPageNb q

/-- `SSD_PAGE_READ`. -/
def ssdPageRead (flashNb blockNb : ℕ) (offset : ℤ) (type : IoType) (ioPageNb : ℤ) (q : QemuIo) :
    QemuIo :=
  let channel := flashNb % t.channelNb
  let reg := regOf g flashNb blockNb
  let q := ssdChEnable g t clk channel q
  let (ret, q) := access g t clk flashNb reg q
  let q := postRead g t clk reg channel offset type ret q
  finishLastPage g t clk reg offset ioPageNb q

/-- `SSD_BLOCK_ERASE`. -/
def ssdBlockErase (flashNb blockNb : ℕ) (q : QemuIo) : QemuIo :=
  let channel := flashNb % t.channelNb
  let reg := regOf g flashNb blockNb
  let (_, q) := access g t clk flashNb reg q
  postErase g t clk reg channel q

/-- The effect of a call of the FTL. -/
def call (c : Call) (q : QemuIo) : QemuIo :=
  match c with
  | .ssdPageWrite f b _ offset type n => ssdPageWrite g t clk f b offset type n q
  | .ssdPagePartialWrite f₀ b₀ _ f b _ offset type n =>
    ssdPagePartialWrite g t clk f₀ b₀ f b offset type n q
  | .ssdPageRead f b _ offset type n => ssdPageRead g t clk f b offset type n q
  | .ssdBlockErase f b => ssdBlockErase g t clk f b q
  | c => q.onIo (Io.call g t clk c)

/-! ### The wait for the channel ends -/

/-- A step that makes no correction starts no transfer, and a correction uses up lost time. -/
structure Progress (q q' : QemuIo) : Prop where
  nonneg : 0 ≤ q'.qemuOverhead
  le : q'.qemuOverhead ≤ q.qemuOverhead
  keep : q'.qemuOverhead = q.qemuOverhead → ∀ r, q.io.regIoTime r = -1 → q'.io.regIoTime r = -1

namespace Progress

variable {q q' q'' : QemuIo}

private theorem of_eq (hnonneg : 0 ≤ q.qemuOverhead) (hoverhead : q'.qemuOverhead = q.qemuOverhead)
    (htime : q'.io.regIoTime = q.io.regIoTime) : Progress q q' :=
  ⟨hoverhead ▸ hnonneg, hoverhead.le, fun _ r hr => by rw [htime, hr]⟩

private theorem trans (h : Progress q q') (h' : Progress q' q'') : Progress q q'' := by
  have hle := h.le
  have hle' := h'.le
  exact ⟨h'.nonneg, hle'.trans hle, fun heq r hr =>
    h'.keep (by omega) r (h.keep (by omega) r hr)⟩

end Progress

variable {q : QemuIo} {reg : ℕ}

theorem correct_progress (hnonneg : 0 ≤ q.qemuOverhead) (start timeStamp overhead delay : ℤ) :
    0 ≤ (correct g start timeStamp overhead delay q).qemuOverhead ∧
      (correct g start timeStamp overhead delay q).qemuOverhead ≤ q.qemuOverhead ∧
      ((correct g start timeStamp overhead delay q).qemuOverhead = q.qemuOverhead →
        correct g start timeStamp overhead delay q = q) := by
  rw [correct]
  split
  · rw [ssdUpdateQemuOverhead]
    split
    · exact ⟨hnonneg, le_rfl, fun _ => rfl⟩
    · dsimp only
      split
      · exact ⟨by omega, by omega, fun _ => by omega⟩
      · exact ⟨by omega, by omega, fun _ => by omega⟩
  · exact ⟨hnonneg, le_rfl, fun _ => rfl⟩

/-- A delay, up to the report to the performance checker. -/
private theorem charge_progress (hnonneg : 0 ≤ q.qemuOverhead) (reg : ℕ) (stamp : Io → ℤ)
    (overhead delay : ℤ) (type : PerfType) :
    Progress q (charge g clk reg stamp overhead delay type q).2 := by
  obtain ⟨hnonneg', hle, hsame⟩ := correct_progress g
    (q := { q with io := { q.io with tick := q.io.tick + 1 } }) hnonneg (clk.read q.io.tick)
    (stamp q.io) overhead delay
  refine ⟨hnonneg', hle, fun heq r hr => ?_⟩
  have hcorrect := congrArg (fun q : QemuIo => q.io.regIoTime r) (hsame heq)
  exact hcorrect.trans hr

/-- A delay that clears the time stamp of the transfer. -/
private theorem Progress.clear {q₁ q' : QemuIo} (h : Progress q q₁)
    (hoverhead : q'.qemuOverhead = q₁.qemuOverhead)
    (htime : q'.io.regIoTime = Function.update q₁.io.regIoTime reg (-1)) :
    Progress q q' ∧ q'.io.regIoTime reg = -1 := by
  refine ⟨⟨hoverhead ▸ h.nonneg, hoverhead ▸ h.le, fun heq r hr => ?_⟩, ?_⟩
  · rw [htime]
    by_cases hreg : r = reg
    · rw [hreg, Function.update_self]
    · rw [Function.update_of_ne hreg]
      exact h.keep (hoverhead ▸ heq) r hr
  · rw [htime, Function.update_self]

private theorem ssdRegWriteDelay_progress (hnonneg : 0 ≤ q.qemuOverhead) (reg : ℕ) :
    Progress q (ssdRegWriteDelay g t clk reg q).2 ∧
      (ssdRegWriteDelay g t clk reg q).2.io.regIoTime reg = -1 := by
  rw [ssdRegWriteDelay]
  split
  · exact ⟨.of_eq hnonneg rfl rfl, ‹_›⟩
  · exact (charge_progress g clk hnonneg reg (fun s => s.regIoTime reg) 0 t.regWriteDelay
      .chOp).clear rfl rfl

private theorem ssdRegReadDelay_progress (hnonneg : 0 ≤ q.qemuOverhead) (reg : ℕ) :
    Progress q (ssdRegReadDelay g t clk reg q).2 ∧
      (ssdRegReadDelay g t clk reg q).2.io.regIoTime reg = -1 := by
  rw [ssdRegReadDelay]
  split
  · exact ⟨.of_eq hnonneg rfl rfl, ‹_›⟩
  · have hcharge := charge_progress g clk hnonneg reg
      (fun s => s.regIoTime reg) 0 t.regReadDelay .chOp
    generalize charge g clk reg (fun s => s.regIoTime reg) 0 t.regReadDelay .chOp q = st at hcharge
    obtain ⟨o, requests, log, k, heq, -⟩ := ssdUpdateIoRequest_state t clk reg st.2.io
    refine hcharge.clear rfl ?_
    simp only [onIo, enter, heq]
    rfl

private theorem ssdCellReadDelay_progress (hnonneg : 0 ≤ q.qemuOverhead) (reg : ℕ) :
    Progress q (ssdCellReadDelay g t clk reg q).2 := by
  rw [ssdCellReadDelay]
  split
  · exact .of_eq hnonneg rfl rfl
  · have hcharge := charge_progress g clk hnonneg reg
      (fun s => s.cellIoTime reg) (q.io.ioOverhead reg) t.cellReadDelay .regOp
    exact ⟨hcharge.nonneg, hcharge.le, hcharge.keep⟩

private theorem chAccessReg_progress {st : Ret × QemuIo} (hnonneg : 0 ≤ st.2.qemuOverhead) (r : ℕ) :
    Progress st.2 (chAccessReg g t clk r st).2 ∧
      ((chAccessReg g t clk r st).1 = .fail → st.1 = .fail ∨
        st.2.io.regIoTime r ≠ -1 ∧ (chAccessReg g t clk r st).2.io.regIoTime r = -1) := by
  obtain ⟨ret, q⟩ := st
  have htick : Progress q { q with io := { q.io with tick := q.io.tick + 1 } } :=
    .of_eq hnonneg rfl rfl
  by_cases hdue : q.io.regIoTime r ≤ clk.read q.io.tick ∧ q.io.regIoTime r ≠ -1
  · simp only [chAccessReg, getUsec, hdue.1, hdue.2, ne_eq, not_false_eq_true, and_self, if_true]
    split
    · have hcell := ssdCellReadDelay_progress g t clk htick.nonneg r
      obtain ⟨hread, htime⟩ := ssdRegReadDelay_progress g t clk hcell.nonneg r
      exact ⟨htick.trans (hcell.trans hread), fun _ => .inr ⟨trivial, htime⟩⟩
    · obtain ⟨hwrite, htime⟩ := ssdRegWriteDelay_progress g t clk
        htick.nonneg r
      exact ⟨htick.trans hwrite, fun _ => .inr ⟨trivial, htime⟩⟩
    · exact ⟨htick, fun hfail => .inl hfail⟩
  · simp only [chAccessReg, getUsec, hdue, if_false]
    exact ⟨htick, fun hfail => .inl hfail⟩

/-- A scan that fails has finished a transfer, or time was used up. -/
private theorem chAccess_foldl_progress (rs : List ℕ) (st : Ret × QemuIo) {st' : Ret × QemuIo}
    (hnonneg : 0 ≤ st.2.qemuOverhead)
    (hst : rs.foldl (fun st r => chAccessReg g t clk r st) st = st') :
    Progress st.2 st'.2 ∧ (st'.1 = .fail → st.1 = .fail ∨
      (st'.2.qemuOverhead = st.2.qemuOverhead →
        ∃ r ∈ rs, st.2.io.regIoTime r ≠ -1 ∧ st'.2.io.regIoTime r = -1)) := by
  induction rs generalizing st with
  | nil =>
    subst hst
    exact ⟨.of_eq hnonneg rfl rfl, .inl⟩
  | cons r rs ih =>
    obtain ⟨hfirst, hfail₁⟩ := chAccessReg_progress g t clk hnonneg r
    obtain ⟨hrest, hfail⟩ := ih _ hfirst.nonneg hst
    refine ⟨hfirst.trans hrest, fun hret => ?_⟩
    have hle := hfirst.le
    have hle' := hrest.le
    rcases hfail hret with hret₁ | hlater
    · -- the first register: the rest of the scan does not start its transfer again
      refine (hfail₁ hret₁).imp_right fun ⟨hne, hgone⟩ heq => ⟨r, List.mem_cons_self, hne, ?_⟩
      exact hrest.keep (by omega) r hgone
    · -- a later one: its transfer was left before the scan as well
      refine .inr fun heq => ?_
      obtain ⟨k, hk, hne, hgone⟩ := hlater (by omega)
      exact ⟨k, List.mem_cons_of_mem r hk, fun htime => hne (hfirst.keep (by omega) k htime), hgone⟩

/-- What the wait for a channel uses up: lost time, and for the same lost time transfers. -/
def remaining (channel : ℕ) (q : QemuIo) : ℕ :=
  ((channelRegs g t channel).length + 1) * q.qemuOverhead.toNat + pendingTransfers g t channel q.io

theorem pendingTransfers_le (channel : ℕ) (s : Io) :
    pendingTransfers g t channel s ≤ (channelRegs g t channel).length :=
  List.countP_le_length

theorem ssdChAccess_progress (channel : ℕ) (hnonneg : 0 ≤ q.qemuOverhead)
    (hfail : (ssdChAccess g t clk channel q).1 = .fail) :
    0 ≤ (ssdChAccess g t clk channel q).2.qemuOverhead ∧
      remaining g t channel (ssdChAccess g t clk channel q).2 < remaining g t channel q := by
  obtain ⟨hprogress, hfinish⟩ := chAccess_foldl_progress g t clk (channelRegs g t channel)
    (.success, q) hnonneg rfl
  have hfinish := (hfinish hfail).resolve_left nofun
  change Progress q (ssdChAccess g t clk channel q).2 at hprogress
  refine ⟨hprogress.nonneg, ?_⟩
  -- without a correction there are fewer transfers; with one there may be more, but less time
  rcases hprogress.le.eq_or_lt with heq | hlt
  · obtain ⟨r, hr, hne, hgone⟩ := hfinish heq
    have hpending := pendingTransfers_lt hr hne hgone (hprogress.keep heq)
    rw [remaining, remaining, heq]
    exact Nat.add_lt_add_left hpending _
  · have hpending := pendingTransfers_le g t channel (ssdChAccess g t clk channel q).2.io
    have hnonneg' := hprogress.nonneg
    calc remaining g t channel (ssdChAccess g t clk channel q).2
      _ < ((channelRegs g t channel).length + 1) *
          ((ssdChAccess g t clk channel q).2.qemuOverhead.toNat + 1) := by
        rw [remaining, Nat.mul_succ]
        omega
      _ ≤ ((channelRegs g t channel).length + 1) * q.qemuOverhead.toNat :=
        Nat.mul_le_mul_left _ (by omega)
      _ ≤ remaining g t channel q := Nat.le_add_right ..

end QemuIo

end Vssim
