import Vssim.Io.Record
import Mathlib.Logic.Relation

/-!
# What happens to a register

The contents of one register and the few **moves** the I/O manager makes on them: the delays that
drain a register, and the shift of a later read on the channel of a write. Accesses and waits
are chains of moves on every register (`Drained`), and recording an operation writes one
register and moves the others. An invariant of the registers is one that the moves keep and
that the records establish.
-/

namespace Vssim

open Io

/-- What the I/O manager keeps for a register. -/
structure Reg where
  cmd : IoType
  type : IoType
  regTime : ℤ
  cellTime : ℤ
  accessNb : ℤ × ℤ
  overhead : ℤ

/-- The contents of register `r`. -/
def Io.reg (s : Io) (r : ℕ) : Reg :=
  ⟨s.regIoCmd r, s.regIoType r, s.regIoTime r, s.cellIoTime r, s.accessNb r, s.ioOverhead r⟩

/-- The moves on a register. -/
inductive Move (t : IoConfig) : Reg → Reg → Prop
  /-- `SSD_CELL_READ_DELAY`. -/
  | cellRead {x : Reg} (hcmd : x.cmd = .read) : Move t x { x with cellTime := -1, overhead := 0 }
  /-- `SSD_REG_READ_DELAY`, which always comes after it. The time that reporting the end of a
  host page took is left in the register. -/
  | regRead {x : Reg} (hcmd : x.cmd = .read) (hcell : x.cellTime = -1) {o : ℤ}
      (hvacant : x.accessNb.1 = -1 → o = 0) :
      Move t x ⟨.noop, .noop, -1, -1, (-1, x.accessNb.2), x.overhead + o⟩
  /-- `SSD_REG_WRITE_DELAY`. -/
  | regWrite {x : Reg} (hcmd : x.cmd = .write) : Move t x { x with regTime := -1 }
  /-- `SSD_CELL_WRITE_DELAY`. -/
  | cellWrite {x : Reg} (hcmd : x.cmd = .write) (hreg : x.regTime = -1) :
      Move t x ⟨.noop, .noop, -1, -1, (-1, x.accessNb.2), 0⟩
  /-- `SSD_BLOCK_ERASE_DELAY`. -/
  | blockErase {x : Reg} (hcmd : x.cmd = .erase) :
      Move t x { x with cmd := .noop, type := .noop, cellTime := -1 }
  /-- `SSD_UPDATE_CH_ACCESS_TIME`. -/
  | later {x : Reg} (hcmd : x.cmd = .read) {currentTime : ℤ} (htime : currentTime < x.regTime)
      (hnonneg : 0 ≤ currentTime) : Move t x { x with regTime := x.regTime + t.regWriteDelay }

/-- A chain of moves. -/
abbrev Moves (t : IoConfig) : Reg → Reg → Prop := Relation.ReflTransGen (Move t)

/-- A step that drains one register. -/
structure DrainedAt (t : IoConfig) (reg : ℕ) (s s' : Io) : Prop where
  moves : Moves t (s.reg reg) (s'.reg reg)
  other : ∀ r ≠ reg, s'.reg r = s.reg r
  channelTime : s'.oldChannelTime = s.oldChannelTime

/-- A step that drains registers. -/
structure Drained (t : IoConfig) (s s' : Io) : Prop where
  moves : ∀ r, Moves t (s.reg r) (s'.reg r)
  channelTime : s'.oldChannelTime = s.oldChannelTime

section moves

variable {t : IoConfig} {x y : Reg}

/-- An invariant that each move keeps. -/
theorem Moves.rule {P : Reg → Prop} (hP : ∀ {x y}, Move t x y → P x → P y) (h : Moves t x y)
    (hx : P x) : P y := by
  induction h with
  | refl => exact hx
  | tail _ hmove ih => exact hP hmove ih

private theorem Move.ne_noop (h : Move t x y) : x.cmd ≠ .noop := by
  intro hx
  cases h with
  | cellRead hcmd => exact absurd (hx.symm.trans hcmd) (by decide)
  | regRead hcmd => exact absurd (hx.symm.trans hcmd) (by decide)
  | regWrite hcmd => exact absurd (hx.symm.trans hcmd) (by decide)
  | cellWrite hcmd => exact absurd (hx.symm.trans hcmd) (by decide)
  | blockErase hcmd => exact absurd (hx.symm.trans hcmd) (by decide)
  | later hcmd => exact absurd (hx.symm.trans hcmd) (by decide)

/-- An idle register does not move. -/
theorem Moves.of_noop (h : Moves t x y) (hx : x.cmd = .noop) : y = x := by
  refine h.rule (P := fun y => y = x) (fun hmove heq => ?_) rfl
  exact absurd (heq ▸ hx) hmove.ne_noop

/-- Whoever accesses the register next empties it. -/
def Reg.Ready (x : Reg) : Prop :=
  x.cmd = .noop ∨ x.cmd = .read ∧ x.regTime ≠ -1 ∨
    (x.cmd = .write ∨ x.cmd = .erase) ∧ x.cellTime ≠ -1

theorem Move.ready (h : Move t x y) (hx : x.Ready) : y.Ready := by
  cases h with
  | cellRead hcmd =>
    simp only [Reg.Ready, hcmd] at hx ⊢
    simpa using hx
  | regRead => exact .inl rfl
  | regWrite hcmd =>
    simp only [Reg.Ready, hcmd] at hx ⊢
    simpa using hx
  | cellWrite => exact .inl rfl
  | blockErase => exact .inl rfl
  | later hcmd htime hnonneg => exact .inr (.inl ⟨hcmd, by dsimp only; omega⟩)

/-- No operation is left in the register. -/
def Reg.Empty (x : Reg) : Prop := x.regTime = -1 ∧ x.cellTime = -1

/-- The command is one that `SSD_REG_ACCESS` knows, and the time stamps it does not clear are
clear. -/
structure Reg.Plain (x : Reg) : Prop where
  command : x.cmd.IsCommand
  idle : x.cmd = .noop → x.Empty
  erase : x.cmd = .erase → x.regTime = -1

theorem Move.empty (h : Move t x y) (hx : x.Empty) : y.Empty := by
  cases h with
  | cellRead => exact ⟨hx.1, rfl⟩
  | regRead => exact ⟨rfl, rfl⟩
  | regWrite => exact ⟨rfl, hx.2⟩
  | cellWrite => exact ⟨rfl, rfl⟩
  | blockErase => exact ⟨hx.1, rfl⟩
  | later hcmd htime hnonneg =>
    have hreg := hx.1
    omega

theorem Move.plain (h : Move t x y) (hx : x.Plain) : y.Plain := by
  cases h with
  | cellRead hcmd => exact ⟨hx.command, fun hnoop => by simp [hcmd] at hnoop, hx.erase⟩
  | regRead => exact ⟨.inl rfl, fun _ => ⟨rfl, rfl⟩, fun _ => rfl⟩
  | regWrite hcmd => exact ⟨hx.command, fun hnoop => by simp [hcmd] at hnoop, fun _ => rfl⟩
  | cellWrite => exact ⟨.inl rfl, fun _ => ⟨rfl, rfl⟩, fun _ => rfl⟩
  | blockErase hcmd => exact ⟨.inl rfl, fun _ => ⟨hx.erase hcmd, rfl⟩, fun _ => hx.erase hcmd⟩
  | later hcmd =>
    exact ⟨hx.command, fun hnoop => by simp [hcmd] at hnoop, fun herase => by simp [hcmd] at herase⟩

/-- No transfer is left in the register. -/
def Reg.Quiet (x : Reg) : Prop := x.cmd = .read ∨ x.cmd = .write → x.regTime = -1

theorem Move.quiet (h : Move t x y) (hx : x.Quiet) : y.Quiet := by
  cases h with
  | cellRead hcmd => exact fun _ => hx (.inl hcmd)
  | regRead => exact fun _ => rfl
  | regWrite => exact fun _ => rfl
  | cellWrite => exact fun _ => rfl
  | blockErase => exact fun hcmd => by simp at hcmd
  | later hcmd htime hnonneg =>
    have hreg := hx (.inl hcmd)
    omega

/-- What an access makes of the register it is made to. -/
structure Emptied (x y : Reg) : Prop where
  quiet : y.Quiet
  empty : x.Plain → y.Empty
  noop : x.Ready → y.cmd = .noop

private theorem Emptied.trans (h : Emptied x y) {z : Reg} (h' : Moves t y z) : Emptied x z where
  quiet := h'.rule Move.quiet h.quiet
  empty hx := h'.rule Move.empty (h.empty hx)
  noop hx := by
    rw [h'.of_noop (h.noop hx)]
    exact h.noop hx

private theorem Moves.emptied (h : Moves t x y) {z : Reg} (h' : Emptied y z) : Emptied x z where
  quiet := h'.quiet
  empty hx := h'.empty (h.rule Move.plain hx)
  noop hx := h'.noop (h.rule Move.ready hx)

end moves

namespace DrainedAt

variable {t : IoConfig} {s s' s'' : Io} {reg : ℕ}

private theorem refl (reg : ℕ) (s : Io) : DrainedAt t reg s s := ⟨.refl, fun _ _ => rfl, rfl⟩

private theorem trans (h : DrainedAt t reg s s') (h' : DrainedAt t reg s' s'') :
    DrainedAt t reg s s'' :=
  ⟨h.moves.trans h'.moves, fun r hr => (h'.other r hr).trans (h.other r hr),
    h'.channelTime.trans h.channelTime⟩

theorem drained (h : DrainedAt t reg s s') : Drained t s s' := by
  refine ⟨fun r => ?_, h.channelTime⟩
  by_cases hr : r = reg
  · exact hr ▸ h.moves
  · rw [h.other r hr]

end DrainedAt

namespace Drained

variable {t : IoConfig} {s s' s'' : Io}

private theorem refl (s : Io) : Drained t s s := ⟨fun _ => .refl, rfl⟩

private theorem trans (h : Drained t s s') (h' : Drained t s' s'') : Drained t s s'' :=
  ⟨fun r => (h.moves r).trans (h'.moves r), h'.channelTime.trans h.channelTime⟩

/-- A step that leaves the registers alone. -/
theorem of_reg (hreg : s'.reg = s.reg) (hchannel : s'.oldChannelTime = s.oldChannelTime) :
    Drained t s s' :=
  ⟨fun r => by rw [hreg], hchannel⟩

end Drained

namespace Io

variable {g : Geometry} (t : IoConfig) (clk : Clock) {s : Io} {reg : ℕ}

/-! ### Request updates -/

/-- What `UPDATE_IO_REQUEST` can do: it changes the requests, reads the clock once or twice and
appends to the log, but no report of a cell operation. -/
theorem updateIoRequest_eq (requestNb offset time : ℤ) (type : UpdateType) (s : Io) :
    ∃ o requests es k, updateIoRequest t clk requestNb offset time type s =
      (o, { s with requests, log := s.log ++ es, tick := k }) ∧ (requestNb = -1 → o = 0) ∧
      (s.tick + 1 ≤ k ∧ k ≤ s.tick + 2) ∧
      ∀ opType opDelay, IoEvent.perf opType opDelay .regOp ∉ es := by
  have hone : s.tick + 1 ≤ s.tick + 1 ∧ s.tick + 1 ≤ s.tick + 2 := by omega
  have htwo : s.tick + 1 ≤ s.tick + 2 ∧ s.tick + 2 ≤ s.tick + 2 := by omega
  simp only [updateIoRequest, getUsec]
  split
  · exact ⟨_, _, [], _, by rw [List.append_nil], fun _ => rfl, hone, by simp⟩
  rename_i hnb
  have hvacant : ∀ {o : ℤ}, requestNb = -1 → o = 0 := fun h => absurd h hnb
  split
  · exact ⟨_, _, [_, _], _, rfl, hvacant, hone, by simp⟩
  · exact ⟨_, _, [_], _, rfl, hvacant, hone, by simp⟩
  split
  · exact ⟨_, _, [_], _, rfl, hvacant, hone, by simp⟩
  split
  · -- the request is complete
    simp only [complete, note, sendToPerfChecker, List.append_assoc]
    split
    · exact ⟨_, _, _, _, rfl, hvacant, htwo, by simp⟩
    · exact ⟨_, _, _, _, rfl, hvacant, htwo, by simp⟩
  · exact ⟨_, _, [_], _, rfl, hvacant, htwo, by simp⟩

private theorem updateIoRequest_state (requestNb offset time : ℤ) (type : UpdateType) (s : Io) :
    ∃ o requests log k, updateIoRequest t clk requestNb offset time type s =
      (o, { s with requests, log, tick := k }) ∧ (requestNb = -1 → o = 0) := by
  obtain ⟨o, requests, es, k, heq, hvacant, -⟩ := updateIoRequest_eq t clk requestNb offset time
    type s
  exact ⟨o, requests, _, k, heq, hvacant⟩

theorem ssdUpdateIoRequest_state (reg : ℕ) (s : Io) :
    ∃ o requests log k, ssdUpdateIoRequest t clk reg s =
      vacate reg o { s with requests, log, tick := k } ∧ (s.Vacant reg → o = 0) := by
  obtain ⟨o, requests, log, k, heq, hvacant⟩ := updateIoRequest_state t clk (s.accessNb reg).1
    (s.accessNb reg).2 (if s.initDiffReg ≠ 0 then clk.read s.tick else 0) .endTime
    { s with tick := s.tick + 1 }
  exact ⟨o, requests, log, k, congrArg (fun st : ℤ × Io => vacate reg st.1 st.2) heq, hvacant⟩

/-- Recording a host page changes the `access_nb` and the overhead of its register. -/
theorem recordHostPage_state (reg : ℕ) (offset : ℤ) (s : Io) :
    ∃ o requests log k, recordHostPage t clk reg offset s =
      ssdUpdateIoOverhead reg o
        { tie reg offset s with requests, log, tick := k, ioUpdateOverhead := o } := by
  obtain ⟨o, requests, log, k, heq, -⟩ := updateIoRequest_state t clk (toI32 s.ioRequestSeqNb) offset
    s.oldChannelTime .startTime (tie reg offset s)
  exact ⟨o, requests, log, k, congrArg (fun st : ℤ × Io =>
    ssdUpdateIoOverhead reg st.1 { st.2 with ioUpdateOverhead := st.1 }) heq⟩

/-! ### Delays -/

theorem ssdCellReadDelay_drained (hcmd : s.regIoCmd reg = .read) :
    DrainedAt t reg s (ssdCellReadDelay t clk reg s).2 ∧
      (ssdCellReadDelay t clk reg s).2.cellIoTime reg = -1 ∧
      (ssdCellReadDelay t clk reg s).2.regIoCmd = s.regIoCmd ∧
      (ssdCellReadDelay t clk reg s).2.regIoTime = s.regIoTime := by
  rw [ssdCellReadDelay]
  split
  · rename_i hcell
    exact ⟨.refl reg s, hcell, rfl, rfl⟩
  · refine ⟨⟨.single ?_, fun r hr => ?_, rfl⟩, Function.update_self .., rfl, rfl⟩
    · have hmove := Move.cellRead (t := t) (x := s.reg reg) hcmd
      simpa [Io.reg, charge, spend, getUsec, sendToPerfChecker, note] using hmove
    · simp [Io.reg, charge, spend, getUsec, sendToPerfChecker, note, hr]

/-- `SSD_REG_READ_DELAY`, after the delay of the cell. -/
theorem ssdRegReadDelay_drained (hcmd : s.regIoCmd reg = .read) (hcell : s.cellIoTime reg = -1) :
    DrainedAt t reg s (ssdRegReadDelay t clk reg s).2 ∧
      (ssdRegReadDelay t clk reg s).2.regIoTime reg = -1 ∧
      (ssdRegReadDelay t clk reg s).2.cellIoTime reg = -1 ∧
      (s.regIoTime reg ≠ -1 → (ssdRegReadDelay t clk reg s).2.regIoCmd reg = .noop) := by
  rw [ssdRegReadDelay]
  split
  · rename_i htime
    exact ⟨.refl reg s, htime, hcell, fun hne => absurd htime hne⟩
  · obtain ⟨o, requests, log, k, heq, hvacant⟩ := ssdUpdateIoRequest_state t clk reg
      (charge clk reg (s.regIoTime reg) 0 t.regReadDelay .chOp s).2
    dsimp only
    rw [heq]
    refine ⟨⟨.single ?_, fun r hr => ?_, rfl⟩, Function.update_self .., hcell,
      fun _ => Function.update_self ..⟩
    · have hmove := Move.regRead (t := t) (x := s.reg reg) hcmd hcell hvacant
      simpa [Io.reg, vacate, ssdUpdateIoOverhead, charge, spend, getUsec, sendToPerfChecker, note,
        hcell] using hmove
    · simp [Io.reg, vacate, ssdUpdateIoOverhead, charge, spend, getUsec, sendToPerfChecker, note, hr]

/-- The two delays of a read. -/
theorem readDelays_drained (hcmd : s.regIoCmd reg = .read) :
    DrainedAt t reg s (ssdRegReadDelay t clk reg (ssdCellReadDelay t clk reg s).2).2 ∧
      Emptied (s.reg reg)
        ((ssdRegReadDelay t clk reg (ssdCellReadDelay t clk reg s).2).2.reg reg) := by
  obtain ⟨hcell, hcellTime, hcommand, htime⟩ := ssdCellReadDelay_drained t clk hcmd
  obtain ⟨hread, hregTime', hcellTime', hnoop⟩ := ssdRegReadDelay_drained t clk
    ((congrFun hcommand reg).trans hcmd) hcellTime
  refine ⟨hcell.trans hread, fun _ => hregTime', fun _ => ⟨hregTime', hcellTime'⟩, fun hready => hnoop ?_⟩
  rw [htime]
  simpa [Reg.Ready, Io.reg, hcmd] using hready

theorem ssdRegWriteDelay_drained (hcmd : s.regIoCmd reg = .write) :
    DrainedAt t reg s (ssdRegWriteDelay t clk reg s).2 ∧
      (ssdRegWriteDelay t clk reg s).2.regIoTime reg = -1 ∧
      (ssdRegWriteDelay t clk reg s).2.regIoCmd = s.regIoCmd ∧
      (ssdRegWriteDelay t clk reg s).2.cellIoTime = s.cellIoTime := by
  rw [ssdRegWriteDelay]
  split
  · rename_i htime
    exact ⟨.refl reg s, htime, rfl, rfl⟩
  · refine ⟨⟨.single ?_, fun r hr => ?_, rfl⟩, Function.update_self .., rfl, rfl⟩
    · have hmove := Move.regWrite (t := t) (x := s.reg reg) hcmd
      simpa [Io.reg, charge, spend, getUsec, sendToPerfChecker, note] using hmove
    · simp [Io.reg, charge, spend, getUsec, sendToPerfChecker, note, hr]

/-- `SSD_CELL_WRITE_DELAY`, after the delay of the transfer. -/
theorem ssdCellWriteDelay_drained (hcmd : s.regIoCmd reg = .write) (htime : s.regIoTime reg = -1) :
    DrainedAt t reg s (ssdCellWriteDelay t clk reg s).2 ∧
      (ssdCellWriteDelay t clk reg s).2.regIoTime reg = -1 ∧
      (ssdCellWriteDelay t clk reg s).2.cellIoTime reg = -1 ∧
      (s.cellIoTime reg ≠ -1 → (ssdCellWriteDelay t clk reg s).2.regIoCmd reg = .noop) := by
  rw [ssdCellWriteDelay]
  split
  · rename_i hcell
    exact ⟨.refl reg s, htime, hcell, fun hne => absurd hcell hne⟩
  · dsimp only
    generalize hd : charge clk reg (s.cellIoTime reg) (s.ioOverhead reg) t.cellProgramDelay .regOp
      s = d
    obtain ⟨o, requests, log, k, heq, -⟩ := ssdUpdateIoRequest_state t clk reg
      { d.2 with initDiffReg := if d.1.waited then d.1.diff else d.2.initDiffReg }
    rw [heq, ← hd]
    refine ⟨⟨.single ?_, fun r hr => ?_, rfl⟩, htime, Function.update_self ..,
      fun _ => Function.update_self ..⟩
    · have hmove := Move.cellWrite (t := t) (x := s.reg reg) hcmd htime
      simpa [Io.reg, vacate, ssdUpdateIoOverhead, charge, spend, getUsec, sendToPerfChecker, note,
        htime] using hmove
    · simp [Io.reg, vacate, ssdUpdateIoOverhead, charge, spend, getUsec, sendToPerfChecker, note, hr]

theorem ssdBlockEraseDelay_drained (hcmd : s.regIoCmd reg = .erase) :
    DrainedAt t reg s (ssdBlockEraseDelay t clk reg s).2 ∧
      Emptied (s.reg reg) ((ssdBlockEraseDelay t clk reg s).2.reg reg) := by
  rw [ssdBlockEraseDelay]
  split
  · rename_i hcell
    refine ⟨.refl reg s, fun hquiet => ?_, fun hplain => ⟨hplain.erase hcmd, hcell⟩, fun hready => ?_⟩
    · simp [Io.reg, hcmd] at hquiet
    · simp [Reg.Ready, Io.reg, hcmd, hcell] at hready
  · refine ⟨⟨.single ?_, fun r hr => ?_, rfl⟩, fun hquiet => ?_,
      fun hplain => ⟨hplain.erase hcmd, Function.update_self ..⟩, fun _ => Function.update_self ..⟩
    · have hmove := Move.blockErase (t := t) (x := s.reg reg) hcmd
      simpa [Io.reg, spend, getUsec, sendToPerfChecker, note] using hmove
    · simp [Io.reg, spend, getUsec, sendToPerfChecker, note, hr]
    · simp [Io.reg] at hquiet

/-! ### Accesses -/

/-- `SSD_REG_ACCESS` empties its register. -/
theorem ssdRegAccess_drained (reg : ℕ) (s : Io) : DrainedAt t reg s (ssdRegAccess t clk reg s).2 ∧
    Emptied (s.reg reg) ((ssdRegAccess t clk reg s).2.reg reg) := by
  rw [ssdRegAccess]
  split <;> rename_i hcmd
  · refine ⟨.refl reg s, fun hquiet => ?_, fun hplain => hplain.idle hcmd, fun _ => hcmd⟩
    simp [Io.reg, hcmd] at hquiet
  · exact readDelays_drained t clk hcmd
  · obtain ⟨hwrite, htime, hcommand, hcell⟩ := ssdRegWriteDelay_drained t clk hcmd
    obtain ⟨hdrain, htime', hcell', hnoop⟩ := ssdCellWriteDelay_drained t clk
      ((congrFun hcommand reg).trans hcmd) htime
    refine ⟨hwrite.trans hdrain, fun _ => htime', fun _ => ⟨htime', hcell'⟩,
      fun hready => hnoop ?_⟩
    rw [hcell]
    simpa [Reg.Ready, Io.reg, hcmd] using hready
  · exact ssdBlockEraseDelay_drained t clk hcmd
  · -- the command is none of the four that a register has
    refine ⟨⟨.refl, fun _ _ => rfl, rfl⟩, fun hquiet => ?_, fun hplain => ?_, fun hready => ?_⟩
    · simp_all [Io.reg, note]
    · rcases hplain.command with hnoop | hread | hwrite | herase <;> simp_all [Io.reg]
    · rcases hready with hnoop | ⟨hread, -⟩ | ⟨hwrite | herase, -⟩ <;> simp_all [Io.reg]

private theorem flashAccessLoop_drained (reg : ℕ) (rs : List ℕ) (ret : Bool) (s : Io) :
    Drained t s (flashAccessLoop t clk reg rs (ret, s)).2 ∧
      (reg ∈ rs → Emptied (s.reg reg) ((flashAccessLoop t clk reg rs (ret, s)).2.reg reg)) := by
  induction rs generalizing s ret with
  | nil => exact ⟨.refl s, fun hmem => absurd hmem List.not_mem_nil⟩
  | cons r rs ih =>
    rw [flashAccessLoop]
    split
    · rename_i hskip
      obtain ⟨hdrain, hempty⟩ := ih ret s
      exact ⟨hdrain, fun hmem => hempty ((List.mem_cons.mp hmem).resolve_left (Ne.symm hskip.1))⟩
    · obtain ⟨hfirst, hempty₁⟩ := ssdRegAccess_drained t clk r s
      obtain ⟨hdrain, hempty⟩ := ih (ssdRegAccess t clk r s).1 (ssdRegAccess t clk r s).2
      refine ⟨hfirst.drained.trans hdrain, fun hmem => ?_⟩
      rcases List.mem_cons.mp hmem with rfl | hmem
      · exact hempty₁.trans (hdrain.moves reg)
      · exact (hfirst.drained.moves reg).emptied (hempty hmem)

/-- With either setting of `IO_PARALLELISM`, the access of an operation empties its register. -/
theorem access_drained (flashNb blockNb : ℕ) (s : Io) :
    Drained t s (access g t clk flashNb (regOf g flashNb blockNb) s).2 ∧
      Emptied (s.reg (regOf g flashNb blockNb))
        ((access g t clk flashNb (regOf g flashNb blockNb) s).2.reg (regOf g flashNb blockNb)) := by
  rw [access]
  split
  · exact (ssdRegAccess_drained t clk _ s).imp_left DrainedAt.drained
  · exact (flashAccessLoop_drained t clk _ _ false s).imp_right fun hempty =>
      hempty (regOf_mem_chipRegs flashNb blockNb)

private theorem chAccessReg_drained (r : ℕ) (st : Ret × Io) :
    Drained t st.2 (chAccessReg t clk r st).2 := by
  obtain ⟨ret, s⟩ := st
  have htick : Drained t s { s with tick := s.tick + 1 } := .of_reg rfl rfl
  by_cases htime : s.regIoTime r ≤ clk.read s.tick ∧ s.regIoTime r ≠ -1
  · simp only [chAccessReg, getUsec, htime.1, htime.2, ne_eq, not_false_eq_true, and_self, if_true]
    split
    · rename_i hcmd
      exact htick.trans (readDelays_drained t clk (s := { s with tick := s.tick + 1 }) hcmd).1.drained
    · rename_i hcmd
      exact htick.trans (ssdRegWriteDelay_drained t clk (s := { s with tick := s.tick + 1 }) hcmd).1.drained
    · exact htick
  · simp only [chAccessReg, getUsec, htime, if_false]
    exact htick

theorem chAccess_foldl_drained (rs : List ℕ) (st : Ret × Io) :
    Drained t st.2 (rs.foldl (fun st r => chAccessReg t clk r st) st).2 := by
  induction rs generalizing st with
  | nil => exact .refl _
  | cons r rs ih => exact (chAccessReg_drained t clk r st).trans (ih _)

theorem chAccessLoop_drained (channel fuel : ℕ) (s : Io) :
    Drained t s (chAccessLoop g t clk channel fuel s) := by
  induction fuel generalizing s with
  | zero => exact .of_reg rfl rfl
  | succ fuel ih =>
    have hround := chAccess_foldl_drained t clk (channelRegs g t channel) (.success, s)
    rw [chAccessLoop]
    split <;> rename_i hs <;> rw [ssdChAccess] at hs <;> rw [hs] at hround
    · exact hround
    · exact hround.trans (ih _)

theorem waitForChannel_drained (channel : ℕ) (s : Io) :
    Drained t s (waitForChannel g t clk channel s) :=
  chAccessLoop_drained t clk channel _ s

theorem finishLastPage_drained (reg : ℕ) (offset ioPageNb : ℤ) (s : Io) :
    DrainedAt t reg s (finishLastPage t clk reg offset ioPageNb s) := by
  rw [finishLastPage]
  split
  · exact (ssdRegAccess_drained t clk reg s).1
  · exact .refl reg s

/-! ### The channel -/

theorem ssdChEnable_drained (channel : ℕ) (s : Io) : Drained t s (ssdChEnable t clk channel s) := by
  simp only [ssdChEnable, ssdChSwitchDelay]
  split
  · exact .refl s
  split
  · split
    · exact .of_reg rfl rfl
    · exact .of_reg rfl rfl
    · exact .refl s
  · exact .refl s

theorem ssdChRecord_reg (channel : ℕ) (cmd : IoType) (offset : ℤ) (ret : Bool) (s : Io) :
    (ssdChRecord t clk channel cmd offset ret s).reg = s.reg := by
  simp only [ssdChRecord, getUsec]
  split
  · rfl
  · split <;> rfl

/-! ### Recording operations -/

/-- A write moves the reads that are later on its channel. -/
private theorem ssdUpdateChAccessTime_moves (channel : ℕ) (currentTime : ℤ)
    (hnonneg : 0 ≤ currentTime) (s : Io) (r : ℕ) :
    Moves t (s.reg r) ((ssdUpdateChAccessTime g t channel currentTime s).reg r) := by
  rw [ssdUpdateChAccessTime]
  suffices h : ∀ time : ℕ → ℤ, Moves t ({ s with regIoTime := time }.reg r)
      ({ s with
        regIoTime := (channelRegs g t channel).foldl
          (fun time r => if s.regIoCmd r = IoType.read ∧ currentTime < time r
            then Function.update time r (time r + t.regWriteDelay) else time) time }.reg r) from
    h s.regIoTime
  induction channelRegs g t channel with
  | nil => exact fun _ => .refl
  | cons k ks ih =>
    intro time
    rw [List.foldl_cons]
    refine Relation.ReflTransGen.trans ?_ (ih _)
    split
    · rename_i hlater
      by_cases hr : r = k
      · subst hr
        have hmove := Move.later (t := t) (x := { s with regIoTime := time }.reg r) hlater.1
          hlater.2 hnonneg
        exact .single (by simpa [Io.reg] using hmove)
      · rw [show ({ s with regIoTime := Function.update time k _ } : Io).reg r =
          { s with regIoTime := time }.reg r by simp [Io.reg, hr]]
    · exact .refl

/-- It moves no other register. -/
theorem ssdUpdateChAccessTime_other (channel : ℕ) (currentTime : ℤ) {r : ℕ}
    (hcmd : s.regIoCmd r ≠ .read) :
    (ssdUpdateChAccessTime g t channel currentTime s).regIoTime r = s.regIoTime r := by
  rw [ssdUpdateChAccessTime]
  dsimp only
  generalize s.regIoTime = time
  induction channelRegs g t channel generalizing time with
  | nil => rfl
  | cons k ks ih =>
    rw [List.foldl_cons, ih]
    split
    · rename_i hlater
      exact Function.update_of_ne (fun hr : r = k => hcmd (hr ▸ hlater.1)) ..
    · rfl

/-- `SSD_CELL_RECORD` writes one register. -/
theorem ssdCellRecord_other {r : ℕ} (hr : r ≠ reg) (cmd : IoType) (s : Io) :
    (ssdCellRecord t clk reg cmd s).reg r = s.reg r := by
  cases cmd with
  | write => simp [Io.reg, ssdCellRecord, hr]
  | read => simp [Io.reg, ssdCellRecord, hr]
  | erase => simp [Io.reg, ssdCellRecord, getUsec, hr]
  | _ => rfl

/-- `SSD_REG_RECORD` for an erase clears the request of its register. -/
theorem ssdRegRecord_erase_other {r : ℕ} (hr : r ≠ reg) (channel : ℕ) (s : Io) :
    (ssdRegRecord g t clk reg .erase .erase (-1) channel s).reg r = s.reg r := by
  simp [Io.reg, ssdRegRecord, setCommand, untie, hr]

theorem allocIoRequest_reg (sectorNb : ℤ) (length : ℕ) (ioType : IoType) (s : Io) :
    (allocIoRequest g clk sectorNb length ioType s).reg = s.reg ∧
      (allocIoRequest g clk sectorNb length ioType s).oldChannelTime = s.oldChannelTime := by
  simp only [allocIoRequest, getUsec]
  split
  · exact ⟨rfl, rfl⟩
  · exact ⟨rfl, rfl⟩

/-- `SSD_REG_RECORD` for a read. -/
theorem ssdRegRecord_read (reg : ℕ) (type : IoType) (offset : ℤ) (channel : ℕ) (s : Io) :
    ∃ a o s', ssdRegRecord g t clk reg .read type offset channel s = s' ∧
      s'.reg reg = ⟨.read, type,
        ssdGetChAccessTimeForRead g t channel reg (setCommand reg .read type s),
        s.cellIoTime reg, a, s.ioOverhead reg + o⟩ ∧
      (type ≠ .read → a.1 = -1 ∧ o = 0) ∧ (∀ r ≠ reg, s'.reg r = s.reg r) ∧
      s'.oldChannelTime = s.oldChannelTime := by
  simp only [ssdRegRecord]
  split
  · obtain ⟨o, requests, log, k, heq⟩ := recordHostPage_state t clk reg offset
      (stampRead g t reg channel (setCommand reg .read type s))
    rw [heq]
    refine ⟨(toI32 s.ioRequestSeqNb, offset), o, _, rfl, ?_, fun hne => absurd ‹type = .read› hne,
      fun r hr => ?_, rfl⟩
    · simp [Io.reg, ssdUpdateIoOverhead, tie, stampRead, setCommand]
    · simp [Io.reg, ssdUpdateIoOverhead, tie, stampRead, setCommand, hr]
  · refine ⟨(-1, -1), 0, _, rfl, ?_, fun _ => ⟨rfl, rfl⟩, fun r hr => ?_, rfl⟩
    · simp [Io.reg, untie, stampRead, setCommand]
    · simp [Io.reg, untie, stampRead, setCommand, hr]

/-- `SSD_REG_RECORD` for a write. -/
theorem ssdRegRecord_write (reg : ℕ) (type : IoType) (offset : ℤ) (channel : ℕ)
    (hchannel : 0 ≤ s.oldChannelTime) :
    ∃ a o s', ssdRegRecord g t clk reg .write type offset channel s = s' ∧
      s'.reg reg = ⟨.write, type, s.oldChannelTime + t.channelSwitchDelayW, s.cellIoTime reg, a,
        s.ioOverhead reg + o⟩ ∧
      (∀ r ≠ reg, Moves t (s.reg r) (s'.reg r)) ∧ s'.oldChannelTime = s.oldChannelTime := by
  -- the stamp: the register is no read, so its own time is not shifted
  have hown : (stampWrite g t reg channel (setCommand reg .write type s)).regIoTime reg =
      s.oldChannelTime + t.channelSwitchDelayW := by
    rw [stampWrite, ssdUpdateChAccessTime_other t channel _ (by simp [setCommand])]
    exact Function.update_self ..
  have hother : ∀ r ≠ reg, Moves t (s.reg r)
      ((stampWrite g t reg channel (setCommand reg .write type s)).reg r) := fun r hr => by
    have hmoves := ssdUpdateChAccessTime_moves (g := g) t channel
      (s.oldChannelTime + t.channelSwitchDelayW) (by omega)
      { setCommand reg .write type s with
        regIoTime := Function.update s.regIoTime reg (s.oldChannelTime + t.channelSwitchDelayW) } r
    rwa [show Io.reg { setCommand reg .write type s with
      regIoTime := Function.update s.regIoTime reg (s.oldChannelTime + t.channelSwitchDelayW) } r =
      s.reg r by simp [Io.reg, setCommand, hr]] at hmoves
  have hrest : ∀ s' : Io, (∀ r ≠ reg, s'.reg r =
      (stampWrite g t reg channel (setCommand reg .write type s)).reg r) →
      ∀ r ≠ reg, Moves t (s.reg r) (s'.reg r) := fun s' hs' r hr => hs' r hr ▸ hother r hr
  simp only [ssdRegRecord]
  split
  · obtain ⟨o, requests, log, k, heq⟩ := recordHostPage_state t clk reg offset
      (stampWrite g t reg channel (setCommand reg .write type s))
    rw [heq]
    refine ⟨(toI32 s.ioRequestSeqNb, offset), o, _, rfl, ?_, hrest _ fun r hr => ?_, rfl⟩
    · simp only [Io.reg, ssdUpdateIoOverhead, tie, hown]
      simp [stampWrite, ssdUpdateChAccessTime, setCommand]
    · simp [Io.reg, ssdUpdateIoOverhead, tie, hr]
  · refine ⟨(-1, -1), 0, _, rfl, ?_, hrest _ fun r hr => ?_, rfl⟩
    · simp only [Io.reg, untie, hown]
      simp [stampWrite, ssdUpdateChAccessTime, setCommand]
    · simp [Io.reg, untie, hr]

end Io

/-! ### Invariants -/

/-- A property of the contents of registers, of all of them. -/
structure Everywhere (P : Reg → Prop) (s : Io) : Prop where
  reg : ∀ r, P (s.reg r)
  channelTime : 0 ≤ s.oldChannelTime

namespace Everywhere

variable {t : IoConfig} {P : Reg → Prop} {s s' : Io}

theorem drained (h : Everywhere P s) (hP : ∀ {x y}, Move t x y → P x → P y) (hs : Drained t s s') :
    Everywhere P s' :=
  ⟨fun r => (hs.moves r).rule hP (h.reg r), hs.channelTime.symm ▸ h.channelTime⟩

/-- One register is written and the others move. -/
theorem put (h : Everywhere P s) (hP : ∀ {x y}, Move t x y → P x → P y) (reg : ℕ)
    (hreg : P (s'.reg reg)) (hother : ∀ r ≠ reg, Moves t (s.reg r) (s'.reg r))
    (hchannel : s'.oldChannelTime = s.oldChannelTime) : Everywhere P s' := by
  refine ⟨fun r => ?_, hchannel.symm ▸ h.channelTime⟩
  by_cases hr : r = reg
  · exact hr ▸ hreg
  · exact (hother r hr).rule hP (h.reg r)

theorem chRecord (h : Everywhere P s) (t : IoConfig) (clk : Clock) (channel : ℕ) (cmd : IoType)
    (offset : ℤ) (ret : Bool) : Everywhere P (ssdChRecord t clk channel cmd offset ret s) := by
  refine ⟨fun r => ?_, (ssdChRecord_alike t clk channel cmd offset ret).channelTime h.channelTime⟩
  rw [ssdChRecord_reg]
  exact h.reg r

end Everywhere

end Vssim
