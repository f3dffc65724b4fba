import Vssim.Ftl.Occupancy
import Vssim.Io.Lifecycle
import Vssim.Io.Moves

/-!
# The utilisation counter

`SEND_TO_PERF_CHECKER` keeps `written_page_nb` from the operation type that each register
remembers, when the delay of its cell operation is charged. What has not been charged yet is
still in a register, so the counter and the registers together make a **ledger** that
draining leaves alone and that every call of the FTL adds to exactly once (`call_adds`).

A partial write adds twice: the read of the old page is recorded under the type of the
write. So with all registers drained the counter is the number of programmed pages exactly
in the runs in which no write merges (`run_writtenPageNb`).
-/

namespace Vssim

open Io Finset

variable (g : Geometry)

/-- What `SEND_TO_PERF_CHECKER` adds to `written_page_nb` for a cell operation. -/
def IoType.utilisation : IoType → ℤ
  | .write | .gcWrite | .seqWrite | .ranWrite | .ranColdWrite | .ranHotWrite | .seqMergeWrite
  | .ranMergeWrite | .ranColdMergeWrite | .ranHotMergeWrite => 1
  | .erase => -g.pageNb
  | _ => 0

/-- Only `REG_OP` reports reach `written_page_nb`. -/
def IoEvent.utilisation : IoEvent → ℤ
  | .perf opType _ .regOp => opType.utilisation g
  | _ => 0

namespace Io

/-- `written_page_nb`, which starts at zero. -/
def writtenPageNb (s : Io) : ℤ := (s.log.map (IoEvent.utilisation g)).sum

/-- What the cell operation in a register has yet to add. -/
def unsettled (s : Io) (reg : ℕ) : ℤ :=
  if s.cellIoTime reg = -1 then 0 else (s.regIoType reg).utilisation g

/-- The counter, with what is still in the registers. -/
def ledger (s : Io) : ℤ := s.writtenPageNb g + ∑ reg ∈ range g.regNb, s.unsettled g reg

end Io

/-- An idle register has no cell operation, and a command is one that `SSD_REG_ACCESS` knows. -/
structure Sound (s : Io) : Prop where
  idle : ∀ reg, s.regIoCmd reg = .noop → s.cellIoTime reg = -1
  command : ∀ reg, (s.regIoCmd reg).IsCommand
  channelTime : 0 ≤ s.oldChannelTime

/-- A step that adds `n` to the ledger. -/
structure Adds (s s' : Io) (n : ℤ) : Prop where
  sound : Sound s'
  ledger : s'.ledger g = s.ledger g + n

/-- A step that drains registers: what it takes out of them is in the counter. -/
structure Pays (s s' : Io) : Prop extends Adds g s s' 0 where
  quiet : ∀ reg, s.cellIoTime reg = -1 → s'.cellIoTime reg = -1

/-- A step that touches neither the cell operations nor the counter. -/
structure Still (s s' : Io) : Prop where
  command : s'.regIoCmd = s.regIoCmd
  type : s'.regIoType = s.regIoType
  cellTime : s'.cellIoTime = s.cellIoTime
  written : s'.writtenPageNb g = s.writtenPageNb g
  channelTime : 0 ≤ s.oldChannelTime → 0 ≤ s'.oldChannelTime

variable {g} {s s' s'' : Io} {reg : ℕ} {m n : ℤ}

/-! ### The ledger -/

private theorem writtenPageNb_append {es : List IoEvent} (hlog : s'.log = s.log ++ es) :
    s'.writtenPageNb g = s.writtenPageNb g + (es.map (IoEvent.utilisation g)).sum := by
  rw [writtenPageNb, hlog, List.map_append, List.sum_append, writtenPageNb]

/-- Changing one register. -/
private theorem ledger_eq (hreg : reg < g.regNb)
    (hother : ∀ r, r ≠ reg → s'.unsettled g r = s.unsettled g r) :
    s'.ledger g + s.writtenPageNb g + s.unsettled g reg =
      s.ledger g + s'.writtenPageNb g + s'.unsettled g reg := by
  have hmem : reg ∈ range g.regNb := mem_range.mpr hreg
  have hrest : ∑ r ∈ (range g.regNb).erase reg, s'.unsettled g r =
      ∑ r ∈ (range g.regNb).erase reg, s.unsettled g r :=
    sum_congr rfl fun r hr => hother r (ne_of_mem_erase hr)
  rw [Io.ledger, Io.ledger, ← add_sum_erase _ _ hmem, ← add_sum_erase _ (fun r => s.unsettled g r) hmem,
    hrest]
  ring

/-- With all registers idle, the counter is the ledger. -/
private theorem Sound.writtenPageNb_eq (h : Sound s)
    (hidle : ∀ reg < g.regNb, s.regIoCmd reg = .noop) : s.writtenPageNb g = s.ledger g := by
  have hzero : ∀ reg ∈ range g.regNb, s.unsettled g reg = 0 := fun reg hreg =>
    if_pos (h.idle reg (hidle reg (mem_range.mp hreg)))
  rw [Io.ledger, sum_eq_zero hzero, add_zero]

namespace Adds

private theorem trans (h : Adds g s s' m) (h' : Adds g s' s'' n) : Adds g s s'' (m + n) :=
  ⟨h'.sound, by rw [h'.ledger, h.ledger, add_assoc]⟩

/-- An operation is recorded in a register without a cell operation. -/
private theorem record (h : Sound s) (hreg : reg < g.regNb) (hcell : s.cellIoTime reg = -1)
    {cmd type : IoType} (hcmd : cmd = .read ∨ cmd = .write ∨ cmd = .erase) {x : ℤ} (hx : 0 ≤ x)
    (hcommand : s'.regIoCmd = Function.update s.regIoCmd reg cmd)
    (htype : s'.regIoType = Function.update s.regIoType reg type)
    (hcellTime : s'.cellIoTime = Function.update s.cellIoTime reg x)
    (hwritten : s'.writtenPageNb g = s.writtenPageNb g)
    (hchannel : 0 ≤ s'.oldChannelTime) : Adds g s s' (type.utilisation g) := by
  refine ⟨⟨fun r hr => ?_, fun r => ?_, hchannel⟩, ?_⟩
  · by_cases hne : r = reg
    · rw [hcommand, hne, Function.update_self] at hr
      subst hr
      simp at hcmd
    · rw [hcommand, Function.update_of_ne hne] at hr
      rw [hcellTime, Function.update_of_ne hne, h.idle r hr]
  · by_cases hne : r = reg
    · rw [hcommand, hne, Function.update_self]
      exact .inr hcmd
    · rw [hcommand, Function.update_of_ne hne]
      exact h.command r
  · have hbefore : s.unsettled g reg = 0 := if_pos hcell
    have hafter : s'.unsettled g reg = type.utilisation g := by
      rw [unsettled, hcellTime, htype, Function.update_self, Function.update_self,
        if_neg (by omega)]
    have hrest : ∀ r, r ≠ reg → s'.unsettled g r = s.unsettled g r := fun r hne => by
      rw [unsettled, unsettled, hcellTime, htype, Function.update_of_ne hne,
        Function.update_of_ne hne]
    have heq := ledger_eq hreg hrest
    rw [hbefore, hafter, hwritten] at heq
    omega

end Adds

namespace Pays

private theorem refl (h : Sound s) : Pays g s s := ⟨⟨h, (add_zero _).symm⟩, fun _ => id⟩

private theorem trans (h : Pays g s s') (h' : Pays g s' s'') : Pays g s s'' :=
  ⟨h.toAdds.trans h'.toAdds, fun reg => h'.quiet reg ∘ h.quiet reg⟩

private theorem adds_trans (h : Pays g s s') (h' : Adds g s' s'' n) : Adds g s s'' n := by
  have hboth := h.toAdds.trans h'
  rwa [zero_add] at hboth

/-- The cell operation of a register is charged. -/
private theorem settle (h : Sound s) (hreg : reg < g.regNb) (hcell : s'.cellIoTime reg = -1)
    (hother : ∀ r, r ≠ reg → s'.cellIoTime r = s.cellIoTime r ∧ s'.regIoType r = s.regIoType r ∧
      s'.regIoCmd r = s.regIoCmd r)
    (hcmd : (s'.regIoCmd reg).IsCommand)
    (hwritten : s'.writtenPageNb g = s.writtenPageNb g + s.unsettled g reg)
    (hchannel : 0 ≤ s'.oldChannelTime) : Pays g s s' := by
  refine ⟨⟨⟨fun r hr => ?_, fun r => ?_, hchannel⟩, ?_⟩, fun r hr => ?_⟩
  · by_cases hne : r = reg
    · rw [hne, hcell]
    · rw [(hother r hne).2.2] at hr
      rw [(hother r hne).1, h.idle r hr]
  · by_cases hne : r = reg
    · rw [hne]
      exact hcmd
    · rw [(hother r hne).2.2]
      exact h.command r
  · have hzero : s'.unsettled g reg = 0 := if_pos hcell
    have hrest : ∀ r, r ≠ reg → s'.unsettled g r = s.unsettled g r := fun r hne => by
      rw [unsettled, unsettled, (hother r hne).1, (hother r hne).2.1]
    have heq := ledger_eq hreg hrest
    rw [hzero, hwritten] at heq
    omega
  · by_cases hne : r = reg
    · rw [hne, hcell]
    · rw [(hother r hne).1, hr]

end Pays

namespace Still

private theorem refl (s : Io) : Still g s s := ⟨rfl, rfl, rfl, rfl, id⟩

private theorem trans (h : Still g s s') (h' : Still g s' s'') : Still g s s'' :=
  ⟨h'.command.trans h.command, h'.type.trans h.type, h'.cellTime.trans h.cellTime,
    h'.written.trans h.written, h'.channelTime ∘ h.channelTime⟩

private theorem unsettled (h : Still g s s') (reg : ℕ) :
    s'.unsettled g reg = s.unsettled g reg := by
  rw [Io.unsettled, Io.unsettled, h.cellTime, h.type]

private theorem sound (h : Still g s s') (hs : Sound s) : Sound s' where
  idle := by rw [h.command, h.cellTime]; exact hs.idle
  command := by rw [h.command]; exact hs.command
  channelTime := h.channelTime hs.channelTime

private theorem pays (h : Still g s s') (hs : Sound s) : Pays g s s' := by
  refine ⟨⟨h.sound hs, ?_⟩, fun reg => by rw [h.cellTime]; exact id⟩
  rw [Io.ledger, h.written, sum_congr rfl fun reg _ => h.unsettled reg, add_zero]
  rfl

private theorem note {es : List IoEvent} (hes : ∀ e ∈ es, e.utilisation g = 0) :
    Still g s (s.note es) := by
  refine ⟨rfl, rfl, rfl, ?_, id⟩
  rw [writtenPageNb_append rfl,
    List.sum_eq_zero (List.forall_mem_map.mpr hes), add_zero]

private theorem tick (s : Io) (k : ℕ) : Still g s { s with tick := k } := ⟨rfl, rfl, rfl, rfl, id⟩

end Still

namespace Io

variable (t : IoConfig) (clk : Clock)

/-! ### Request updates -/

/-- `UPDATE_IO_REQUEST` changes the requests and the log only, and not the counter. -/
private theorem updateIoRequest_frame (requestNb offset time : ℤ) (type : UpdateType) (s : Io) :
    ∃ requests log k,
      (updateIoRequest t clk requestNb offset time type s).2 = { s with requests, log, tick := k } ∧
      (log.map (IoEvent.utilisation g)).sum = s.writtenPageNb g := by
  obtain ⟨o, requests, es, k, heq, -, -, hreport⟩ := updateIoRequest_eq t clk requestNb offset time
    type s
  have hzero : ∀ e ∈ es, e.utilisation g = 0 := fun e he => by
    cases e with
    | perf opType opDelay kind =>
      cases kind with
      | regOp => exact absurd he (hreport opType opDelay)
      | _ => rfl
    | _ => rfl
  refine ⟨requests, _, k, congrArg Prod.snd heq, ?_⟩
  rw [List.map_append, List.sum_append, List.sum_eq_zero (List.forall_mem_map.mpr hzero), add_zero]
  rfl

private theorem ssdUpdateIoRequest_still (reg : ℕ) :
    Still g s (ssdUpdateIoRequest t clk reg s) := by
  obtain ⟨requests, log, k, heq, hlog⟩ := updateIoRequest_frame (g := g) t clk (s.accessNb reg).1
    (s.accessNb reg).2 (if s.initDiffReg ≠ 0 then clk.read s.tick else 0) .endTime
    { s with tick := s.tick + 1 }
  obtain ⟨o, hs⟩ : ∃ o, ssdUpdateIoRequest t clk reg s =
      vacate reg o { s with requests, log, tick := k } := by
    simp only [ssdUpdateIoRequest, getUsec]
    exact ⟨_, congrArg (vacate reg _) heq⟩
  rw [hs]
  exact ⟨rfl, rfl, rfl, hlog, id⟩

/-- Recording a host page leaves its register as it is. -/
private theorem recordHostPage_still (reg : ℕ) (offset : ℤ) (s : Io) :
    Still g s (recordHostPage t clk reg offset s) ∧
      (recordHostPage t clk reg offset s).regIoTime = s.regIoTime := by
  obtain ⟨requests, log, k, heq, hlog⟩ := updateIoRequest_frame (g := g) t clk
    (toI32 s.ioRequestSeqNb) offset s.oldChannelTime .startTime (tie reg offset s)
  have hs : recordHostPage t clk reg offset s = ssdUpdateIoOverhead reg
      (updateIoRequest t clk (toI32 s.ioRequestSeqNb) offset s.oldChannelTime .startTime
        (tie reg offset s)).1
      { tie reg offset s with
        requests, log, tick := k
        ioUpdateOverhead := (updateIoRequest t clk (toI32 s.ioRequestSeqNb) offset
          s.oldChannelTime .startTime (tie reg offset s)).1 } :=
    congrArg (fun s' : Io => ssdUpdateIoOverhead reg _ { s' with ioUpdateOverhead := _ }) heq
  rw [hs]
  exact ⟨⟨rfl, rfl, rfl, hlog, id⟩, rfl⟩

/-! ### Delays -/

private theorem spend_still (timeStamp overhead delay : ℤ) :
    Still g s (spend clk timeStamp overhead delay s).2 := .tick s _

private theorem ssdChEnable_still (channel : ℕ) : Still g s (ssdChEnable t clk channel s) := by
  simp only [ssdChEnable, ssdChSwitchDelay]
  split
  · exact .refl s
  · split
    · split
      · exact spend_still ..
      · exact spend_still ..
      · exact .refl s
    · exact .refl s

private theorem ssdChRecord_still (channel : ℕ) (cmd : IoType) (offset : ℤ) (ret : Bool) :
    Still g s (ssdChRecord t clk channel cmd offset ret s) := by
  have halike := ssdChRecord_alike t clk (s := s) channel cmd offset ret
  refine ⟨halike.command, ?_, halike.cellTime, ?_, halike.channelTime⟩ <;>
  · simp only [ssdChRecord, getUsec]
    split
    · rfl
    · split <;> rfl

/-- A charged channel delay does not reach the counter. -/
private theorem charge_still (reg : ℕ) (timeStamp overhead delay : ℤ) (s : Io) :
    Still g s (charge clk reg timeStamp overhead delay .chOp s).2 :=
  (spend_still clk timeStamp overhead delay).trans (.note (by simp [IoEvent.utilisation]))

private theorem charge_written (reg : ℕ) (timeStamp overhead delay : ℤ) (s : Io) :
    (charge clk reg timeStamp overhead delay .regOp s).2.writtenPageNb g =
      s.writtenPageNb g + (s.regIoType reg).utilisation g := by
  rw [writtenPageNb_append (s := s) rfl]
  simp [IoEvent.utilisation]

variable (h : Sound s) (hreg : reg < g.regNb)

include h

private theorem ssdRegWriteDelay_pays (reg : ℕ) : Pays g s (ssdRegWriteDelay t clk reg s).2 := by
  simp only [ssdRegWriteDelay]
  split
  · exact .refl h
  · have hstill := charge_still (g := g) clk reg (s.regIoTime reg) 0 t.regWriteDelay s
    generalize charge clk reg (s.regIoTime reg) 0 t.regWriteDelay .chOp s = d at hstill
    have htime : Still g d.2 { d.2 with regIoTime := Function.update d.2.regIoTime reg (-1) } :=
      ⟨rfl, rfl, rfl, rfl, id⟩
    exact (hstill.trans htime).pays h

include hreg

private theorem ssdCellWriteDelay_pays : Pays g s (ssdCellWriteDelay t clk reg s).2 ∧
    (ssdCellWriteDelay t clk reg s).2.cellIoTime reg = -1 := by
  simp only [ssdCellWriteDelay]
  split
  · rename_i htime
    exact ⟨.refl h, htime⟩
  rename_i htime
  have hwritten := charge_written (g := g) clk reg (s.cellIoTime reg) (s.ioOverhead reg)
    t.cellProgramDelay s
  have halike := charge_alike clk reg (s.cellIoTime reg) (s.ioOverhead reg) t.cellProgramDelay
    .regOp s
  have htype : (charge clk reg (s.cellIoTime reg) (s.ioOverhead reg) t.cellProgramDelay .regOp
    s).2.regIoType = s.regIoType := rfl
  generalize charge clk reg (s.cellIoTime reg) (s.ioOverhead reg) t.cellProgramDelay .regOp s = d
    at hwritten halike htype
  have hstill := ssdUpdateIoRequest_still (g := g) t clk
    (s := { d.2 with initDiffReg := if d.1.waited then d.1.diff else d.2.initDiffReg }) reg
  generalize ssdUpdateIoRequest t clk reg
    { d.2 with initDiffReg := if d.1.waited then d.1.diff else d.2.initDiffReg } = s₁ at hstill
  refine ⟨.settle h hreg (Function.update_self ..) (fun r hne => ⟨?_, ?_, ?_⟩) isCommand_update ?_ ?_,
    Function.update_self ..⟩
  · exact (Function.update_of_ne hne ..).trans (congrFun (hstill.cellTime.trans halike.cellTime) r)
  · exact (Function.update_of_ne hne ..).trans (congrFun (hstill.type.trans htype) r)
  · exact (Function.update_of_ne hne ..).trans (congrFun (hstill.command.trans halike.command) r)
  · rw [unsettled, if_neg htime]
    exact hstill.written.trans hwritten
  · exact hstill.channelTime (halike.channelTime h.channelTime)

private theorem ssdCellReadDelay_pays : Pays g s (ssdCellReadDelay t clk reg s).2 ∧
    (ssdCellReadDelay t clk reg s).2.cellIoTime reg = -1 := by
  simp only [ssdCellReadDelay]
  split
  · rename_i htime
    exact ⟨.refl h, htime⟩
  rename_i htime
  have hwritten := charge_written (g := g) clk reg (s.cellIoTime reg) (s.ioOverhead reg)
    t.cellReadDelay s
  refine ⟨.settle h hreg (Function.update_self ..)
    (fun r hne => ⟨Function.update_of_ne hne .., rfl, rfl⟩) (h.command reg) ?_ h.channelTime,
    Function.update_self ..⟩
  rw [unsettled, if_neg htime]
  exact hwritten

/-- `SSD_REG_READ_DELAY` comes after the delay of the cell. -/
private theorem ssdRegReadDelay_pays (hcell : s.cellIoTime reg = -1) :
    Pays g s (ssdRegReadDelay t clk reg s).2 := by
  simp only [ssdRegReadDelay]
  split
  · exact .refl h
  have hcharge := charge_still (g := g) clk reg (s.regIoTime reg) 0 t.regReadDelay s
  generalize (charge clk reg (s.regIoTime reg) 0 t.regReadDelay .chOp s).2 = s₁ at hcharge
  have hstill := hcharge.trans (ssdUpdateIoRequest_still (g := g) t clk (s := s₁) reg)
  generalize ssdUpdateIoRequest t clk reg s₁ = s₂ at hstill
  refine .settle h hreg ((congrFun hstill.cellTime reg).trans hcell)
    (fun r hne => ⟨congrFun hstill.cellTime r, ?_, ?_⟩) isCommand_update ?_
    (hstill.channelTime h.channelTime)
  · exact (Function.update_of_ne hne ..).trans (congrFun hstill.type r)
  · exact (Function.update_of_ne hne ..).trans (congrFun hstill.command r)
  · rw [unsettled, if_pos hcell, add_zero]
    exact hstill.written

/-- The two delays of a read. -/
private theorem readDelays_pays :
    Pays g s (ssdRegReadDelay t clk reg (ssdCellReadDelay t clk reg s).2).2 ∧
      (ssdRegReadDelay t clk reg (ssdCellReadDelay t clk reg s).2).2.cellIoTime reg = -1 := by
  obtain ⟨hcell, hquiet⟩ := ssdCellReadDelay_pays t clk h hreg
  have hpays := ssdRegReadDelay_pays t clk hcell.sound hreg hquiet
  exact ⟨hcell.trans hpays, hpays.quiet reg hquiet⟩

private theorem ssdBlockEraseDelay_pays : Pays g s (ssdBlockEraseDelay t clk reg s).2 ∧
    (ssdBlockEraseDelay t clk reg s).2.cellIoTime reg = -1 := by
  simp only [ssdBlockEraseDelay, getUsec]
  split
  · rename_i htime
    exact ⟨.refl h, htime⟩
  rename_i htime
  refine ⟨.settle h hreg (Function.update_self ..) (fun r hne => ⟨Function.update_of_ne hne ..,
    Function.update_of_ne hne .., Function.update_of_ne hne ..⟩) isCommand_update ?_ h.channelTime,
    Function.update_self ..⟩
  rw [unsettled, if_neg htime, writtenPageNb_append (s := s) rfl]
  simp [IoEvent.utilisation, spend, getUsec]

/-! ### Accesses -/

/-- `SSD_REG_ACCESS` leaves no cell operation in its register. -/
private theorem ssdRegAccess_pays : Pays g s (ssdRegAccess t clk reg s).2 ∧
    (ssdRegAccess t clk reg s).2.cellIoTime reg = -1 := by
  rw [ssdRegAccess]
  rcases h.command reg with hcmd | hcmd | hcmd | hcmd <;> rw [hcmd]
  · exact ⟨.refl h, h.idle reg hcmd⟩
  · exact readDelays_pays t clk h hreg
  · have hwrite := ssdRegWriteDelay_pays (g := g) t clk h reg
    obtain ⟨hcell, hquiet⟩ := ssdCellWriteDelay_pays t clk hwrite.sound hreg
    exact ⟨hwrite.trans hcell, hquiet⟩
  · exact ssdBlockEraseDelay_pays t clk h hreg

omit hreg in
private theorem flashAccessLoop_pays {rs : List ℕ} (hrs : ∀ r ∈ rs, r < g.regNb) (ret : Bool) :
    Pays g s (flashAccessLoop t clk reg rs (ret, s)).2 ∧
      (reg ∈ rs → (flashAccessLoop t clk reg rs (ret, s)).2.cellIoTime reg = -1) := by
  induction rs generalizing s ret with
  | nil => exact ⟨.refl h, fun hmem => absurd hmem List.not_mem_nil⟩
  | cons r rs ih =>
    have hrs' : ∀ r ∈ rs, r < g.regNb := fun r hr => hrs r (List.mem_cons_of_mem _ hr)
    rw [flashAccessLoop]
    split
    · rename_i hskip
      obtain ⟨hpays, hquiet⟩ := ih h hrs' ret
      exact ⟨hpays, fun hmem => hquiet ((List.mem_cons.mp hmem).resolve_left (Ne.symm hskip.1))⟩
    · obtain ⟨hpays₁, hquiet₁⟩ := ssdRegAccess_pays t clk h (hrs r (by simp))
      obtain ⟨hpays, hquiet⟩ := ih hpays₁.sound hrs' (ssdRegAccess t clk r s).1
      refine ⟨hpays₁.trans hpays, fun hmem => ?_⟩
      rcases List.mem_cons.mp hmem with rfl | hmem
      · exact hpays.quiet _ hquiet₁
      · exact hquiet hmem

omit hreg in
private theorem access_pays {flashNb : ℕ} (hf : flashNb < g.flashNb) (blockNb : ℕ) :
    Pays g s (access g t clk flashNb (regOf g flashNb blockNb) s).2 ∧
      (access g t clk flashNb (regOf g flashNb blockNb) s).2.cellIoTime
        (regOf g flashNb blockNb) = -1 := by
  rw [access]
  split
  · exact ssdRegAccess_pays t clk h (regOf_lt hf blockNb)
  · exact (flashAccessLoop_pays t clk h (fun r hr => chipRegs_lt hf hr) false).imp_right
      fun hquiet => hquiet (regOf_mem_chipRegs flashNb blockNb)

private theorem chAccessReg_pays (ret : Ret) : Pays g s (chAccessReg t clk reg (ret, s)).2 := by
  have htick : Pays g s { s with tick := s.tick + 1 } := (Still.tick s _).pays h
  by_cases htime : s.regIoTime reg ≤ clk.read s.tick ∧ s.regIoTime reg ≠ -1
  · simp only [chAccessReg, getUsec, htime.1, htime.2, ne_eq, not_false_eq_true, and_self, if_true]
    split
    · exact htick.trans (readDelays_pays t clk htick.sound hreg).1
    · exact htick.trans (ssdRegWriteDelay_pays t clk htick.sound reg)
    · exact htick
  · simp only [chAccessReg, getUsec, htime, if_false]
    exact htick

omit hreg in
private theorem chAccess_foldl_pays {rs : List ℕ} (hrs : ∀ r ∈ rs, r < g.regNb) (ret : Ret) :
    Pays g s (rs.foldl (fun st r => chAccessReg t clk r st) (ret, s)).2 := by
  induction rs generalizing s ret with
  | nil => exact .refl h
  | cons r rs ih =>
    have hpays := chAccessReg_pays t clk h (hrs r (by simp)) ret
    exact hpays.trans (ih hpays.sound (fun r hr => hrs r (List.mem_cons_of_mem _ hr)) _)

omit hreg in
private theorem chAccessLoop_pays {channel : ℕ} (hc : channel < t.channelNb) (fuel : ℕ) :
    Pays g s (chAccessLoop g t clk channel fuel s) := by
  induction fuel generalizing s with
  | zero => exact (Still.note (by simp [IoEvent.utilisation])).pays h
  | succ fuel ih =>
    have hpays := chAccess_foldl_pays t clk h (fun r hr => channelRegs_lt (g := g) t hc hr) .success
    rw [chAccessLoop]
    split <;> rename_i hs <;> rw [ssdChAccess] at hs <;> rw [hs] at hpays
    · exact hpays
    · exact hpays.trans (ih hpays.sound)

/-! ### Operations -/

private theorem finishLastPage_pays (offset ioPageNb : ℤ) :
    Pays g s (finishLastPage t clk reg offset ioPageNb s) := by
  rw [finishLastPage]
  split
  · exact (ssdRegAccess_pays t clk h hreg).1
  · exact .refl h

omit h hreg in
/-- Apart from the command, `SSD_REG_RECORD` is about transfers and requests. -/
private theorem ssdRegRecord_still (reg : ℕ) (cmd type : IoType) (offset : ℤ) (channel : ℕ)
    (s : Io) :
    Still g (setCommand reg cmd type s) (ssdRegRecord g t clk reg cmd type offset channel s) := by
  have hwrite : Still g (setCommand reg cmd type s)
      (stampWrite g t reg channel (setCommand reg cmd type s)) := ⟨rfl, rfl, rfl, rfl, id⟩
  have hread : Still g (setCommand reg cmd type s)
      (stampRead g t reg channel (setCommand reg cmd type s)) := ⟨rfl, rfl, rfl, rfl, id⟩
  have huntie : ∀ s : Io, Still g s (untie reg s) := fun s => ⟨rfl, rfl, rfl, rfl, id⟩
  simp only [ssdRegRecord]
  split
  · split
    · exact hwrite.trans (recordHostPage_still t clk reg offset _).1
    · exact hwrite.trans (huntie _)
  · split
    · exact hread.trans (recordHostPage_still t clk reg offset _).1
    · exact hread.trans (huntie _)
  · exact huntie _
  · exact .refl _

omit hreg in
/-- The time stamp of a write. -/
private theorem ssdRegRecord_write_nonneg (reg : ℕ) (type : IoType) (offset : ℤ) (channel : ℕ) :
    0 ≤ (ssdRegRecord g t clk reg .write type offset channel s).regIoTime reg := by
  have hstamp : 0 ≤ (stampWrite g t reg channel (setCommand reg .write type s)).regIoTime reg :=
    stampWrite_nonneg t h.channelTime fun hne => absurd rfl hne
  simp only [ssdRegRecord]
  split
  · rw [(recordHostPage_still (g := g) t clk reg offset _).2]
    exact hstamp
  · exact hstamp

section record

variable (hcell : s.cellIoTime reg = -1) (type : IoType) (offset : ℤ) (channel : ℕ)

include hcell

private theorem recordWrite_adds (ioPageNb : ℤ) (ret : Bool) :
    Adds g s (recordWrite g t clk reg channel offset type ioPageNb ret s) (type.utilisation g) := by
  have hchannel := (ssdChRecord_still (g := g) t clk (s := s) channel .write offset ret).pays h
  have hquiet := hchannel.quiet reg hcell
  rw [recordWrite]
  generalize ssdChRecord t clk channel .write offset ret s = s₁ at hchannel hquiet
  have hstill := ssdRegRecord_still (g := g) t clk reg .write type offset channel s₁
  have htime := ssdRegRecord_write_nonneg (g := g) t clk hchannel.sound reg type offset channel
  generalize ssdRegRecord g t clk reg .write type offset channel s₁ = s₂ at hstill htime
  have hrecord : Adds g s₁ (ssdCellRecord t clk reg .write s₂) (type.utilisation g) :=
    .record hchannel.sound hreg hquiet (.inr (.inl rfl))
      (x := s₂.regIoTime reg + t.regWriteDelay) (by omega) hstill.command hstill.type
      (congrArg (Function.update · reg _) hstill.cellTime) hstill.written
      (hstill.channelTime hchannel.sound.channelTime)
  have hlast := finishLastPage_pays t clk hrecord.sound hreg offset ioPageNb
  have hboth := hrecord.trans hlast.toAdds
  rw [add_zero] at hboth
  exact hchannel.adds_trans hboth

/-- A read records its cell operation first. -/
private theorem recordRead_adds : Adds g s (ssdRegRecord g t clk reg .read type offset channel
    (ssdCellRecord t clk reg .read s)) (type.utilisation g) := by
  have hstill := ssdRegRecord_still (g := g) t clk reg .read type offset channel
    (ssdCellRecord t clk reg .read s)
  have hchannel := h.channelTime
  exact .record h hreg hcell (.inl rfl) (x := s.oldChannelTime + t.channelSwitchDelayR) (by omega)
    hstill.command hstill.type hstill.cellTime hstill.written (hstill.channelTime h.channelTime)

/-- The read of a partial write records it last. -/
private theorem recordPartial_adds : Adds g s (ssdCellRecord t clk reg .read
    (ssdRegRecord g t clk reg .read type offset channel s)) (type.utilisation g) := by
  have hstill := ssdRegRecord_still (g := g) t clk reg .read type offset channel s
  generalize ssdRegRecord g t clk reg .read type offset channel s = s₁ at hstill
  have hchannel := hstill.channelTime h.channelTime
  exact .record h hreg hcell (.inl rfl) (x := s₁.oldChannelTime + t.channelSwitchDelayR) (by omega)
    hstill.command hstill.type (congrArg (Function.update · reg _) hstill.cellTime) hstill.written
    hchannel

private theorem recordErase_adds : Adds g s (ssdCellRecord t clk reg .erase
    (ssdRegRecord g t clk reg .erase .erase offset channel s)) (IoType.erase.utilisation g) :=
  .record h hreg hcell (.inr (.inr rfl)) (clk.nonneg s.tick) rfl rfl rfl rfl h.channelTime

end record

section call

variable {flashNb : ℕ} (hf : flashNb < g.flashNb) (blockNb : ℕ) (offset : ℤ) (type : IoType)
  (ioPageNb : ℤ)

omit hreg
include hf

/-- The access of an operation to its register, and before it the switch to its channel. -/
private theorem enter_pays : ∃ st, access g t clk flashNb (regOf g flashNb blockNb)
      (ssdChEnable t clk (flashNb % t.channelNb) s) = st ∧ Pays g s st.2 ∧
    st.2.cellIoTime (regOf g flashNb blockNb) = -1 := by
  have henable := (ssdChEnable_still (g := g) t clk (s := s) (flashNb % t.channelNb)).pays h
  obtain ⟨hpays, hquiet⟩ := access_pays t clk henable.sound hf blockNb
  exact ⟨_, rfl, henable.trans hpays, hquiet⟩

/-- The same, with the wait for the channel after it. -/
private theorem enterWait_pays : ∃ st, access g t clk flashNb (regOf g flashNb blockNb)
      (ssdChEnable t clk (flashNb % t.channelNb) s) = st ∧
    Pays g s (waitForChannel g t clk (flashNb % t.channelNb) st.2) ∧
    (waitForChannel g t clk (flashNb % t.channelNb) st.2).cellIoTime
      (regOf g flashNb blockNb) = -1 := by
  obtain ⟨st, hst, hpays, hquiet⟩ := enter_pays t clk h hf blockNb
  have hwait : Pays g st.2 (waitForChannel g t clk (flashNb % t.channelNb) st.2) :=
    chAccessLoop_pays t clk hpays.sound (Nat.mod_lt _ t.channelNb_pos) _
  exact ⟨st, hst, hpays.trans hwait, hwait.quiet _ hquiet⟩

private theorem ssdPageWrite_adds :
    Adds g s (ssdPageWrite g t clk flashNb blockNb offset type ioPageNb s) (type.utilisation g) := by
  obtain ⟨st, hst, hpays, hquiet⟩ := enterWait_pays t clk h hf blockNb
  simp only [ssdPageWrite, hst]
  exact hpays.adds_trans (recordWrite_adds t clk hpays.sound (regOf_lt hf blockNb) hquiet ..)

private theorem ssdPageRead_adds :
    Adds g s (ssdPageRead g t clk flashNb blockNb offset type ioPageNb s) (type.utilisation g) := by
  have hlt := regOf_lt hf blockNb
  obtain ⟨st, hst, hpays, hquiet⟩ := enter_pays t clk h hf blockNb
  have hchannel := (ssdChRecord_still (g := g) t clk (s := st.2) (flashNb % t.channelNb) .read offset
    st.1).pays hpays.sound
  have hrecord := recordRead_adds t clk hchannel.sound hlt (hchannel.quiet _ hquiet) type offset
    (flashNb % t.channelNb)
  have hboth := hrecord.trans (finishLastPage_pays t clk hrecord.sound hlt offset ioPageNb).toAdds
  rw [add_zero] at hboth
  simp only [ssdPageRead, hst]
  exact (hpays.trans hchannel).adds_trans hboth

/-- A partial write is counted for its read and for its write. -/
private theorem ssdPagePartialWrite_adds {oldFlashNb : ℕ} (hold : oldFlashNb < g.flashNb)
    (oldBlockNb : ℕ) :
    Adds g s (ssdPagePartialWrite g t clk oldFlashNb oldBlockNb flashNb blockNb offset type ioPageNb
      s) (type.utilisation g + type.utilisation g) := by
  have hlt := regOf_lt hold oldBlockNb
  obtain ⟨st, hst, hpays, hquiet⟩ := enterWait_pays t clk h hold oldBlockNb
  have hchannel := (ssdChRecord_still (g := g) t clk
    (s := waitForChannel g t clk (oldFlashNb % t.channelNb) st.2) (oldFlashNb % t.channelNb) .read
    offset st.1).pays hpays.sound
  have hrecord := recordPartial_adds t clk hchannel.sound hlt (hchannel.quiet _ hquiet) type offset
    (oldFlashNb % t.channelNb)
  obtain ⟨hremain, -⟩ := ssdRegAccess_pays t clk hrecord.sound hlt
  obtain ⟨st', hst', hpays', hquiet'⟩ := enter_pays t clk hremain.sound hf blockNb
  have hwrite := recordWrite_adds t clk hpays'.sound (regOf_lt hf blockNb) hquiet' type offset
    (flashNb % t.channelNb) ioPageNb st'.1
  simp only [ssdPagePartialWrite, hst, ssdRemainIoDelay, hst']
  exact (hpays.trans hchannel).adds_trans
    (hrecord.trans ((hremain.trans hpays').adds_trans hwrite))

private theorem ssdBlockErase_adds :
    Adds g s (ssdBlockErase g t clk flashNb blockNb s) (IoType.erase.utilisation g) := by
  obtain ⟨hpays, hquiet⟩ := access_pays t clk h hf blockNb
  simp only [ssdBlockErase]
  exact hpays.adds_trans (recordErase_adds t clk hpays.sound (regOf_lt hf blockNb) hquiet ..)

end call

end Io

/-! ### Calls -/

variable (g) in
/-- A call within the device, under the type that its operation has in the FTL. -/
def Call.Typed : Call → Prop
  | .ssdPageWrite f _ _ _ type _ => f < g.flashNb ∧ (type = .write ∨ type = .gcWrite)
  | .ssdPagePartialWrite f₀ _ _ f _ _ _ type _ => f₀ < g.flashNb ∧ f < g.flashNb ∧ type = .write
  | .ssdPageRead f _ _ _ type _ => f < g.flashNb ∧ (type = .read ∨ type = .gcRead)
  | .ssdBlockErase f _ => f < g.flashNb
  | _ => True

private theorem Call.IsOther.typed {c : Call} (hc : c.IsOther g) : c.Typed g := by
  cases c with
  | ssdPageWrite => exact ⟨hc.1, .inr hc.2⟩
  | ssdPageRead => exact ⟨hc.1, .inr hc.2⟩
  | ssdBlockErase => exact hc
  | ssdPagePartialWrite => exact hc.elim
  | _ => trivial

private theorem Call.IsHost.typed {c : Call} {k : ℕ} (hc : c.IsHost g k) : c.Typed g := by
  cases c with
  | ssdPageWrite => exact ⟨hc.1, .inl hc.2.2⟩
  | ssdPageRead => exact ⟨hc.1, .inl hc.2.2⟩
  | ssdPagePartialWrite => exact ⟨hc.1, hc.2.1, hc.2.2.2⟩
  | _ => exact hc.elim

private theorem HostCalls.typed {k n : ℕ} {es : List Event} (h : HostCalls g n k es) :
    ∀ e ∈ es, e.call.Typed g := by
  induction es generalizing k with
  | nil => simp
  | cons e es ih =>
    rw [List.forall_mem_cons]
    rcases h with ⟨hc, h⟩ | ⟨hc, h⟩
    · exact ⟨hc.typed, ih h⟩
    · exact ⟨hc.typed, ih h⟩

private theorem Script.typed {k : ℕ} {es : List Event} (h : Script g k es) :
    ∀ e ∈ es, e.call.Typed g := by
  obtain ⟨sectorNb, length, ioType, pages, gc, sAlloc, sNext, rfl, -, -, hpages, hgc⟩ := h
  simp only [List.forall_mem_cons, List.forall_mem_append]
  exact ⟨trivial, hpages.typed, trivial, fun e he => (hgc e he).typed⟩

variable (t : IoConfig) (clk : Clock)

/-- Every call adds the pages it programs, and a partial write one more. -/
theorem call_adds (h : Sound s) {c : Call} (hc : c.Typed g) :
    Adds g s (Io.call g t clk c s) (c.programs g + if c.IsPartial then 1 else 0) := by
  have hstill : ∀ {s' : Io}, Still g s s' → Adds g s s' 0 := fun hs => (hs.pays h).toAdds
  cases c with
  | ssdPageWrite f b p offset type n =>
    obtain ⟨hf, rfl | rfl⟩ := hc <;> exact ssdPageWrite_adds t clk h hf b offset _ n
  | ssdPagePartialWrite f₀ b₀ p₀ f b p offset type n =>
    obtain ⟨hf₀, hf, rfl⟩ := hc
    exact ssdPagePartialWrite_adds t clk h hf b offset .write n hf₀ b₀
  | ssdPageRead f b p offset type n =>
    obtain ⟨hf, rfl | rfl⟩ := hc <;> exact ssdPageRead_adds t clk h hf b offset _ n
  | ssdBlockErase f b =>
    have hadds := ssdBlockErase_adds t clk h hc b
    rwa [← add_zero (IoType.erase.utilisation g)] at hadds
  | allocIoRequest sectorNb length ioType =>
    refine hstill ?_
    simp only [Io.call, allocIoRequest, getUsec]
    split
    · exact (Still.tick s _).trans (.note (by simp [IoEvent.utilisation]))
    · exact ⟨rfl, rfl, rfl, rfl, id⟩
  | increaseIoRequestSeqNb => exact hstill ⟨rfl, rfl, rfl, rfl, id⟩
  | getNewPage _ => exact hstill (.refl s)
  | garbageCollection => exact hstill (.refl s)
  | error _ => exact hstill (.refl s)

/-- A log adds the pages it programs, and its partial writes once more. -/
private theorem ioRun_adds {es : List Event} (h : Sound s) (hes : ∀ e ∈ es, e.call.Typed g) :
    Adds g s (ioRun g t clk es s)
      (programs g es + es.countP fun e => decide e.call.IsPartial) := by
  induction es generalizing s with
  | nil => exact ⟨h, by simp [ioRun]⟩
  | cons e es ih =>
    rw [List.forall_mem_cons] at hes
    have hcall := call_adds t clk h hes.1
    have hrest := hcall.trans (ih hcall.sound hes.2)
    have hsum : e.call.programs g + (if e.call.IsPartial then 1 else 0) +
        (programs g es + es.countP fun e => decide e.call.IsPartial) =
        programs g (e :: es) + ((e :: es).countP fun e => decide e.call.IsPartial : ℕ) := by
      rw [programs_cons, List.countP_cons]
      by_cases hpart : e.call.IsPartial <;> simp [hpart] <;> ring
    rwa [hsum] at hrest

/-! ### Runs -/

private theorem serves_typed {hist : List Served} {f f' : Ftl} (htrace : Trace (Serve g) f hist f')
    (hf : f.Bounded g)
    (hok : ∀ e ∈ hist, ∀ sectorNb length, e.request = .write sectorNb length → e.ret = .success) :
    ∀ e ∈ eventLog hist, e.call.Typed g := by
  induction htrace with
  | nil => simp [eventLog]
  | @cons f m f' e hist hserve _ ih =>
    obtain ⟨hm, hscript⟩ := hserve.script hf
    have hrest := ih hm fun e' he' => hok e' (List.mem_cons_of_mem _ he')
    have hlog : eventLog (e :: hist) = e.events ++ eventLog hist := rfl
    rw [hlog, List.forall_mem_append]
    rcases hscript (hok e (by simp)) with hnil | hscript
    · rw [hnil]
      exact ⟨by simp, hrest⟩
    · exact ⟨hscript.typed, hrest⟩

private theorem init_sound : Sound (Io.init t) := ⟨fun _ _ => rfl, fun _ => .inl rfl, le_rfl⟩

private theorem init_ledger : (Io.init t).ledger g = 0 := by
  have hzero : ∀ reg ∈ range g.regNb, (Io.init t).unsettled g reg = 0 := fun _ _ => if_pos rfl
  rw [Io.ledger, sum_eq_zero hzero]
  rfl

/-- The registers `regs` are accessed, one after the other. -/
def drain (regs : List ℕ) (s : Io) : Io := regs.foldl (fun s reg => ssdRemainIoDelay t clk reg s) s

private theorem drain_pays {regs : List ℕ} (h : Sound s) (hregs : ∀ reg ∈ regs, reg < g.regNb) :
    Pays g s (drain t clk regs s) := by
  induction regs generalizing s with
  | nil => exact .refl h
  | cons reg regs ih =>
    rw [List.forall_mem_cons] at hregs
    have hpays := (ssdRegAccess_pays t clk h hregs.1).1
    exact hpays.trans (ih hpays.sound hregs.2)

/-- The counter after a run, once the registers are idle. -/
private theorem run_writtenPageNb_eq {hist : List Served} {f : Ftl} (hrun : Run g hist f)
    (hok : ∀ e ∈ hist, ∀ sectorNb length, e.request = .write sectorNb length → e.ret = .success)
    {regs : List ℕ} (hregs : ∀ reg ∈ regs, reg < g.regNb)
    (hs : s = drain t clk regs (ioRun g t clk (eventLog hist) (Io.init t)))
    (hidle : ∀ reg < g.regNb, s.regIoCmd reg = .noop) :
    s.writtenPageNb g =
      #(programmed g f.tables) + (eventLog hist).countP fun e => decide e.call.IsPartial := by
  subst hs
  have hadds := ioRun_adds t clk (init_sound t) (serves_typed hrun ftlInit_bounded hok)
  have hpays := drain_pays t clk hadds.sound hregs
  rw [hpays.sound.writtenPageNb_eq hidle, hpays.ledger, hadds.ledger, init_ledger,
    run_programmed hrun]
  ring

/-- **The utilisation counter** is the number of programmed pages, and so between zero and the
number of pages of the device, exactly when no write of the run covers only a part of a logical
page that the run has written before. -/
theorem run_writtenPageNb {hist : List Served} {f : Ftl} (hrun : Run g hist f)
    (hok : ∀ e ∈ hist, ∀ sectorNb length, e.request = .write sectorNb length → e.ret = .success)
    {regs : List ℕ} (hregs : ∀ reg ∈ regs, reg < g.regNb)
    (hs : s = drain t clk regs (ioRun g t clk (eventLog hist) (Io.init t)))
    (hidle : ∀ reg < g.regNb, s.regIoCmd reg = .noop) :
    (s.writtenPageNb g = #(programmed g f.tables) ∧ 0 ≤ s.writtenPageNb g ∧
      s.writtenPageNb g ≤ g.pageMappingEntryNb) ↔
    (hist.flatMap fun e => e.request.pages g).Pairwise NoMerge := by
  have hwritten := run_writtenPageNb_eq t clk hrun hok hregs hs hidle
  have hle := card_programmed_le (g := g) f.tables
  have hmerges : ((eventLog hist).countP fun e => decide e.call.IsPartial) = 0 ↔
      (hist.flatMap fun e => e.request.pages g).Pairwise NoMerge := by
    rw [List.countP_eq_zero, ← run_merges hrun hok]
    simp only [decide_eq_true_iff]
  rw [← hmerges]
  omega

/-- Full writes, a partial write of a page not written before, a read and collections. -/
theorem run_writtenPageNb_smallDevice : ∃ hist f s, Run smallDevice hist f ∧
    hist.map Served.ret = List.replicate 6 .success ∧
    (∃ e ∈ eventLog hist, e.call = .ssdBlockErase 0 0) ∧
    s = drain smallDelays steadyClock [1, 0]
      (ioRun smallDevice smallDelays steadyClock (eventLog hist) (Io.init smallDelays)) ∧
    (∀ reg < smallDevice.regNb, s.regIoCmd reg = .noop) ∧
    s.writtenPageNb smallDevice = #(programmed smallDevice f.tables) ∧
    0 ≤ s.writtenPageNb smallDevice ∧
    s.writtenPageNb smallDevice ≤ smallDevice.pageMappingEntryNb := by
  obtain ⟨hist, f, hrun, hP⟩ := exists_run (g := smallDevice) 30
    [.write 0 4, .write 0 4, .write 4 1, .write 0 4, .read 0 4, .write 2 2]
    (fun hist _ => decide (hist.map Served.ret = List.replicate 6 .success ∧
      (∃ e ∈ eventLog hist, e.call = .ssdBlockErase 0 0) ∧
      (∀ reg < smallDevice.regNb, (drain smallDelays steadyClock [1, 0] (ioRun smallDevice smallDelays
        steadyClock (eventLog hist) (Io.init smallDelays))).regIoCmd reg = .noop) ∧
      (hist.flatMap fun e => e.request.pages smallDevice).Pairwise NoMerge))
    (by decide +kernel) (by decide +kernel)
  obtain ⟨hret, hgc, hidle, hmerge⟩ := of_decide_eq_true hP
  refine ⟨hist, f, _, hrun, hret, hgc, rfl, hidle, (run_writtenPageNb smallDelays steadyClock hrun
    (fun e he _ _ _ => ?_) (by decide) rfl hidle).mpr hmerge⟩
  exact List.eq_of_mem_replicate (hret ▸ List.mem_map_of_mem he)

/-- A logical page of two sectors is written, and then its first sector: two pages are programmed
and the counter is three. -/
theorem writtenPageNb_counts_merge_twice : ∃ hist f s, Run smallDevice hist f ∧
    hist.map Served.request = [.write 0 2, .write 0 1] ∧
    hist.map Served.ret = [.success, .success] ∧
    s = drain smallDelays steadyClock [0, 1]
      (ioRun smallDevice smallDelays steadyClock (eventLog hist) (Io.init smallDelays)) ∧
    (∀ reg < smallDevice.regNb, s.regIoCmd reg = .noop) ∧
    s.writtenPageNb smallDevice = 3 ∧ #(programmed smallDevice f.tables) = 2 := by
  obtain ⟨hist, f, hrun, hP⟩ := exists_run (g := smallDevice) 30 [.write 0 2, .write 0 1]
    (fun hist f => decide (hist.map Served.request = [.write 0 2, .write 0 1] ∧
      hist.map Served.ret = [.success, .success] ∧
      (∀ reg < smallDevice.regNb, (drain smallDelays steadyClock [0, 1] (ioRun smallDevice smallDelays
        steadyClock (eventLog hist) (Io.init smallDelays))).regIoCmd reg = .noop) ∧
      (drain smallDelays steadyClock [0, 1] (ioRun smallDevice smallDelays steadyClock
        (eventLog hist) (Io.init smallDelays))).writtenPageNb smallDevice = 3 ∧
      #(programmed smallDevice f.tables) = 2))
    (by decide +kernel) (by decide +kernel)
  obtain ⟨hreq, hret, hidle, hwritten, hpages⟩ := of_decide_eq_true hP
  exact ⟨hist, f, _, hrun, hreq, hret, rfl, hidle, hwritten, hpages⟩

end Vssim
