import Vssim.Io.Qemu

/-!
# The builds without a correction

While no correction is made, the build for QEMU does what the other one does, and every delay that
is charged goes with an entry in the ledger (`Matches`). The entries of a register then agree with
its contents (`Settled`).

A delay makes no correction while no time is lost, or if the operation that it is for is over. It
leaves the register with fewer deadlines, and the clock does not go back (`Delayed`); so operations
that are over stay over until new ones are recorded.
-/

namespace Vssim

open Io

/-! ### The entry of a register -/

/-- The entry of a register agrees with its contents. -/
structure Settled (e : Entry) (x : Reg) : Prop where
  transfer : e.transfer = .none → x.regTime = -1
  cell : e.cell = false → x.cellTime = -1
  count : e.writes = e.charges + if e.transfer = .write then 1 else 0
  write : e.transfer = .write → x.cmd = .write ∧ x.regTime ≠ -1
  read : e.transfer = .read → x.cmd ≠ .write

namespace Settled

variable {e : Entry} {x y : Reg}

private theorem ne_write (h : Settled e x) (hquiet : x.cmd = .write → x.regTime = -1) :
    e.transfer ≠ .write := fun hwrite =>
  (h.write hwrite).2 (hquiet (h.write hwrite).1)

private theorem count_eq (h : Settled e x) (hwrite : e.transfer ≠ .write) :
    e.writes = e.charges := by
  have hcount := h.count
  rwa [if_neg hwrite] at hcount

/-- `SSD_REG_WRITE_DELAY`. -/
private theorem regWrite (h : Settled e x) (hcmd : x.cmd = .write) (hne : x.regTime ≠ -1)
    (htime : y.regTime = -1) (hcell : y.cellTime = x.cellTime) : Settled e.chargeWrite y := by
  -- the transfer that is charged is that of a write: a register marked otherwise has none
  have htransfer : e.transfer = .write := by
    cases hkind : e.transfer with
    | none => exact absurd (h.transfer hkind) hne
    | read => exact absurd hcmd (h.read hkind)
    | write => rfl
  have hcount := h.count
  rw [if_pos htransfer] at hcount
  exact ⟨fun _ => htime, fun hidle => hcell.trans (h.cell hidle), hcount, nofun, nofun⟩

/-- `SSD_REG_READ_DELAY`. -/
private theorem regRead (h : Settled e x) (hcmd : x.cmd ≠ .write) (htime : y.regTime = -1)
    (hcell : y.cellTime = -1) : Settled e.settleTransfer y :=
  ⟨fun _ => htime, fun _ => hcell, h.count_eq (h.ne_write fun hwrite => absurd hwrite hcmd), nofun,
    nofun⟩

/-- The delays of cells: the transfer of a write has been made before. -/
private theorem cellDelay (h : Settled e x) (hquiet : x.cmd = .write → x.regTime = -1)
    (htime : y.regTime = x.regTime) (hcell : y.cellTime = -1) (hcmd : y.cmd ≠ .write) :
    Settled e.settleCell y :=
  ⟨fun hnone => htime.trans (h.transfer hnone), fun _ => hcell, h.count,
    fun hwrite => absurd hwrite (h.ne_write hquiet), fun _ => hcmd⟩

/-- An operation is recorded in a register that has no write left. -/
theorem recordWrite (h : Settled e x) (hquiet : x.cmd = .write → x.regTime = -1)
    (hcmd : y.cmd = .write) (hne : y.regTime ≠ -1) : Settled e.recordWrite y :=
  ⟨nofun, nofun, congrArg (· + 1) (h.count_eq (h.ne_write hquiet)), fun _ => ⟨hcmd, hne⟩, nofun⟩

@[inherit_doc recordWrite]
theorem recordRead (h : Settled e x) (hquiet : x.cmd = .write → x.regTime = -1)
    (hcmd : y.cmd ≠ .write) : Settled e.recordRead y :=
  ⟨nofun, nofun, h.count_eq (h.ne_write hquiet), nofun, fun _ => hcmd⟩

@[inherit_doc recordWrite]
theorem recordErase (h : Settled e x) (hquiet : x.cmd = .write → x.regTime = -1)
    (htime : y.regTime = x.regTime) (hcmd : y.cmd ≠ .write) : Settled e.recordErase y :=
  ⟨fun hnone => htime.trans (h.transfer hnone), nofun, h.count,
    fun hwrite => absurd hwrite (h.ne_write hquiet), fun _ => hcmd⟩

/-- The other registers when a write is recorded: only the time stamps of reads are shifted. -/
theorem shift {t : IoConfig} (h : Settled e x) (hmoves : Moves t x y) (hcmd : y.cmd = x.cmd)
    (htime : x.cmd ≠ .read → y.regTime = x.regTime) : Settled e y where
  transfer hnone := hmoves.rule (P := fun z => z.regTime = -1) Move.regTime_eq (h.transfer hnone)
  cell hidle := hmoves.rule (P := fun z => z.cellTime = -1) Move.cellTime_eq (h.cell hidle)
  count := h.count
  write hwrite := by
    obtain ⟨hx, hne⟩ := h.write hwrite
    rw [hcmd, htime (by simp [hx])]
    exact ⟨hx, hne⟩
  read hread := hcmd.symm ▸ h.read hread

end Settled

/-! ### Operations that are over -/

namespace Io

variable (t : IoConfig) (clk : Clock)

/-- The operations in these registers are over: a delay would not wait for them. -/
def Over (rs : List ℕ) (s : Io) : Prop :=
  ∀ r ∈ rs, ∀ D, some D ∈ (s.reg r).deadlines t → D ≤ clk.read s.tick

/-- A delay of the operation in a register. -/
structure Delayed (reg : ℕ) (s : Io) (st : Bool × Io) : Prop where
  timed : ∃ d ∈ (s.reg reg).deadlines t, Timed clk s.tick (d, st.1) st.2.tick
  deadlines : ∀ D, some D ∈ (st.2.reg reg).deadlines t → some D ∈ (s.reg reg).deadlines t
  other : ∀ r ≠ reg, st.2.reg r = s.reg r
  channelTime : st.2.oldChannelTime = s.oldChannelTime

variable {t clk} {rs : List ℕ} {reg : ℕ} {s : Io}

private theorem Over.tick_le {s' : Io} (h : Over t clk rs s) (hreg : s'.reg = s.reg)
    (htick : s.tick ≤ s'.tick) : Over t clk rs s' := fun r hr D hD =>
  (h r hr D (hreg ▸ hD)).trans (clk.mono htick)

private theorem Delayed.over {st : Bool × Io} (hd : Delayed t clk reg s st) (h : Over t clk rs s)
    (hreg : reg ∈ rs) : Over t clk rs st.2 := by
  obtain ⟨d, hmem, htimed⟩ := hd.timed
  have htick : s.tick ≤ st.2.tick := (htimed.passed fun D hD => h reg hreg D (hD ▸ hmem)).1
  -- no deadline is new, and the clock has not gone back
  intro r hr D hD
  refine le_trans (h r hr D ?_) (clk.mono htick)
  by_cases heq : r = reg
  · subst heq
    exact hd.deadlines D hD
  · rwa [hd.other r heq] at hD

private theorem Delayed.of_noop {st : Bool × Io} {d : Option ℤ} (hd : d ∈ (s.reg reg).deadlines t)
    (htimed : Timed clk s.tick (d, st.1) st.2.tick) (hdrained : DrainedAt t reg s st.2)
    (hnoop : st.2.regIoCmd reg = .noop) : Delayed t clk reg s st := by
  refine ⟨⟨d, hd, htimed⟩, fun D hD => ?_, hdrained.other, hdrained.channelTime⟩
  simp [Reg.deadlines, Io.reg, hnoop] at hD

variable (t clk)

private theorem ssdRegWriteDelay_delayed (hcmd : s.regIoCmd reg = .write) :
    Delayed t clk reg s (ssdRegWriteDelay t clk reg s) := by
  obtain ⟨hdrained, htime, hcommand, hcell⟩ := ssdRegWriteDelay_drained t clk hcmd
  refine ⟨⟨_, ?_, ssdRegWriteDelay_timed t clk reg s⟩, fun D hD => ?_, hdrained.other,
    hdrained.channelTime⟩
  · simp [Reg.deadlines, Io.reg, hcmd]
  · have hleft : some D ∈ [deadline (-1) 0 t.regWriteDelay,
        deadline (s.cellIoTime reg) (s.ioOverhead reg) t.cellProgramDelay] := by
      simpa only [Reg.deadlines, Io.reg, hcommand, hcmd, htime, hcell,
        ssdRegWriteDelay_ioOverhead] using hD
    have hmem := (List.mem_cons.mp hleft).resolve_left (by simp [deadline])
    simpa only [Reg.deadlines, Io.reg, hcmd] using List.mem_cons_of_mem _ hmem

private theorem ssdCellReadDelay_delayed (hcmd : s.regIoCmd reg = .read) :
    Delayed t clk reg s (ssdCellReadDelay t clk reg s) := by
  obtain ⟨hdrained, hcell, hcommand, htime⟩ := ssdCellReadDelay_drained t clk hcmd
  refine ⟨⟨_, ?_, ssdCellReadDelay_timed t clk reg s⟩, fun D hD => ?_, hdrained.other,
    hdrained.channelTime⟩
  · simp [Reg.deadlines, Io.reg, hcmd]
  · have hleft : some D ∈ [deadline (-1) ((ssdCellReadDelay t clk reg s).2.ioOverhead reg)
        t.cellReadDelay, deadline (s.regIoTime reg) 0 t.regReadDelay] := by
      simpa only [Reg.deadlines, Io.reg, hcommand, hcmd, htime, hcell] using hD
    have hmem := (List.mem_cons.mp hleft).resolve_left (by simp [deadline])
    simpa only [Reg.deadlines, Io.reg, hcmd] using List.mem_cons_of_mem _ hmem

private theorem ssdRegReadDelay_delayed (hcmd : s.regIoCmd reg = .read)
    (hcell : s.cellIoTime reg = -1)
    (hne : s.regIoTime reg ≠ -1) : Delayed t clk reg s (ssdRegReadDelay t clk reg s) := by
  obtain ⟨hdrained, -, -, hnoop⟩ := ssdRegReadDelay_drained t clk hcmd hcell
  refine .of_noop ?_ (ssdRegReadDelay_timed t clk reg s) hdrained (hnoop hne)
  simp [Reg.deadlines, Io.reg, hcmd]

private theorem ssdCellWriteDelay_delayed (hcmd : s.regIoCmd reg = .write)
    (htime : s.regIoTime reg = -1)
    (hne : s.cellIoTime reg ≠ -1) : Delayed t clk reg s (ssdCellWriteDelay t clk reg s) := by
  obtain ⟨hdrained, -, -, hnoop⟩ := ssdCellWriteDelay_drained t clk hcmd htime
  refine .of_noop ?_ (ssdCellWriteDelay_timed t clk reg s) hdrained (hnoop hne)
  simp [Reg.deadlines, Io.reg, hcmd]

private theorem ssdBlockEraseDelay_delayed (hcmd : s.regIoCmd reg = .erase)
    (hne : s.cellIoTime reg ≠ -1) : Delayed t clk reg s (ssdBlockEraseDelay t clk reg s) := by
  obtain ⟨hdrained, hempty⟩ := ssdBlockEraseDelay_drained t clk hcmd
  refine .of_noop ?_ (ssdBlockEraseDelay_timed t clk reg s) hdrained (hempty.noop ?_)
  · simp [Reg.deadlines, Io.reg, hcmd]
  · exact .inr (.inr ⟨.inr hcmd, hne⟩)

end Io

/-! ### Without a correction -/

namespace QemuIo

variable (t : IoConfig) (clk : Clock)

/-- The entries are right. -/
structure Tidy (q : QemuIo) : Prop where
  settled : ∀ r, Settled (q.ledger r) (q.io.reg r)
  channelTime : 0 ≤ q.io.oldChannelTime

/-- The overhead is `n`, and in these registers no delay makes a correction. -/
structure Sound (n : ℤ) (rs : List ℕ) (q : QemuIo) : Prop extends Tidy q where
  overhead : q.qemuOverhead = n
  calm : n = 0 ∨ Over t clk rs q.io

/-- The two builds do the same, and the entries are right. -/
structure Matches {α : Type} (n : ℤ) (rs : List ℕ) (st : α × QemuIo) (st' : α × Io) : Prop where
  ret : st.1 = st'.1
  io : st.2.io = st'.2
  sound : Sound t clk n rs st.2

variable {g : Geometry} {t} {clk} {n : ℤ} {rs : List ℕ} {reg : ℕ} {q : QemuIo}

private theorem Matches.refl {α : Type} (h : Sound t clk n rs q) (a : α) :
    Matches t clk n rs (a, q) (a, q.io) := ⟨rfl, rfl, h⟩

/-- A delay with its entry. -/
private theorem Matches.delay (h : Sound t clk n rs q) (hreg : reg ∈ rs) {st : Bool × Io}
    (hd : Delayed t clk reg q.io st) {f : Entry → Entry}
    (hsettled : Settled (f (q.ledger reg)) (st.2.reg reg)) :
    Matches t clk n rs (st.1, { q with io := st.2 }.enter reg f) st := by
  refine ⟨rfl, rfl, ⟨fun r => ?_, hd.channelTime.symm ▸ h.channelTime⟩, h.overhead,
    h.calm.imp_right fun hover => hd.over hover hreg⟩
  by_cases hr : r = reg
  · subst hr
    simpa [enter] using hsettled
  · have hother := hd.other r hr
    simpa [enter, hr, hother] using h.settled r

/-- No correction is made for an operation that is over. -/
private theorem Sound.calm_of_mem (h : Sound t clk n rs q) (hreg : reg ∈ rs)
    {timeStamp overhead delay : ℤ}
    (hne : timeStamp ≠ -1) (hmem : deadline timeStamp overhead delay ∈ (q.io.reg reg).deadlines t)
    (hearly : clk.read q.io.tick - timeStamp + overhead < delay) : q.qemuOverhead = 0 := by
  rcases h.calm with hzero | hover
  · exact h.overhead.trans hzero
  · rw [deadline, if_neg hne] at hmem
    have hle := hover reg hreg _ hmem
    omega

private theorem correct_eq {start timeStamp overhead delay : ℤ}
    (hcalm : start - timeStamp + overhead < delay → q.qemuOverhead = 0) :
    correct g start timeStamp overhead delay q = q := by
  rw [correct]
  split
  · rw [ssdUpdateQemuOverhead, if_pos (hcalm ‹_›)]
  · rfl

/-- A delay without a correction. Only the clock is read before the time stamp is looked at
again. -/
private theorem charge_eq {stamp : Io → ℤ} (hstamp : ∀ s k, stamp { s with tick := k } = stamp s)
    {overhead delay : ℤ}
    (hcalm : clk.read q.io.tick - stamp q.io + overhead < delay → q.qemuOverhead = 0)
    (type : PerfType) : charge g clk reg stamp overhead delay type q =
      ((Io.charge clk reg (stamp q.io) overhead delay type q.io).1,
        { q with io := (Io.charge clk reg (stamp q.io) overhead delay type q.io).2 }) := by
  -- so the time stamp that is read again is the old one
  have hcorrect : correct g (clk.read q.io.tick) (stamp q.io) overhead delay
      { q with io := { q.io with tick := q.io.tick + 1 } } =
      { q with io := { q.io with tick := q.io.tick + 1 } } := correct_eq hcalm
  simp only [charge, spend, getUsec, hcorrect, hstamp, Io.charge, Io.spend, onIo]

private theorem ssdRegWriteDelay_matches (h : Sound t clk n rs q) (hreg : reg ∈ rs)
    (hcmd : q.io.regIoCmd reg = .write) :
    Matches t clk n rs (ssdRegWriteDelay g t clk reg q) (Io.ssdRegWriteDelay t clk reg q.io) := by
  obtain ⟨-, htime, -, hcell⟩ := ssdRegWriteDelay_drained t clk hcmd
  by_cases hne : q.io.regIoTime reg = -1
  · rw [ssdRegWriteDelay, Io.ssdRegWriteDelay, if_pos hne, if_pos hne]
    exact .refl h false
  · have hmem : deadline (q.io.regIoTime reg) 0 t.regWriteDelay ∈ (q.io.reg reg).deadlines t := by
      simp [Reg.deadlines, Io.reg, hcmd]
    have hsettled : Settled (q.ledger reg).chargeWrite
        ((Io.ssdRegWriteDelay t clk reg q.io).2.reg reg) :=
      (h.settled reg).regWrite hcmd hne htime (congrFun hcell reg)
    have hmatches := Matches.delay h hreg (ssdRegWriteDelay_delayed t clk hcmd) hsettled
    rw [ssdRegWriteDelay, if_neg hne, charge_eq (fun _ _ => rfl) (h.calm_of_mem hreg hne hmem)]
    rw [Io.ssdRegWriteDelay, if_neg hne] at hmatches ⊢
    exact hmatches

private theorem ssdCellReadDelay_matches (h : Sound t clk n rs q) (hreg : reg ∈ rs)
    (hcmd : q.io.regIoCmd reg = .read) :
    Matches t clk n rs (ssdCellReadDelay g t clk reg q) (Io.ssdCellReadDelay t clk reg q.io) := by
  obtain ⟨-, hcell, hcommand, htime⟩ := ssdCellReadDelay_drained t clk hcmd
  by_cases hne : q.io.cellIoTime reg = -1
  · rw [ssdCellReadDelay, Io.ssdCellReadDelay, if_pos hne, if_pos hne]
    exact .refl h false
  · have hmem : deadline (q.io.cellIoTime reg) (q.io.ioOverhead reg) t.cellReadDelay ∈
        (q.io.reg reg).deadlines t := by
      simp [Reg.deadlines, Io.reg, hcmd]
    have hcmd' : (Io.ssdCellReadDelay t clk reg q.io).2.regIoCmd reg = .read :=
      (congrFun hcommand reg).trans hcmd
    have hsettled : Settled (q.ledger reg).settleCell
        ((Io.ssdCellReadDelay t clk reg q.io).2.reg reg) :=
      (h.settled reg).cellDelay (fun hwrite => by simp [Io.reg, hcmd] at hwrite)
        (congrFun htime reg) hcell (by simp [Io.reg, hcmd'])
    have hmatches := Matches.delay h hreg (ssdCellReadDelay_delayed t clk hcmd) hsettled
    rw [ssdCellReadDelay, if_neg hne, charge_eq (fun _ _ => rfl) (h.calm_of_mem hreg hne hmem)]
    rw [Io.ssdCellReadDelay, if_neg hne] at hmatches ⊢
    exact hmatches

private theorem ssdRegReadDelay_matches (h : Sound t clk n rs q) (hreg : reg ∈ rs)
    (hcmd : q.io.regIoCmd reg = .read) (hcell : q.io.cellIoTime reg = -1) :
    Matches t clk n rs (ssdRegReadDelay g t clk reg q) (Io.ssdRegReadDelay t clk reg q.io) := by
  obtain ⟨-, htime, hcell', -⟩ := ssdRegReadDelay_drained t clk hcmd hcell
  by_cases hne : q.io.regIoTime reg = -1
  · rw [ssdRegReadDelay, Io.ssdRegReadDelay, if_pos hne, if_pos hne]
    exact .refl h false
  · have hmem : deadline (q.io.regIoTime reg) 0 t.regReadDelay ∈ (q.io.reg reg).deadlines t := by
      simp [Reg.deadlines, Io.reg, hcmd]
    have hsettled : Settled (q.ledger reg).settleTransfer
        ((Io.ssdRegReadDelay t clk reg q.io).2.reg reg) :=
      (h.settled reg).regRead (by simp [Io.reg, hcmd]) htime hcell'
    have hmatches := Matches.delay h hreg (ssdRegReadDelay_delayed t clk hcmd hcell hne) hsettled
    rw [ssdRegReadDelay, if_neg hne, charge_eq (fun _ _ => rfl) (h.calm_of_mem hreg hne hmem)]
    rw [Io.ssdRegReadDelay, if_neg hne] at hmatches ⊢
    exact hmatches

private theorem ssdCellWriteDelay_matches (h : Sound t clk n rs q) (hreg : reg ∈ rs)
    (hcmd : q.io.regIoCmd reg = .write) (htime : q.io.regIoTime reg = -1) :
    Matches t clk n rs (ssdCellWriteDelay g t clk reg q) (Io.ssdCellWriteDelay t clk reg q.io) := by
  obtain ⟨-, htime', hcell, hnoop⟩ := ssdCellWriteDelay_drained t clk hcmd htime
  by_cases hne : q.io.cellIoTime reg = -1
  · rw [ssdCellWriteDelay, Io.ssdCellWriteDelay, if_pos hne, if_pos hne]
    exact .refl h false
  · have hmem : deadline (q.io.cellIoTime reg) (q.io.ioOverhead reg) t.cellProgramDelay ∈
        (q.io.reg reg).deadlines t := by
      simp [Reg.deadlines, Io.reg, hcmd]
    have hsettled : Settled (q.ledger reg).settleCell
        ((Io.ssdCellWriteDelay t clk reg q.io).2.reg reg) :=
      (h.settled reg).cellDelay (fun _ => htime) (htime'.trans htime.symm) hcell
        (by simp [Io.reg, hnoop hne])
    have hmatches := Matches.delay h hreg (ssdCellWriteDelay_delayed t clk hcmd htime hne) hsettled
    rw [ssdCellWriteDelay, if_neg hne, charge_eq (fun _ _ => rfl) (h.calm_of_mem hreg hne hmem)]
    rw [Io.ssdCellWriteDelay, if_neg hne] at hmatches ⊢
    exact hmatches

private theorem ssdBlockEraseDelay_matches (h : Sound t clk n rs q) (hreg : reg ∈ rs)
    (hcmd : q.io.regIoCmd reg = .erase) :
    Matches t clk n rs (ssdBlockEraseDelay t clk reg q) (Io.ssdBlockEraseDelay t clk reg q.io) := by
  by_cases hne : q.io.cellIoTime reg = -1
  · rw [ssdBlockEraseDelay, Io.ssdBlockEraseDelay, if_pos hne, if_pos hne]
    exact .refl h false
  · have hfields : (Io.ssdBlockEraseDelay t clk reg q.io).2.regIoTime reg = q.io.regIoTime reg ∧
        (Io.ssdBlockEraseDelay t clk reg q.io).2.cellIoTime reg = -1 ∧
        (Io.ssdBlockEraseDelay t clk reg q.io).2.regIoCmd reg = .noop := by
      rw [Io.ssdBlockEraseDelay, if_neg hne]
      exact ⟨rfl, Function.update_self .., Function.update_self ..⟩
    have hsettled : Settled (q.ledger reg).settleCell
        ((Io.ssdBlockEraseDelay t clk reg q.io).2.reg reg) :=
      (h.settled reg).cellDelay (fun hwrite => by simp [Io.reg, hcmd] at hwrite) hfields.1
        hfields.2.1 (by simp [Io.reg, hfields.2.2])
    rw [ssdBlockEraseDelay, if_neg hne]
    exact .delay h hreg (ssdBlockEraseDelay_delayed t clk hcmd hne) hsettled

/-! ### Accesses -/

/-- The two delays of a read. -/
private theorem readDelays_matches (h : Sound t clk n rs q) (hreg : reg ∈ rs)
    (hcmd : q.io.regIoCmd reg = .read) :
    Matches t clk n rs (ssdRegReadDelay g t clk reg (ssdCellReadDelay g t clk reg q).2)
      (Io.ssdRegReadDelay t clk reg (Io.ssdCellReadDelay t clk reg q.io).2) := by
  obtain ⟨-, hcell, hcommand, -⟩ := ssdCellReadDelay_drained t clk hcmd
  obtain ⟨-, hio, hsound⟩ := ssdCellReadDelay_matches (g := g) h hreg hcmd
  rw [← hio] at hcell hcommand ⊢
  exact ssdRegReadDelay_matches hsound hreg ((congrFun hcommand reg).trans hcmd) hcell

theorem ssdRegAccess_matches (h : Sound t clk n rs q) (hreg : reg ∈ rs) :
    Matches t clk n rs (ssdRegAccess g t clk reg q) (Io.ssdRegAccess t clk reg q.io) := by
  cases hcmd : q.io.regIoCmd reg with
  | noop =>
    simp only [ssdRegAccess, Io.ssdRegAccess, hcmd]
    exact .refl h false
  | read =>
    simp only [ssdRegAccess, Io.ssdRegAccess, hcmd]
    exact readDelays_matches h hreg hcmd
  | write =>
    simp only [ssdRegAccess, Io.ssdRegAccess, hcmd]
    obtain ⟨-, htime, hcommand, -⟩ := ssdRegWriteDelay_drained t clk hcmd
    obtain ⟨-, hio, hsound⟩ := ssdRegWriteDelay_matches (g := g) h hreg hcmd
    rw [← hio] at htime hcommand ⊢
    exact ssdCellWriteDelay_matches hsound hreg ((congrFun hcommand reg).trans hcmd) htime
  | erase =>
    simp only [ssdRegAccess, Io.ssdRegAccess, hcmd]
    exact ssdBlockEraseDelay_matches h hreg hcmd
  | _ =>
    simp only [ssdRegAccess, Io.ssdRegAccess, hcmd]
    exact ⟨rfl, rfl, ⟨h.settled, h.channelTime⟩, h.overhead, h.calm⟩

private theorem flashAccessLoop_matches {ks : List ℕ} (hks : ∀ r ∈ ks, r ∈ rs) {st : Bool × QemuIo}
    {st' : Bool × Io} (h : Matches t clk n rs st st') :
    Matches t clk n rs (flashAccessLoop g t clk reg ks st)
      (Io.flashAccessLoop t clk reg ks st') := by
  induction ks generalizing st st' with
  | nil => exact h
  | cons r ks ih =>
    obtain ⟨ret, q⟩ := st
    obtain ⟨ret', s⟩ := st'
    obtain ⟨rfl, rfl, hsound⟩ := h
    rw [flashAccessLoop, Io.flashAccessLoop]
    have hrest : ∀ k ∈ ks, k ∈ rs := fun k hk => hks k (List.mem_cons_of_mem r hk)
    split
    · exact ih hrest ⟨rfl, rfl, hsound⟩
    · exact ih hrest (ssdRegAccess_matches hsound (hks r List.mem_cons_self))

/-- The registers that an operation accesses. -/
def accessed (g : Geometry) (t : IoConfig) (flashNb reg : ℕ) : List ℕ :=
  if t.ioParallelism then [reg] else chipRegs g flashNb

theorem access_matches {flashNb : ℕ} (h : Sound t clk n rs q)
    (hrs : ∀ r ∈ accessed g t flashNb reg, r ∈ rs) :
    Matches t clk n rs (access g t clk flashNb reg q) (Io.access g t clk flashNb reg q.io) := by
  rw [accessed] at hrs
  rw [access, Io.access]
  split
  · rw [if_pos ‹_›] at hrs
    exact ssdRegAccess_matches h (hrs reg (List.mem_singleton_self reg))
  · rw [if_neg ‹_›] at hrs
    exact flashAccessLoop_matches hrs (.refl h false)

/-! ### The channel -/

private theorem Sound.tick (h : Sound t clk n rs q) :
    Sound t clk n rs { q with io := { q.io with tick := q.io.tick + 1 } } :=
  ⟨⟨h.settled, h.channelTime⟩, h.overhead,
    h.calm.imp_right fun hover => hover.tick_le rfl (Nat.le_succ _)⟩

private theorem chAccessReg_matches {r : ℕ} (hr : r ∈ rs) {st : Ret × QemuIo} {st' : Ret × Io}
    (h : Matches t clk n rs st st') :
    Matches t clk n rs (chAccessReg g t clk r st) (Io.chAccessReg t clk r st') := by
  obtain ⟨ret, q⟩ := st
  obtain ⟨ret', s⟩ := st'
  obtain ⟨rfl, rfl, hsound⟩ := h
  have htick := Sound.tick (q := q) hsound
  by_cases hdue : q.io.regIoTime r ≤ clk.read q.io.tick ∧ q.io.regIoTime r ≠ -1
  · simp only [chAccessReg, Io.chAccessReg, getUsec, hdue.1, hdue.2, ne_eq, not_false_eq_true,
      and_self, if_true]
    cases hcmd : q.io.regIoCmd r with
    | read =>
      obtain ⟨-, hio, hsound'⟩ := readDelays_matches (g := g) htick hr hcmd
      exact ⟨rfl, hio, hsound'⟩
    | write =>
      obtain ⟨-, hio, hsound'⟩ := ssdRegWriteDelay_matches (g := g) htick hr hcmd
      exact ⟨rfl, hio, hsound'⟩
    | _ => exact .refl htick ret
  · simp only [chAccessReg, Io.chAccessReg, getUsec, hdue, if_false]
    exact .refl htick ret

private theorem chAccess_foldl_matches {ks : List ℕ} (hks : ∀ r ∈ ks, r ∈ rs) {st : Ret × QemuIo}
    {st' : Ret × Io} (h : Matches t clk n rs st st') :
    Matches t clk n rs (ks.foldl (fun st r => chAccessReg g t clk r st) st)
      (ks.foldl (fun st r => Io.chAccessReg t clk r st) st') := by
  induction ks generalizing st st' with
  | nil => exact h
  | cons r ks ih =>
    exact ih (fun k hk => hks k (List.mem_cons_of_mem r hk))
      (chAccessReg_matches (hks r List.mem_cons_self) h)

private theorem chAccessLoop_matches {channel : ℕ} (hrs : ∀ r ∈ channelRegs g t channel, r ∈ rs)
    (fuel : ℕ) (h : Sound t clk n rs q) :
    (chAccessLoop g t clk channel fuel q).io = Io.chAccessLoop g t clk channel fuel q.io ∧
      Sound t clk n rs (chAccessLoop g t clk channel fuel q) := by
  induction fuel generalizing q with
  | zero => exact ⟨rfl, ⟨h.settled, h.channelTime⟩, h.overhead, h.calm⟩
  | succ fuel ih =>
    have hround := chAccess_foldl_matches (g := g) hrs (.refl h Ret.success)
    rw [chAccessLoop, Io.chAccessLoop, ssdChAccess, Io.ssdChAccess]
    generalize List.foldl (fun st r => chAccessReg g t clk r st) _ _ = st at hround
    generalize List.foldl (fun st r => Io.chAccessReg t clk r st) _ _ = st' at hround
    obtain ⟨ret, q'⟩ := st
    obtain ⟨ret', s'⟩ := st'
    obtain ⟨rfl, rfl, hsound⟩ := hround
    cases ret with
    | success => exact ⟨rfl, hsound⟩
    | fail => exact ih hsound

theorem waitForChannel_matches {channel : ℕ} (hrs : ∀ r ∈ channelRegs g t channel, r ∈ rs)
    (h : Sound t clk n rs q) :
    (waitForChannel g t clk channel q).io = Io.waitForChannel g t clk channel q.io ∧
      Sound t clk n rs (waitForChannel g t clk channel q) := by
  rw [waitForChannel]
  have hfuel : (channelRegs g t channel).length <
      ((channelRegs g t channel).length + 1) * (q.qemuOverhead.toNat + 1) :=
    Nat.lt_of_lt_of_le (Nat.lt_succ_self _) (Nat.le_mul_of_pos_right _ (Nat.succ_pos _))
  obtain ⟨hio, hsound⟩ := chAccessLoop_matches hrs _ h
  exact ⟨hio.trans (chAccessLoop_eq_wait hfuel), hsound⟩

end QemuIo

/-- When the last use of a channel has passed. -/
def Io.channelDeadline (t : IoConfig) (s : Io) : Option ℤ :=
  match s.oldChannelCmd with
  | .read => some (s.oldChannelTime + t.channelSwitchDelayR)
  | .write => some (s.oldChannelTime + t.channelSwitchDelayW)
  | _ => none

/-- The switch to a channel does not wait. -/
def Io.SwitchOver (t : IoConfig) (clk : Clock) (channel : ℕ) (s : Io) : Prop :=
  s.oldChannelNb ≠ channel → ∀ D, s.channelDeadline t = some D → D ≤ clk.read s.tick

namespace QemuIo

variable {g : Geometry} {t : IoConfig} {clk : Clock} {n : ℤ} {rs : List ℕ} {reg : ℕ} {q : QemuIo}

private theorem spendSwitch_matches (h : Sound t clk n rs q) {delay : ℤ}
    (hcalm : n = 0 ∨ q.io.oldChannelTime + delay ≤ clk.read q.io.tick) :
    (spendSwitch g clk delay q).io = (Io.spend clk q.io.oldChannelTime 0 delay q.io).2 ∧
      Sound t clk n rs (spendSwitch g clk delay q) := by
  have hearly : clk.read q.io.tick - q.io.oldChannelTime + 0 < delay → q.qemuOverhead = 0 :=
    fun hlt => h.overhead.trans (hcalm.resolve_right (by omega))
  have hcorrect : correct g (clk.read q.io.tick) q.io.oldChannelTime 0 delay
      { q with io := { q.io with tick := q.io.tick + 1 } } =
      { q with io := { q.io with tick := q.io.tick + 1 } } := correct_eq hearly
  simp only [spendSwitch, Io.spend, getUsec, hcorrect, add_zero, sub_zero, true_and]
  refine ⟨⟨h.settled, h.channelTime⟩, h.overhead, ?_⟩
  rcases h.calm with hzero | hover
  · exact .inl hzero
  · refine hcalm.imp_right fun hle => hover.tick_le rfl ?_
    dsimp only
    rw [if_neg (by omega)]
    omega

theorem ssdChEnable_matches {channel : ℕ} (h : Sound t clk n rs q)
    (hswitch : n = 0 ∨ q.io.SwitchOver t clk channel) :
    (ssdChEnable g t clk channel q).io = Io.ssdChEnable t clk channel q.io ∧
      Sound t clk n rs (ssdChEnable g t clk channel q) := by
  rw [ssdChEnable, Io.ssdChEnable]
  split
  · exact ⟨rfl, h⟩
  split
  · rename_i hne
    have hcalm : ∀ D, q.io.channelDeadline t = some D → n = 0 ∨ D ≤ clk.read q.io.tick :=
      fun D hD => hswitch.imp_right fun hover => hover hne D hD
    cases hcmd : q.io.oldChannelCmd with
    | read =>
      simp only [ssdChSwitchDelay, Io.ssdChSwitchDelay, hcmd]
      exact spendSwitch_matches h (hcalm _ (by simp [channelDeadline, hcmd]))
    | write =>
      simp only [ssdChSwitchDelay, Io.ssdChSwitchDelay, hcmd]
      exact spendSwitch_matches h (hcalm _ (by simp [channelDeadline, hcmd]))
    | _ =>
      simp only [ssdChSwitchDelay, Io.ssdChSwitchDelay, hcmd]
      exact ⟨trivial, h⟩
  · exact ⟨rfl, h⟩

end QemuIo

end Vssim
