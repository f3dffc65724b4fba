import Vssim.Io.Ledger

/-!
# Corrections and time stamps

A register without an operation has the time stamp -1, and `SSD_UPDATE_QEMU_OVERHEAD` moves that one
back as well: from then on it looks like an operation that is due. A correction keeps the markers
only if every register has both a transfer and a cell operation left
(`ssdUpdateQemuOverhead_marked_iff`).

No correction is made while no time is lost, or if all operations that a call has to wait for are
over: those that it finds when it starts, and its own where it waits for what it has just recorded
(a partial write for the read of the old page, and the last page of a request with
`O_DIRECT_VSSIM`). In a run of such calls the markers are right and every page write is charged once
(`run_balanced`).
-/

namespace Vssim

open Io

namespace QemuIo

variable (g : Geometry) (t : IoConfig) (clk : Clock)

/-- A register that has no transfer left is marked so, and one that has no cell operation left. -/
def Marked (q : QemuIo) : Prop :=
  ∀ r, ((q.ledger r).transfer = .none → q.io.regIoTime r = -1) ∧
    ((q.ledger r).cell = false → q.io.cellIoTime r = -1)

/-- Every page write has been charged once, unless its transfer is still to be made. -/
def ChargedOnce (q : QemuIo) : Prop :=
  ∀ r, (q.ledger r).writes =
    (q.ledger r).charges + if (q.ledger r).transfer = .write then 1 else 0

/-! ### The correction -/

/-- **A correction keeps the markers** only if there is no time to make up for, or no register is
without a transfer or a cell operation. -/
theorem ssdUpdateQemuOverhead_marked_iff {q : QemuIo} (h : Marked q)
    (hoverhead : 0 ≤ q.qemuOverhead) {delay : ℤ} (hdelay : 0 < delay) :
    Marked (ssdUpdateQemuOverhead g delay q) ↔ q.qemuOverhead = 0 ∨
      ∀ r < g.flashNb * g.planesPerFlash,
        (q.ledger r).transfer ≠ .none ∧ (q.ledger r).cell = true := by
  rw [ssdUpdateQemuOverhead]
  by_cases hzero : q.qemuOverhead = 0
  · simp [hzero, h]
  rw [if_neg hzero]
  dsimp only
  generalize hdiff : (if q.qemuOverhead < delay then q.qemuOverhead else delay) = diff
  have hpos : 0 < diff := by
    rw [← hdiff]
    split <;> omega
  constructor
  · -- a marker that is moved back is not -1
    refine fun hmarked => .inr fun r hr => ⟨fun hnone => ?_, ?_⟩
    · have hold := (h r).1 hnone
      have hnew := (hmarked r).1 hnone
      simp only [if_pos hr] at hnew
      omega
    · by_contra hcell
      rw [Bool.not_eq_true] at hcell
      have hold := (h r).2 hcell
      have hnew := (hmarked r).2 hcell
      simp only [if_pos hr] at hnew
      omega
  · intro hall r
    have hall := hall.resolve_left hzero r
    by_cases hr : r < g.flashNb * g.planesPerFlash
    · obtain ⟨htransfer, hcell⟩ := hall hr
      exact ⟨fun hnone => absurd hnone htransfer, fun hidle => by simp [hcell] at hidle⟩
    · simp only [if_neg hr]
      exact h r

variable {g t clk} {n : ℤ} {rs : List ℕ} {reg : ℕ} {q : QemuIo}

/-! ### Recording operations -/

/-- An operation is recorded with its entry. -/
private theorem tidy_enter {s : Io} {f : Entry → Entry}
    (hreg : Settled (f (q.ledger reg)) (s.reg reg))
    (hother : ∀ r ≠ reg, Settled (q.ledger r) (s.reg r)) (hchannel : 0 ≤ s.oldChannelTime) :
    Tidy ({ q with io := s }.enter reg f) := by
  refine ⟨fun r => ?_, hchannel⟩
  by_cases hr : r = reg
  · subst hr
    simpa [enter] using hreg
  · simpa [enter, hr] using hother r hr

variable (g t clk)

private theorem Tidy.postWrite (h : Tidy q)
    (hquiet : q.io.regIoCmd reg = .write → q.io.regIoTime reg = -1)
    (channel : ℕ) (offset : ℤ) (type : IoType) (ret : Bool) :
    Tidy (postWrite g t clk reg channel offset type ret q) := by
  rw [QemuIo.postWrite, onIo]
  have hchannel := (ssdChRecord_alike t clk channel .write offset ret).channelTime h.channelTime
  have hregs := ssdChRecord_reg t clk channel .write offset ret q.io
  dsimp only
  generalize ssdChRecord t clk channel .write offset ret q.io = s at hchannel hregs
  obtain ⟨a, o, s', hs', hreg, hmoves, hchannel'⟩ := ssdRegRecord_write (g := g) t clk reg type
    offset channel hchannel
  have helse : ∀ r ≠ reg, s'.regIoCmd r = s.regIoCmd r ∧
      (s.regIoCmd r ≠ .read → s'.regIoTime r = s.regIoTime r) := fun r hr => by
    obtain ⟨s'', hs'', hcmd, htime⟩ := ssdRegRecord_elsewhere g t clk hr type offset channel s
    rw [← hs', hs'']
    exact ⟨hcmd, htime⟩
  rw [hs']
  refine tidy_enter ?_ (fun r hr => ?_) (hchannel'.symm ▸ hchannel)
  · have hcmd : s'.regIoCmd reg = .write := congrArg Reg.cmd hreg
    have htime : s'.regIoTime reg = s.oldChannelTime + t.channelSwitchDelayW :=
      congrArg Reg.regTime hreg
    have hne : s'.regIoTime reg ≠ -1 := by omega
    exact (h.settled reg).recordWrite hquiet hcmd hne
  · have hold := h.settled r
    rw [← hregs] at hold
    rw [ssdCellRecord_other t clk hr]
    exact hold.shift (hmoves r hr) (helse r hr).1 (helse r hr).2

omit g t clk in
/-- A read is recorded, and the other registers stay as they are. -/
private theorem Tidy.recordRead (h : Tidy q)
    (hquiet : q.io.regIoCmd reg = .write → q.io.regIoTime reg = -1) {s : Io}
    (hcmd : s.regIoCmd reg = .read) (hother : ∀ r ≠ reg, s.reg r = q.io.reg r)
    (hchannel : 0 ≤ s.oldChannelTime) : Tidy ({ q with io := s }.enter reg Entry.recordRead) := by
  refine tidy_enter ?_ (fun r hr => ?_) hchannel
  · exact (h.settled reg).recordRead hquiet (by simp [Io.reg, hcmd])
  · rw [hother r hr]
    exact h.settled r

private theorem Tidy.postRead (h : Tidy q)
    (hquiet : q.io.regIoCmd reg = .write → q.io.regIoTime reg = -1)
    (channel : ℕ) (offset : ℤ) (type : IoType) (ret : Bool) :
    Tidy (postRead g t clk reg channel offset type ret q) := by
  rw [QemuIo.postRead, onIo]
  have hchannel := (ssdChRecord_alike t clk channel .read offset ret).channelTime h.channelTime
  have hregs := ssdChRecord_reg t clk channel .read offset ret q.io
  dsimp only
  generalize ssdChRecord t clk channel .read offset ret q.io = s at hchannel hregs
  obtain ⟨a, o, s', hs', hreg, -, hother, hchannel'⟩ := ssdRegRecord_read (g := g) t clk reg type
    offset channel (ssdCellRecord t clk reg .read s)
  rw [hs']
  refine h.recordRead hquiet (congrArg Reg.cmd hreg) (fun r hr => ?_) (hchannel'.symm ▸ hchannel)
  rw [hother r hr, ssdCellRecord_other t clk hr, hregs]

private theorem Tidy.postPartialRead (h : Tidy q)
    (hquiet : q.io.regIoCmd reg = .write → q.io.regIoTime reg = -1) (channel : ℕ) (offset : ℤ)
    (type : IoType) (ret : Bool) :
    Tidy (postPartialRead g t clk reg channel offset type ret q) := by
  rw [QemuIo.postPartialRead, onIo]
  have hchannel := (ssdChRecord_alike t clk channel .read offset ret).channelTime h.channelTime
  have hregs := ssdChRecord_reg t clk channel .read offset ret q.io
  dsimp only
  generalize ssdChRecord t clk channel .read offset ret q.io = s at hchannel hregs
  obtain ⟨a, o, s', hs', hreg, -, hother, hchannel'⟩ := ssdRegRecord_read (g := g) t clk reg type
    offset channel s
  have hcmd : s'.regIoCmd reg = .read := congrArg Reg.cmd hreg
  rw [hs']
  refine h.recordRead hquiet hcmd (fun r hr => ?_) (hchannel'.symm ▸ hchannel)
  rw [ssdCellRecord_other t clk hr, hother r hr, hregs]

private theorem Tidy.postErase (h : Tidy q)
    (hquiet : q.io.regIoCmd reg = .write → q.io.regIoTime reg = -1)
    (channel : ℕ) : Tidy (postErase g t clk reg channel q) := by
  refine tidy_enter ?_ (fun r hr => ?_) h.channelTime
  · refine (h.settled reg).recordErase hquiet rfl ?_
    simp [Io.reg, ssdRegRecord, ssdCellRecord, setCommand, untie, getUsec]
  · rw [ssdCellRecord_other t clk hr, ssdRegRecord_erase_other t clk hr]
    exact h.settled r

/-! ### Calls -/

variable {g t clk}

private theorem finishLastPage_matches (h : Tidy q) {offset ioPageNb : ℤ}
    (hcalm : q.qemuOverhead = 0 ∨
      (t.oDirectVssim ∧ offset = ioPageNb - 1 → Over t clk [reg] q.io)) :
    (finishLastPage g t clk reg offset ioPageNb q).io =
        Io.finishLastPage t clk reg offset ioPageNb q.io ∧
      Tidy (finishLastPage g t clk reg offset ioPageNb q) := by
  rw [finishLastPage, Io.finishLastPage]
  split
  · rename_i hlast
    have hsound : Sound t clk q.qemuOverhead [reg] q := ⟨h, rfl, hcalm.imp_right (· hlast)⟩
    obtain ⟨-, hio, hsound⟩ := ssdRegAccess_matches (g := g) hsound (List.mem_singleton_self reg)
    exact ⟨hio, hsound.toTidy⟩
  · exact ⟨rfl, h⟩

/-- The access to the register of an operation leaves no transfer there. -/
private theorem access_reaches (flashNb blockNb : ℕ) (h : Sound t clk n rs q)
    (hrs : ∀ r ∈ accessed g t flashNb (regOf g flashNb blockNb), r ∈ rs) :
    Matches t clk n rs (access g t clk flashNb (regOf g flashNb blockNb) q)
        (Io.access g t clk flashNb (regOf g flashNb blockNb) q.io) ∧
      ((access g t clk flashNb (regOf g flashNb blockNb) q).2.io.reg
        (regOf g flashNb blockNb)).Quiet := by
  have hmatches := access_matches h hrs
  refine ⟨hmatches, ?_⟩
  rw [hmatches.io]
  exact (access_drained t clk flashNb blockNb q.io).2.quiet

/-- The switch to the channel of an operation, and the access to its register. -/
private theorem reachChannel_matches (flashNb blockNb : ℕ) (h : Sound t clk n rs q)
    (hswitch : n = 0 ∨ q.io.SwitchOver t clk (flashNb % t.channelNb))
    (hrs : ∀ r ∈ accessed g t flashNb (regOf g flashNb blockNb), r ∈ rs) :
    ∃ st, access g t clk flashNb (regOf g flashNb blockNb)
        (ssdChEnable g t clk (flashNb % t.channelNb) q) = st ∧
      Io.access g t clk flashNb (regOf g flashNb blockNb)
        (Io.ssdChEnable t clk (flashNb % t.channelNb) q.io) = (st.1, st.2.io) ∧
      Sound t clk n rs st.2 ∧ (st.2.io.reg (regOf g flashNb blockNb)).Quiet := by
  obtain ⟨hio₁, h₁⟩ := ssdChEnable_matches (g := g) h hswitch
  obtain ⟨⟨hret, hio₂, h₂⟩, hquiet⟩ := access_reaches flashNb blockNb h₁ hrs
  rw [← hio₁]
  exact ⟨_, rfl, Prod.ext hret.symm hio₂.symm, h₂, hquiet⟩

private theorem waitForChannel_reaches {channel : ℕ} (h : Sound t clk n rs q)
    (hrs : ∀ r ∈ channelRegs g t channel, r ∈ rs) (hquiet : (q.io.reg reg).Quiet) :
    (waitForChannel g t clk channel q).io = Io.waitForChannel g t clk channel q.io ∧
      Sound t clk n rs (waitForChannel g t clk channel q) ∧
      ((waitForChannel g t clk channel q).io.reg reg).Quiet := by
  obtain ⟨hio, hsound⟩ := waitForChannel_matches hrs h
  refine ⟨hio, hsound, ?_⟩
  rw [hio]
  exact ((waitForChannel_drained t clk channel q.io).moves reg).rule Move.quiet hquiet

/-- The switch, the access and the wait for the channel. -/
private theorem reachAndWait_matches (flashNb blockNb : ℕ)
    (h : Sound t clk n (accessed g t flashNb (regOf g flashNb blockNb) ++
      channelRegs g t (flashNb % t.channelNb)) q)
    (hswitch : n = 0 ∨ q.io.SwitchOver t clk (flashNb % t.channelNb)) :
    ∃ ret q₁ q₂, access g t clk flashNb (regOf g flashNb blockNb)
        (ssdChEnable g t clk (flashNb % t.channelNb) q) = (ret, q₁) ∧
      Io.access g t clk flashNb (regOf g flashNb blockNb)
        (Io.ssdChEnable t clk (flashNb % t.channelNb) q.io) = (ret, q₁.io) ∧
      waitForChannel g t clk (flashNb % t.channelNb) q₁ = q₂ ∧
      Io.waitForChannel g t clk (flashNb % t.channelNb) q₁.io = q₂.io ∧
      Tidy q₂ ∧ q₂.qemuOverhead = n ∧ (q₂.io.reg (regOf g flashNb blockNb)).Quiet := by
  obtain ⟨⟨ret, q₁⟩, hst, hst', h₁, hquiet₁⟩ := reachChannel_matches flashNb blockNb h hswitch
    fun r hr => List.mem_append_left _ hr
  obtain ⟨hio₂, h₂, hquiet₂⟩ := waitForChannel_reaches h₁ (fun r hr => List.mem_append_right _ hr)
    hquiet₁
  exact ⟨ret, q₁, _, hst, hst', rfl, hio₂.symm, h₂.toTidy, h₂.overhead, hquiet₂⟩

variable (g t clk)

/-- `SSD_PAGE_WRITE` has recorded its write. -/
def writeRecorded (flashNb blockNb : ℕ) (offset : ℤ) (type : IoType) (q : QemuIo) : QemuIo :=
  let channel := flashNb % t.channelNb
  let (ret, q) := access g t clk flashNb (regOf g flashNb blockNb) (ssdChEnable g t clk channel q)
  postWrite g t clk (regOf g flashNb blockNb) channel offset type ret
    (waitForChannel g t clk channel q)

/-- `SSD_PAGE_READ` has recorded its read. -/
def readRecorded (flashNb blockNb : ℕ) (offset : ℤ) (type : IoType) (q : QemuIo) : QemuIo :=
  let channel := flashNb % t.channelNb
  let (ret, q) := access g t clk flashNb (regOf g flashNb blockNb) (ssdChEnable g t clk channel q)
  postRead g t clk (regOf g flashNb blockNb) channel offset type ret q

/-- `SSD_PAGE_PARTIAL_WRITE` has recorded the read of the old page. -/
def oldRecorded (flashNb blockNb : ℕ) (offset : ℤ) (type : IoType) (q : QemuIo) : QemuIo :=
  let channel := flashNb % t.channelNb
  let (ret, q) := access g t clk flashNb (regOf g flashNb blockNb) (ssdChEnable g t clk channel q)
  postPartialRead g t clk (regOf g flashNb blockNb) channel offset type ret
    (waitForChannel g t clk channel q)

/-- `SSD_PAGE_PARTIAL_WRITE` has waited for the old page, and has recorded the write of the new
one. -/
def newRecorded (flashNb blockNb : ℕ) (offset : ℤ) (type : IoType) (q : QemuIo) : QemuIo :=
  let channel := flashNb % t.channelNb
  let (ret, q) := access g t clk flashNb (regOf g flashNb blockNb) (ssdChEnable g t clk channel q)
  postWrite g t clk (regOf g flashNb blockNb) channel offset type ret q

/-- A call makes no correction: no time has been lost, or all it may have to wait for is over. That
includes what it has recorded itself, if it waits for that at once. -/
def Undisturbed (c : Call) (q : QemuIo) : Prop :=
  q.qemuOverhead = 0 ∨ match c with
    | .ssdPageWrite f b _ offset type ioPageNb =>
      q.io.SwitchOver t clk (f % t.channelNb) ∧
      Over t clk (accessed g t f (regOf g f b) ++ channelRegs g t (f % t.channelNb)) q.io ∧
      (t.oDirectVssim ∧ offset = ioPageNb - 1 →
        Over t clk [regOf g f b] (writeRecorded g t clk f b offset type q).io)
    | .ssdPagePartialWrite f₀ b₀ _ f b _ offset type ioPageNb =>
      q.io.SwitchOver t clk (f₀ % t.channelNb) ∧
      Over t clk (accessed g t f₀ (regOf g f₀ b₀) ++ channelRegs g t (f₀ % t.channelNb)) q.io ∧
      let q := oldRecorded g t clk f₀ b₀ offset type q
      Over t clk [regOf g f₀ b₀] q.io ∧
      let q := ssdRemainIoDelay g t clk (regOf g f₀ b₀) q
      q.io.SwitchOver t clk (f % t.channelNb) ∧ Over t clk (accessed g t f (regOf g f b)) q.io ∧
      (t.oDirectVssim ∧ offset = ioPageNb - 1 →
        Over t clk [regOf g f b] (newRecorded g t clk f b offset type q).io)
    | .ssdPageRead f b _ offset type ioPageNb =>
      q.io.SwitchOver t clk (f % t.channelNb) ∧ Over t clk (accessed g t f (regOf g f b)) q.io ∧
      (t.oDirectVssim ∧ offset = ioPageNb - 1 →
        Over t clk [regOf g f b] (readRecorded g t clk f b offset type q).io)
    | .ssdBlockErase f b => Over t clk (accessed g t f (regOf g f b)) q.io
    | _ => True

variable {g t clk}

private theorem ssdPageWrite_matches {flashNb blockNb pageNb : ℕ} {offset ioPageNb : ℤ}
    {type : IoType} (h : Tidy q)
    (hc : Undisturbed g t clk (.ssdPageWrite flashNb blockNb pageNb offset type ioPageNb) q) :
    (ssdPageWrite g t clk flashNb blockNb offset type ioPageNb q).io =
        Io.ssdPageWrite g t clk flashNb blockNb offset type ioPageNb q.io ∧
      Tidy (ssdPageWrite g t clk flashNb blockNb offset type ioPageNb q) := by
  obtain ⟨ret, q₁, q₂, hst, hst', hwait, hwait', h₂, hoverhead, hquiet⟩ :=
    reachAndWait_matches flashNb blockNb ⟨h, rfl, hc.imp_right fun hc => hc.2.1⟩
      (hc.imp_right fun hc => hc.1)
  have hlast := hc.imp_right fun hc => hc.2.2
  simp only [writeRecorded, hst, hwait] at hlast
  simp only [ssdPageWrite, Io.ssdPageWrite, hst, hst', hwait, hwait']
  have h₃ := h₂.postWrite g t clk (fun hcmd => hquiet (.inr hcmd)) (flashNb % t.channelNb) offset
    type ret
  exact finishLastPage_matches h₃ (hoverhead.symm ▸ hlast)

private theorem ssdPageRead_matches {flashNb blockNb pageNb : ℕ} {offset ioPageNb : ℤ}
    {type : IoType} (h : Tidy q)
    (hc : Undisturbed g t clk (.ssdPageRead flashNb blockNb pageNb offset type ioPageNb) q) :
    (ssdPageRead g t clk flashNb blockNb offset type ioPageNb q).io =
        Io.ssdPageRead g t clk flashNb blockNb offset type ioPageNb q.io ∧
      Tidy (ssdPageRead g t clk flashNb blockNb offset type ioPageNb q) := by
  have hsound : Sound t clk q.qemuOverhead (accessed g t flashNb (regOf g flashNb blockNb)) q :=
    ⟨h, rfl, hc.imp_right fun hc => hc.2.1⟩
  have hlast := hc.imp_right fun hc => hc.2.2
  rw [readRecorded] at hlast
  rw [ssdPageRead, Io.ssdPageRead]
  dsimp only at hlast ⊢
  obtain ⟨⟨ret, q₁⟩, hst, hst', h₁, hquiet⟩ := reachChannel_matches flashNb blockNb hsound
    (hc.imp_right fun hc => hc.1) fun r hr => hr
  rw [hst] at hlast ⊢
  rw [hst']
  have h₂ := h₁.postRead g t clk (fun hcmd => hquiet (.inr hcmd)) (flashNb % t.channelNb) offset
    type ret
  exact finishLastPage_matches h₂ (h₁.overhead.symm ▸ hlast)

private theorem ssdBlockErase_matches {flashNb blockNb : ℕ} (h : Tidy q)
    (hc : Undisturbed g t clk (.ssdBlockErase flashNb blockNb) q) :
    (ssdBlockErase g t clk flashNb blockNb q).io =
        Io.ssdBlockErase g t clk flashNb blockNb q.io ∧
      Tidy (ssdBlockErase g t clk flashNb blockNb q) := by
  have hsound : Sound t clk q.qemuOverhead (accessed g t flashNb (regOf g flashNb blockNb)) q :=
    ⟨h, rfl, hc⟩
  rw [ssdBlockErase, Io.ssdBlockErase]
  dsimp only
  obtain ⟨⟨-, hio, h'⟩, hquiet⟩ := access_reaches flashNb blockNb hsound fun r hr => hr
  rw [← hio]
  generalize access g t clk flashNb (regOf g flashNb blockNb) q = st at h' hquiet
  exact ⟨rfl, h'.postErase g t clk (fun hcmd => hquiet (.inr hcmd)) (flashNb % t.channelNb)⟩

/-- The read of the old page, up to the wait for it. -/
private theorem oldRecorded_matches {flashNb blockNb : ℕ} (offset : ℤ) (type : IoType)
    (h : Sound t clk n (accessed g t flashNb (regOf g flashNb blockNb) ++
      channelRegs g t (flashNb % t.channelNb)) q)
    (hswitch : n = 0 ∨ q.io.SwitchOver t clk (flashNb % t.channelNb)) :
    ∃ ret, ∃ q₁ : QemuIo,
      Io.access g t clk flashNb (regOf g flashNb blockNb)
        (Io.ssdChEnable t clk (flashNb % t.channelNb) q.io) = (ret, q₁.io) ∧
      (oldRecorded g t clk flashNb blockNb offset type q).io =
        ssdCellRecord t clk (regOf g flashNb blockNb) .read
          (ssdRegRecord g t clk (regOf g flashNb blockNb) .read type offset
            (flashNb % t.channelNb) (ssdChRecord t clk (flashNb % t.channelNb) .read offset ret
              (Io.waitForChannel g t clk (flashNb % t.channelNb) q₁.io))) ∧
      (oldRecorded g t clk flashNb blockNb offset type q).qemuOverhead = n ∧
      Tidy (oldRecorded g t clk flashNb blockNb offset type q) := by
  obtain ⟨ret, q₁, q₂, hst, hst', hwait, hwait', h₂, hoverhead, hquiet⟩ :=
    reachAndWait_matches flashNb blockNb h hswitch
  refine ⟨ret, q₁, hst', ?_⟩
  simp only [oldRecorded, hst, hwait, hwait']
  exact ⟨rfl, hoverhead, h₂.postPartialRead g t clk (fun hcmd => hquiet (.inr hcmd)) _ offset type
    ret⟩

/-- The write of the new page, which does not wait for the channel. -/
private theorem newRecorded_matches {flashNb blockNb : ℕ} (offset : ℤ) (type : IoType)
    (h : Sound t clk n (accessed g t flashNb (regOf g flashNb blockNb)) q)
    (hswitch : n = 0 ∨ q.io.SwitchOver t clk (flashNb % t.channelNb)) :
    ∃ ret, ∃ q₁ : QemuIo,
      Io.access g t clk flashNb (regOf g flashNb blockNb)
        (Io.ssdChEnable t clk (flashNb % t.channelNb) q.io) = (ret, q₁.io) ∧
      (newRecorded g t clk flashNb blockNb offset type q).io =
        ssdCellRecord t clk (regOf g flashNb blockNb) .write
          (ssdRegRecord g t clk (regOf g flashNb blockNb) .write type offset
            (flashNb % t.channelNb)
            (ssdChRecord t clk (flashNb % t.channelNb) .write offset ret q₁.io)) ∧
      (newRecorded g t clk flashNb blockNb offset type q).qemuOverhead = n ∧
      Tidy (newRecorded g t clk flashNb blockNb offset type q) := by
  obtain ⟨⟨ret, q₁⟩, hst, hst', h₁, hquiet₁⟩ := reachChannel_matches flashNb blockNb h hswitch
    fun r hr => hr
  refine ⟨ret, q₁, hst', ?_⟩
  rw [newRecorded]
  dsimp only
  rw [hst]
  exact ⟨rfl, h₁.overhead, h₁.postWrite g t clk (fun hcmd => hquiet₁ (.inr hcmd)) _ offset type
    ret⟩

private theorem ssdPagePartialWrite_matches {oldFlashNb oldBlockNb oldPageNb newFlashNb newBlockNb
    newPageNb : ℕ} {offset ioPageNb : ℤ} {type : IoType} (h : Tidy q)
    (hc : Undisturbed g t clk (.ssdPagePartialWrite oldFlashNb oldBlockNb oldPageNb newFlashNb
      newBlockNb newPageNb offset type ioPageNb) q) :
    (ssdPagePartialWrite g t clk oldFlashNb oldBlockNb newFlashNb newBlockNb offset type ioPageNb
        q).io = Io.ssdPagePartialWrite g t clk oldFlashNb oldBlockNb newFlashNb newBlockNb offset
          type ioPageNb q.io ∧
      Tidy (ssdPagePartialWrite g t clk oldFlashNb oldBlockNb newFlashNb newBlockNb offset type
        ioPageNb q) := by
  have heq : ssdPagePartialWrite g t clk oldFlashNb oldBlockNb newFlashNb newBlockNb offset type
      ioPageNb q = finishLastPage g t clk (regOf g newFlashNb newBlockNb) offset ioPageNb
        (newRecorded g t clk newFlashNb newBlockNb offset type
          (ssdRemainIoDelay g t clk (regOf g oldFlashNb oldBlockNb)
            (oldRecorded g t clk oldFlashNb oldBlockNb offset type q))) := rfl
  -- the read of the old page, which is waited for at once
  obtain ⟨ret, q₁, hst₁, hio₁, hover₁, h₁⟩ := oldRecorded_matches offset type
    ⟨h, rfl, hc.imp_right fun hc => hc.2.1⟩ (hc.imp_right fun hc => hc.1)
  rw [heq, Io.ssdPagePartialWrite]
  dsimp only
  rw [hst₁]
  dsimp only
  rw [← hio₁]
  have hold := hc.imp_right fun hc => hc.2.2.1
  have hnew := hc.imp_right fun hc => hc.2.2.2
  dsimp only at hold hnew
  generalize oldRecorded g t clk oldFlashNb oldBlockNb offset type q = q₂ at hover₁ h₁ hold hnew
  have hsound : Sound t clk q.qemuOverhead [regOf g oldFlashNb oldBlockNb] q₂ :=
    ⟨h₁, hover₁, hold⟩
  obtain ⟨-, hio₂, h₂⟩ := ssdRegAccess_matches (g := g) hsound (List.mem_singleton_self _)
  rw [Io.ssdRemainIoDelay, ← hio₂]
  rw [ssdRemainIoDelay] at hnew ⊢
  generalize (ssdRegAccess g t clk (regOf g oldFlashNb oldBlockNb) q₂).2 = q₃ at h₂ hnew
  -- the write of the new page
  obtain ⟨ret', q₄, hst₄, hio₄, hover₄, h₄⟩ := newRecorded_matches offset type
    ⟨h₂.toTidy, h₂.overhead, hnew.imp_right fun hc => hc.2.1⟩ (hnew.imp_right fun hc => hc.1)
  rw [hst₄]
  dsimp only
  rw [recordWrite]
  rw [← hio₄]
  exact finishLastPage_matches h₄ (hover₄.symm ▸ hnew.imp_right fun hc => hc.2.2)

/-- **A call that makes no correction** does what it does in the other build, and the entries are
right after it. -/
theorem call_matches {c : Call} (h : Tidy q) (hc : Undisturbed g t clk c q) :
    (call g t clk c q).io = Io.call g t clk c q.io ∧ Tidy (call g t clk c q) := by
  cases c with
  | ssdPageWrite => exact ssdPageWrite_matches h hc
  | ssdPagePartialWrite => exact ssdPagePartialWrite_matches h hc
  | ssdPageRead => exact ssdPageRead_matches h hc
  | ssdBlockErase => exact ssdBlockErase_matches h hc
  | allocIoRequest sectorNb length ioType =>
    obtain ⟨hreg, hchannel⟩ := allocIoRequest_reg (g := g) clk sectorNb length ioType q.io
    exact ⟨rfl, fun r => (congrFun hreg r).symm ▸ h.settled r, hchannel.symm ▸ h.channelTime⟩
  | _ => exact ⟨rfl, h.settled, h.channelTime⟩

/-! ### Runs -/

/-- The emulator stores the time it has lost, or the FTL makes a call. -/
inductive Step
  | overhead (time : ℕ)
  | call (c : Call)

variable (g t clk)

def step (q : QemuIo) : Step → QemuIo
  | .overhead time => { q with qemuOverhead := time }
  | .call c => call g t clk c q

/-- The state after steps. -/
def run (steps : List Step) (q : QemuIo) : QemuIo := steps.foldl (step g t clk) q

/-- No call of the run makes a correction. -/
def UndisturbedRun : List Step → QemuIo → Prop
  | [], _ => True
  | a :: as, q => (∀ c, a = .call c → Undisturbed g t clk c q) ∧
      UndisturbedRun as (step g t clk q a)

variable {g t clk}

private theorem Tidy.marked (h : Tidy q) :
    Marked q := fun r => ⟨(h.settled r).transfer, (h.settled r).cell⟩

private theorem Tidy.chargedOnce (h : Tidy q) : ChargedOnce q := fun r => (h.settled r).count

theorem init_tidy (t : IoConfig) : Tidy (init t) :=
  ⟨fun _ => ⟨fun _ => rfl, fun _ => rfl, rfl, nofun, nofun⟩, le_rfl⟩

theorem Tidy.step (h : Tidy q) {a : Step} (ha : ∀ c, a = .call c → Undisturbed g t clk c q) :
    Tidy (step g t clk q a) := by
  cases a with
  | overhead time => exact ⟨h.settled, h.channelTime⟩
  | call c => exact (call_matches h (ha c rfl)).2

private theorem Tidy.run (h : Tidy q) {steps : List Step}
    (hsteps : UndisturbedRun g t clk steps q) :
    ∀ pre, pre <+: steps → Tidy (run g t clk pre q) := by
  induction steps generalizing q with
  | nil =>
    intro pre hpre
    rw [List.prefix_nil.mp hpre]
    exact h
  | cons a as ih =>
    intro pre hpre
    rcases List.prefix_cons_iff.mp hpre with rfl | ⟨rest, rfl, hrest⟩
    · exact h
    · exact ih (h.step hsteps.1) hsteps.2 rest hrest

/-- **The markers are right and every page write is charged once**, in every state of a run in which
no call makes a correction. -/
theorem run_balanced (g : Geometry) (t : IoConfig) (clk : Clock) (steps : List Step)
    (h : UndisturbedRun g t clk steps (init t)) : ∀ pre, pre <+: steps →
      Marked (run g t clk pre (init t)) ∧ ChargedOnce (run g t clk pre (init t)) := fun pre hpre =>
  have htidy := (init_tidy t).run h pre hpre
  ⟨htidy.marked, htidy.chargedOnce⟩

/-- Steps on the small device, from the start. -/
def smallRun (steps : List Step) : QemuIo :=
  run smallDevice smallDelays steadyClock steps (init smallDelays)

/-- A page write for a plane of the small device. -/
def writePlane (plane : ℕ) : Step := .call (.ssdPageWrite 0 plane 0 0 .gcWrite 1)

/-- Two writes for one plane. Time has been lost before the first, which has nothing to wait for,
and none before the second, which waits. -/
theorem run_balanced_smallDevice :
    Marked (smallRun [.overhead 7, writePlane 0, .overhead 0, writePlane 0]) ∧
    ChargedOnce (smallRun [.overhead 7, writePlane 0, .overhead 0, writePlane 0]) := by
  have hsteps : UndisturbedRun smallDevice smallDelays steadyClock
      [.overhead 7, writePlane 0, .overhead 0, writePlane 0] (init smallDelays) := by
    refine ⟨nofun, fun c hc => .inr ?_, nofun, fun c hc => .inl rfl, trivial⟩
    obtain rfl := Step.call.inj hc
    refine ⟨fun _ D hD => ?_, fun r _ D hD => ?_, fun hlast => absurd hlast (by decide)⟩
    · cases hD
    · cases (List.mem_singleton.mp hD)
  exact run_balanced _ _ _ _ hsteps _ List.prefix_rfl

private theorem ChargedOnce.entry (h : ChargedOnce q) {r : ℕ} {e : Entry} (he : q.ledger r = e) :
    e.writes = e.charges + if e.transfer = .write then 1 else 0 :=
  he ▸ h r

/-- The markers of a plane without operations are moved back. A write whose transfer has been
charged is charged again. And the time stamp of a transfer that is left becomes the marker: of two
writes recorded none is charged. -/
theorem run_unbalanced :
    ¬Marked (smallRun [writePlane 0, .overhead 1, writePlane 0]) ∧
    ((smallRun [writePlane 0, writePlane 1, writePlane 1, .overhead 5, writePlane 1]).ledger 0 =
        ⟨.none, true, 1, 2⟩ ∧
      ¬ChargedOnce (smallRun
        [writePlane 0, writePlane 1, writePlane 1, .overhead 5, writePlane 1])) ∧
    ((smallRun [writePlane 0, writePlane 1, .overhead 5, writePlane 1, writePlane 0]).ledger 0 =
        ⟨.write, true, 2, 0⟩ ∧
      ¬ChargedOnce (smallRun
        [writePlane 0, writePlane 1, .overhead 5, writePlane 1, writePlane 0])) := by
  have htwice : (smallRun [writePlane 0, writePlane 1, writePlane 1, .overhead 5,
      writePlane 1]).ledger 0 = ⟨.none, true, 1, 2⟩ := by decide +kernel
  have hnever : (smallRun [writePlane 0, writePlane 1, .overhead 5, writePlane 1,
      writePlane 0]).ledger 0 = ⟨.write, true, 2, 0⟩ := by decide +kernel
  refine ⟨fun h => ?_, ⟨htwice, fun h => absurd (h.entry htwice) (by decide)⟩,
    ⟨hnever, fun h => absurd (h.entry hnever) (by decide)⟩⟩
  exact absurd ((h 1).1 (by decide +kernel)) (by decide +kernel)

end QemuIo

end Vssim
