import Vssim.Io.Channels
import Vssim.Io.Transfers

/-!
# The write of a partial write

After its read `SSD_PAGE_PARTIAL_WRITE` repeats the text of `SSD_PAGE_WRITE`, but `ret` is still
`SUCCESS` from the loop of the read, so the loop that waits for the channel makes no round.
A full write goes over the registers of the channel once at least, and finishes the transfers
it finds due; the partial write leaves them in their registers. The two agree exactly when
there is none (`writeHalf_agrees_iff`).

The scan of the channel takes one clock reading per register even when it finds nothing, which
the partial write does not take. To compare the two on the same readings, the write half can
let some pass before it records.
-/

namespace Vssim

open Io

namespace Io

variable (g : Geometry) (t : IoConfig) (clk : Clock)

/-- `SSD_PAGE_PARTIAL_WRITE` up to its call of `SSD_REMAIN_IO_DELAY`. -/
def partialReadHalf (oldFlashNb oldBlockNb : ℕ) (offset : ℤ) (type : IoType) (s : Io) : Io :=
  let channel := oldFlashNb % t.channelNb
  let reg := regOf g oldFlashNb oldBlockNb
  let s := partialReadState g t clk oldFlashNb oldBlockNb offset s
  let s := ssdRegRecord g t clk reg .read type offset channel s
  let s := ssdCellRecord t clk reg .read s
  ssdRemainIoDelay t clk reg s

/-- The access of a write to its register, with which it reaches its channel. -/
def reachChannel (flashNb blockNb : ℕ) (s : Io) : Bool × Io :=
  access g t clk flashNb (regOf g flashNb blockNb) (ssdChEnable t clk (flashNb % t.channelNb) s)

/-- The rest of `SSD_PAGE_PARTIAL_WRITE`, when `k` clock readings pass before it records. -/
def partialWriteHalf (k newFlashNb newBlockNb : ℕ) (offset : ℤ) (type : IoType) (ioPageNb : ℤ)
    (s : Io) : Io :=
  let st := reachChannel g t clk newFlashNb newBlockNb s
  recordWrite g t clk (regOf g newFlashNb newBlockNb) (newFlashNb % t.channelNb) offset type ioPageNb
    st.1 { st.2 with tick := st.2.tick + k }

/-- A transfer in register `r` that is due at time `now`. -/
def TransferDue (s : Io) (r : ℕ) (now : ℤ) : Prop :=
  (s.regIoCmd r = .read ∨ s.regIoCmd r = .write) ∧ s.regIoTime r ≤ now ∧ s.regIoTime r ≠ -1

/-- `SSD_CH_ACCESS` finds no transfer due in the registers `rs`, each at its own reading. -/
def AllQuiet (rs : List ℕ) (s : Io) : Prop :=
  ∀ i r, rs[i]? = some r → ¬s.TransferDue r (clk.read (s.tick + i))

/-- The state of the registers, of the channels and of the requests is the same. -/
structure Agree (s s' : Io) : Prop where
  reg : s'.reg = s.reg
  channelNb : s'.oldChannelNb = s.oldChannelNb
  channelCmd : s'.oldChannelCmd = s.oldChannelCmd
  channelTime : s'.oldChannelTime = s.oldChannelTime
  requests : s'.requests = s.requests
  seqNb : s'.ioRequestSeqNb = s.ioRequestSeqNb

private theorem ssdPagePartialWrite_eq (oldFlashNb oldBlockNb newFlashNb newBlockNb : ℕ)
    (offset : ℤ) (type : IoType) (ioPageNb : ℤ) (s : Io) :
    ssdPagePartialWrite g t clk oldFlashNb oldBlockNb newFlashNb newBlockNb offset type ioPageNb s =
      partialWriteHalf g t clk 0 newFlashNb newBlockNb offset type ioPageNb
        (partialReadHalf g t clk oldFlashNb oldBlockNb offset type s) := rfl

variable {g t clk} {s : Io}

/-! ### The scan -/

theorem AllQuiet.cons {r : ℕ} {rs : List ℕ} : AllQuiet clk (r :: rs) s ↔
    ¬s.TransferDue r (clk.read s.tick) ∧ AllQuiet clk rs { s with tick := s.tick + 1 } := by
  constructor
  · intro h
    refine ⟨h 0 r rfl, fun i k hk => ?_⟩
    have hnext := h (i + 1) k hk
    rwa [Nat.add_comm i 1, ← Nat.add_assoc] at hnext
  · rintro ⟨h₀, h⟩ i k hk
    cases i with
    | zero =>
      cases hk
      exact h₀
    | succ i =>
      rw [Nat.add_comm i 1, ← Nat.add_assoc]
      exact h i k hk

theorem chAccessReg_quiet {r : ℕ} (h : ¬s.TransferDue r (clk.read s.tick)) (ret : Ret) :
    chAccessReg t clk r (ret, s) = (ret, { s with tick := s.tick + 1 }) := by
  by_cases htime : s.regIoTime r ≤ clk.read s.tick ∧ s.regIoTime r ≠ -1
  · simp only [chAccessReg, getUsec, htime.1, htime.2, ne_eq, not_false_eq_true, and_self, if_true]
    split
    · rename_i hcmd
      exact absurd ⟨.inl hcmd, htime⟩ h
    · rename_i hcmd
      exact absurd ⟨.inr hcmd, htime⟩ h
    · rfl
  · simp only [chAccessReg, getUsec, htime, if_false]

/-- A scan that finds nothing due only reads the clock. -/
theorem chAccess_foldl_quiet {rs : List ℕ} (h : AllQuiet clk rs s) (ret : Ret) :
    rs.foldl (fun st r => chAccessReg t clk r st) (ret, s) =
      (ret, { s with tick := s.tick + rs.length }) := by
  induction rs generalizing s with
  | nil => rfl
  | cons r rs ih =>
    rw [AllQuiet.cons] at h
    rw [List.foldl_cons, chAccessReg_quiet h.1, ih h.2, List.length_cons, Nat.add_comm rs.length 1,
      ← Nat.add_assoc]

private theorem waitForChannel_quiet {channel : ℕ} (h : AllQuiet clk (channelRegs g t channel) s) :
    waitForChannel g t clk channel s =
      { s with tick := s.tick + (channelRegs g t channel).length } := by
  rw [waitForChannel, chAccessLoop, ssdChAccess, chAccess_foldl_quiet h]

/-- What the scan makes of a register whose transfer is due. -/
def Finished (x y : Reg) : Prop :=
  x.cmd = .read ∧ y.cmd = .noop ∨
    x.cmd = .write ∧ x.regTime ≠ -1 ∧ y.cmd ≠ .read ∧ y.regTime = -1

private theorem Finished.trans {x y z : Reg} (h : Finished x y) (h' : Moves t y z) :
    Finished x z := by
  rcases h with ⟨hcmd, hnoop⟩ | ⟨hcmd, htime, hquiet⟩
  · exact .inl ⟨hcmd, by rw [h'.of_noop hnoop, hnoop]⟩
  · refine .inr ⟨hcmd, htime, h'.rule (P := fun y => y.cmd ≠ .read ∧ y.regTime = -1) ?_ hquiet⟩
    intro x y hmove hx
    cases hmove with
    | cellRead hread => exact absurd hread hx.1
    | regRead hread => exact absurd hread hx.1
    | regWrite => exact ⟨hx.1, rfl⟩
    | cellWrite => exact ⟨by simp, rfl⟩
    | blockErase => exact ⟨by simp, hx.2⟩
    | later hread => exact absurd hread hx.1

private theorem chAccessReg_due {r : ℕ} (h : s.TransferDue r (clk.read s.tick)) (ret : Ret) :
    (chAccessReg t clk r (ret, s)).1 = .fail ∧
      Finished (s.reg r) ((chAccessReg t clk r (ret, s)).2.reg r) := by
  obtain ⟨hcmd, htime, hne⟩ := h
  simp only [chAccessReg, getUsec, htime, hne, ne_eq, not_false_eq_true, and_self, if_true]
  rcases hcmd with hcmd | hcmd
  · have hempty := (readDelays_drained t clk (s := { s with tick := s.tick + 1 }) hcmd).2
    simp only [hcmd]
    exact ⟨trivial, .inl ⟨hcmd, hempty.noop (.inr (.inl ⟨hcmd, hne⟩))⟩⟩
  · obtain ⟨-, htime', hcommand, -⟩ :=
      ssdRegWriteDelay_drained t clk (s := { s with tick := s.tick + 1 }) hcmd
    have hcmd' : (ssdRegWriteDelay t clk r { s with tick := s.tick + 1 }).2.regIoCmd r = .write :=
      (congrFun hcommand r).trans hcmd
    simp only [hcmd]
    refine ⟨trivial, .inr ⟨hcmd, hne, fun hread => ?_, htime'⟩⟩
    exact absurd (hread.symm.trans hcmd') (by decide)

private theorem chAccess_foldl_fail (rs : List ℕ) (s : Io) :
    (rs.foldl (fun st r => chAccessReg t clk r st) (.fail, s)).1 = .fail := by
  induction rs generalizing s with
  | nil => rfl
  | cons r rs ih =>
    have hfail : (chAccessReg t clk r (.fail, s)).1 = .fail := by
      by_cases hdue : s.TransferDue r (clk.read s.tick)
      · exact (chAccessReg_due hdue .fail).1
      · rw [chAccessReg_quiet hdue]
    rw [List.foldl_cons, ← Prod.mk.eta (p := chAccessReg t clk r (.fail, s)), hfail]
    exact ih _

/-- A scan that finds a transfer due finishes it, and there will be another. -/
theorem chAccess_foldl_due {rs : List ℕ} (h : ¬AllQuiet clk rs s) (ret : Ret) :
    (rs.foldl (fun st r => chAccessReg t clk r st) (ret, s)).1 = .fail ∧
      ∃ r now, s.TransferDue r now ∧
        Finished (s.reg r) ((rs.foldl (fun st r => chAccessReg t clk r st) (ret, s)).2.reg r) := by
  induction rs generalizing s ret with
  | nil => exact absurd (fun i r hr => by simp at hr) h
  | cons r rs ih =>
    rw [List.foldl_cons]
    by_cases hdue : s.TransferDue r (clk.read s.tick)
    · obtain ⟨hfail, hfin⟩ := chAccessReg_due (t := t) hdue ret
      have hrest := chAccess_foldl_drained t clk rs (chAccessReg t clk r (ret, s))
      refine ⟨?_, r, _, hdue, hfin.trans (hrest.moves r)⟩
      rw [← Prod.mk.eta (p := chAccessReg t clk r (ret, s)), hfail]
      exact chAccess_foldl_fail rs _
    · rw [AllQuiet.cons, not_and] at h
      rw [chAccessReg_quiet hdue]
      exact ih (h hdue) ret

/-- A wait that finds a transfer due finishes it. -/
private theorem waitForChannel_due {channel : ℕ} (h : ¬AllQuiet clk (channelRegs g t channel) s) :
    ∃ r now, s.TransferDue r now ∧
      Finished (s.reg r) ((waitForChannel g t clk channel s).reg r) := by
  obtain ⟨hfail, r, now, hdue, hfin⟩ := chAccess_foldl_due (t := t) h .success
  refine ⟨r, now, hdue, ?_⟩
  rw [waitForChannel, chAccessLoop]
  split <;> rename_i s' hs' <;> rw [ssdChAccess] at hs' <;> rw [hs'] at hfail hfin
  · cases hfail
  · exact hfin.trans ((chAccessLoop_drained t clk channel _ s').moves r)

/-! ### The record -/

variable (g t clk) in
/-- Recording a write leaves the commands of the other registers alone, and their time stamps
unless they hold reads. -/
theorem ssdRegRecord_elsewhere {reg r : ℕ} (hr : r ≠ reg) (type : IoType) (offset : ℤ)
    (channel : ℕ) (s : Io) :
    ∃ s', ssdRegRecord g t clk reg .write type offset channel s = s' ∧
      s'.regIoCmd r = s.regIoCmd r ∧
      (s.regIoCmd r ≠ .read → s'.regIoTime r = s.regIoTime r) := by
  have hcmd : (setCommand reg .write type s).regIoCmd r = s.regIoCmd r :=
    Function.update_of_ne hr ..
  have htime : s.regIoCmd r ≠ .read →
      (stampWrite g t reg channel (setCommand reg .write type s)).regIoTime r = s.regIoTime r :=
    fun hne => (ssdUpdateChAccessTime_other t channel _ (hcmd.symm ▸ hne)).trans
      (Function.update_of_ne hr ..)
  simp only [ssdRegRecord]
  split
  · obtain ⟨o, requests, log, k, heq⟩ := recordHostPage_state t clk reg offset
      (stampWrite g t reg channel (setCommand reg .write type s))
    exact ⟨_, heq, hcmd, htime⟩
  · exact ⟨_, rfl, hcmd, htime⟩

variable (g t clk) in
private theorem recordWrite_elsewhere {reg r : ℕ} (hr : r ≠ reg) (channel : ℕ) (offset : ℤ)
    (type : IoType) (ioPageNb : ℤ) (ret : Bool) (s : Io) :
    ∃ s', recordWrite g t clk reg channel offset type ioPageNb ret s = s' ∧
      s'.regIoCmd r = s.regIoCmd r ∧
      (s.regIoCmd r ≠ .read → s'.regIoTime r = s.regIoTime r) := by
  have hchannel := congrFun (ssdChRecord_reg t clk channel .write offset ret s) r
  rw [recordWrite]
  generalize ssdChRecord t clk channel .write offset ret s = s₁ at hchannel
  obtain ⟨s₂, hs₂, hcmd, htime⟩ := ssdRegRecord_elsewhere g t clk hr type offset channel s₁
  have hlast := (finishLastPage_drained t clk reg offset ioPageNb
    (ssdCellRecord t clk reg .write s₂)).other r hr
  simp only [Io.reg, Reg.mk.injEq] at hchannel hlast
  rw [hs₂]
  refine ⟨_, rfl, hlast.1.trans (hcmd.trans hchannel.1), fun hne => ?_⟩
  exact hlast.2.2.1.trans ((htime (hchannel.1.symm ▸ hne)).trans hchannel.2.2.1)

end Io

variable {g : Geometry} {t : IoConfig} {clk : Clock}

/-- A partial write and a full write from the same state differ if the latter finds a transfer
due. -/
private theorem allQuiet_of_agree {k flashNb blockNb : ℕ} {offset : ℤ} {type : IoType}
    {ioPageNb : ℤ} {s : Io}
    (h : Agree (partialWriteHalf g t clk k flashNb blockNb offset type ioPageNb s)
      (ssdPageWrite g t clk flashNb blockNb offset type ioPageNb s)) :
    AllQuiet clk (channelRegs g t (flashNb % t.channelNb))
      (reachChannel g t clk flashNb blockNb s).2 := by
  by_contra hdue
  have hquiet := (access_drained (g := g) t clk flashNb blockNb
    (ssdChEnable t clk (flashNb % t.channelNb) s)).2.quiet
  have hwrite : ssdPageWrite g t clk flashNb blockNb offset type ioPageNb s =
      recordWrite g t clk (regOf g flashNb blockNb) (flashNb % t.channelNb) offset type ioPageNb
        (reachChannel g t clk flashNb blockNb s).1 (waitForChannel g t clk (flashNb % t.channelNb)
          (reachChannel g t clk flashNb blockNb s).2) := rfl
  rw [hwrite, partialWriteHalf] at h
  rw [show access g t clk flashNb (regOf g flashNb blockNb) (ssdChEnable t clk
    (flashNb % t.channelNb) s) = reachChannel g t clk flashNb blockNb s from rfl] at hquiet
  generalize reachChannel g t clk flashNb blockNb s = st at h hquiet hdue
  obtain ⟨r, now, ⟨hcmd, -, hne⟩, hfin⟩ := waitForChannel_due hdue
  -- the register of the write has been emptied
  have hr : r ≠ regOf g flashNb blockNb := fun hr => hne (hr ▸ hquiet (hr ▸ hcmd))
  obtain ⟨s₁, hs₁, hcmd₁, htime₁⟩ := recordWrite_elsewhere g t clk hr
    (flashNb % t.channelNb) offset type ioPageNb st.1 { st.2 with tick := st.2.tick + k }
  obtain ⟨s₂, hs₂, hcmd₂, htime₂⟩ := recordWrite_elsewhere g t clk hr
    (flashNb % t.channelNb) offset type ioPageNb st.1
    (waitForChannel g t clk (flashNb % t.channelNb) st.2)
  rw [hs₁, hs₂] at h
  have hreg := congrFun h.reg r
  simp only [Io.reg, Reg.mk.injEq] at hreg
  rcases hfin with ⟨hread, hnoop⟩ | ⟨hwr, -, hnread, hgone⟩
  · have heq := hreg.1.symm.trans (hcmd₂.trans hnoop)
    exact absurd ((hcmd₁.symm.trans heq).symm.trans hread) (by decide)
  · have hstays := htime₁ fun hread => absurd (hread.symm.trans hwr) (by decide)
    exact hne (hstays.symm.trans (hreg.2.2.1.symm.trans ((htime₂ hnread).trans hgone)))

/-- **The write half of a partial write** is `SSD_PAGE_WRITE` on the new page exactly when no
transfer is due in a register of the new page's channel: on the same clock readings for the
statements that both execute, those of the scan let pass. Where a transfer is due, no choice
of readings to let pass makes up for it. -/
theorem writeHalf_agrees_iff (g : Geometry) (t : IoConfig) (clk : Clock)
    (oldFlashNb oldBlockNb newFlashNb newBlockNb : ℕ) (offset : ℤ) (type : IoType) (ioPageNb : ℤ)
    (s₀ : Io) :
    let s := partialReadHalf g t clk oldFlashNb oldBlockNb offset type s₀
    let rs := channelRegs g t (newFlashNb % t.channelNb)
    ssdPagePartialWrite g t clk oldFlashNb oldBlockNb newFlashNb newBlockNb offset type ioPageNb s₀ =
        partialWriteHalf g t clk 0 newFlashNb newBlockNb offset type ioPageNb s ∧
      (∀ k, Agree (partialWriteHalf g t clk k newFlashNb newBlockNb offset type ioPageNb s)
          (ssdPageWrite g t clk newFlashNb newBlockNb offset type ioPageNb s) →
        AllQuiet clk rs (reachChannel g t clk newFlashNb newBlockNb s).2) ∧
      (Agree (partialWriteHalf g t clk rs.length newFlashNb newBlockNb offset type ioPageNb s)
          (ssdPageWrite g t clk newFlashNb newBlockNb offset type ioPageNb s) ↔
        AllQuiet clk rs (reachChannel g t clk newFlashNb newBlockNb s).2) := by
  intro s rs
  refine ⟨ssdPagePartialWrite_eq .., fun k => allQuiet_of_agree, allQuiet_of_agree, fun hquiet => ?_⟩
  have heq : ssdPageWrite g t clk newFlashNb newBlockNb offset type ioPageNb s =
      partialWriteHalf g t clk rs.length newFlashNb newBlockNb offset type ioPageNb s :=
    congrArg (recordWrite g t clk (regOf g newFlashNb newBlockNb) (newFlashNb % t.channelNb) offset
      type ioPageNb (reachChannel g t clk newFlashNb newBlockNb s).1) (waitForChannel_quiet hquiet)
  rw [heq]
  exact ⟨rfl, rfl, rfl, rfl, rfl, rfl⟩

/-- Two chips of two planes, on two channels. -/
def twinChips : Geometry := { smallDevice with flashNb := 2, flashNb_pos := Nat.two_pos }

/-- A page is written on the second plane of chip 1; then a page of chip 0 is merged into the first
plane of chip 1. The transfer of the first write is due, and the partial write leaves it in
register 3, where a full write would have finished it. -/
theorem writeHalf_leaves_transfer :
    let s₀ := ssdPageWrite twinChips twoChannels steadyClock 1 1 0 .write 1 (Io.init twoChannels)
    let s := partialReadHalf twinChips twoChannels steadyClock 0 0 0 .write s₀
    (ssdPagePartialWrite twinChips twoChannels steadyClock 0 0 1 0 0 .write 1 s₀).regIoTime 3 = 4 ∧
    (ssdPageWrite twinChips twoChannels steadyClock 1 0 0 .write 1 s).regIoTime 3 = -1 ∧
    ¬Agree (ssdPagePartialWrite twinChips twoChannels steadyClock 0 0 1 0 0 .write 1 s₀)
      (ssdPageWrite twinChips twoChannels steadyClock 1 0 0 .write 1 s) := by
  intro s₀ s
  have hmerged : (ssdPagePartialWrite twinChips twoChannels steadyClock 0 0 1 0 0 .write 1
    s₀).regIoTime 3 = 4 := by decide +kernel
  have hfull : (ssdPageWrite twinChips twoChannels steadyClock 1 0 0 .write 1 s).regIoTime 3 = -1 := by
    decide +kernel
  refine ⟨hmerged, hfull, fun h => ?_⟩
  have htime := congrArg Reg.regTime (congrFun h.reg 3)
  exact absurd (hfull.symm.trans (htime.trans hmerged)) (by decide)

end Vssim
