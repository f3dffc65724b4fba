import Vssim.Io.Lifecycle
import Vssim.Io.Moves

/-!
# Idle registers

Between host requests an idle register has no type, no time stamps and no host page
(`Reg.Tidy`). Its overhead is another matter: `SSD_REG_READ_DELAY` reports the end of a host page
**after** `SSD_CELL_READ_DELAY` has cleared the overhead, and what the report took stays in the
register, to shorten the next operation there. Where no host read is recorded, idle
registers have no overhead either (`Reg.Clear`, `run_idle`).
-/

namespace Vssim

open Io

/-- A property of the contents of registers that all operations keep. Host reads are recorded
only if `hostReads` holds. -/
structure Closed (t : IoConfig) (hostReads : Prop) (P : Reg → Prop) : Prop where
  ready : ∀ {x}, P x → x.Ready
  plain : ∀ {x}, P x → x.Plain
  move : ∀ {x y}, Move t x y → P x → P y
  write : ∀ {type time a o}, 0 ≤ time → P ⟨.write, type, time, time + t.regWriteDelay, a, o⟩
  read : ∀ {x type time cell a o}, P x → x.cmd = .noop → 0 ≤ time → 0 ≤ cell →
    (type = .read → hostReads) → (type ≠ .read → a.1 = -1 ∧ o = 0) →
    P ⟨.read, type, time, cell, a, x.overhead + o⟩
  erase : ∀ {x time}, P x → x.cmd = .noop → 0 ≤ time →
    P ⟨.erase, .erase, x.regTime, time, (-1, -1), x.overhead⟩

namespace Io

variable {g : Geometry} {t : IoConfig} (clk : Clock) {b : Prop} {P : Reg → Prop} {s : Io} {reg : ℕ}
  (hP : Closed t b P) (h : Everywhere P s)

include hP h

/-! ### Operations -/

/-- The access of an operation to its register, and before it the switch to its channel. -/
private theorem enter_everywhere (flashNb blockNb : ℕ) :
    ∃ st, access g t clk flashNb (regOf g flashNb blockNb)
        (ssdChEnable t clk (flashNb % t.channelNb) s) = st ∧ Everywhere P st.2 ∧
      (st.2.reg (regOf g flashNb blockNb)).cmd = .noop := by
  have henable := h.drained hP.move (ssdChEnable_drained t clk (flashNb % t.channelNb) s)
  obtain ⟨hdrain, hempty⟩ := access_drained (g := g) t clk flashNb blockNb
    (ssdChEnable t clk (flashNb % t.channelNb) s)
  exact ⟨_, rfl, henable.drained hP.move hdrain, hempty.noop (hP.ready (henable.reg _))⟩

/-- The same, with the wait for the channel after it. -/
private theorem enterWait_everywhere (flashNb blockNb : ℕ) :
    ∃ st, access g t clk flashNb (regOf g flashNb blockNb)
        (ssdChEnable t clk (flashNb % t.channelNb) s) = st ∧
      Everywhere P (waitForChannel g t clk (flashNb % t.channelNb) st.2) ∧
      ((waitForChannel g t clk (flashNb % t.channelNb) st.2).reg
        (regOf g flashNb blockNb)).cmd = .noop := by
  obtain ⟨st, hst, h₁, hnoop⟩ := enter_everywhere (g := g) clk hP h flashNb blockNb
  have hwait := waitForChannel_drained (g := g) t clk (flashNb % t.channelNb) st.2
  refine ⟨st, hst, h₁.drained hP.move hwait, ?_⟩
  rw [(hwait.moves _).of_noop hnoop, hnoop]

omit h in
private theorem recordWrite_everywhere (h : Everywhere P s) (reg channel : ℕ) (offset : ℤ)
    (type : IoType) (ioPageNb : ℤ) (ret : Bool) :
    Everywhere P (recordWrite g t clk reg channel offset type ioPageNb ret s) := by
  have h₁ := h.chRecord t clk channel .write offset ret
  rw [recordWrite]
  generalize ssdChRecord t clk channel .write offset ret s = s₁ at h₁
  obtain ⟨a, o, s₂, hs₂, hreg, hother, hchannel⟩ := ssdRegRecord_write (g := g) t clk reg type offset
    channel h₁.channelTime
  rw [hs₂]
  refine Everywhere.drained (s := ssdCellRecord t clk reg .write s₂)
    (h₁.put hP.move reg ?_ (fun r hr => ?_) hchannel) hP.move
    (finishLastPage_drained t clk reg offset ioPageNb _).drained
  · have hnonneg := h₁.channelTime
    have hwrite : P ⟨.write, type, s₁.oldChannelTime + t.channelSwitchDelayW,
        s₁.oldChannelTime + t.channelSwitchDelayW + t.regWriteDelay, a, s₁.ioOverhead reg + o⟩ :=
      hP.write (by omega)
    simp only [Io.reg, Reg.mk.injEq] at hreg
    simpa [Io.reg, ssdCellRecord, hreg] using hwrite
  · rw [ssdCellRecord_other t clk hr]
    exact hother r hr

omit h in
/-- Recording a read in an idle register, with the stamp of its transfer. -/
private theorem read_everywhere (h : Everywhere P s) (hnoop : (s.reg reg).cmd = .noop)
    {type : IoType}
    (htype : type = .read → b) {s' : Io} {time : ℤ} (htime : 0 ≤ time) {a : ℤ × ℤ} {o : ℤ}
    (hreg : s'.reg reg = ⟨.read, type, time, s.oldChannelTime + t.channelSwitchDelayR, a,
      s.ioOverhead reg + o⟩) (hvacant : type ≠ .read → a.1 = -1 ∧ o = 0)
    (hother : ∀ r ≠ reg, s'.reg r = s.reg r) (hchannel : s'.oldChannelTime = s.oldChannelTime) :
    Everywhere P s' := by
  have hnonneg := h.channelTime
  refine h.put hP.move reg ?_ (fun r hr => by rw [hother r hr]) hchannel
  rw [hreg]
  exact hP.read (h.reg reg) hnoop htime (by omega) htype hvacant

private theorem ssdPageRead_everywhere (flashNb blockNb : ℕ) (offset : ℤ) {type : IoType}
    (htype : type = .read → b) (ioPageNb : ℤ) :
    Everywhere P (ssdPageRead g t clk flashNb blockNb offset type ioPageNb s) := by
  obtain ⟨st, hst, h₀, hnoop⟩ := enter_everywhere (g := g) clk hP h flashNb blockNb
  have h₁ := h₀.chRecord t clk (flashNb % t.channelNb) .read offset st.1
  have hreg₁ := ssdChRecord_reg t clk (flashNb % t.channelNb) .read offset st.1 st.2
  simp only [ssdPageRead, hst]
  generalize ssdChRecord t clk (flashNb % t.channelNb) .read offset st.1 st.2 = s₁ at h₁ hreg₁
  rw [← hreg₁] at hnoop
  obtain ⟨a, o, s₂, hs₂, hreg, hvacant, hother, hchannel⟩ := ssdRegRecord_read (g := g) t clk
    (regOf g flashNb blockNb) type offset (flashNb % t.channelNb)
    (ssdCellRecord t clk (regOf g flashNb blockNb) .read s₁)
  have hcell : (ssdCellRecord t clk (regOf g flashNb blockNb) .read s₁).cellIoTime
      (regOf g flashNb blockNb) = s₁.oldChannelTime + t.channelSwitchDelayR := Function.update_self ..
  have hle := le_ssdGetChAccessTimeForRead (g := g) t (setCommand (regOf g flashNb blockNb) .read type
    (ssdCellRecord t clk (regOf g flashNb blockNb) .read s₁)) (regOf g flashNb blockNb)
    (flashNb % t.channelNb)
  have hcell' : (setCommand (regOf g flashNb blockNb) .read type
    (ssdCellRecord t clk (regOf g flashNb blockNb) .read s₁)).cellIoTime (regOf g flashNb blockNb) =
      s₁.oldChannelTime + t.channelSwitchDelayR := hcell
  have hnonneg := h₁.channelTime
  rw [hcell] at hreg
  rw [hcell'] at hle
  rw [hs₂]
  refine Everywhere.drained (s := s₂) (read_everywhere hP h₁ hnoop htype (by omega) hreg hvacant
    (fun r hr => (hother r hr).trans (ssdCellRecord_other t clk hr .read s₁)) hchannel) hP.move
    (finishLastPage_drained t clk _ offset ioPageNb _).drained

/-- The read of a partial write finds no cell operation in its register, and its transfer starts
when the channel is free; with a delay of the cell that is not zero, at no negative time. -/
private theorem ssdPagePartialWrite_everywhere (hdelay : 1 ≤ t.cellReadDelay)
    (oldFlashNb oldBlockNb newFlashNb newBlockNb : ℕ) (offset : ℤ) {type : IoType}
    (htype : type = .read → b) (ioPageNb : ℤ) :
    Everywhere P (ssdPagePartialWrite g t clk oldFlashNb oldBlockNb newFlashNb newBlockNb offset type
      ioPageNb s) := by
  obtain ⟨st, hst, h₀, hnoop⟩ := enterWait_everywhere (g := g) clk hP h oldFlashNb oldBlockNb
  have h₁ := h₀.chRecord t clk (oldFlashNb % t.channelNb) .read offset st.1
  have hreg₁ := ssdChRecord_reg t clk (oldFlashNb % t.channelNb) .read offset st.1
    (waitForChannel g t clk (oldFlashNb % t.channelNb) st.2)
  simp only [ssdPagePartialWrite, hst]
  generalize ssdChRecord t clk (oldFlashNb % t.channelNb) .read offset st.1
    (waitForChannel g t clk (oldFlashNb % t.channelNb) st.2) = s₁ at h₁ hreg₁
  rw [← hreg₁] at hnoop
  obtain ⟨a, o, s₂, hs₂, hreg, hvacant, hother, hchannel⟩ := ssdRegRecord_read (g := g) t clk
    (regOf g oldFlashNb oldBlockNb) type offset (oldFlashNb % t.channelNb) s₁
  have hle := le_ssdGetChAccessTimeForRead (g := g) t
    (setCommand (regOf g oldFlashNb oldBlockNb) .read type s₁) (regOf g oldFlashNb oldBlockNb)
    (oldFlashNb % t.channelNb)
  have hcell : (setCommand (regOf g oldFlashNb oldBlockNb) .read type s₁).cellIoTime
    (regOf g oldFlashNb oldBlockNb) = -1 := ((hP.plain (h₁.reg _)).idle hnoop).2
  rw [hcell] at hle
  generalize ssdGetChAccessTimeForRead g t (oldFlashNb % t.channelNb) (regOf g oldFlashNb oldBlockNb)
    (setCommand (regOf g oldFlashNb oldBlockNb) .read type s₁) = time at hreg hle
  rw [hs₂]
  have h₃ : Everywhere P (ssdCellRecord t clk (regOf g oldFlashNb oldBlockNb) .read s₂) := by
    refine read_everywhere hP h₁ hnoop htype (show 0 ≤ time by omega) (a := a) (o := o) ?_ hvacant
      (fun r hr => (ssdCellRecord_other t clk hr .read s₂).trans (hother r hr)) hchannel
    simp only [Io.reg, Reg.mk.injEq] at hreg
    simp [Io.reg, ssdCellRecord, hreg, hchannel]
  have h₄ := h₃.drained hP.move
    (ssdRegAccess_drained t clk (regOf g oldFlashNb oldBlockNb) _).1.drained
  obtain ⟨st', hst', h₅, -⟩ := enter_everywhere (g := g) clk hP h₄ newFlashNb newBlockNb
  rw [ssdRemainIoDelay, hst']
  exact recordWrite_everywhere clk hP h₅ ..

private theorem ssdPageWrite_everywhere (flashNb blockNb : ℕ) (offset : ℤ) (type : IoType)
    (ioPageNb : ℤ) :
    Everywhere P (ssdPageWrite g t clk flashNb blockNb offset type ioPageNb s) := by
  obtain ⟨st, hst, h₁, -⟩ := enterWait_everywhere (g := g) clk hP h flashNb blockNb
  simp only [ssdPageWrite, hst]
  exact recordWrite_everywhere clk hP h₁ ..

private theorem ssdBlockErase_everywhere (flashNb blockNb : ℕ) :
    Everywhere P (ssdBlockErase g t clk flashNb blockNb s) := by
  obtain ⟨hdrain, hempty⟩ := access_drained (g := g) t clk flashNb blockNb s
  have h₁ := h.drained hP.move hdrain
  have hnoop := hempty.noop (hP.ready (h.reg _))
  simp only [ssdBlockErase]
  generalize access g t clk flashNb (regOf g flashNb blockNb) s = st at h₁ hnoop
  refine h₁.put hP.move (regOf g flashNb blockNb) ?_ (fun r hr => ?_) rfl
  · have herase := hP.erase (h₁.reg _) hnoop (clk.nonneg st.2.tick)
    simpa [Io.reg, ssdRegRecord, ssdCellRecord, setCommand, untie, getUsec] using herase
  · rw [ssdCellRecord_other t clk hr, ssdRegRecord_erase_other t clk hr]

end Io

/-! ### Runs -/

/-- The call records a host read. -/
def Call.IsHostRead : Call → Prop
  | .ssdPageRead _ _ _ _ type _ => type = .read
  | .ssdPagePartialWrite _ _ _ _ _ _ _ type _ => type = .read
  | _ => False

section run

variable {g : Geometry} {t : IoConfig} (clk : Clock) {b : Prop} {P : Reg → Prop} {s : Io}

private theorem call_everywhere (hP : Closed t b P) (hdelay : 1 ≤ t.cellReadDelay)
    (h : Everywhere P s)
    {c : Call} (hc : c.IsHostRead → b) : Everywhere P (Io.call g t clk c s) := by
  cases c with
  | ssdPageWrite f n _ offset type k => exact ssdPageWrite_everywhere clk hP h f n offset type k
  | ssdPagePartialWrite f₀ n₀ _ f n _ offset type k =>
    exact ssdPagePartialWrite_everywhere clk hP h hdelay f₀ n₀ f n offset hc k
  | ssdPageRead f n _ offset type k => exact ssdPageRead_everywhere clk hP h f n offset hc k
  | ssdBlockErase f n => exact ssdBlockErase_everywhere clk hP h f n
  | allocIoRequest sectorNb length ioType =>
    obtain ⟨hreg, hchannel⟩ := allocIoRequest_reg (g := g) clk sectorNb length ioType s
    exact h.drained hP.move (.of_reg hreg hchannel)
  | increaseIoRequestSeqNb => exact h.drained hP.move (.of_reg rfl rfl)
  | getNewPage _ => exact h
  | garbageCollection => exact h
  | error _ => exact h

private theorem ioRun_everywhere (hP : Closed t b P) (hdelay : 1 ≤ t.cellReadDelay)
    {es : List Event} (h : Everywhere P s) (hes : ∀ e ∈ es, e.call.IsHostRead → b) :
    Everywhere P (ioRun g t clk es s) := by
  induction es generalizing s with
  | nil => exact h
  | cons e es ih =>
    rw [List.forall_mem_cons] at hes
    exact ih (call_everywhere clk hP hdelay h hes.1) hes.2

end run

/-- A register between operations, apart from its overhead. -/
structure Reg.Tidy (x : Reg) : Prop where
  ready : x.Ready
  idle : x.cmd = .noop → x.type = .noop ∧ x.Empty ∧ x.accessNb.1 = -1
  erase : x.cmd = .erase → x.regTime = -1 ∧ x.accessNb.1 = -1

/-- A register that will be idle without overhead. -/
structure Reg.Clear (x : Reg) : Prop where
  idle : x.cmd = .noop → x.overhead = 0
  erase : x.cmd = .erase → x.overhead = 0
  read : x.cmd = .read → x.accessNb.1 = -1 ∧ (x.cellTime = -1 → x.overhead = 0)

section invariants

variable {t : IoConfig} {x y : Reg}

private theorem Reg.Tidy.plain (h : x.Tidy) : x.Plain := by
  refine ⟨?_, fun hnoop => (h.idle hnoop).2.1, fun herase => (h.erase herase).1⟩
  rcases h.ready with hnoop | ⟨hread, -⟩ | ⟨hwrite | herase, -⟩
  · exact .inl hnoop
  · exact .inr (.inl hread)
  · exact .inr (.inr (.inl hwrite))
  · exact .inr (.inr (.inr herase))

private theorem Move.tidy (h : Move t x y) (hx : x.Tidy) : y.Tidy := by
  refine ⟨h.ready hx.ready, ?_, ?_⟩ <;> cases h with
  | cellRead hcmd => simp [hcmd]
  | regRead => simp [Reg.Empty]
  | regWrite hcmd => simp [hcmd]
  | cellWrite => simp [Reg.Empty]
  | blockErase hcmd => simp [Reg.Empty, hx.erase hcmd]
  | later hcmd => simp [hcmd]

private theorem Move.clear (h : Move t x y) (hx : x.Clear) : y.Clear := by
  cases h with
  | cellRead hcmd => exact ⟨fun _ => rfl, fun _ => rfl, fun _ => ⟨(hx.read hcmd).1, fun _ => rfl⟩⟩
  | @regRead hcmd hcell o hvacant =>
    obtain ⟨haccess, hoverhead⟩ := hx.read hcmd
    have hzero : x.overhead + o = 0 := by rw [hoverhead hcell, hvacant haccess, add_zero]
    exact ⟨fun _ => hzero, fun _ => hzero, fun _ => ⟨rfl, fun _ => hzero⟩⟩
  | regWrite hcmd =>
    constructor <;> simp [hcmd]
  | cellWrite => exact ⟨fun _ => rfl, fun _ => rfl, fun _ => ⟨rfl, fun _ => rfl⟩⟩
  | blockErase hcmd => exact ⟨fun _ => hx.erase hcmd, fun _ => hx.erase hcmd, by simp⟩
  | later hcmd => exact ⟨by simp [hcmd], by simp [hcmd], fun _ => hx.read hcmd⟩

/-- Every operation keeps registers tidy. -/
private theorem tidy_closed (t : IoConfig) : Closed t True Reg.Tidy where
  ready h := h.ready
  plain h := h.plain
  move := Move.tidy
  write htime := ⟨.inr (.inr ⟨.inl rfl, by dsimp only; omega⟩), by simp, by simp⟩
  read _ _ htime _ _ _ := ⟨.inr (.inl ⟨rfl, by dsimp only; omega⟩), by simp, by simp⟩
  erase h hnoop htime := by
    have hempty := (h.idle hnoop).2.1
    exact ⟨.inr (.inr ⟨.inr rfl, by dsimp only; omega⟩), by simp, fun _ => ⟨hempty.1, rfl⟩⟩

/-- Where no host read is recorded, every operation keeps them clear as well. -/
private theorem clear_closed (t : IoConfig) : Closed t False fun x => x.Tidy ∧ x.Clear where
  ready h := h.1.ready
  plain h := h.1.plain
  move hmove h := ⟨hmove.tidy h.1, hmove.clear h.2⟩
  write htime := ⟨(tidy_closed t).write htime, by simp, by simp, by simp⟩
  read h hnoop htime hcell htype hvacant := by
    refine ⟨(tidy_closed t).read h.1 hnoop htime hcell (fun _ => trivial) hvacant, by simp, by simp,
      fun _ => ⟨(hvacant htype).1, fun hcell' => ?_⟩⟩
    dsimp only at hcell'
    omega
  erase h hnoop htime :=
    ⟨(tidy_closed t).erase h.1 hnoop htime, by simp, fun _ => h.2.idle hnoop, by simp⟩

end invariants

variable {g : Geometry} {f f' : Ftl}

private theorem writePages_noHostRead {fuel n rounds k : ℕ} {c : Cursor} {ret : Ret}
    {r : Option Ret}
    {events : List Event} (hrun : writePages g fuel n rounds c k ret f = some (r, f', events)) :
    ∀ e ∈ events, ¬e.call.IsHostRead := by
  induction rounds generalizing f c k ret events with
  | zero =>
    cases hrun
    simp
  | succ rounds ih =>
    by_cases hpos : 0 < c.remain
    · rcases writePages_succ hpos hrun with ⟨rfl, lists, -, -, rfl⟩ | ⟨e, lists, events', -, hloop, rfl⟩
      · simp [Call.IsHostRead]
      · have hprogram : ¬(programCall g f.tables c (e.ppn g) k n).IsHostRead := by
          rw [programCall]
          split <;> simp [Call.IsHostRead]
        have hrest := ih hloop
        simp only [List.cons_append, List.nil_append, List.forall_mem_cons]
        exact ⟨id, hprogram, hrest⟩
    · rw [writePages, if_neg hpos] at hrun
      cases hrun
      simp

/-- A write records no host read. -/
private theorem Serve.noHostRead {e : Served} (h : f.Bounded g) (hserve : Serve g f e f')
    (hwrite : ∃ sectorNb length, e.request = .write sectorNb length) :
    ∀ ev ∈ e.events, ¬ev.call.IsHostRead := by
  obtain ⟨sectorNb, length, hreq⟩ := hwrite
  cases hserve with
  | read => cases hreq
  | write hrange hrun =>
    obtain ⟨r₁, f₁, ev₁, hloop, hend⟩ := ftlWrite_cases hrange hrun
    have hpages := writePages_noHostRead hloop
    rcases hend with ⟨-, -, -, rfl⟩ | ⟨ev₂, -, hcheck, rfl⟩
    · exact List.forall_mem_cons.mpr ⟨id, hpages⟩
    · have hgc := (gcCheck_bounded (writePages_script h hloop).1 hcheck).2
      simp only [List.forall_mem_cons, List.forall_mem_append]
      refine ⟨id, hpages, id, fun ev hev hread => ?_⟩
      have hother := hgc ev hev
      cases hcall : ev.call <;> simp_all [Call.IsHostRead, Call.IsOther]

private theorem serves_noHostRead {hist : List Served} (htrace : Trace (Serve g) f hist f')
    (h : f.Bounded g) (hwrites : ∀ e ∈ hist, ∃ sectorNb length, e.request = .write sectorNb length) :
    ∀ ev ∈ eventLog hist, ¬ev.call.IsHostRead := by
  induction htrace with
  | nil => simp [eventLog]
  | @cons f m f' e hist hserve _ ih =>
    have hlog : eventLog (e :: hist) = e.events ++ eventLog hist := rfl
    rw [List.forall_mem_cons] at hwrites
    rw [hlog, List.forall_mem_append]
    exact ⟨hserve.noHostRead h hwrites.1, ih (hserve.outline h).1 hwrites.2⟩

/-- **Idle registers** after any run: no type, no time stamps and no host page; and no overhead
either, if every request of the run is a write. -/
theorem run_idle (t : IoConfig) (clk : Clock) (hdelay : 1 ≤ t.cellReadDelay) {hist : List Served}
    (hrun : Run g hist f) {s : Io} (hs : s = ioRun g t clk (eventLog hist) (Io.init t)) {reg : ℕ}
    (hidle : s.regIoCmd reg = .noop) :
    s.regIoType reg = .noop ∧ s.regIoTime reg = -1 ∧ s.cellIoTime reg = -1 ∧
    (s.accessNb reg).1 = -1 ∧
    ((∀ e ∈ hist, ∃ sectorNb length, e.request = .write sectorNb length) →
      s.ioOverhead reg = 0) := by
  have hinit : ∀ reg, ((Io.init t).reg reg).Tidy ∧ ((Io.init t).reg reg).Clear := fun reg =>
    ⟨⟨.inl rfl, fun _ => ⟨rfl, ⟨rfl, rfl⟩, rfl⟩, fun _ => ⟨rfl, rfl⟩⟩,
      ⟨fun _ => rfl, fun _ => rfl, fun _ => ⟨rfl, fun _ => rfl⟩⟩⟩
  have htidy : Everywhere Reg.Tidy s := hs ▸ ioRun_everywhere clk (tidy_closed t) hdelay
    ⟨fun reg => (hinit reg).1, le_rfl⟩ fun _ _ _ => trivial
  obtain ⟨htype, ⟨htime, hcell⟩, haccess⟩ := (htidy.reg reg).idle hidle
  refine ⟨htype, htime, hcell, haccess, fun hwrites => ?_⟩
  have hclear : Everywhere (fun x => x.Tidy ∧ x.Clear) s :=
    hs ▸ ioRun_everywhere clk (clear_closed t) hdelay ⟨hinit, le_rfl⟩
      (serves_noHostRead hrun ftlInit_bounded hwrites)
  exact (hclear.reg reg).2.idle hidle

/-- A run of writes with collections and a merge; the register of the merged page is idle. -/
theorem run_idle_smallDevice : ∃ hist f s, Run smallDevice hist f ∧
    (∃ e ∈ eventLog hist, e.call = .ssdBlockErase 0 0) ∧
    s = ioRun smallDevice smallDelays steadyClock (eventLog hist) (Io.init smallDelays) ∧
    s.regIoCmd 0 = .noop ∧ s.regIoType 0 = .noop ∧ s.regIoTime 0 = -1 ∧ s.cellIoTime 0 = -1 ∧
    (s.accessNb 0).1 = -1 ∧ s.ioOverhead 0 = 0 := by
  obtain ⟨hist, f, hrun, hP⟩ := exists_run (g := smallDevice) 30
    [.write 0 4, .write 0 4, .write 0 4, .write 0 2, .write 0 1]
    (fun hist _ => decide ((∃ e ∈ eventLog hist, e.call = .ssdBlockErase 0 0) ∧
      (∀ e ∈ hist, e.request ∈ [4, 2, 1].map (Request.write 0)) ∧
      (ioRun smallDevice smallDelays steadyClock (eventLog hist)
        (Io.init smallDelays)).regIoCmd 0 = .noop))
    (by decide +kernel) (by decide +kernel)
  obtain ⟨hgc, hwrites, hidle⟩ := of_decide_eq_true hP
  obtain ⟨htype, htime, hcell, haccess, hoverhead⟩ :=
    run_idle smallDelays steadyClock (by decide) hrun rfl hidle
  refine ⟨hist, f, _, hrun, hgc, rfl, hidle, htype, htime, hcell, haccess, hoverhead fun e he => ?_⟩
  obtain ⟨length, -, hreq⟩ := List.mem_map.mp (hwrites e he)
  exact ⟨0, length, hreq.symm⟩

/-- A read of the second page, and a write that finds its transfer due on the channel: the
register of the read is idle and has kept the time that reporting its end took. -/
theorem idle_overhead_smallDevice : ∃ hist f s, Run smallDevice hist f ∧
    hist.map Served.request = [.write 0 2, .write 2 2, .read 2 2, .write 4 2] ∧
    hist.map Served.ret = List.replicate 4 .success ∧
    s = ioRun smallDevice smallDelays steadyClock (eventLog hist) (Io.init smallDelays) ∧
    s.regIoCmd 1 = .noop ∧ s.ioOverhead 1 = 1 := by
  obtain ⟨hist, f, hrun, hP⟩ := exists_run (g := smallDevice) 30
    [.write 0 2, .write 2 2, .read 2 2, .write 4 2]
    (fun hist _ => decide
      (hist.map Served.request = [.write 0 2, .write 2 2, .read 2 2, .write 4 2] ∧
      hist.map Served.ret = List.replicate 4 .success ∧
      (ioRun smallDevice smallDelays steadyClock (eventLog hist)
        (Io.init smallDelays)).regIoCmd 1 = .noop ∧
      (ioRun smallDevice smallDelays steadyClock (eventLog hist)
        (Io.init smallDelays)).ioOverhead 1 = 1))
    (by decide +kernel) (by decide +kernel)
  obtain ⟨hreq, hret, hidle, hoverhead⟩ := of_decide_eq_true hP
  exact ⟨hist, f, _, hrun, hreq, hret, rfl, hidle, hoverhead⟩

end Vssim
