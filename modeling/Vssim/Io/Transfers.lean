import Vssim.Io.Lifecycle
import Vssim.Io.Moves

/-!
# The transfer of a read

A page that is read goes over the channel once its cell has been read, so the time stamp of the
transfer is at least `CELL_READ_DELAY` after that of the cell. `SSD_PAGE_READ` records the cell
first and derives the transfer from it. `SSD_PAGE_PARTIAL_WRITE` records the transfer first,
from a cell time that was cleared, and only another transfer on the channel can put it late
enough (`Shielded`, `history_ordered_iff`). Without partial writes the order is always kept
(`history_ordered_of_whole`).

The property is about every moment of a run, so the states between the statements of a call
are kept (`moments`).
-/

namespace Vssim

open Io

namespace Io

variable (g : Geometry) (t : IoConfig) (clk : Clock)

/-! ### Moments -/

/-- The state in which `SSD_PAGE_PARTIAL_WRITE` records its read. -/
def partialReadState (oldFlashNb oldBlockNb : ℕ) (offset : ℤ) (s : Io) : Io :=
  let channel := oldFlashNb % t.channelNb
  let st := access g t clk oldFlashNb (regOf g oldFlashNb oldBlockNb) (ssdChEnable t clk channel s)
  ssdChRecord t clk channel .read offset st.1 (waitForChannel g t clk channel st.2)

/-- The states between the statements of `recordWrite`. -/
def writeMoments (reg channel : ℕ) (offset : ℤ) (type : IoType) (ioPageNb : ℤ) (ret : Bool) (s : Io) :
    List Io :=
  let s₁ := ssdChRecord t clk channel .write offset ret s
  let s₂ := ssdRegRecord g t clk reg .write type offset channel s₁
  let s₃ := ssdCellRecord t clk reg .write s₂
  [s₁, s₂, s₃, finishLastPage t clk reg offset ioPageNb s₃]

/-- The states between the statements of a call, its last one included. The read of
`SSD_PAGE_READ` is recorded once both its time stamps are set. -/
def moments (c : Call) (s : Io) : List Io :=
  match c with
  | .ssdPageWrite f b _ offset type n =>
    let channel := f % t.channelNb
    let reg := regOf g f b
    let s₁ := ssdChEnable t clk channel s
    let st := access g t clk f reg s₁
    let s₂ := waitForChannel g t clk channel st.2
    [s₁, st.2, s₂] ++ writeMoments g t clk reg channel offset type n st.1 s₂
  | .ssdPagePartialWrite f₀ b₀ _ f b _ offset type n =>
    let channel := f₀ % t.channelNb
    let reg := regOf g f₀ b₀
    let s₁ := ssdChEnable t clk channel s
    let st := access g t clk f₀ reg s₁
    let s₂ := partialReadState g t clk f₀ b₀ offset s
    let s₃ := ssdRegRecord g t clk reg .read type offset channel s₂
    let s₄ := ssdCellRecord t clk reg .read s₃
    let s₅ := ssdRemainIoDelay t clk reg s₄
    let channel' := f % t.channelNb
    let reg' := regOf g f b
    let s₆ := ssdChEnable t clk channel' s₅
    let st' := access g t clk f reg' s₆
    [s₁, st.2, waitForChannel g t clk channel st.2, s₂, s₃, s₄, s₅, s₆, st'.2] ++
      writeMoments g t clk reg' channel' offset type n st'.1 st'.2
  | .ssdPageRead f b _ offset type n =>
    let channel := f % t.channelNb
    let reg := regOf g f b
    let s₁ := ssdChEnable t clk channel s
    let st := access g t clk f reg s₁
    let s₂ := ssdChRecord t clk channel .read offset st.1 st.2
    let s₃ := ssdRegRecord g t clk reg .read type offset channel (ssdCellRecord t clk reg .read s₂)
    [s₁, st.2, s₂, s₃, finishLastPage t clk reg offset n s₃]
  | .ssdBlockErase f b =>
    let reg := regOf g f b
    let st := access g t clk f reg s
    let s₁ := ssdRegRecord g t clk reg .erase .erase (-1) (f % t.channelNb) st.2
    [st.2, s₁, ssdCellRecord t clk reg .erase s₁]
  | c => [call g t clk c s]

/-- All the moments of a sequence of calls. -/
def history : List Call → Io → List Io
  | [], s => [s]
  | c :: cs, s => s :: (moments g t clk c s ++ history cs (call g t clk c s))

private theorem call_mem_moments (c : Call) (s : Io) : call g t clk c s ∈ moments g t clk c s := by
  cases c with
  | ssdPageWrite =>
    refine List.mem_append_right _ ?_
    simp [writeMoments, call, ssdPageWrite, recordWrite]
  | ssdPagePartialWrite =>
    refine List.mem_append_right _ ?_
    simp [writeMoments, call, ssdPagePartialWrite, recordWrite, partialReadState]
  | ssdPageRead => simp [moments, call, ssdPageRead]
  | ssdBlockErase => simp [moments, call, ssdBlockErase]
  | _ => exact List.mem_singleton.mpr rfl

end Io

/-- The transfer of every read in a register starts after the delay of its cell. -/
def Io.Ordered (t : IoConfig) (s : Io) : Prop :=
  ∀ r, s.regIoCmd r = .read → s.cellIoTime r + t.cellReadDelay ≤ s.regIoTime r

/-! ### When a partial write is in order -/

/-- The end of the transfer in a register, as `SSD_GET_CH_ACCESS_TIME_FOR_READ` sees it. -/
def Io.transferEnd (t : IoConfig) (s : Io) (r : ℕ) : ℤ :=
  match s.regIoCmd r with
  | .read => s.regIoTime r + t.regReadDelay
  | .write => s.regIoTime r + t.regWriteDelay
  | _ => 0

/-- A read that is recorded now starts its transfer late enough all the same: another register of
the channel is busy until then, or `REG_READ_DELAY` alone reaches that far. -/
def Shielded (g : Geometry) (t : IoConfig) (channel reg : ℕ) (s : Io) : Prop :=
  (∃ r ∈ channelRegs g t channel, r ≠ reg ∧
    s.oldChannelTime + t.channelSwitchDelayR + t.cellReadDelay ≤ s.transferEnd t r) ∨
  reg ∈ channelRegs g t channel ∧
    s.oldChannelTime + t.channelSwitchDelayR + t.cellReadDelay < t.regReadDelay

/-- The condition on a call: a partial write records its read shielded. -/
def Call.Shielded (g : Geometry) (t : IoConfig) (clk : Clock) (c : Call) (s : Io) : Prop :=
  match c with
  | .ssdPagePartialWrite f₀ b₀ _ _ _ _ offset _ _ => Vssim.Shielded g t (f₀ % t.channelNb)
      (regOf g f₀ b₀) (partialReadState g t clk f₀ b₀ offset s)
  | _ => True

/-- Does the call write a page in part? -/
def Call.isPartialWrite : Call → Bool
  | .ssdPagePartialWrite .. => true
  | _ => false

/-- The condition along a sequence of calls. -/
def ShieldedRun (g : Geometry) (t : IoConfig) (clk : Clock) : List Call → Io → Prop
  | [], _ => True
  | c :: cs, s => c.Shielded g t clk s ∧ ShieldedRun g t clk cs (Io.call g t clk c s)

/-- `SSD_GET_CH_ACCESS_TIME_FOR_READ` is the latest of the ends it sees. -/
private theorem le_ssdGetChAccessTimeForRead_iff {g : Geometry} {t : IoConfig} {channel reg : ℕ}
    {s : Io} {x : ℤ} : x ≤ ssdGetChAccessTimeForRead g t channel reg s ↔
      x ≤ s.cellIoTime reg + t.cellReadDelay ∨
        ∃ r ∈ channelRegs g t channel, x ≤ s.transferEnd t r := by
  have hfold : ∀ (rs : List ℕ) (latest : ℤ), x ≤ rs.foldl (fun latest r =>
      if latest < s.transferEnd t r then s.transferEnd t r else latest) latest ↔
      x ≤ latest ∨ ∃ r ∈ rs, x ≤ s.transferEnd t r := by
    intro rs
    induction rs with
    | nil => simp
    | cons r rs ih =>
      intro latest
      rw [List.foldl_cons, ih, List.exists_mem_cons_iff, ← or_assoc]
      refine or_congr_left ?_
      split <;> omega
  exact hfold _ _

/-- The transfer of the read of a partial write, recorded in a register that was emptied. -/
private theorem partialRead_le_iff {g : Geometry} {t : IoConfig} {channel reg : ℕ} {s : Io}
    (hempty : (s.reg reg).Empty) (hchannel : 0 ≤ s.oldChannelTime) (type : IoType) :
    s.oldChannelTime + t.channelSwitchDelayR + t.cellReadDelay ≤
      ssdGetChAccessTimeForRead g t channel reg (setCommand reg .read type s) ↔
    Shielded g t channel reg s := by
  have hcell : (setCommand reg .read type s).cellIoTime reg = -1 := hempty.2
  have hown : (setCommand reg .read type s).transferEnd t reg = -1 + t.regReadDelay := by
    have htime : s.regIoTime reg = -1 := hempty.1
    simp [transferEnd, setCommand, htime]
  have hother : ∀ r ≠ reg, (setCommand reg .read type s).transferEnd t r = s.transferEnd t r :=
    fun r hr => by simp [transferEnd, setCommand, hr]
  rw [le_ssdGetChAccessTimeForRead_iff, hcell]
  constructor
  · rintro (hle | ⟨r, hr, hle⟩)
    · omega
    · by_cases hne : r = reg
      · subst hne
        rw [hown] at hle
        exact .inr ⟨hr, by omega⟩
      · exact .inl ⟨r, hr, hne, hother r hne ▸ hle⟩
  · rintro (⟨r, hr, hne, hle⟩ | ⟨hr, hlt⟩)
    · exact .inr ⟨r, hr, (hother r hne).symm ▸ hle⟩
    · exact .inr ⟨reg, hr, by omega⟩

/-! ### The invariant -/

/-- The contents of a register between statements. If `b` holds, the reads are in order. -/
structure Reg.Kept (t : IoConfig) (b : Prop) (x : Reg) : Prop where
  plain : x.Plain
  cell : -1 ≤ x.cellTime
  ordered : b → x.cmd = .read → x.cellTime + t.cellReadDelay ≤ x.regTime

section kept

variable {t : IoConfig} {b : Prop} {x y : Reg}

private theorem Move.kept (h : Move t x y) (hx : x.Kept t b) : y.Kept t b := by
  refine ⟨h.plain hx.plain, ?_, fun hb => ?_⟩
  · have hcell := hx.cell
    cases h with
    | regWrite => exact hcell
    | later => exact hcell
    | _ => exact le_rfl
  · have hcell := hx.cell
    have hordered := hx.ordered hb
    cases h with
    | cellRead hcmd =>
      have hle := hordered hcmd
      intro _
      dsimp only
      omega
    | later hcmd =>
      have hle := hordered hcmd
      intro _
      dsimp only
      omega
    | regWrite hcmd => simp [hcmd]
    | _ => simp

private theorem kept_write {type : IoType} {time cell o : ℤ} {a : ℤ × ℤ} (hcell : -1 ≤ cell) :
    Reg.Kept t b ⟨.write, type, time, cell, a, o⟩ :=
  ⟨⟨.inr (.inr (.inl rfl)), by simp, by simp⟩, hcell, by simp⟩

private theorem kept_read {type : IoType} {time cell o : ℤ} {a : ℤ × ℤ} (hcell : -1 ≤ cell)
    (hle : b → cell + t.cellReadDelay ≤ time) : Reg.Kept t b ⟨.read, type, time, cell, a, o⟩ :=
  ⟨⟨.inr (.inl rfl), by simp, by simp⟩, hcell, fun hb _ => hle hb⟩

end kept

namespace Io

variable {g : Geometry} {t : IoConfig} (clk : Clock) {b : Prop} {s : Io}

private theorem writeMoments_kept (h : Everywhere (Reg.Kept t b) s) (reg channel : ℕ) (offset : ℤ)
    (type : IoType) (ioPageNb : ℤ) (ret : Bool) :
    ∀ s' ∈ writeMoments g t clk reg channel offset type ioPageNb ret s,
      Everywhere (Reg.Kept t b) s' := by
  have h₁ := h.chRecord t clk channel .write offset ret
  rw [writeMoments]
  generalize ssdChRecord t clk channel .write offset ret s = s₁ at h₁
  obtain ⟨a, o, s₂, hs₂, hreg, hother, hchannel⟩ := ssdRegRecord_write (g := g) t clk reg type offset
    channel h₁.channelTime
  have hnonneg := h₁.channelTime
  have h₂ : Everywhere (Reg.Kept t b) s₂ := by
    refine h₁.put Move.kept reg ?_ hother hchannel
    rw [hreg]
    exact kept_write (h₁.reg reg).cell
  have h₃ : Everywhere (Reg.Kept t b) (ssdCellRecord t clk reg .write s₂) := by
    refine h₂.put Move.kept reg ?_ (fun r hr => ?_) rfl
    · simp only [Io.reg, Reg.mk.injEq] at hreg
      have hkept : Reg.Kept t b ⟨.write, type, s₁.oldChannelTime + t.channelSwitchDelayW,
          s₁.oldChannelTime + t.channelSwitchDelayW + t.regWriteDelay, a,
          s₁.ioOverhead reg + o⟩ := kept_write (by omega)
      simpa [Io.reg, ssdCellRecord, hreg] using hkept
    · rw [ssdCellRecord_other t clk hr]
  simp only [hs₂, List.forall_mem_cons, List.not_mem_nil, false_imp_iff, implies_true, and_true]
  exact ⟨h₁, h₂, h₃, h₃.drained Move.kept (finishLastPage_drained t clk reg offset ioPageNb _).drained⟩

/-- The switch to the channel of an operation and the access to its register. -/
private theorem enter_kept (h : Everywhere (Reg.Kept t b) s) (flashNb blockNb : ℕ) :
    Everywhere (Reg.Kept t b) (ssdChEnable t clk (flashNb % t.channelNb) s) ∧
      ∃ st, access g t clk flashNb (regOf g flashNb blockNb)
          (ssdChEnable t clk (flashNb % t.channelNb) s) = st ∧
        Everywhere (Reg.Kept t b) st.2 ∧ (st.2.reg (regOf g flashNb blockNb)).Empty := by
  have henable := h.drained Move.kept (ssdChEnable_drained t clk (flashNb % t.channelNb) s)
  obtain ⟨hdrain, hempty⟩ := access_drained (g := g) t clk flashNb blockNb
    (ssdChEnable t clk (flashNb % t.channelNb) s)
  exact ⟨henable, _, rfl, henable.drained Move.kept hdrain, hempty.empty (henable.reg _).plain⟩

/-- The records of `SSD_PAGE_READ`: the cell, and then the transfer. -/
private theorem recordRead_kept (h : Everywhere (Reg.Kept t b) s) (reg : ℕ) (type : IoType)
    (offset : ℤ)
    (channel : ℕ) : Everywhere (Reg.Kept t b) (ssdRegRecord g t clk reg .read type offset channel
      (ssdCellRecord t clk reg .read s)) := by
  obtain ⟨a, o, s', hs', hreg, -, hother, hchannel⟩ := ssdRegRecord_read (g := g) t clk reg type
    offset channel (ssdCellRecord t clk reg .read s)
  have hcell : (ssdCellRecord t clk reg .read s).cellIoTime reg =
      s.oldChannelTime + t.channelSwitchDelayR := Function.update_self ..
  have hnonneg := h.channelTime
  rw [hs']
  refine h.put Move.kept reg ?_ (fun r hr => ?_) hchannel
  · rw [hreg, hcell]
    refine kept_read (by omega) fun _ => ?_
    rw [← hcell]
    exact le_ssdGetChAccessTimeForRead t (setCommand reg .read type _) reg channel
  · rw [hother r hr, ssdCellRecord_other t clk hr]

/-- The records of the read of `SSD_PAGE_PARTIAL_WRITE`: the transfer, and then the cell. -/
private theorem recordPartial_kept (h : Everywhere (Reg.Kept t b) s) {reg channel : ℕ}
    (hempty : (s.reg reg).Empty) (hshield : b → Shielded g t channel reg s) (type : IoType)
    (offset : ℤ) :
    Everywhere (Reg.Kept t b) (ssdRegRecord g t clk reg .read type offset channel s) ∧
    Everywhere (Reg.Kept t b) (ssdCellRecord t clk reg .read
      (ssdRegRecord g t clk reg .read type offset channel s)) := by
  obtain ⟨a, o, s', hs', hreg, -, hother, hchannel⟩ := ssdRegRecord_read (g := g) t clk reg type
    offset channel s
  have hnonneg := h.channelTime
  rw [hs']
  refine ⟨h.put Move.kept reg ?_ (fun r hr => by rw [hother r hr]) hchannel,
    h.put Move.kept reg ?_ (fun r hr => ?_) hchannel⟩
  · rw [hreg]
    exact kept_read (h.reg reg).cell fun _ =>
      le_ssdGetChAccessTimeForRead t (setCommand reg .read type s) reg channel
  · simp only [Io.reg, Reg.mk.injEq] at hreg
    have hkept : Reg.Kept t b ⟨.read, type,
        ssdGetChAccessTimeForRead g t channel reg (setCommand reg .read type s),
        s.oldChannelTime + t.channelSwitchDelayR, a, s.ioOverhead reg + o⟩ :=
      kept_read (by omega) fun hb => (partialRead_le_iff hempty hnonneg type).mpr (hshield hb)
    simpa [Io.reg, ssdCellRecord, hreg, hchannel] using hkept
  · rw [ssdCellRecord_other t clk hr, hother r hr]

/-- The state in which a partial write records its read: the register is empty. -/
private theorem partialReadState_kept (h : Everywhere (Reg.Kept t b) s) (flashNb blockNb : ℕ)
    (offset : ℤ) : Everywhere (Reg.Kept t b) (partialReadState g t clk flashNb blockNb offset s) ∧
      ((partialReadState g t clk flashNb blockNb offset s).reg (regOf g flashNb blockNb)).Empty := by
  obtain ⟨-, st, hst, hkept, hempty⟩ := enter_kept (g := g) clk h flashNb blockNb
  have hwait := waitForChannel_drained (g := g) t clk (flashNb % t.channelNb) st.2
  rw [partialReadState]
  simp only [hst]
  refine ⟨(hkept.drained Move.kept hwait).chRecord .., ?_⟩
  rw [ssdChRecord_reg]
  exact (hwait.moves _).rule Move.empty hempty

private theorem recordErase_kept (h : Everywhere (Reg.Kept t b) s) {reg : ℕ}
    (hempty : (s.reg reg).Empty) (channel : ℕ) :
    Everywhere (Reg.Kept t b) (ssdRegRecord g t clk reg .erase .erase (-1) channel s) ∧
    Everywhere (Reg.Kept t b) (ssdCellRecord t clk reg .erase
      (ssdRegRecord g t clk reg .erase .erase (-1) channel s)) := by
  have herase : ∀ cell : ℤ, -1 ≤ cell → Reg.Kept t b
      ⟨.erase, .erase, s.regIoTime reg, cell, (-1, -1), s.ioOverhead reg⟩ := fun cell hcell =>
    ⟨⟨.inr (.inr (.inr rfl)), by simp, fun _ => hempty.1⟩, hcell, by simp⟩
  have hnonneg := clk.nonneg s.tick
  refine ⟨h.put Move.kept reg ?_ (fun r hr => ?_) rfl, h.put Move.kept reg ?_ (fun r hr => ?_) rfl⟩
  · simpa [Io.reg, ssdRegRecord, setCommand, untie] using herase _ (h.reg reg).cell
  · rw [ssdRegRecord_erase_other t clk hr]
  · have hkept := herase (clk.read s.tick) (by omega)
    simpa [Io.reg, ssdRegRecord, ssdCellRecord, setCommand, untie, getUsec] using hkept
  · rw [ssdCellRecord_other t clk hr, ssdRegRecord_erase_other t clk hr]

/-- All moments of a call keep the invariant. -/
private theorem moments_kept (h : Everywhere (Reg.Kept t b) s) {c : Call}
    (hc : b → c.Shielded g t clk s) :
    ∀ s' ∈ moments g t clk c s, Everywhere (Reg.Kept t b) s' := by
  cases c with
  | ssdPageWrite f n _ offset type k =>
    obtain ⟨henable, st, hst, hkept, -⟩ := enter_kept (g := g) clk h f n
    have hwait := hkept.drained Move.kept
      (waitForChannel_drained (g := g) t clk (f % t.channelNb) st.2)
    simp only [moments, hst, List.cons_append, List.nil_append, List.forall_mem_cons]
    exact ⟨henable, hkept, hwait, writeMoments_kept clk hwait _ _ _ _ _ _⟩
  | ssdPagePartialWrite f₀ n₀ _ f n _ offset type k =>
    obtain ⟨henable, st, hst, hkept, -⟩ := enter_kept (g := g) clk h f₀ n₀
    have hwait := hkept.drained Move.kept
      (waitForChannel_drained (g := g) t clk (f₀ % t.channelNb) st.2)
    obtain ⟨hstate, hempty⟩ := partialReadState_kept (g := g) clk h f₀ n₀ offset
    obtain ⟨hreg, hcell⟩ := recordPartial_kept clk hstate hempty hc type offset
    have hremain := hcell.drained Move.kept
      (ssdRegAccess_drained t clk (regOf g f₀ n₀) _).1.drained
    obtain ⟨henable', st', hst', hkept', -⟩ := enter_kept (g := g) clk hremain f n
    simp only [moments, hst, List.cons_append, List.nil_append, List.forall_mem_cons,
      ssdRemainIoDelay, hst']
    exact ⟨henable, hkept, hwait, hstate, hreg, hcell, hremain, henable', hkept',
      writeMoments_kept clk hkept' _ _ _ _ _ _⟩
  | ssdPageRead f n _ offset type k =>
    obtain ⟨henable, st, hst, hkept, -⟩ := enter_kept (g := g) clk h f n
    have hchannel := hkept.chRecord t clk (f % t.channelNb) .read offset st.1
    have hread := recordRead_kept (g := g) clk hchannel (regOf g f n) type offset (f % t.channelNb)
    simp only [moments, hst, List.forall_mem_cons, List.not_mem_nil, false_imp_iff, implies_true,
      and_true]
    exact ⟨henable, hkept, hchannel, hread,
      hread.drained Move.kept (finishLastPage_drained t clk _ offset k _).drained⟩
  | ssdBlockErase f n =>
    obtain ⟨hdrain, hempty⟩ := access_drained (g := g) t clk f n s
    have hkept := h.drained Move.kept hdrain
    obtain ⟨hreg, hcell⟩ := recordErase_kept (g := g) clk hkept (hempty.empty (h.reg _).plain)
      (f % t.channelNb)
    simp only [moments, List.forall_mem_cons, List.not_mem_nil, false_imp_iff, implies_true, and_true]
    exact ⟨hkept, hreg, hcell⟩
  | allocIoRequest sectorNb length ioType =>
    intro s' hs'
    rw [List.mem_singleton.mp hs']
    obtain ⟨hreg, hchannel⟩ := allocIoRequest_reg (g := g) clk sectorNb length ioType s
    exact h.drained Move.kept (.of_reg hreg hchannel)
  | increaseIoRequestSeqNb =>
    intro s' hs'
    rw [List.mem_singleton.mp hs']
    exact h.drained Move.kept (.of_reg rfl rfl)
  | getNewPage _ | garbageCollection | error _ =>
    intro s' hs'
    rw [List.mem_singleton.mp hs']
    exact h

/-- A partial write all of whose moments are in order records its read shielded. -/
private theorem shielded_of_moments (h : Everywhere (Reg.Kept t False) s) {c : Call}
    (hc : ∀ s' ∈ moments g t clk c s, s'.Ordered t) : c.Shielded g t clk s := by
  cases c with
  | ssdPagePartialWrite f₀ n₀ _ f n _ offset type k =>
    obtain ⟨hstate, hempty⟩ := partialReadState_kept (g := g) clk h f₀ n₀ offset
    obtain ⟨a, o, s', hs', hreg, -, -, hchannel⟩ := ssdRegRecord_read (g := g) t clk (regOf g f₀ n₀)
      type offset (f₀ % t.channelNb) (partialReadState g t clk f₀ n₀ offset s)
    simp only [Io.reg, Reg.mk.injEq] at hreg
    -- the moment after both records
    have hordered := hc (ssdCellRecord t clk (regOf g f₀ n₀) .read s')
      (by simp [moments, hs']) (regOf g f₀ n₀) hreg.1
    simp only [ssdCellRecord, Function.update_self, hchannel, hreg.2.2.1] at hordered
    exact (partialRead_le_iff hempty hstate.channelTime type).mp hordered
  | _ => trivial

end Io

section history

variable {g : Geometry} {t : IoConfig} {clk : Clock} {s : Io} {cs : List Call}

private theorem Everywhere.ordered (h : Everywhere (Reg.Kept t True) s) : s.Ordered t :=
  fun r => (h.reg r).ordered trivial

private theorem history_ordered (h : Everywhere (Reg.Kept t True) s)
    (hcs : ShieldedRun g t clk cs s) : ∀ s' ∈ history g t clk cs s, s'.Ordered t := by
  induction cs generalizing s with
  | nil =>
    rw [history, List.forall_mem_singleton]
    exact h.ordered
  | cons c cs ih =>
    have hmoments := moments_kept clk h fun _ => hcs.1
    rw [history, List.forall_mem_cons, List.forall_mem_append]
    exact ⟨h.ordered, fun s' hs' => (hmoments s' hs').ordered,
      ih (hmoments _ (call_mem_moments g t clk c s)) hcs.2⟩

private theorem history_shielded (h : Everywhere (Reg.Kept t False) s)
    (hcs : ∀ s' ∈ history g t clk cs s, s'.Ordered t) : ShieldedRun g t clk cs s := by
  induction cs generalizing s with
  | nil => trivial
  | cons c cs ih =>
    rw [history, List.forall_mem_cons, List.forall_mem_append] at hcs
    have hmoments := moments_kept (g := g) clk h (c := c) False.elim
    exact ⟨shielded_of_moments clk h hcs.2.1,
      ih (hmoments _ (call_mem_moments g t clk c s)) hcs.2.2⟩

/-- Nothing is recorded before the first call. -/
private theorem init_kept (t : IoConfig) (b : Prop) : Everywhere (Reg.Kept t b) (Io.init t) :=
  ⟨fun _ => ⟨⟨.inl rfl, fun _ => ⟨rfl, rfl⟩, fun _ => rfl⟩, le_rfl, fun _ hcmd => by
    simp [Io.reg, Io.init] at hcmd⟩, le_rfl⟩

private theorem shieldedRun_of_whole (hcs : ∀ c ∈ cs, c.isPartialWrite = false) :
    ShieldedRun g t clk cs s := by
  induction cs generalizing s with
  | nil => trivial
  | cons c cs ih =>
    rw [List.forall_mem_cons] at hcs
    refine ⟨?_, ih hcs.2⟩
    cases c with
    | ssdPagePartialWrite => cases hcs.1
    | _ => trivial

end history

/-- **Transfers after cell reads**: at every moment of a sequence of calls the transfer of every
recorded read starts after the delay of its cell, exactly when every partial write of the
sequence records its read shielded. -/
theorem history_ordered_iff (g : Geometry) (t : IoConfig) (clk : Clock) (cs : List Call) :
    (∀ s ∈ history g t clk cs (Io.init t), s.Ordered t) ↔ ShieldedRun g t clk cs (Io.init t) :=
  ⟨history_shielded (init_kept t False), history_ordered (init_kept t True)⟩

/-- **Whole pages.** Without partial writes the order is always kept. -/
theorem history_ordered_of_whole (g : Geometry) (t : IoConfig) (clk : Clock) {cs : List Call}
    (hcs : ∀ c ∈ cs, c.isPartialWrite = false) :
    ∀ s ∈ history g t clk cs (Io.init t), s.Ordered t :=
  history_ordered (init_kept t True) (shieldedRun_of_whole hcs)

/-- A write and then a partial write of the page: once its read is recorded, the transfer is due
at time 4, for a cell that is read from time 34 on. -/
theorem unordered_smallDevice : ∃ s ∈ history smallDevice smallDelays steadyClock
      [.ssdPageWrite 0 0 0 0 .write 1, .ssdPagePartialWrite 0 0 0 0 1 0 0 .write 1]
      (Io.init smallDelays),
    s.regIoCmd 0 = .read ∧ s.regIoTime 0 = 4 ∧ s.cellIoTime 0 = 34 ∧ ¬s.Ordered smallDelays := by
  have hmoment : ∃ s ∈ history smallDevice smallDelays steadyClock
      [.ssdPageWrite 0 0 0 0 .write 1, .ssdPagePartialWrite 0 0 0 0 1 0 0 .write 1]
      (Io.init smallDelays), s.regIoCmd 0 = .read ∧ s.regIoTime 0 = 4 ∧ s.cellIoTime 0 = 34 := by
    decide +kernel
  obtain ⟨s, hs, hcmd, htime, hcell⟩ := hmoment
  refine ⟨s, hs, hcmd, htime, hcell, fun hordered => ?_⟩
  have hle := hordered 0 hcmd
  rw [htime, hcell] at hle
  exact absurd hle (by decide)

end Vssim
