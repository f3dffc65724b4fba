import Vssim.Io.RegInv

/-!
# Draining registers

The delays, the accesses to a register, a chip or a channel, and the wait for a channel keep the
invariant of the I/O manager. They start no page, never give a vacant register a page, and
an access leaves its register vacant.
-/

namespace Vssim

open Io

/-- The requests and what has been begun of them stay as they are. -/
structure Keeps (s : Io) (τ : Tracker) (s' : Io) (τ' : Tracker) : Prop where
  count : τ'.count = τ.count
  size : τ'.size = τ.size
  begun : τ'.begun = τ.begun
  seqNb : s'.ioRequestSeqNb = s.ioRequestSeqNb

theorem Keeps.trans {s s' s'' : Io} {τ τ' τ'' : Tracker} (h : Keeps s τ s' τ')
    (h' : Keeps s' τ' s'' τ'') : Keeps s τ s'' τ'' :=
  ⟨h'.count.trans h.count, h'.size.trans h.size, h'.begun.trans h.begun, h'.seqNb.trans h.seqNb⟩

/-- A step that drains registers: also, no register gets a page or a transfer. -/
structure Drains (s : Io) (τ : Tracker) (s' : Io) (τ' : Tracker) : Prop extends
    Keeps s τ s' τ' where
  vacant : ∀ reg, s.Vacant reg → s'.Vacant reg
  quiet : ∀ reg, s.regIoTime reg = -1 → s'.regIoTime reg = -1

theorem Drains.trans {s s' s'' : Io} {τ τ' τ'' : Tracker} (h : Drains s τ s' τ')
    (h' : Drains s' τ' s'' τ'') : Drains s τ s'' τ'' :=
  ⟨h.toKeeps.trans h'.toKeeps, fun reg => h'.vacant reg ∘ h.vacant reg,
    fun reg => h'.quiet reg ∘ h.quiet reg⟩

/-- The invariant holds again after a step that drains registers. -/
def DrainsTo (g : Geometry) (s : Io) (τ : Tracker) (s' : Io) : Prop :=
  ∃ τ', IoInv g s' τ' ∧ Drains s τ s' τ'

/-- Only counters, time stamps of the channel and reports of times differ. -/
structure Alike (s s' : Io) : Prop where
  requests : s'.requests = s.requests
  log : ∃ es, s'.log = s.log ++ es ∧ ∀ e ∈ es, e.Neutral
  access : s'.accessNb = s.accessNb
  command : s'.regIoCmd = s.regIoCmd
  regTime : s'.regIoTime = s.regIoTime
  cellTime : s'.cellIoTime = s.cellIoTime
  seqNb : s'.ioRequestSeqNb = s.ioRequestSeqNb
  channelTime : 0 ≤ s.oldChannelTime → 0 ≤ s'.oldChannelTime

namespace Alike

variable {s s' s'' : Io}

theorem refl (s : Io) : Alike s s := ⟨rfl, ⟨[], by simp⟩, rfl, rfl, rfl, rfl, rfl, id⟩

private theorem trans (h : Alike s s') (h' : Alike s' s'') : Alike s s'' := by
  obtain ⟨es, hes, hneutral⟩ := h.log
  obtain ⟨es', hes', hneutral'⟩ := h'.log
  refine ⟨h'.requests.trans h.requests, ⟨es ++ es', by rw [hes', hes, List.append_assoc], ?_⟩,
    h'.access.trans h.access, h'.command.trans h.command, h'.regTime.trans h.regTime,
    h'.cellTime.trans h.cellTime, h'.seqNb.trans h.seqNb, h'.channelTime ∘ h.channelTime⟩
  intro e he
  exact (List.mem_append.mp he).elim (hneutral e) (hneutral' e)

theorem tick (s : Io) (k : ℕ) : Alike s { s with tick := k } :=
  ⟨rfl, ⟨[], by simp⟩, rfl, rfl, rfl, rfl, rfl, id⟩

private theorem booked (h : Alike s s') {τ : Tracker} (hb : Booked s.requests s.log τ) :
    Booked s'.requests s'.log τ := by
  obtain ⟨es, hes, hneutral⟩ := h.log
  rw [h.requests, hes]
  exact ⟨hb.fits, hb.list, hb.log.neutral hneutral⟩

private theorem vacant_iff (h : Alike s s') (reg : ℕ) : s'.Vacant reg ↔ s.Vacant reg := by
  rw [Vacant, Vacant, h.access]

theorem drainsTo (h : Alike s s') {g : Geometry} {τ : Tracker} (hinv : IoInv g s τ) :
    DrainsTo g s τ s' := by
  refine ⟨τ, ⟨h.booked hinv.booked, ?_, ?_, ?_, ?_, h.channelTime hinv.channelTime⟩,
    ⟨rfl, rfl, rfl, h.seqNb⟩, fun reg => (h.vacant_iff reg).mpr, fun reg => by rw [h.regTime]; exact id⟩
  · simpa only [Holds, h.access] using hinv.held
  · simpa only [Holds, Vacant, h.access] using hinv.pending
  · simpa only [Due, Vacant, h.access, h.command, h.regTime, h.cellTime] using hinv.due
  · simpa only [h.command] using hinv.command

end Alike

namespace DrainsTo

variable {g : Geometry} {s s' s'' : Io} {τ : Tracker}

theorem after {τ' : Tracker} (h' : DrainsTo g s' τ' s'') (h : Drains s τ s' τ') :
    DrainsTo g s τ s'' := by
  obtain ⟨τ'', hinv, hdrain⟩ := h'
  exact ⟨τ'', hinv, h.trans hdrain⟩

private theorem vacant (h : DrainsTo g s τ s') {reg : ℕ} (hvac : s.Vacant reg) : s'.Vacant reg := by
  obtain ⟨_, _, hdrain⟩ := h
  exact hdrain.vacant reg hvac

private theorem quiet (h : DrainsTo g s τ s') {reg : ℕ} (hreg : s.regIoTime reg = -1) :
    s'.regIoTime reg = -1 := by
  obtain ⟨_, _, hdrain⟩ := h
  exact hdrain.quiet reg hreg

/-- A step that leaves the page in its register there. -/
private theorem keep (h : IoInv g s τ) {reg : ℕ} (helse : Elsewhere reg s s')
    (hbook : Booked s'.requests s'.log τ) (hreg : s'.accessNb reg = s.accessNb reg)
    (hdue : ¬s.Vacant reg → s'.Due reg) (hcmd : (s'.regIoCmd reg).IsCommand)
    (hseq : s'.ioRequestSeqNb = s.ioRequestSeqNb)
    (hquiet : ∀ r, s.regIoTime r = -1 → s'.regIoTime r = -1) : DrainsTo g s τ s' := by
  have hvac : ∀ r, s'.Vacant r ↔ s.Vacant r := fun r => by
    by_cases hr : r = reg
    · rw [Vacant, Vacant, hr, hreg]
    · exact helse.vacant_iff hr
  exact ⟨τ, h.keep helse hbook (.inl hreg) (fun hv => hdue fun hv' => hv ((hvac reg).mpr hv')) hcmd,
    ⟨rfl, rfl, rfl, hseq⟩, fun r => (hvac r).mpr, hquiet⟩

end DrainsTo

namespace Io

variable {g : Geometry} (t : IoConfig) (clk : Clock) {s : Io} {τ : Tracker} {reg : ℕ}

private theorem note_alike {es : List IoEvent} (hes : ∀ e ∈ es, e.Neutral) : Alike s (s.note es) :=
  ⟨rfl, ⟨es, rfl, hes⟩, rfl, rfl, rfl, rfl, rfl, id⟩

private theorem send_alike (opType : IoType) (opDelay : ℤ) (type : PerfType) :
    Alike s (s.sendToPerfChecker opType opDelay type) :=
  note_alike (by simp [IoEvent.Neutral])

private theorem spend_alike (timeStamp overhead delay : ℤ) :
    Alike s (spend clk timeStamp overhead delay s).2 :=
  .tick s _

theorem charge_alike (reg : ℕ) (timeStamp overhead delay : ℤ) (type : PerfType) (s : Io) :
    Alike s (charge clk reg timeStamp overhead delay type s).2 :=
  (spend_alike clk timeStamp overhead delay).trans (send_alike ..)

theorem ssdChEnable_alike (channel : ℕ) : Alike s (ssdChEnable t clk channel s) := by
  simp only [ssdChEnable, ssdChSwitchDelay]
  split
  · exact .refl s
  · split
    · split
      · exact spend_alike ..
      · exact spend_alike ..
      · exact .refl s
    · exact .refl s

theorem ssdChRecord_alike (channel : ℕ) (cmd : IoType) (offset : ℤ) (ret : Bool) :
    Alike s (ssdChRecord t clk channel cmd offset ret s) := by
  have hnonneg := clk.nonneg s.tick
  simp only [ssdChRecord, getUsec]
  split
  · exact ⟨rfl, ⟨[], by simp⟩, rfl, rfl, rfl, rfl, rfl, fun h => by simp only; omega⟩
  · split
    · exact ⟨rfl, ⟨[], by simp⟩, rfl, rfl, rfl, rfl, rfl, fun h => by simp only; omega⟩
    · exact ⟨rfl, ⟨[], by simp⟩, rfl, rfl, rfl, rfl, rfl, fun _ => hnonneg⟩

section vacate

variable (overhead : ℤ) (requests : RequestList) (log : List IoEvent) (k : ℕ)

theorem vacate_vacant : (vacate reg overhead s).Vacant reg := by
  simp [vacate, Vacant]

theorem vacate_elsewhere :
    Elsewhere reg s (vacate reg overhead { s with requests, log, tick := k }) where
  access _ hr := Function.update_of_ne hr ..
  command _ _ := rfl
  regTime _ _ := id
  cellTime _ _ := id
  channelTime := id

/-- Vacating a register drains it. -/
private theorem vacate_drains {τ' : Tracker} (hsame : τ'.count = τ.count ∧ τ'.size = τ.size ∧
    τ'.begun = τ.begun) : Drains s τ (vacate reg overhead { s with requests, log, tick := k }) τ' := by
  refine ⟨⟨hsame.1, hsame.2.1, hsame.2.2, rfl⟩, fun r hr => ?_, fun _ => id⟩
  by_cases hne : r = reg
  · rw [hne]
    exact vacate_vacant overhead
  · exact ((vacate_elsewhere overhead requests log k).vacant_iff hne).mpr hr

end vacate

/-- `SSD_UPDATE_IO_REQUEST` vacates its register. -/
private theorem ssdUpdateIoRequest_spec (h : IoInv g s τ) (hlt : reg < g.regNb) :
    ∃ s', ssdUpdateIoRequest t clk reg s = s' ∧ DrainsTo g s τ s' ∧ s'.Vacant reg ∧
      s'.regIoCmd = s.regIoCmd ∧ s'.regIoTime = s.regIoTime ∧ s'.cellIoTime = s.cellIoTime := by
  rcases h.pending reg hlt with hvac | ⟨p, hp, hold⟩
  · have hfst : (s.accessNb reg).1 = -1 := hvac
    have hs : ssdUpdateIoRequest t clk reg s = vacate reg 0 { s with tick := s.tick + 1 + 1 } := by
      simp only [ssdUpdateIoRequest, updateIoRequest, getUsec, hfst, if_true]
    refine ⟨_, hs, ⟨τ, h.keep (vacate_elsewhere ..) h.booked (.inr ⟨hvac, vacate_vacant 0⟩)
      (fun hv => absurd (vacate_vacant 0) hv) (h.command reg), vacate_drains _ _ _ _ ⟨rfl, rfl, rfl⟩⟩,
      vacate_vacant 0, rfl, rfl, rfl⟩
  · obtain ⟨requests, log, k, heq, hbook⟩ := updateIoRequest_end t clk
      (s := { s with tick := s.tick + 1 }) h.booked hp
      (if s.initDiffReg ≠ 0 then clk.read s.tick else 0)
    have hsnd : (s.accessNb reg).2 = p.2 := by rw [Holds] at hold; rw [hold]
    obtain ⟨o, hs⟩ : ∃ o, ssdUpdateIoRequest t clk reg s =
        vacate reg o { s with requests, log, tick := k } := by
      simp only [ssdUpdateIoRequest, getUsec, hold.fst, hsnd]
      exact ⟨_, congrArg (vacate reg _) heq⟩
    exact ⟨_, hs, ⟨τ.finish p, h.finish (vacate_elsewhere ..) hlt hp hold hbook (vacate_vacant o)
      (h.command reg), vacate_drains _ _ _ _ ⟨rfl, rfl, rfl⟩⟩, vacate_vacant o, rfl, rfl, rfl⟩

/-! ### Delays -/

/-- Clearing the time stamp of a register. -/
private theorem update_quiet {time : ℕ → ℤ} (r : ℕ) (hr : time r = -1) :
    Function.update time reg (-1) r = -1 := by
  by_cases hne : r = reg
  · rw [hne, Function.update_self]
  · rw [Function.update_of_ne hne, hr]

theorem update_nonneg {time : ℕ → ℤ} {r : ℕ} {x : ℤ} (hne : r ≠ reg) (hr : 0 ≤ time r) :
    0 ≤ Function.update time reg x r := by
  rwa [Function.update_of_ne hne]

private theorem ssdRegWriteDelay_spec (h : IoInv g s τ) (hlt : reg < g.regNb)
    (hcmd : s.regIoCmd reg = .write) :
    ∃ s', (ssdRegWriteDelay t clk reg s).2 = s' ∧ DrainsTo g s τ s' ∧ s'.regIoTime reg = -1 ∧
      s'.regIoCmd = s.regIoCmd ∧ s'.cellIoTime = s.cellIoTime := by
  refine ⟨_, rfl, ?_⟩
  by_cases htime : s.regIoTime reg = -1
  · simp only [ssdRegWriteDelay, htime, if_true]
    exact ⟨(Alike.refl s).drainsTo h, trivial, trivial, trivial⟩
  · simp only [ssdRegWriteDelay, htime, if_false]
    have halike := charge_alike clk reg (s.regIoTime reg) 0 t.regWriteDelay .chOp s
    generalize (charge clk reg (s.regIoTime reg) 0 t.regWriteDelay .chOp s).2 = s₁ at halike
    obtain ⟨τ₁, h₁, hdrain₁⟩ := halike.drainsTo h
    rw [← halike.command] at hcmd ⊢
    refine ⟨.after (.keep h₁ ⟨fun _ _ => rfl, fun _ _ => rfl, fun _ hr => update_nonneg hr,
      fun _ _ => id, id⟩ h₁.booked (rfl : s₁.accessNb reg = _) (fun hv => ?_) (h₁.command reg) rfl
      update_quiet) hdrain₁, Function.update_self .., rfl, halike.cellTime⟩
    rcases (h₁.due reg hlt).resolve_left hv with hdue | hdue
    · exact absurd (hcmd.symm.trans hdue.1) (by decide)
    · exact .inr hdue

private theorem ssdCellReadDelay_spec (h : IoInv g s τ) (hlt : reg < g.regNb)
    (hcmd : s.regIoCmd reg = .read) :
    ∃ s', (ssdCellReadDelay t clk reg s).2 = s' ∧ DrainsTo g s τ s' ∧
      s'.regIoCmd = s.regIoCmd ∧ s'.regIoTime = s.regIoTime := by
  refine ⟨_, rfl, ?_⟩
  by_cases htime : s.cellIoTime reg = -1
  · simp only [ssdCellReadDelay, htime, if_true]
    exact ⟨(Alike.refl s).drainsTo h, trivial, trivial⟩
  · simp only [ssdCellReadDelay, htime, if_false]
    have halike := charge_alike clk reg (s.cellIoTime reg) (s.ioOverhead reg) t.cellReadDelay .regOp s
    generalize charge clk reg (s.cellIoTime reg) (s.ioOverhead reg) t.cellReadDelay .regOp s = d
      at halike
    obtain ⟨τ₁, h₁, hdrain₁⟩ := halike.drainsTo h
    rw [← halike.command] at hcmd ⊢
    refine ⟨.after (.keep h₁ ⟨fun _ _ => rfl, fun _ _ => rfl, fun _ _ => id,
      fun _ hr => update_nonneg hr, id⟩ h₁.booked (rfl : d.2.accessNb reg = _) (fun hv => ?_)
      (h₁.command reg) rfl fun _ => id) hdrain₁, rfl, halike.regTime⟩
    rcases (h₁.due reg hlt).resolve_left hv with hdue | hdue
    · exact .inl hdue
    · exact absurd (hcmd.symm.trans hdue.1) (by decide)

theorem isCommand_update {cmd : ℕ → IoType} : (Function.update cmd reg .noop reg).IsCommand := by
  rw [Function.update_self]
  exact .inl rfl

/-- `SSD_REG_READ_DELAY` reports the end of a page that is due. -/
private theorem ssdRegReadDelay_spec (h : IoInv g s τ) (hlt : reg < g.regNb) :
    ∃ s', (ssdRegReadDelay t clk reg s).2 = s' ∧ DrainsTo g s τ s' ∧ s'.regIoTime reg = -1 ∧
      (s.regIoTime reg ≠ -1 → s'.Vacant reg) := by
  refine ⟨_, rfl, ?_⟩
  by_cases htime : s.regIoTime reg = -1
  · simp only [ssdRegReadDelay, htime, if_true]
    exact ⟨(Alike.refl s).drainsTo h, trivial, fun hne => absurd rfl hne⟩
  · simp only [ssdRegReadDelay, htime, if_false]
    have halike := charge_alike clk reg (s.regIoTime reg) 0 t.regReadDelay .chOp s
    generalize (charge clk reg (s.regIoTime reg) 0 t.regReadDelay .chOp s).2 = s₁ at halike
    obtain ⟨τ₁, h₁, hdrain₁⟩ := halike.drainsTo h
    obtain ⟨s₂, hs₂, ⟨τ₂, h₂, hdrain₂⟩, hvac, -⟩ := ssdUpdateIoRequest_spec t clk h₁ hlt
    rw [hs₂]
    refine ⟨.after (.keep h₂ ⟨fun _ _ => rfl, fun _ hr => Function.update_of_ne hr ..,
      fun _ hr => update_nonneg hr, fun _ _ => id, id⟩ h₂.booked (rfl : s₂.accessNb reg = _)
      (fun hv => absurd hvac hv) isCommand_update rfl update_quiet) (hdrain₁.trans hdrain₂),
      Function.update_self .., fun _ => hvac⟩

/-- `SSD_CELL_WRITE_DELAY` reports the end of a page that is due. -/
private theorem ssdCellWriteDelay_spec (h : IoInv g s τ) (hlt : reg < g.regNb) :
    ∃ s', (ssdCellWriteDelay t clk reg s).2 = s' ∧ DrainsTo g s τ s' ∧
      (s.cellIoTime reg ≠ -1 → s'.Vacant reg) := by
  refine ⟨_, rfl, ?_⟩
  by_cases htime : s.cellIoTime reg = -1
  · simp only [ssdCellWriteDelay, htime, if_true]
    exact ⟨(Alike.refl s).drainsTo h, fun hne => absurd rfl hne⟩
  · simp only [ssdCellWriteDelay, htime, if_false]
    have halike := charge_alike clk reg (s.cellIoTime reg) (s.ioOverhead reg) t.cellProgramDelay
      .regOp s
    generalize charge clk reg (s.cellIoTime reg) (s.ioOverhead reg) t.cellProgramDelay .regOp s = d
      at halike
    have hdiff : Alike s { d.2 with
        initDiffReg := if d.1.waited then d.1.diff else d.2.initDiffReg } :=
      ⟨halike.1, halike.2, halike.3, halike.4, halike.5, halike.6, halike.7, halike.8⟩
    obtain ⟨τ₁, h₁, hdrain₁⟩ := hdiff.drainsTo h
    obtain ⟨s₂, hs₂, ⟨τ₂, h₂, hdrain₂⟩, hvac, -⟩ := ssdUpdateIoRequest_spec t clk h₁ hlt
    rw [hs₂]
    refine ⟨.after (.keep h₂ ⟨fun _ _ => rfl, fun _ hr => Function.update_of_ne hr ..,
      fun _ _ => id, fun _ hr => update_nonneg hr, id⟩ h₂.booked (rfl : s₂.accessNb reg = _)
      (fun hv => absurd hvac hv) isCommand_update rfl fun _ => id) (hdrain₁.trans hdrain₂),
      fun _ => hvac⟩

private theorem ssdBlockEraseDelay_spec (h : IoInv g s τ) (hvac : s.Vacant reg) :
    DrainsTo g s τ (ssdBlockEraseDelay t clk reg s).2 := by
  by_cases htime : s.cellIoTime reg = -1
  · simp only [ssdBlockEraseDelay, htime, if_true]
    exact (Alike.refl s).drainsTo h
  · simp only [ssdBlockEraseDelay, htime, if_false, getUsec]
    have halike := fun opType opDelay => ((Alike.tick s (s.tick + 1)).trans
      (spend_alike clk (s.cellIoTime reg) 0 t.blockEraseDelay)).trans
      (send_alike opType opDelay .regOp)
    obtain ⟨τ₁, h₁, hdrain₁⟩ := (halike _ _).drainsTo h
    exact .after (.keep h₁ ⟨fun _ _ => rfl, fun _ hr => Function.update_of_ne hr ..,
      fun _ _ => id, fun _ hr => update_nonneg hr, id⟩ h₁.booked (rfl : s.accessNb reg = _)
      (fun hv => absurd (hdrain₁.vacant reg hvac) hv) isCommand_update rfl fun _ => id) hdrain₁

/-! ### Accesses -/

/-- `SSD_REG_ACCESS` leaves its register vacant. -/
theorem ssdRegAccess_spec (h : IoInv g s τ) (hlt : reg < g.regNb) :
    DrainsTo g s τ (ssdRegAccess t clk reg s).2 ∧ (ssdRegAccess t clk reg s).2.Vacant reg := by
  have hdue := h.due reg hlt
  rw [ssdRegAccess]
  rcases h.command reg with hcmd | hcmd | hcmd | hcmd
  · have hvac : s.Vacant reg := hdue.resolve_right (by simp [Due, hcmd])
    rw [hcmd]
    exact ⟨(Alike.refl s).drainsTo h, hvac⟩
  · rw [hcmd]
    obtain ⟨s₁, hs₁, ⟨τ₁, h₁, hdrain₁⟩, -, htime₁⟩ := ssdCellReadDelay_spec t clk h hlt hcmd
    obtain ⟨s₂, hs₂, hdrain₂, -, hvac₂⟩ := ssdRegReadDelay_spec t clk h₁ hlt
    rw [hs₁, hs₂]
    refine ⟨hdrain₂.after hdrain₁, ?_⟩
    rcases hdue with hvac | hdue
    · exact hdrain₂.vacant (hdrain₁.vacant reg hvac)
    · have htime : 0 ≤ s.regIoTime reg := by simpa [Due, hcmd] using hdue
      exact hvac₂ (by rw [htime₁]; omega)
  · rw [hcmd]
    obtain ⟨s₁, hs₁, ⟨τ₁, h₁, hdrain₁⟩, -, -, htime₁⟩ := ssdRegWriteDelay_spec t clk h hlt hcmd
    obtain ⟨s₂, hs₂, hdrain₂, hvac₂⟩ := ssdCellWriteDelay_spec t clk h₁ hlt
    rw [hs₁, hs₂]
    refine ⟨hdrain₂.after hdrain₁, ?_⟩
    rcases hdue with hvac | hdue
    · exact hdrain₂.vacant (hdrain₁.vacant reg hvac)
    · have htime : 0 ≤ s.cellIoTime reg := by simpa [Due, hcmd] using hdue
      exact hvac₂ (by rw [htime₁]; omega)
  · have hvac : s.Vacant reg := hdue.resolve_right (by simp [Due, hcmd])
    rw [hcmd]
    have hdrain := ssdBlockEraseDelay_spec t clk h hvac
    exact ⟨hdrain, hdrain.vacant hvac⟩

private theorem flashAccessLoop_spec {rs : List ℕ} (h : IoInv g s τ) (hrs : ∀ r ∈ rs, r < g.regNb)
    (ret : Bool) :
    DrainsTo g s τ (flashAccessLoop t clk reg rs (ret, s)).2 ∧
      (reg ∈ rs → (flashAccessLoop t clk reg rs (ret, s)).2.Vacant reg) := by
  induction rs generalizing s τ ret with
  | nil => exact ⟨(Alike.refl s).drainsTo h, fun hmem => absurd hmem List.not_mem_nil⟩
  | cons r rs ih =>
    have hrs' : ∀ r ∈ rs, r < g.regNb := fun r hr => hrs r (List.mem_cons_of_mem _ hr)
    rw [flashAccessLoop]
    split
    · rename_i hskip
      obtain ⟨hdrain, hvac⟩ := ih h hrs' ret
      exact ⟨hdrain, fun hmem => hvac ((List.mem_cons.mp hmem).resolve_left (Ne.symm hskip.1))⟩
    · obtain ⟨⟨τ₁, h₁, hdrain₁⟩, hvac₁⟩ := ssdRegAccess_spec t clk h (hrs r (by simp))
      obtain ⟨hdrain, hvac⟩ := ih h₁ hrs' (ssdRegAccess t clk r s).1
      refine ⟨hdrain.after hdrain₁, fun hmem => ?_⟩
      rcases List.mem_cons.mp hmem with rfl | hmem
      · exact hdrain.vacant hvac₁
      · exact hvac hmem

theorem regOf_lt {flashNb : ℕ} (hf : flashNb < g.flashNb) (blockNb : ℕ) :
    regOf g flashNb blockNb < g.regNb := by
  have hmod := Nat.mod_lt blockNb g.planesPerFlash_pos
  calc flashNb * g.planesPerFlash + blockNb % g.planesPerFlash
      < flashNb * g.planesPerFlash + g.planesPerFlash := by omega
    _ = (flashNb + 1) * g.planesPerFlash := by rw [Nat.succ_mul]
    _ ≤ g.flashNb * g.planesPerFlash := Nat.mul_le_mul_right _ hf

/-- The registers of a chip. -/
theorem chipRegs_lt {flashNb : ℕ} (hf : flashNb < g.flashNb) {r : ℕ}
    (hr : r ∈ (List.range g.planesPerFlash).map fun i => flashNb * g.planesPerFlash + i) :
    r < g.regNb := by
  obtain ⟨i, hi, rfl⟩ := List.mem_map.mp hr
  have hlt := regOf_lt (g := g) hf i
  rwa [regOf, Nat.mod_eq_of_lt (List.mem_range.mp hi)] at hlt

theorem regOf_mem_chipRegs (flashNb blockNb : ℕ) : regOf g flashNb blockNb ∈
    (List.range g.planesPerFlash).map fun i => flashNb * g.planesPerFlash + i :=
  List.mem_map.mpr ⟨_, List.mem_range.mpr (Nat.mod_lt blockNb g.planesPerFlash_pos), rfl⟩

/-- With either setting of `IO_PARALLELISM`, the register of an operation is vacant after the
access to it. -/
theorem access_spec (h : IoInv g s τ) {flashNb : ℕ} (hf : flashNb < g.flashNb) (blockNb : ℕ) :
    DrainsTo g s τ (access g t clk flashNb (regOf g flashNb blockNb) s).2 ∧
      (access g t clk flashNb (regOf g flashNb blockNb) s).2.Vacant (regOf g flashNb blockNb) := by
  rw [access]
  split
  · exact ssdRegAccess_spec t clk h (regOf_lt hf blockNb)
  · exact (flashAccessLoop_spec t clk h (fun r hr => chipRegs_lt hf hr) false).imp_right
      fun hvac => hvac (regOf_mem_chipRegs flashNb blockNb)

/-! ### The wait for a channel -/

theorem channelRegs_lt {channel r : ℕ} (hc : channel < t.channelNb)
    (hr : r ∈ channelRegs g t channel) : r < g.regNb := by
  obtain ⟨i, hi, hr⟩ := List.mem_flatMap.mp hr
  obtain ⟨j, hj, rfl⟩ := List.mem_map.mp hr
  have hway : (i + 1) * t.channelNb ≤ g.flashNb :=
    (Nat.mul_le_mul_right _ (List.mem_range.mp hi)).trans (Nat.div_mul_le_self ..)
  have hflash : channel + i * t.channelNb < g.flashNb := by
    rw [Nat.succ_mul] at hway
    omega
  have hreg := regOf_lt hflash j
  rwa [regOf, Nat.mod_eq_of_lt (List.mem_range.mp hj), Nat.add_mul] at hreg

/-- `SSD_CH_ACCESS` reports `FAIL` only for a register whose transfer it finishes. -/
private theorem chAccessReg_spec {st st' : Ret × Io} (h : IoInv g st.2 τ) (hlt : reg < g.regNb)
    (hst : chAccessReg t clk reg st = st') :
    DrainsTo g st.2 τ st'.2 ∧ (st'.1 = .fail → st.1 = .fail ∨
      st.2.regIoTime reg ≠ -1 ∧ st'.2.regIoTime reg = -1) := by
  have halike := Alike.tick st.2 (st.2.tick + 1)
  obtain ⟨τ₁, h₁, hdrain₁⟩ := halike.drainsTo h
  by_cases htime : st.2.regIoTime reg ≤ clk.read st.2.tick ∧ st.2.regIoTime reg ≠ -1
  · simp only [chAccessReg, getUsec, htime.1, htime.2, ne_eq, not_false_eq_true, and_self, if_true] at hst
    rcases h.command reg with hcmd | hcmd | hcmd | hcmd <;> rw [hcmd] at hst <;> subst hst
    · exact ⟨halike.drainsTo h, .inl⟩
    · obtain ⟨s₂, hs₂, ⟨τ₂, h₂, hdrain₂⟩, -⟩ := ssdCellReadDelay_spec t clk h₁ hlt hcmd
      obtain ⟨s₃, hs₃, hdrain₃, htime₃, -⟩ := ssdRegReadDelay_spec t clk h₂ hlt
      rw [hs₂, hs₃]
      exact ⟨hdrain₃.after (hdrain₁.trans hdrain₂), fun _ => .inr ⟨htime.2, htime₃⟩⟩
    · obtain ⟨s₂, hs₂, hdrain₂, htime₂, -⟩ := ssdRegWriteDelay_spec t clk h₁ hlt hcmd
      rw [hs₂]
      exact ⟨hdrain₂.after hdrain₁, fun _ => .inr ⟨htime.2, htime₂⟩⟩
    · exact ⟨halike.drainsTo h, .inl⟩
  · simp only [chAccessReg, getUsec, htime, if_false] at hst
    subst hst
    exact ⟨halike.drainsTo h, .inl⟩

private theorem chAccess_foldl {rs : List ℕ} {st : Ret × Io} (h : IoInv g st.2 τ)
    (hrs : ∀ r ∈ rs, r < g.regNb) {st' : Ret × Io}
    (hst : rs.foldl (fun st r => chAccessReg t clk r st) st = st') :
    DrainsTo g st.2 τ st'.2 ∧ (st'.1 = .fail → st.1 = .fail ∨
      ∃ r ∈ rs, st.2.regIoTime r ≠ -1 ∧ st'.2.regIoTime r = -1) := by
  induction rs generalizing st τ with
  | nil =>
    cases hst
    exact ⟨(Alike.refl _).drainsTo h, .inl⟩
  | cons r rs ih =>
    obtain ⟨⟨τ₁, h₁, hdrain₁⟩, hfail₁⟩ := chAccessReg_spec t clk h (hrs r (by simp)) rfl
    obtain ⟨hdrain, hfail⟩ := ih h₁ (fun r hr => hrs r (List.mem_cons_of_mem _ hr)) hst
    refine ⟨hdrain.after hdrain₁, fun hf => ?_⟩
    rcases hfail hf with hf | ⟨k, hk, hne, heq⟩
    · rcases hfail₁ hf with hf | ⟨hne, heq⟩
      · exact .inl hf
      · exact .inr ⟨r, by simp, hne, hdrain.quiet heq⟩
    · exact .inr ⟨k, by simp [hk], fun h' => hne (hdrain₁.quiet k h'), heq⟩

private theorem countP_lt {p q : ℕ → Bool} {l : List ℕ} {r : ℕ} (hr : r ∈ l) (hq : q r)
    (hp : ¬p r) (himp : ∀ k, p k → q k) : l.countP p < l.countP q := by
  obtain ⟨l₁, l₂, rfl⟩ := List.append_of_mem hr
  have h₁ := List.countP_mono_left (l := l₁) fun k _ => himp k
  have h₂ := List.countP_mono_left (l := l₂) fun k _ => himp k
  rw [List.countP_append, List.countP_append, List.countP_cons_of_pos hq, List.countP_cons_of_neg hp]
  omega

/-- Every round of the wait but the last finishes a transfer, so the wait ends. -/
private theorem chAccessLoop_spec {channel fuel : ℕ} (hc : channel < t.channelNb) (h : IoInv g s τ)
    (hfuel : (channelRegs g t channel).countP (fun r => s.regIoTime r ≠ -1) < fuel) :
    DrainsTo g s τ (chAccessLoop g t clk channel fuel s) := by
  induction fuel generalizing s τ with
  | zero => exact absurd hfuel (Nat.not_lt_zero _)
  | succ fuel ih =>
    obtain ⟨⟨τ₁, h₁, hdrain₁⟩, hfail⟩ := chAccess_foldl t clk (show IoInv g (Ret.success, s).2 τ from h)
      (fun r hr => channelRegs_lt t hc hr) rfl
    rw [chAccessLoop]
    split
    · rename_i s' hs'
      rw [ssdChAccess] at hs'
      rw [hs'] at h₁ hdrain₁
      exact ⟨τ₁, h₁, hdrain₁⟩
    · rename_i s' hs'
      rw [ssdChAccess] at hs'
      rw [hs'] at h₁ hdrain₁ hfail
      obtain ⟨r, hr, hne, heq⟩ := (hfail rfl).resolve_left Ret.noConfusion
      have hless := countP_lt (p := fun k => s'.regIoTime k ≠ -1) (q := fun k => s.regIoTime k ≠ -1)
        hr (by simpa using hne) (by simpa using heq) fun k hk => by
          simp only [ne_eq, decide_not, Bool.not_eq_eq_eq_not, Bool.not_true, decide_eq_false_iff_not]
            at hk ⊢
          exact fun h' => hk (hdrain₁.quiet k h')
      exact (ih h₁ (Nat.lt_of_lt_of_le hless (Nat.le_of_lt_succ hfuel))).after hdrain₁

theorem waitForChannel_spec {channel : ℕ} (hc : channel < t.channelNb) (h : IoInv g s τ) :
    DrainsTo g s τ (waitForChannel g t clk channel s) :=
  chAccessLoop_spec t clk hc h (Nat.lt_succ_of_le (List.countP_le_length))

end Io

end Vssim
