import Vssim.Io.Drain

/-!
# Page operations

Each page operation first vacates the register it uses and then records the operation there. A
host page is tied to the register and its start reported; any other operation leaves the
register vacant. So a host call begins the next page of the current request, and every
other call only ends pages.
-/

namespace Vssim

open Io

/-- A step that begins the next page of the current request, and may end pages. -/
structure Begins (s : Io) (τ : Tracker) (s' : Io) (τ' : Tracker) : Prop where
  count : τ'.count = τ.count
  size : τ'.size = τ.size
  begun : τ'.begun = Function.update τ.begun s.ioRequestSeqNb (τ.begun s.ioRequestSeqNb + 1)
  seqNb : s'.ioRequestSeqNb = s.ioRequestSeqNb

/-- The invariant holds again after a step that begins no page. -/
def KeepsTo (g : Geometry) (s : Io) (τ : Tracker) (s' : Io) : Prop :=
  ∃ τ', IoInv g s' τ' ∧ Keeps s τ s' τ'

/-- The invariant holds again after a step that begins a page. -/
def BeginsTo (g : Geometry) (s : Io) (τ : Tracker) (s' : Io) : Prop :=
  ∃ τ', IoInv g s' τ' ∧ Begins s τ s' τ'

section steps

variable {g : Geometry} {s s' s'' : Io} {τ τ' : Tracker}

private theorem DrainsTo.keepsTo (h : DrainsTo g s τ s') : KeepsTo g s τ s' := by
  obtain ⟨τ', hinv, hdrain⟩ := h
  exact ⟨τ', hinv, hdrain.toKeeps⟩

theorem KeepsTo.after (h' : KeepsTo g s' τ' s'') (h : Keeps s τ s' τ') : KeepsTo g s τ s'' := by
  obtain ⟨τ'', hinv, hkeep⟩ := h'
  exact ⟨τ'', hinv, h.trans hkeep⟩

private theorem BeginsTo.after (h' : BeginsTo g s' τ' s'') (h : Keeps s τ s' τ') :
    BeginsTo g s τ s'' := by
  obtain ⟨τ'', hinv, hbegin⟩ := h'
  refine ⟨τ'', hinv, hbegin.count.trans h.count, hbegin.size.trans h.size, ?_,
    hbegin.seqNb.trans h.seqNb⟩
  rw [hbegin.begun, h.begun, h.seqNb]

private theorem BeginsTo.drain (h : BeginsTo g s τ s')
    (h' : ∀ τ', IoInv g s' τ' → DrainsTo g s' τ' s'') : BeginsTo g s τ s'' := by
  obtain ⟨τ', hinv, hbegin⟩ := h
  obtain ⟨τ'', hinv', hdrain⟩ := h' τ' hinv
  exact ⟨τ'', hinv', hdrain.count.trans hbegin.count, hdrain.size.trans hbegin.size,
    hdrain.begun.trans hbegin.begun, hdrain.seqNb.trans hbegin.seqNb⟩

theorem IoInv.keepsTo (h : IoInv g s' τ) (hseq : s'.ioRequestSeqNb = s.ioRequestSeqNb) :
    KeepsTo g s τ s' := ⟨τ, h, rfl, rfl, rfl, hseq⟩

private theorem IoInv.beginsTo {hr : τ.begun s.ioRequestSeqNb < τ.size s.ioRequestSeqNb}
    (h : IoInv g s' (τ.begin s.ioRequestSeqNb hr)) (hseq : s'.ioRequestSeqNb = s.ioRequestSeqNb) :
    BeginsTo g s τ s' := ⟨_, h, rfl, rfl, rfl, hseq⟩

end steps

namespace Io

variable {g : Geometry} (t : IoConfig) (clk : Clock) {s : Io} {τ : Tracker} {reg : ℕ}

/-! ### Recording -/

private theorem ssdUpdateChAccessTime_nonneg {channel : ℕ} {currentTime : ℤ} {r : ℕ}
    (hr : 0 ≤ s.regIoTime r) :
    0 ≤ (ssdUpdateChAccessTime g t channel currentTime s).regIoTime r := by
  rw [ssdUpdateChAccessTime]
  dsimp only
  generalize s.regIoTime = time at hr
  induction channelRegs g t channel generalizing time with
  | nil => exact hr
  | cons k ks ih =>
    refine ih _ ?_
    dsimp only
    split
    · by_cases hk : r = k
      · subst hk
        rw [Function.update_self]
        omega
      · rwa [Function.update_of_ne hk]
    · exact hr

theorem le_ssdGetChAccessTimeForRead (s : Io) (reg channel : ℕ) :
    s.cellIoTime reg + t.cellReadDelay ≤ ssdGetChAccessTimeForRead g t channel reg s := by
  rw [ssdGetChAccessTimeForRead]
  generalize s.cellIoTime reg + t.cellReadDelay = x
  induction channelRegs g t channel generalizing x with
  | nil => exact le_rfl
  | cons k ks ih =>
    refine le_trans ?_ (ih _)
    dsimp only
    split <;> omega

/-- What the recording of a host page `p` changes, apart from the requests and the log. -/
structure Ties (reg : ℕ) (p : ℕ × ℕ) (s s' : Io) : Prop where
  access : s'.accessNb = Function.update s.accessNb reg (toI32 p.1, (p.2 : ℤ))
  command : s'.regIoCmd = s.regIoCmd
  regTime : s'.regIoTime = s.regIoTime
  cellTime : s'.cellIoTime = s.cellIoTime
  channelTime : s'.oldChannelTime = s.oldChannelTime
  seqNb : s'.ioRequestSeqNb = s.ioRequestSeqNb

private theorem recordHostPage_spec (reg : ℕ) (hbook : Booked s.requests s.log τ)
    (hr : τ.begun s.ioRequestSeqNb < τ.size s.ioRequestSeqNb) :
    ∃ s', recordHostPage t clk reg (τ.begun s.ioRequestSeqNb) s = s' ∧
      Ties reg (s.ioRequestSeqNb, τ.begun s.ioRequestSeqNb) s s' ∧
      Booked s'.requests s'.log (τ.begin s.ioRequestSeqNb hr) := by
  obtain ⟨requests, log, k, heq, hbook'⟩ := updateIoRequest_start t clk
    (s := tie reg (τ.begun s.ioRequestSeqNb) s) hbook hr s.oldChannelTime
  refine ⟨_, rfl, ?_⟩
  rw [recordHostPage]
  dsimp only
  rw [show (tie reg (τ.begun s.ioRequestSeqNb) s).ioRequestSeqNb = s.ioRequestSeqNb from rfl,
    show (tie reg (τ.begun s.ioRequestSeqNb) s).oldChannelTime = s.oldChannelTime from rfl, heq]
  exact ⟨⟨rfl, rfl, rfl, rfl, rfl, rfl⟩, hbook'⟩

private theorem Ties.holds {p : ℕ × ℕ} {s' : Io} (h : Ties reg p s s') : s'.Holds reg p := by
  rw [Holds, h.access, Function.update_self]

theorem stampWrite_nonneg {channel r : ℕ} (hchannel : 0 ≤ s.oldChannelTime)
    (hr : r ≠ reg → 0 ≤ s.regIoTime r) : 0 ≤ (stampWrite g t reg channel s).regIoTime r := by
  refine ssdUpdateChAccessTime_nonneg t ?_
  dsimp only
  by_cases hne : r = reg
  · rw [hne, Function.update_self]
    omega
  · rw [Function.update_of_ne hne]
    exact hr hne

/-- Recording a host write: the register and the cell get their time stamps. -/
private theorem record_write (h : IoInv g s τ) (hlt : reg < g.regNb) (hvac : s.Vacant reg)
    (hr : τ.begun s.ioRequestSeqNb < τ.size s.ioRequestSeqNb) {offset : ℤ}
    (hoffset : offset = τ.begun s.ioRequestSeqNb) (channel : ℕ) :
    BeginsTo g s τ
      (ssdCellRecord t clk reg .write (ssdRegRecord g t clk reg .write .write offset channel s)) := by
  subst hoffset
  obtain ⟨s₁, hs₁, hties, hbook⟩ := recordHostPage_spec t clk reg
    (s := stampWrite g t reg channel (setCommand reg .write .write s)) h.booked hr
  have htime : ∀ k, (k ≠ reg → 0 ≤ s.regIoTime k) → 0 ≤ s₁.regIoTime k := fun k hk => by
    rw [hties.regTime]
    exact stampWrite_nonneg t h.channelTime hk
  have heq : ssdRegRecord g t clk reg .write .write (τ.begun s.ioRequestSeqNb) channel s = s₁ := hs₁
  have helse : Elsewhere reg s (ssdCellRecord t clk reg .write s₁) := by
    refine ⟨fun k hk => ?_, fun k hk => ?_, fun k _ h0 => htime k fun _ => h0, fun k hk h0 => ?_,
      fun h0 => ?_⟩
    · exact (congrFun hties.access k).trans (Function.update_of_ne hk ..)
    · exact (congrFun hties.command k).trans (Function.update_of_ne hk ..)
    · rw [ssdCellRecord]
      exact update_nonneg hk (by rw [hties.cellTime]; exact h0)
    · exact hties.channelTime.symm ▸ h0
  rw [heq]
  refine (h.begin helse hlt hvac hr hbook hties.holds (.inr ⟨?_, ?_⟩)).beginsTo hties.seqNb
  · exact (congrFun hties.command reg).trans (Function.update_self ..)
  · have hown := htime reg fun hne => absurd rfl hne
    rw [ssdCellRecord]
    dsimp only
    rw [Function.update_self]
    omega

/-- Recording a host read, after its cell operation: the register gets its time stamp. -/
private theorem record_read (h : IoInv g s τ) (hlt : reg < g.regNb) (hvac : s.Vacant reg)
    (hr : τ.begun s.ioRequestSeqNb < τ.size s.ioRequestSeqNb) {offset : ℤ}
    (hoffset : offset = τ.begun s.ioRequestSeqNb) (hcell : 0 ≤ s.cellIoTime reg) (channel : ℕ) :
    BeginsTo g s τ (ssdRegRecord g t clk reg .read .read offset channel s) := by
  subst hoffset
  obtain ⟨s₁, hs₁, hties, hbook⟩ := recordHostPage_spec t clk reg
    (s := stampRead g t reg channel (setCommand reg .read .read s)) h.booked hr
  have helse : Elsewhere reg s s₁ := by
    refine ⟨fun k hk => ?_, fun k hk => ?_, fun k hk h0 => ?_, fun k hk h0 => ?_, fun h0 => ?_⟩
    · exact (congrFun hties.access k).trans (Function.update_of_ne hk ..)
    · exact (congrFun hties.command k).trans (Function.update_of_ne hk ..)
    · rw [hties.regTime]
      exact update_nonneg hk h0
    · rw [hties.cellTime]
      exact h0
    · exact hties.channelTime.symm ▸ h0
  have heq : ssdRegRecord g t clk reg .read .read (τ.begun s.ioRequestSeqNb) channel s = s₁ := hs₁
  rw [heq]
  refine (h.begin helse hlt hvac hr hbook hties.holds (.inl ⟨?_, ?_⟩)).beginsTo hties.seqNb
  · exact (congrFun hties.command reg).trans (Function.update_self ..)
  · have hle := le_ssdGetChAccessTimeForRead (g := g) t (setCommand reg .read .read s) reg channel
    have hcell' : 0 ≤ (setCommand reg .read .read s).cellIoTime reg := hcell
    rw [hties.regTime, stampRead]
    dsimp only
    rw [Function.update_self]
    omega

/-- Recording any other operation in a vacant register. -/
private theorem record_other (h : IoInv g s τ) (hvac : s.Vacant reg) (cmd type : IoType)
    (hcmd : cmd = .write ∧ isHostWrite type = false ∨ cmd = .read ∧ type ≠ .read ∨ cmd = .erase)
    (offset : ℤ) (channel : ℕ) :
    ∃ s', ssdRegRecord g t clk reg cmd type offset channel s = s' ∧ IoInv g s' τ ∧ s'.Vacant reg ∧
      s'.ioRequestSeqNb = s.ioRequestSeqNb := by
  have huntie : ∀ s : Io, (untie reg s).Vacant reg := fun s => by simp [untie, Vacant]
  have haccess : ∀ s₁ : Io, s₁.accessNb = s.accessNb → ∀ k ≠ reg,
      (untie reg s₁).accessNb k = s.accessNb k := fun s₁ hs₁ k hk => by
    rw [← hs₁]
    exact Function.update_of_ne hk ..
  rcases hcmd with ⟨rfl, htype⟩ | ⟨rfl, htype⟩ | rfl
  · have heq : ssdRegRecord g t clk reg .write type offset channel s =
        untie reg (stampWrite g t reg channel (setCommand reg .write type s)) := by
      simp only [ssdRegRecord, htype, Bool.false_eq_true, if_false]
    refine ⟨_, heq, h.keep ⟨haccess _ rfl, fun k hk => Function.update_of_ne hk ..,
      fun k _ h0 => stampWrite_nonneg t h.channelTime fun _ => h0, fun _ _ => id, id⟩ h.booked
      (.inr ⟨hvac, huntie _⟩) (fun hv => absurd (huntie _) hv) ?_, huntie _, rfl⟩
    exact .inr (.inr (.inl (Function.update_self ..)))
  · have heq : ssdRegRecord g t clk reg .read type offset channel s =
        untie reg (stampRead g t reg channel (setCommand reg .read type s)) := by
      simp only [ssdRegRecord, htype, if_false]
    refine ⟨_, heq, h.keep ⟨haccess _ rfl, fun k hk => Function.update_of_ne hk ..,
      fun k hk => update_nonneg hk, fun _ _ => id, id⟩ h.booked
      (.inr ⟨hvac, huntie _⟩) (fun hv => absurd (huntie _) hv) ?_, huntie _, rfl⟩
    exact .inr (.inl (Function.update_self ..))
  · refine ⟨_, rfl, h.keep ⟨haccess _ rfl, fun k hk => Function.update_of_ne hk ..,
      fun _ _ => id, fun _ _ => id, id⟩ h.booked
      (.inr ⟨hvac, huntie _⟩) (fun hv => absurd (huntie _) hv) ?_, huntie _, rfl⟩
    exact .inr (.inr (.inr (Function.update_self ..)))

/-- Recording a cell operation in a vacant register. -/
private theorem cellRecord_spec (h : IoInv g s τ) (hvac : s.Vacant reg) (cmd : IoType) :
    ∃ s', ssdCellRecord t clk reg cmd s = s' ∧ IoInv g s' τ ∧ s'.Vacant reg ∧
      s'.ioRequestSeqNb = s.ioRequestSeqNb ∧ (cmd = .read → 0 ≤ s'.cellIoTime reg) := by
  have hstamp : ∀ (x : ℤ) (k : ℕ),
      IoInv g { s with cellIoTime := Function.update s.cellIoTime reg x, tick := k } τ := fun x k =>
    h.keep ⟨fun _ _ => rfl, fun _ _ => rfl, fun _ _ => id, fun _ hk => update_nonneg hk, id⟩ h.booked
      (.inl (rfl : s.accessNb reg = _)) (fun hv => absurd hvac hv) (h.command reg)
  refine ⟨_, rfl, ?_⟩
  cases cmd
  case write => exact ⟨hstamp _ s.tick, hvac, rfl, IoType.noConfusion⟩
  case read =>
    refine ⟨hstamp _ s.tick, hvac, rfl, fun _ => ?_⟩
    have := h.channelTime
    rw [ssdCellRecord]
    dsimp only
    rw [Function.update_self]
    omega
  case erase => exact ⟨hstamp _ (s.tick + 1), hvac, rfl, IoType.noConfusion⟩
  all_goals exact ⟨h, hvac, rfl, IoType.noConfusion⟩

/-! ### The operations -/

private theorem finishLastPage_spec (h : IoInv g s τ) (hlt : reg < g.regNb) (offset ioPageNb : ℤ) :
    DrainsTo g s τ (finishLastPage t clk reg offset ioPageNb s) := by
  rw [finishLastPage]
  split
  · exact (ssdRegAccess_spec t clk h hlt).1
  · exact (Alike.refl s).drainsTo h

/-- The access of an operation to its register, and before it the switch to its channel. -/
private theorem enter_spec (h : IoInv g s τ) {flashNb : ℕ} (hf : flashNb < g.flashNb)
    (blockNb : ℕ) : ∃ st, access g t clk flashNb (regOf g flashNb blockNb)
        (ssdChEnable t clk (flashNb % t.channelNb) s) = st ∧
      DrainsTo g s τ st.2 ∧ st.2.Vacant (regOf g flashNb blockNb) := by
  obtain ⟨τ₁, h₁, hdrain₁⟩ := (ssdChEnable_alike t clk (flashNb % t.channelNb)).drainsTo h
  obtain ⟨hdrain₂, hvac⟩ := access_spec t clk h₁ hf blockNb
  exact ⟨_, rfl, hdrain₂.after hdrain₁, hvac⟩

/-- The recording of a host write begins a page. -/
private theorem recordWrite_host (h : IoInv g s τ) (hlt : reg < g.regNb) (hvac : s.Vacant reg)
    (hr : τ.begun s.ioRequestSeqNb < τ.size s.ioRequestSeqNb) {offset : ℤ}
    (hoffset : offset = τ.begun s.ioRequestSeqNb) (channel : ℕ) (ioPageNb : ℤ) (ret : Bool) :
    BeginsTo g s τ (recordWrite g t clk reg channel offset .write ioPageNb ret s) := by
  subst hoffset
  obtain ⟨τ₁, h₁, hdrain⟩ := (ssdChRecord_alike t clk channel .write
    (τ.begun s.ioRequestSeqNb) ret).drainsTo h
  have hbegin := record_write t clk h₁ hlt (hdrain.vacant reg hvac)
    (by rw [hdrain.seqNb, hdrain.begun, hdrain.size]; exact hr)
    (by rw [hdrain.seqNb, hdrain.begun]) channel
  exact (hbegin.after hdrain.toKeeps).drain fun τ' h' => finishLastPage_spec t clk h' hlt ..

/-- The recording of any other write begins none. -/
private theorem recordWrite_other (h : IoInv g s τ) (hlt : reg < g.regNb) (hvac : s.Vacant reg)
    (offset : ℤ)
    (channel : ℕ) {type : IoType} (htype : isHostWrite type = false) (ioPageNb : ℤ) (ret : Bool) :
    KeepsTo g s τ (recordWrite g t clk reg channel offset type ioPageNb ret s) := by
  obtain ⟨τ₁, h₁, hdrain⟩ := (ssdChRecord_alike t clk channel .write offset ret).drainsTo h
  obtain ⟨s₂, hs₂, h₂, hvac₂, hseq₂⟩ := record_other t clk h₁ (hdrain.vacant reg hvac)
    .write type (.inl ⟨rfl, htype⟩) offset channel
  obtain ⟨s₃, hs₃, h₃, -, hseq₃, -⟩ := cellRecord_spec t clk h₂ hvac₂ .write
  rw [recordWrite, hs₂, hs₃]
  exact ((finishLastPage_spec t clk h₃ hlt offset ioPageNb).keepsTo.after
    ⟨rfl, rfl, rfl, hseq₃.trans hseq₂⟩).after hdrain.toKeeps

section host

variable (h : IoInv g s τ) {flashNb : ℕ} (hf : flashNb < g.flashNb) (blockNb : ℕ)
  (hr : τ.begun s.ioRequestSeqNb < τ.size s.ioRequestSeqNb) (ioPageNb : ℤ)

include h hf hr

theorem ssdPageWrite_host :
    BeginsTo g s τ (ssdPageWrite g t clk flashNb blockNb (τ.begun s.ioRequestSeqNb) .write ioPageNb
      s) := by
  have hchannel := Nat.mod_lt flashNb t.channelNb_pos
  obtain ⟨st, hst, ⟨τ₁, h₁, hdrain₁⟩, hvac₁⟩ := enter_spec t clk h hf blockNb
  obtain ⟨τ₂, h₂, hdrain₂⟩ := waitForChannel_spec t clk hchannel h₁
  have hdrain := hdrain₁.trans hdrain₂
  simp only [ssdPageWrite, hst]
  exact (recordWrite_host t clk h₂ (regOf_lt hf blockNb) (hdrain₂.vacant _ hvac₁)
    (by rw [hdrain.seqNb, hdrain.begun, hdrain.size]; exact hr)
    (by rw [hdrain.seqNb, hdrain.begun]) _ _ _).after hdrain.toKeeps

theorem ssdPageRead_host :
    BeginsTo g s τ (ssdPageRead g t clk flashNb blockNb (τ.begun s.ioRequestSeqNb) .read ioPageNb
      s) := by
  have hlt := regOf_lt hf blockNb
  obtain ⟨st, hst, ⟨τ₁, h₁, hdrain₁⟩, hvac₁⟩ := enter_spec t clk h hf blockNb
  obtain ⟨τ₂, h₂, hdrain₂⟩ := (ssdChRecord_alike t clk (flashNb % t.channelNb) .read
    (τ.begun s.ioRequestSeqNb) st.1).drainsTo h₁
  obtain ⟨s₃, hs₃, h₃, hvac₃, hseq₃, hcell⟩ :=
    cellRecord_spec t clk h₂ (hdrain₂.vacant _ hvac₁) .read
  have hdrain := hdrain₁.trans hdrain₂
  have hkeeps : Keeps s τ s₃ τ₂ := hdrain.toKeeps.trans ⟨rfl, rfl, rfl, hseq₃⟩
  simp only [ssdPageRead, hst, hs₃]
  exact ((record_read t clk h₃ hlt hvac₃
    (by rw [hkeeps.seqNb, hkeeps.begun, hkeeps.size]; exact hr)
    (by rw [hkeeps.seqNb, hkeeps.begun]) (hcell rfl) _).after hkeeps).drain
    fun τ' h' => finishLastPage_spec t clk h' hlt ..

/-- The write half of a partial write begins a page; the read half, which it finishes at once,
begins none, as its type is that of a write. -/
theorem ssdPagePartialWrite_host {oldFlashNb : ℕ} (hold : oldFlashNb < g.flashNb)
    (oldBlockNb : ℕ) :
    BeginsTo g s τ (ssdPagePartialWrite g t clk oldFlashNb oldBlockNb flashNb blockNb
      (τ.begun s.ioRequestSeqNb) .write ioPageNb s) := by
  have hchannel := Nat.mod_lt oldFlashNb t.channelNb_pos
  have hlt := regOf_lt hold oldBlockNb
  obtain ⟨st, hst, ⟨τ₁, h₁, hdrain₁⟩, hvac₁⟩ := enter_spec t clk h hold oldBlockNb
  obtain ⟨τ₂, h₂, hdrain₂⟩ := waitForChannel_spec t clk hchannel h₁
  obtain ⟨τ₃, h₃, hdrain₃⟩ := (ssdChRecord_alike t clk (oldFlashNb % t.channelNb) .read
    (τ.begun s.ioRequestSeqNb) st.1).drainsTo h₂
  obtain ⟨s₄, hs₄, h₄, hvac₄, hseq₄⟩ := record_other t clk h₃
    (hdrain₃.vacant _ (hdrain₂.vacant _ hvac₁)) .read .write (.inr (.inl ⟨rfl, by decide⟩))
    (τ.begun s.ioRequestSeqNb) (oldFlashNb % t.channelNb)
  obtain ⟨s₅, hs₅, h₅, -, hseq₅, -⟩ := cellRecord_spec t clk h₄ hvac₄ .read
  obtain ⟨⟨τ₆, h₆, hdrain₆⟩, -⟩ := ssdRegAccess_spec t clk h₅ hlt
  obtain ⟨st', hst', ⟨τ₇, h₇, hdrain₇⟩, hvac₇⟩ := enter_spec t clk h₆ hf blockNb
  have hkeeps : Keeps s τ st'.2 τ₇ := ((hdrain₁.trans (hdrain₂.trans hdrain₃)).toKeeps.trans
    ⟨rfl, rfl, rfl, hseq₅.trans hseq₄⟩).trans (hdrain₆.trans hdrain₇).toKeeps
  simp only [ssdPagePartialWrite, hst, hs₄, hs₅, ssdRemainIoDelay, hst']
  exact (recordWrite_host t clk h₇ (regOf_lt hf blockNb) hvac₇
    (by rw [hkeeps.seqNb, hkeeps.begun, hkeeps.size]; exact hr)
    (by rw [hkeeps.seqNb, hkeeps.begun]) _ _ _).after hkeeps

end host

section other

variable (h : IoInv g s τ) {flashNb : ℕ} (hf : flashNb < g.flashNb) (blockNb : ℕ)
  (offset ioPageNb : ℤ)

include h hf

theorem ssdPageWrite_gc :
    KeepsTo g s τ (ssdPageWrite g t clk flashNb blockNb offset .gcWrite ioPageNb s) := by
  have hchannel := Nat.mod_lt flashNb t.channelNb_pos
  obtain ⟨st, hst, ⟨τ₁, h₁, hdrain₁⟩, hvac₁⟩ := enter_spec t clk h hf blockNb
  obtain ⟨τ₂, h₂, hdrain₂⟩ := waitForChannel_spec t clk hchannel h₁
  simp only [ssdPageWrite, hst]
  exact (recordWrite_other t clk h₂ (regOf_lt hf blockNb) (hdrain₂.vacant _ hvac₁) offset _ rfl
    ioPageNb _).after (hdrain₁.trans hdrain₂).toKeeps

theorem ssdPageRead_gc :
    KeepsTo g s τ (ssdPageRead g t clk flashNb blockNb offset .gcRead ioPageNb s) := by
  have hlt := regOf_lt hf blockNb
  obtain ⟨st, hst, ⟨τ₁, h₁, hdrain₁⟩, hvac₁⟩ := enter_spec t clk h hf blockNb
  obtain ⟨τ₂, h₂, hdrain₂⟩ := (ssdChRecord_alike t clk (flashNb % t.channelNb) .read offset
    st.1).drainsTo h₁
  obtain ⟨s₃, hs₃, h₃, hvac₃, hseq₃, -⟩ := cellRecord_spec t clk h₂ (hdrain₂.vacant _ hvac₁) .read
  obtain ⟨s₄, hs₄, h₄, -, hseq₄⟩ := record_other t clk h₃ hvac₃ .read .gcRead
    (.inr (.inl ⟨rfl, by decide⟩)) offset (flashNb % t.channelNb)
  simp only [ssdPageRead, hst, hs₃, hs₄]
  exact ((finishLastPage_spec t clk h₄ hlt offset ioPageNb).keepsTo.after
    ⟨rfl, rfl, rfl, hseq₄.trans hseq₃⟩).after (hdrain₁.trans hdrain₂).toKeeps

theorem ssdBlockErase_spec : KeepsTo g s τ (ssdBlockErase g t clk flashNb blockNb s) := by
  obtain ⟨⟨τ₁, h₁, hdrain₁⟩, hvac₁⟩ := access_spec t clk h hf blockNb
  obtain ⟨s₂, hs₂, h₂, hvac₂, hseq₂⟩ := record_other t clk h₁ hvac₁ .erase .erase (.inr (.inr rfl))
    (-1) (flashNb % t.channelNb)
  obtain ⟨s₃, hs₃, h₃, -, hseq₃, -⟩ := cellRecord_spec t clk h₂ hvac₂ .erase
  simp only [ssdBlockErase, hs₂, hs₃]
  exact (h₃.keepsTo (hseq₃.trans hseq₂)).after hdrain₁.toKeeps

end other

end Io

end Vssim
