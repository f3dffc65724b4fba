import Vssim.Io.Corrections

/-!
# The two builds over whole runs

The build for QEMU and the one for benchmarks make the same calls. As long as no call makes a
correction their I/O managers are in the same state, call after call (`run_matches`).

`SSD_PAGE_WRITE` and `SSD_PAGE_PARTIAL_WRITE` repeat `SSD_CH_ACCESS` until it finds no transfer that
is due. A correction moves time stamps back, so in the build for QEMU a transfer that has been made
may become due again. It uses up lost time, though, of which there is no more until the call
returns: the loop ends, in every run and however much time is lost (`run_not_hung`).
-/

namespace Vssim

/-! ### Errors of the request list -/

namespace RequestList

variable {l : RequestList} {e : IoError}

private theorem push_error {r : IoRequest} (h : l.push r = .error e) : e ≠ .chAccessHang := by
  unfold push at h
  dsimp only at h
  split at h
  · cases h
  split at h
  · cases h
    decide
  · cases h

private theorem lookupLoop_error {heap : LinkedHeap.Heap (LinkedHeap.SNode IoRequest)}
    {requestNb n p : ℕ} (h : lookupLoop heap requestNb n p = .error e) : e ≠ .chAccessHang := by
  induction n generalizing p with
  | zero => cases h
  | succ n ih =>
    rw [lookupLoop] at h
    split at h
    · cases h
      decide
    split at h
    · cases h
    split at h
    · cases h
    · exact ih h

private theorem lookup_error {requestNb : ℤ} (h : l.lookup requestNb = .error e) :
    e ≠ .chAccessHang := by
  rw [lookup] at h
  split at h
  · cases h
    decide
  · exact lookupLoop_error h

private theorem unlinkLoop_error {heap : LinkedHeap.Heap (LinkedHeap.SNode IoRequest)}
    {last : Option ℕ} {p n : ℕ} {prev : Option ℕ} (h : unlinkLoop heap last p n prev = .error e) :
    e ≠ .chAccessHang := by
  induction n generalizing prev with
  | zero =>
    cases h
    decide
  | succ n ih =>
    cases prev with
    | none =>
      cases h
      decide
    | some a =>
      rw [unlinkLoop] at h
      split at h
      · cases h
        decide
      split at h
      · cases h
      split at h
      · split at h
        · cases h
          decide
        · cases h
      · exact ih h

private theorem freeIoRequest_error {p : ℕ} (h : l.freeIoRequest p = .error e) :
    e ≠ .chAccessHang := by
  rw [freeIoRequest] at h
  split at h
  · cases h
  split at h
  · split at h
    · cases h
      decide
    · cases h
  · cases hloop : unlinkLoop l.heap l.root.tail p (l.root.count - 1) l.root.head with
    | error e' =>
      rw [hloop] at h
      cases h
      exact unlinkLoop_error hloop
    | ok x =>
      rw [hloop] at h
      cases h

end RequestList

/-! ### The log -/

namespace Io

variable {g : Geometry} {t : IoConfig} {clk : Clock} {s : Io}

/-- A wait for a channel has not ended. -/
def Hung (s : Io) : Prop := .error .chAccessHang ∈ s.log

private theorem Hung.of_note {es : List IoEvent} (hes : .error .chAccessHang ∉ es)
    (h : (s.note es).Hung) : s.Hung :=
  (List.mem_append.mp h).resolve_right hes

private theorem Hung.of_tick {k : ℕ} (h : { s with tick := k }.Hung) : s.Hung := h

private theorem Hung.of_log {s' : Io} (h : s'.Hung) (hlog : s'.log = s.log) : s.Hung := by
  rwa [Hung, hlog] at h

private theorem Hung.of_complete {p : ℕ} {r : IoRequest} (h : (s.complete t p r).Hung) :
    s.Hung := by
  unfold complete at h
  dsimp only at h
  split at h
  · rename_i e herror
    have hne := RequestList.freeIoRequest_error herror
    exact .of_note (by simp) (Hung.of_note (by simpa using hne.symm) h)
  · exact .of_note (s := s) (by simp) (Hung.of_note (by simp) h)

private theorem Hung.of_updateIoRequest {requestNb offset time : ℤ} {type : UpdateType}
    (h : (updateIoRequest t clk requestNb offset time type s).2.Hung) : s.Hung := by
  unfold updateIoRequest at h
  dsimp only [getUsec] at h
  split at h
  · exact h
  split at h
  · rename_i e herror
    have hne := RequestList.lookup_error herror
    exact .of_note (s := s) (by simpa using hne.symm) h
  · exact .of_note (s := s) (by simp) h
  split at h
  · exact .of_note (s := s) (by simp) h
  split at h
  · have hupdated := Hung.of_note (by simp) (Hung.of_complete (Hung.of_tick h))
    exact hupdated
  · have hupdated := Hung.of_note (by simp) (Hung.of_tick h)
    exact hupdated

private theorem Hung.of_allocIoRequest {sectorNb : ℤ} {length : ℕ} {ioType : IoType}
    (h : (allocIoRequest g clk sectorNb length ioType s).Hung) : s.Hung := by
  unfold allocIoRequest at h
  dsimp only [getUsec] at h
  split at h
  · rename_i e herror
    have hne := RequestList.push_error herror
    exact .of_note (s := s) (by simpa using hne.symm) h
  · exact h

private theorem Hung.of_ssdUpdateIoRequest {reg : ℕ} (h : (ssdUpdateIoRequest t clk reg s).Hung) :
    s.Hung :=
  Hung.of_updateIoRequest (s := { s with tick := s.tick + 1 }) h

private theorem Hung.of_ssdBlockEraseDelay {reg : ℕ} (h : (ssdBlockEraseDelay t clk reg s).2.Hung) :
    s.Hung := by
  unfold ssdBlockEraseDelay at h
  split at h
  · exact h
  · exact .of_note (s := s) (by simp) h

/-! ### Recording operations -/

private theorem Hung.of_ssdChRecord {channel : ℕ} {cmd : IoType} {offset : ℤ} {ret : Bool}
    (h : (ssdChRecord t clk channel cmd offset ret s).Hung) : s.Hung := by
  unfold ssdChRecord at h
  dsimp only at h
  split at h
  · exact h
  split at h <;> exact h

/-- The time that an update took is stored and added to the overhead of the register. -/
private theorem Hung.of_overhead {reg : ℕ} {time : ℤ}
    (h : (ssdUpdateIoOverhead reg time { s with ioUpdateOverhead := time }).Hung) : s.Hung :=
  h.of_log rfl

private theorem Hung.of_tie {reg : ℕ} {offset : ℤ} (h : (tie reg offset s).Hung) :
    s.Hung := h.of_log rfl

private theorem Hung.of_recordHostPage {reg : ℕ} {offset : ℤ}
    (h : (recordHostPage t clk reg offset s).Hung) : s.Hung := by
  unfold recordHostPage at h
  exact h.of_overhead.of_updateIoRequest.of_tie

private theorem Hung.of_stampWrite {reg channel : ℕ} (h : (stampWrite g t reg channel s).Hung) :
    s.Hung :=
  h.of_log rfl

private theorem Hung.of_stampRead {reg channel : ℕ} (h : (stampRead g t reg channel s).Hung) :
    s.Hung :=
  h.of_log rfl

private theorem Hung.of_setCommand {reg : ℕ} {cmd type : IoType}
    (h : (setCommand reg cmd type s).Hung) : s.Hung :=
  h.of_log rfl

private theorem Hung.of_untie {reg : ℕ} (h : (untie reg s).Hung) : s.Hung := h.of_log rfl

private theorem Hung.of_ssdRegRecord {reg channel : ℕ} {cmd type : IoType} {offset : ℤ}
    (h : (ssdRegRecord g t clk reg cmd type offset channel s).Hung) : s.Hung := by
  unfold ssdRegRecord at h
  dsimp only at h
  split at h
  · split at h
    · exact h.of_recordHostPage.of_stampWrite.of_setCommand
    · exact h.of_untie.of_stampWrite.of_setCommand
  · split at h
    · exact h.of_recordHostPage.of_stampRead.of_setCommand
    · exact h.of_untie.of_stampRead.of_setCommand
  · exact h.of_untie.of_setCommand
  · exact h.of_setCommand

private theorem Hung.of_ssdCellRecord {reg : ℕ} {cmd : IoType}
    (h : (ssdCellRecord t clk reg cmd s).Hung) : s.Hung := by
  unfold ssdCellRecord at h
  split at h <;> exact h

variable (g t clk) in
/-- The state after calls, in the build for benchmarks. -/
def runCalls (calls : List Call) (s : Io) : Io := calls.foldl (fun s c => call g t clk c s) s

end Io

namespace QemuIo

open Io

variable (g : Geometry) (t : IoConfig) (clk : Clock) {q q' q'' : QemuIo}

/-! ### Steps that end -/

/-- A step in which every wait ends, and which loses no time. -/
structure Ends (q q' : QemuIo) : Prop where
  nonneg : 0 ≤ q.qemuOverhead → 0 ≤ q'.qemuOverhead
  le : 0 ≤ q.qemuOverhead → q'.qemuOverhead ≤ q.qemuOverhead
  hung : 0 ≤ q.qemuOverhead → q'.io.Hung → q.io.Hung

namespace Ends

/-- A step that has nothing to do with the overhead. -/
private theorem of_io (hoverhead : q'.qemuOverhead = q.qemuOverhead)
    (hung : q'.io.Hung → q.io.Hung) : Ends q q' :=
  ⟨fun hnonneg => hoverhead ▸ hnonneg, fun _ => hoverhead.le, fun _ => hung⟩

private theorem of_nonneg (h : 0 ≤ q.qemuOverhead → Ends q q') : Ends q q' :=
  ⟨fun hq => (h hq).nonneg hq, fun hq => (h hq).le hq, fun hq => (h hq).hung hq⟩

private theorem refl (q : QemuIo) : Ends q q := of_io rfl id

private theorem trans (h : Ends q q') (h' : Ends q' q'') : Ends q q'' where
  nonneg hq := h'.nonneg (h.nonneg hq)
  le hq := (h'.le (h.nonneg hq)).trans (h.le hq)
  hung hq hung := h.hung hq (h'.hung (h.nonneg hq) hung)

/-- What follows a step changes only the state of the I/O manager. -/
private theorem andThen (h : Ends q q') (hoverhead : q''.qemuOverhead = q'.qemuOverhead)
    (hung : q''.io.Hung → q'.io.Hung) : Ends q q'' :=
  h.trans (of_io hoverhead hung)

end Ends

private theorem correct_ends (start timeStamp overhead delay : ℤ) (q : QemuIo) :
    Ends q (correct g start timeStamp overhead delay q) where
  nonneg hq := (correct_progress g hq start timeStamp overhead delay).1
  le hq := (correct_progress g hq start timeStamp overhead delay).2.1
  hung _ hung := by
    unfold correct at hung
    dsimp only at hung
    split at hung
    · unfold ssdUpdateQemuOverhead at hung
      split at hung <;> exact hung
    · exact hung

/-- A reading of the clock. -/
private theorem tick_ends (q : QemuIo) :
    Ends q { q with io := { q.io with tick := q.io.tick + 1 } } :=
  .of_io rfl id

private theorem spendSwitch_ends (switchDelay : ℤ) (q : QemuIo) :
    Ends q (spendSwitch g clk switchDelay q) :=
  ((tick_ends q).trans (correct_ends g (clk.read q.io.tick) q.io.oldChannelTime 0 switchDelay
    _)).andThen rfl id

private theorem ssdChEnable_ends (channel : ℕ) (q : QemuIo) :
    Ends q (ssdChEnable g t clk channel q) := by
  rw [ssdChEnable]
  split
  · exact .refl q
  split
  · rw [ssdChSwitchDelay]
    split
    · exact spendSwitch_ends g clk _ q
    · exact spendSwitch_ends g clk _ q
    · exact .refl q
  · exact .refl q

private theorem charge_ends (reg : ℕ) (stamp : Io → ℤ) (overhead delay : ℤ) (type : PerfType)
    (q : QemuIo) : Ends q (charge g clk reg stamp overhead delay type q).2 :=
  ((tick_ends q).trans (correct_ends g (clk.read q.io.tick) (stamp q.io) overhead delay
    _)).andThen rfl fun hung => Hung.of_note (by simp) hung

private theorem ssdRegWriteDelay_ends (reg : ℕ) (q : QemuIo) :
    Ends q (ssdRegWriteDelay g t clk reg q).2 := by
  rw [ssdRegWriteDelay]
  split
  · exact .refl q
  · exact (charge_ends g clk reg (fun s => s.regIoTime reg) 0 t.regWriteDelay .chOp q).andThen
      rfl id

private theorem ssdRegReadDelay_ends (reg : ℕ) (q : QemuIo) :
    Ends q (ssdRegReadDelay g t clk reg q).2 := by
  rw [ssdRegReadDelay]
  split
  · exact .refl q
  · exact (charge_ends g clk reg (fun s => s.regIoTime reg) 0 t.regReadDelay .chOp q).andThen
      rfl Hung.of_ssdUpdateIoRequest

private theorem ssdCellWriteDelay_ends (reg : ℕ) (q : QemuIo) :
    Ends q (ssdCellWriteDelay g t clk reg q).2 := by
  rw [ssdCellWriteDelay]
  split
  · exact .refl q
  · have hcharge := charge_ends g clk reg (fun s => s.cellIoTime reg) (q.io.ioOverhead reg)
      t.cellProgramDelay .regOp q
    generalize charge g clk reg (fun s => s.cellIoTime reg) (q.io.ioOverhead reg)
      t.cellProgramDelay .regOp q = st at hcharge
    exact hcharge.andThen rfl fun hung => Hung.of_ssdUpdateIoRequest (s := { st.2.io with
      initDiffReg := if st.1.waited then st.1.diff else st.2.io.initDiffReg }) hung

private theorem ssdCellReadDelay_ends (reg : ℕ) (q : QemuIo) :
    Ends q (ssdCellReadDelay g t clk reg q).2 := by
  rw [ssdCellReadDelay]
  split
  · exact .refl q
  · exact (charge_ends g clk reg (fun s => s.cellIoTime reg) (q.io.ioOverhead reg)
      t.cellReadDelay .regOp q).andThen rfl id

private theorem ssdBlockEraseDelay_ends (reg : ℕ) (q : QemuIo) :
    Ends q (ssdBlockEraseDelay t clk reg q).2 := by
  rw [ssdBlockEraseDelay]
  split
  · exact .refl q
  · exact .of_io rfl Hung.of_ssdBlockEraseDelay

private theorem ssdRegAccess_ends (reg : ℕ) (q : QemuIo) :
    Ends q (ssdRegAccess g t clk reg q).2 := by
  rw [ssdRegAccess]
  split
  · exact .refl q
  · exact (ssdCellReadDelay_ends g t clk reg q).trans (ssdRegReadDelay_ends g t clk reg _)
  · exact (ssdRegWriteDelay_ends g t clk reg q).trans (ssdCellWriteDelay_ends g t clk reg _)
  · exact ssdBlockEraseDelay_ends t clk reg q
  · exact .of_io rfl (Hung.of_note (by simp))

private theorem flashAccessLoop_ends (reg : ℕ) (rs : List ℕ) (ret : Bool) (q : QemuIo) :
    Ends q (flashAccessLoop g t clk reg rs (ret, q)).2 := by
  induction rs generalizing ret q with
  | nil => exact .refl q
  | cons r rs ih =>
    rw [flashAccessLoop]
    split
    · exact ih ret q
    · exact (ssdRegAccess_ends g t clk r q).trans (ih _ _)

private theorem access_ends (flashNb reg : ℕ) (q : QemuIo) :
    Ends q (access g t clk flashNb reg q).2 := by
  rw [access]
  split
  · exact ssdRegAccess_ends g t clk reg q
  · exact flashAccessLoop_ends g t clk reg _ false q

/-! ### The wait for a channel -/

private theorem chAccessReg_ends (r : ℕ) (st : Ret × QemuIo) :
    Ends st.2 (chAccessReg g t clk r st).2 := by
  refine (tick_ends st.2).trans ?_
  unfold chAccessReg
  dsimp only [getUsec]
  split
  · split
    · exact (ssdCellReadDelay_ends g t clk r _).trans (ssdRegReadDelay_ends g t clk r _)
    · exact ssdRegWriteDelay_ends g t clk r _
    · exact .refl _
  · exact .refl _

private theorem ssdChAccess_ends (channel : ℕ) (q : QemuIo) :
    Ends q (ssdChAccess g t clk channel q).2 := by
  have hscan : ∀ (rs : List ℕ) (st : Ret × QemuIo),
      Ends st.2 (rs.foldl (fun st r => chAccessReg g t clk r st) st).2 := by
    intro rs
    induction rs with
    | nil => exact fun st => .refl st.2
    | cons r rs ih => exact fun st => (chAccessReg_ends g t clk r st).trans (ih _)
  exact hscan (channelRegs g t channel) (.success, q)

/-- The loop, with more rounds than can fail. -/
private theorem chAccessLoop_not_hung (channel : ℕ) {fuel : ℕ} (hnonneg : 0 ≤ q.qemuOverhead)
    (hfuel : remaining g t channel q < fuel) : Ends q (chAccessLoop g t clk channel fuel q) := by
  induction fuel generalizing q with
  | zero => exact absurd hfuel (Nat.not_lt_zero _)
  | succ fuel ih =>
    have hround := ssdChAccess_ends g t clk channel q
    -- a round that fails leaves less to be used up than there was
    have hless := ssdChAccess_progress g t clk channel hnonneg
    rw [chAccessLoop]
    split
    · rename_i heq
      rwa [heq] at hround
    · rename_i heq
      rw [heq] at hround hless
      obtain ⟨hnonneg₁, hlt⟩ := hless rfl
      exact hround.trans (ih hnonneg₁ (hlt.trans_le (Nat.le_of_lt_succ hfuel)))

private theorem remaining_lt (channel : ℕ) (q : QemuIo) : remaining g t channel q <
    ((channelRegs g t channel).length + 1) * (q.qemuOverhead.toNat + 1) := by
  have hpending := pendingTransfers_le g t channel q.io
  rw [remaining, Nat.mul_succ]
  omega

private theorem waitForChannel_not_hung (channel : ℕ) (q : QemuIo) :
    Ends q (waitForChannel g t clk channel q) :=
  .of_nonneg fun hnonneg =>
    chAccessLoop_not_hung g t clk channel hnonneg (remaining_lt g t channel q)

/-! ### Calls -/

private theorem finishLastPage_ends (reg : ℕ) (offset ioPageNb : ℤ) (q : QemuIo) :
    Ends q (finishLastPage g t clk reg offset ioPageNb q) := by
  rw [finishLastPage]
  split
  · exact ssdRegAccess_ends g t clk reg q
  · exact .refl q

private theorem postWrite_ends (reg channel : ℕ) (offset : ℤ) (type : IoType) (ret : Bool)
    (q : QemuIo) : Ends q (postWrite g t clk reg channel offset type ret q) :=
  .of_io rfl fun hung => hung.of_ssdCellRecord.of_ssdRegRecord.of_ssdChRecord

private theorem postPartialRead_ends (reg channel : ℕ) (offset : ℤ) (type : IoType) (ret : Bool)
    (q : QemuIo) : Ends q (postPartialRead g t clk reg channel offset type ret q) :=
  .of_io rfl fun hung => hung.of_ssdCellRecord.of_ssdRegRecord.of_ssdChRecord

private theorem postRead_ends (reg channel : ℕ) (offset : ℤ) (type : IoType) (ret : Bool)
    (q : QemuIo) : Ends q (postRead g t clk reg channel offset type ret q) :=
  .of_io rfl fun hung => hung.of_ssdRegRecord.of_ssdCellRecord.of_ssdChRecord

private theorem postErase_ends (reg channel : ℕ) (q : QemuIo) :
    Ends q (postErase g t clk reg channel q) :=
  .of_io rfl fun hung => hung.of_ssdCellRecord.of_ssdRegRecord

/-- The switch to the channel of an operation, and the access to its register. -/
private theorem reachChannel_ends (flashNb reg channel : ℕ) (q : QemuIo) :
    Ends q (access g t clk flashNb reg (ssdChEnable g t clk channel q)).2 :=
  (ssdChEnable_ends g t clk channel q).trans (access_ends g t clk flashNb reg _)

/-- The end of a write. -/
private theorem recordWrite_ends (reg channel : ℕ) (offset : ℤ) (type : IoType) (ioPageNb : ℤ)
    (ret : Bool) (q : QemuIo) : Ends q (finishLastPage g t clk reg offset ioPageNb
      (postWrite g t clk reg channel offset type ret q)) :=
  (postWrite_ends g t clk reg channel offset type ret q).trans
    (finishLastPage_ends g t clk reg offset ioPageNb _)

private theorem ssdPageWrite_ends (flashNb blockNb : ℕ) (offset : ℤ) (type : IoType) (ioPageNb : ℤ)
    (q : QemuIo) : Ends q (ssdPageWrite g t clk flashNb blockNb offset type ioPageNb q) := by
  refine (reachChannel_ends g t clk flashNb (regOf g flashNb blockNb)
    (flashNb % t.channelNb) q).trans ?_
  refine (waitForChannel_not_hung g t clk (flashNb % t.channelNb) _).trans ?_
  exact recordWrite_ends g t clk ..

private theorem ssdPagePartialWrite_ends (oldFlashNb oldBlockNb newFlashNb newBlockNb : ℕ)
    (offset : ℤ) (type : IoType) (ioPageNb : ℤ) (q : QemuIo) :
    Ends q (ssdPagePartialWrite g t clk oldFlashNb oldBlockNb newFlashNb newBlockNb offset type
      ioPageNb q) := by
  have hreach := reachChannel_ends g t clk oldFlashNb (regOf g oldFlashNb oldBlockNb)
    (oldFlashNb % t.channelNb) q
  generalize hst : access g t clk oldFlashNb (regOf g oldFlashNb oldBlockNb)
    (ssdChEnable g t clk (oldFlashNb % t.channelNb) q) = st at hreach
  rw [ssdPagePartialWrite, hst]
  refine hreach.trans ((waitForChannel_not_hung g t clk (oldFlashNb % t.channelNb) _).trans ?_)
  refine (postPartialRead_ends g t clk (regOf g oldFlashNb oldBlockNb)
    (oldFlashNb % t.channelNb) offset type st.1 _).trans ?_
  refine (ssdRegAccess_ends g t clk (regOf g oldFlashNb oldBlockNb) _).trans ?_
  -- the new page: its write does not wait for the channel
  refine (reachChannel_ends g t clk newFlashNb (regOf g newFlashNb newBlockNb)
    (newFlashNb % t.channelNb) _).trans ?_
  exact recordWrite_ends g t clk ..

private theorem ssdPageRead_ends (flashNb blockNb : ℕ) (offset : ℤ) (type : IoType) (ioPageNb : ℤ)
    (q : QemuIo) : Ends q (ssdPageRead g t clk flashNb blockNb offset type ioPageNb q) := by
  refine (reachChannel_ends g t clk flashNb (regOf g flashNb blockNb)
    (flashNb % t.channelNb) q).trans ?_
  exact (postRead_ends g t clk ..).trans (finishLastPage_ends g t clk ..)

private theorem ssdBlockErase_ends (flashNb blockNb : ℕ) (q : QemuIo) :
    Ends q (ssdBlockErase g t clk flashNb blockNb q) :=
  (access_ends g t clk flashNb (regOf g flashNb blockNb) q).trans (postErase_ends g t clk _ _ _)

/-- **Every call ends.** -/
theorem call_ends (c : Call) (q : QemuIo) : Ends q (call g t clk c q) := by
  cases c with
  | ssdPageWrite => exact ssdPageWrite_ends g t clk ..
  | ssdPagePartialWrite => exact ssdPagePartialWrite_ends g t clk ..
  | ssdPageRead => exact ssdPageRead_ends g t clk ..
  | ssdBlockErase => exact ssdBlockErase_ends g t clk ..
  | allocIoRequest => exact .of_io rfl Hung.of_allocIoRequest
  | _ => exact .of_io rfl id

/-! ### Runs -/

/-- The calls among steps. -/
def calls : List Step → List Call
  | [] => []
  | .overhead _ :: steps => calls steps
  | .call c :: steps => c :: calls steps

variable {g t clk} in
private theorem run_io (h : Tidy q) {steps : List Step} (hsteps : UndisturbedRun g t clk steps q) :
    ∀ pre, pre <+: steps → (run g t clk pre q).io = runCalls g t clk (calls pre) q.io := by
  induction steps generalizing q with
  | nil =>
    intro pre hpre
    rw [List.prefix_nil.mp hpre]
    rfl
  | cons a as ih =>
    intro pre hpre
    obtain rfl | ⟨rest, rfl, hrest⟩ := List.prefix_cons_iff.mp hpre
    · rfl
    have hlater := ih (h.step hsteps.1) hsteps.2 rest hrest
    cases a with
    | overhead time => exact hlater
    | call c =>
      have hio := (call_matches h (hsteps.1 c rfl)).1
      exact hlater.trans (congrArg (runCalls g t clk (calls rest)) hio)

/-- **The build for QEMU refines the one for benchmarks**: in a run in which no call makes a
correction, the two I/O managers are in the same state after every step. -/
theorem run_matches (g : Geometry) (t : IoConfig) (clk : Clock) (steps : List Step)
    (h : UndisturbedRun g t clk steps (init t)) : ∀ pre, pre <+: steps →
      (run g t clk pre (init t)).io = runCalls g t clk (calls pre) (Io.init t) :=
  run_io (init_tidy t) h

/-- Two writes for one plane, with time lost before the first, which has nothing to wait for. -/
theorem run_matches_smallDevice :
    (smallRun [.overhead 7, writePlane 0, .overhead 0, writePlane 0]).io =
      runCalls smallDevice smallDelays steadyClock
        [.ssdPageWrite 0 0 0 0 .gcWrite 1, .ssdPageWrite 0 0 0 0 .gcWrite 1]
        (Io.init smallDelays) := by
  have hsteps : UndisturbedRun smallDevice smallDelays steadyClock
      [.overhead 7, writePlane 0, .overhead 0, writePlane 0] (init smallDelays) := by
    refine ⟨nofun, fun c hc => .inr ?_, nofun, fun c hc => .inl rfl, trivial⟩
    obtain rfl := Step.call.inj hc
    refine ⟨fun _ D hD => ?_, fun r _ D hD => ?_, fun hlast => absurd hlast (by decide)⟩
    · cases hD
    · cases (List.mem_singleton.mp hD)
  exact run_matches _ _ _ _ hsteps _ List.prefix_rfl

/-- No time is lost in a run of calls. -/
private theorem undisturbedRun_calls (cs : List Call) (hzero : q.qemuOverhead = 0) :
    UndisturbedRun g t clk (cs.map .call) q := by
  induction cs generalizing q with
  | nil => trivial
  | cons c cs ih =>
    have hends := call_ends g t clk c q
    refine ⟨fun _ _ => .inl hzero, ih (le_antisymm ?_ (hends.nonneg hzero.ge))⟩
    exact (hends.le hzero.ge).trans_eq hzero

private theorem calls_map (cs : List Call) : calls (cs.map .call) = cs := by
  induction cs with
  | nil => rfl
  | cons c cs ih => rw [List.map_cons, calls, ih]

/-- The run of steps: the emulator may store any time between two calls. -/
private theorem run_ends (steps : List Step) (hnonneg : 0 ≤ q.qemuOverhead)
    (hung : (run g t clk steps q).io.Hung) : q.io.Hung := by
  induction steps generalizing q with
  | nil => exact hung
  | cons a as ih =>
    cases a with
    | overhead time =>
      exact ih (q := { q with qemuOverhead := time }) (Int.natCast_nonneg time) hung
    | call c =>
      have hends := call_ends g t clk c q
      exact hends.hung hnonneg (ih (hends.nonneg hnonneg) hung)

/-- **No wait for a channel hangs**, in either build: whatever calls are made, whatever the clock
reads and whatever time the emulator loses between them. -/
theorem run_not_hung (g : Geometry) (t : IoConfig) (clk : Clock) :
    (∀ steps, ¬ (run g t clk steps (init t)).io.Hung) ∧
    ∀ cs, ¬ (runCalls g t clk cs (Io.init t)).Hung := by
  have hqemu : ∀ steps, ¬ (run g t clk steps (init t)).io.Hung := by
    intro steps hung
    have hinit : (init t).io.Hung := run_ends g t clk steps le_rfl hung
    exact absurd hinit List.not_mem_nil
  refine ⟨hqemu, fun cs hung => hqemu (cs.map .call) ?_⟩
  have hio := run_io (init_tidy t) (undisturbedRun_calls g t clk cs rfl) _
    List.prefix_rfl
  rw [hio, calls_map]
  exact hung

end QemuIo

end Vssim
