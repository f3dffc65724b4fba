import Vssim.Firm.EnqueueRead

/-!
# Serving host requests

One `SSD_WRITE` or `SSD_READ` keeps the invariant (`FirmInv.ssdWrite`, `FirmInv.ssdRead`), and so
does any sequence of them (`serveAll_inv`). A write must fit into the write buffer; a read need not
fit into the read buffer, but then nothing is said about that.
-/

namespace Vssim

open LinkedHeap

variable {b : BufferConfig} {g : Geometry} {newPage : ℕ → Ret} {fit : Prop} {reqs : List Request}
  {rs ws cs : List (EventAt b)} {w : EventAt b} {d : Device b} {sectorNb : ℤ} {length : ℕ}

/-- What holds between two requests, after `reqs` have been served. -/
structure FirmInv (g : Geometry) (fit : Prop) (reqs : List Request) (d : Device b)
    (rs ws cs : List (EventAt b)) : Prop where
  core : Core g reqs d.firm rs ws cs [] []
  rb : fit → RbOk d.firm.rb cs rs
  requestNb : d.firm.requestNb = reqs.length
  writeNb : d.firm.writeNb = (ssdWrites reqs).length
  log : ∀ ev ∈ d.log, CallOk fit reqs ev

/-- The device that `INIT_IO_BUFFER` sets up. -/
theorem initIoBuffer_inv (g : Geometry) (fit : Prop) (b : BufferConfig) :
    FirmInv g fit [] (initIoBuffer b) [] [] [] where
  core :=
    { queues :=
        { pending := .nil
          last := rfl
          reads := by simp
          writes := by simp
          completed := .nil
          floating := by simp
          nodup := by simp [addrs] }
      wb :=
        { ftl := rfl
          span := rfl
          le := Nat.zero_le _
          sata := (Ring.advance_zero _).symm
          empty := by simp [initIoBuffer]
          zero := fun _ _ => rfl
          orphan := by simp
          events := by simp }
      value := rfl
      reads := by simp
      tail := by simp
      nil := fun _ => rfl }
  rb _ := ⟨[], [], rfl,
    { tiled := trivial
      ftl := (Ring.advance_zero _).symm
      unowned := by simp
      empty := by simp [initIoBuffer]
      le := Nat.zero_le _ }⟩
  requestNb := rfl
  writeNb := rfl
  log := by simp [initIoBuffer]

/-- A quiet step within a request. -/
theorem FirmInv.quiet (h : FirmInv g fit reqs d rs ws cs) {d' : Device b}
    {rs' ws' cs' : List (EventAt b)} (hcore : Core g reqs d'.firm rs' ws' cs' [] [])
    (hrb : fit → RbOk d'.firm.rb cs' rs') (hquiet : Quiet fit reqs d d') :
    FirmInv g fit reqs d' rs' ws' cs' := by
  obtain ⟨evs, hlog, hevs⟩ := hquiet.log
  refine ⟨hcore, hrb, hquiet.requestNb.trans h.requestNb, hquiet.writeNb.trans h.writeNb,
    fun ev hev => ?_⟩
  rw [hlog] at hev
  exact (List.mem_append.mp hev).elim (h.log ev) fun hev => (hevs ev hev).1

/-! ### Writes -/

/-- The end of `SSD_WRITE`. -/
def Device.countWrite (d : Device b) : Device b :=
  { d with firm := { d.firm with
    requestNb := d.firm.requestNb + 1
    writeNb := d.firm.writeNb + 1 } }

private theorem Device.enqueueIo_write :
    d.enqueueIo g newPage .write sectorNb length = d.enqueueWrite sectorNb length := rfl

theorem Device.enqueueIo_read :
    d.enqueueIo g newPage .read sectorNb length = d.enqueueRead g newPage sectorNb length := rfl

/-- `SSD_WRITE` as a sequence of its parts. -/
theorem Device.ssdWrite_eq {d₁ d₂ d₃ : Device b} (hd₁ : d.dequeueCompletedRead = .ok d₁)
    (hd₂ : (if eventQueueIsFull .write length d₁.firm = .success then
      d₁.secureWriteBuffer g newPage else .ok d₁) = .ok d₂)
    (hd₃ : d₂.enqueueWrite sectorNb length = .ok d₃) :
    d.ssdWrite g newPage length sectorNb = .ok d₃.countWrite := by
  rw [ssdWrite, hd₁, ok_bind]
  by_cases hfull : eventQueueIsFull .write length d₁.firm = .success
  · rw [if_pos hfull] at hd₂ ⊢
    rw [hd₂, ok_bind]
    beta_reduce
    rw [enqueueIo_write, hd₃, ok_bind, countWrite]
  · rw [if_neg hfull] at hd₂ ⊢
    rw [hd₂, ok_bind]
    beta_reduce
    rw [enqueueIo_write, hd₃, ok_bind, countWrite]

/-- `SSD_WRITE` makes room for the write and then enqueues it. -/
private theorem FirmInv.makeRoom (hnew : ∀ n, newPage n = .success) (sectorNb : ℤ)
    (h : FirmInv g fit reqs d rs ws cs) (hlen : length ≤ b.writeBufferFrameNb) :
    ∃ d' rs' ws' cs', (∀ d'', d'.enqueueWrite sectorNb length = .ok d'' →
        d.ssdWrite g newPage length sectorNb = .ok d''.countWrite) ∧
      Core g reqs d'.firm rs' ws' cs' [] [] ∧ (fit → RbOk d'.firm.rb cs' rs') ∧
      (length : ℤ) ≤ d'.firm.wb.emptyWriteBufferFrame ∧ Quiet fit reqs d d' := by
  obtain ⟨d₁, hd₁, h₁, hrb₁, -, hquiet₁⟩ := h.core.dequeueCompletedRead h.rb
  have hempty := h₁.wb.empty
  have hle := h₁.wb.le
  have hlt := b.writeBufferFrameNb_lt
  have hu32 := toU32_of_nonneg (x := d₁.firm.wb.emptyWriteBufferFrame) (by omega) (by omega)
  by_cases hfull : eventQueueIsFull .write length d₁.firm = .success
  · have hsmall : toU32 d₁.firm.wb.emptyWriteBufferFrame < length := by
      simpa [eventQueueIsFull] using hfull
    -- there are pending writes, or else all frames would be free
    have hne : rs ++ ws ≠ [] := by
      intro hnil
      obtain ⟨rfl, rfl⟩ := List.append_eq_nil_iff.mp hnil
      simp only [ownedFrames_nil, List.append_nil, List.length_nil] at hempty
      omega
    obtain ⟨d₂, cs', hd₂, h₂, hrb₂, hquiet₂⟩ := h₁.secureWriteBuffer hnew hne hrb₁
    refine ⟨d₂, [], [], cs', fun d₃ hd₃ => ?_, h₂, hrb₂, ?_, hquiet₁.trans hquiet₂⟩
    · exact Device.ssdWrite_eq hd₁ ((if_pos hfull).trans hd₂) hd₃
    · have hempty₂ := h₂.wb.empty
      simp only [ownedFrames_nil, List.append_nil, List.length_nil] at hempty₂
      omega
  · have hroom : ¬ toU32 d₁.firm.wb.emptyWriteBufferFrame < length := by
      simpa [eventQueueIsFull] using hfull
    exact ⟨d₁, rs, ws, [], fun d₃ hd₃ => Device.ssdWrite_eq hd₁ (if_neg hfull) hd₃, h₁, hrb₁,
      by omega, hquiet₁⟩

/-- The log of the invariant, with the calls of one more request. -/
private theorem FirmInv.log_extend (h : FirmInv g fit reqs d rs ws cs) {d' : Device b}
    {req : Request} (hlog : Device.Extends (CallOk fit reqs) d d') :
    ∀ ev ∈ d'.log, CallOk fit (reqs ++ [req]) ev := by
  obtain ⟨evs, hlog, hevs⟩ := hlog
  intro ev hev
  rw [hlog] at hev
  exact ((List.mem_append.mp hev).elim (h.log ev) (hevs ev)).mono

/-- **`SSD_WRITE`** keeps the invariant. -/
theorem FirmInv.ssdWrite (hnew : ∀ n, newPage n = .success)
    (h : FirmInv g fit reqs d rs ws cs) (hreq : InRange g sectorNb length)
    (hlen : length ≤ b.writeBufferFrameNb) :
    ∃ d' rs' ws' cs', d.ssdWrite g newPage length sectorNb = .ok d' ∧
      FirmInv g fit (reqs ++ [.write sectorNb length]) d' rs' ws' cs' := by
  obtain ⟨d₁, rs₁, ws₁, cs₁, hrun, h₁, hrb₁, hroom, hquiet⟩ := h.makeRoom hnew sectorNb hlen
  obtain ⟨d₂, ws₂, hd₂, h₂, hfirm, hlog⟩ :=
    h₁.enqueueWrite fit hroom hreq (hquiet.writeNb.trans h.writeNb)
  have hrb : d₂.firm.rb = d₁.firm.rb := by rw [hfirm]
  have hrequestNb : d₂.firm.requestNb = d₁.firm.requestNb := by rw [hfirm]
  have hwriteNb : d₂.firm.writeNb = d₁.firm.writeNb := by rw [hfirm]
  refine ⟨d₂.countWrite, rs₁, ws₂, cs₁, hrun d₂ hd₂, ?_⟩
  exact
    { core := { h₂ with }
      rb := fun hfit => hrb ▸ hrb₁ hfit
      requestNb := by
        rw [Device.countWrite, hrequestNb, hquiet.requestNb, h.requestNb, List.length_append]
        rfl
      writeNb := by
        rw [Device.countWrite, hwriteNb, hquiet.writeNb, h.writeNb, ssdWrites_write,
          List.length_append]
        rfl
      log := h.log_extend ((hquiet.log.trans hlog).imp fun _ => And.left) }

/-! ### Reads -/

/-- The end of `SSD_READ`. -/
def Device.countRead (d : Device b) : Device b :=
  { d with firm := { d.firm with requestNb := d.firm.requestNb + 1 } }

/-- `SSD_READ` makes room for the read and then enqueues it. The pending writes stay. -/
private theorem FirmInv.makeReadRoom (newPage : ℕ → Ret) (sectorNb : ℤ)
    (h : FirmInv g fit reqs d rs ws cs) (hlen : fit → length ≤ b.readBufferFrameNb) :
    ∃ d' rs', (∀ d'', d'.enqueueRead g newPage sectorNb length = .ok d'' →
        d.ssdRead g newPage length sectorNb = .ok d''.countRead) ∧
      Core g reqs d'.firm rs' ws [] [] [] ∧ (fit → RbOk d'.firm.rb [] rs') ∧
      (fit → totalLength ([] : List (EventAt b)) + totalLength rs' + length ≤ b.readBufferFrameNb) ∧
      Quiet fit reqs d d' := by
  obtain ⟨d₁, hd₁, h₁, hrb₁, -, hquiet₁⟩ := h.core.dequeueCompletedRead h.rb
  by_cases hfull : eventQueueIsFull .read length d₁.firm = .success
  · obtain ⟨d₂, hd₂, h₂, hrb₂, -, hquiet₂⟩ := h₁.secureReadBuffer newPage hrb₁
    refine ⟨d₂, [], fun d₃ hd₃ => ?_, h₂, hrb₂, fun hfit => ?_, hquiet₁.trans hquiet₂⟩
    · rw [Device.ssdRead, hd₁]
      simp only [ok_bind, if_pos hfull, hd₂, Device.enqueueIo_read, hd₃, Device.countRead]
    · simpa using hlen hfit
  · have hroom : ¬ toU32 d₁.firm.rb.emptyReadBufferFrame < length := by
      simpa [eventQueueIsFull] using hfull
    refine ⟨d₁, rs, fun d₃ hd₃ => ?_, h₁, hrb₁, fun hfit => ?_, hquiet₁⟩
    · rw [Device.ssdRead, hd₁]
      simp only [ok_bind, if_neg hfull, Device.enqueueIo_read, hd₃, Device.countRead]
    · obtain ⟨hs, ns, rfl, hrep⟩ := hrb₁ hfit
      have hempty := hrep.empty
      have hle := hrep.le
      have hlt := b.readBufferFrameNb_lt
      have hu32 := toU32_of_nonneg (x := d₁.firm.rb.emptyReadBufferFrame) (by omega) (by omega)
      simp only [List.nil_append, totalLength_append, totalLength_nil] at hempty ⊢
      omega

/-- **`SSD_READ`** of a read that is left to the FTL copies nothing. -/
theorem FirmInv.ssdRead_miss (hnew : ∀ n, newPage n = .success)
    (h : FirmInv g fit reqs d rs ws cs) (hreq : InRange g sectorNb length)
    (hlen : fit → length ≤ b.readBufferFrameNb) (hmiss : bufferHit sectorNb length ws = none) :
    ∃ d' rs' ws' cs', d.ssdRead g newPage length sectorNb = .ok d' ∧
      FirmInv g fit (reqs ++ [.read sectorNb length]) d' rs' ws' cs' ∧
      Device.Extends (Plain fit reqs) d d' := by
  obtain ⟨d₁, rs₁, hrun, h₁, hrb₁, hroom, hquiet₁⟩ := h.makeReadRoom newPage sectorNb hlen
  obtain ⟨d₂, rs₂, ws₂, cs₂, orphans₂, hd₂, h₂, horphans, hrb₂, hquiet₂⟩ :=
    h₁.enqueueRead_miss hnew hrb₁ hroom hreq (hquiet₁.requestNb.trans h.requestNb) hmiss
  obtain rfl := horphans rfl
  have hquiet := hquiet₁.trans hquiet₂
  refine ⟨d₂.countRead, rs₂, ws₂, cs₂, hrun d₂ hd₂, ?_, hquiet.log.trans (.of_eq rfl)⟩
  exact
    { core := { h₂ with }
      rb := hrb₂
      requestNb := by
        rw [Device.countRead, hquiet.requestNb, h.requestNb, List.length_append]
        rfl
      writeNb := by
        rw [Device.countRead, hquiet.writeNb, h.writeNb, ssdWrites_read]
      log := h.log_extend ((hquiet.log.trans (.of_eq rfl)).imp fun _ => And.left) }

/-- **`SSD_READ`** of a read that the write buffer serves: the frames that are copied, in order. The
labels are those from before the request. -/
theorem FirmInv.ssdRead_hit (hnew : ∀ n, newPage n = .success)
    (h : FirmInv g fit reqs d rs ws cs) (hreq : InRange g sectorNb length)
    (hlen : fit → length ≤ b.readBufferFrameNb) (hhit : bufferHit sectorNb length ws = some w) :
    ∃ d' rs' ws' cs' d₁ evs p, ∃ offset : ℕ, d.ssdRead g newPage length sectorNb = .ok d' ∧
      FirmInv g fit (reqs ++ [.read sectorNb length]) d' rs' ws' cs' ∧
      Device.Extends (Plain fit reqs) d d₁ ∧ d'.log = d₁.log ++ evs ∧
      evs.map FirmEvent.call = (List.range length).map (fun k : ℕ =>
        .copyFrame reqs.length sectorNb k (Ring.advance p (offset + k))) ∧
      (∀ ev ∈ evs, ∀ q, (ev.firm.wb.frames q).label = (d.firm.wb.frames q).label) ∧
      w.2.buf = some (.wb p) ∧ sectorNb = w.2.sectorNb + offset ∧
      offset + length ≤ w.2.length := by
  obtain ⟨d₁, rs₁, hrun, h₁, hrb₁, hroom, hquiet₁⟩ := h.makeReadRoom newPage sectorNb hlen
  obtain ⟨d₂, d₀, evs, s, rs₂, ws₂, cs₂, p, offset, hd₂, h₂, hrb₂, hquiet₀, hlog, hfirm, hwb, hshape,
    hcopies, hbuf, hstart, hend⟩ :=
    h₁.enqueueRead_hit hnew hrb₁ hroom hreq (hquiet₁.requestNb.trans h.requestNb) hhit
  have hquiet := hquiet₁.trans hquiet₀
  have hrequestNb : d₂.firm.requestNb = d₀.firm.requestNb := by rw [hfirm]
  have hwriteNb : d₂.firm.writeNb = d₀.firm.writeNb := by rw [hfirm]
  have hcalls : ∀ ev ∈ evs, CallOk fit reqs ev := fun ev hev => hcopies.callOk hshape hev
  refine ⟨d₂.countRead, rs₂, ws₂, cs₂, d₀, evs, p, offset, hrun d₂ hd₂, ?_, hquiet.log, hlog, ?_, ?_,
    hbuf, hstart, hend⟩
  · exact
      { core := { h₂ with }
        rb := hrb₂
        requestNb := by
          rw [Device.countRead, hrequestNb, hquiet.requestNb, h.requestNb, List.length_append]
          rfl
        writeNb := by
          rw [Device.countRead, hwriteNb, hquiet.writeNb, h.writeNb, ssdWrites_read]
        log := h.log_extend ((hquiet.log.imp fun _ => And.left).trans ⟨evs, hlog, hcalls⟩) }
  · rw [hcopies.calls]
    refine List.map_congr_left fun k _ => ?_
    rw [Ring.advance_advance, Nat.zero_add]
  · intro ev hev q
    rw [hcopies.wb ev hev, hwb, hquiet.label]

/-- **`SSD_READ`** keeps the invariant. -/
theorem FirmInv.ssdRead (hnew : ∀ n, newPage n = .success)
    (h : FirmInv g fit reqs d rs ws cs) (hreq : InRange g sectorNb length)
    (hlen : fit → length ≤ b.readBufferFrameNb) :
    ∃ d' rs' ws' cs', d.ssdRead g newPage length sectorNb = .ok d' ∧
      FirmInv g fit (reqs ++ [.read sectorNb length]) d' rs' ws' cs' := by
  rcases hhit : bufferHit sectorNb length ws with _ | w
  · obtain ⟨d', rs', ws', cs', hd', h', -⟩ := h.ssdRead_miss hnew hreq hlen hhit
    exact ⟨d', rs', ws', cs', hd', h'⟩
  · obtain ⟨d', rs', ws', cs', -, -, -, -, hd', h', -⟩ := h.ssdRead_hit hnew hreq hlen hhit
    exact ⟨d', rs', ws', cs', hd', h'⟩

/-! ### Runs -/

/-- A write fits into the write buffer. -/
def Request.WriteFits (b : BufferConfig) : Request → Prop
  | .write _ length => length ≤ b.writeBufferFrameNb
  | .read _ _ => True

/-- A read fits into the read buffer. -/
def Request.ReadFits (b : BufferConfig) : Request → Prop
  | .write _ _ => True
  | .read _ length => length ≤ b.readBufferFrameNb

instance : DecidablePred (Request.WriteFits b)
  | .write _ length => inferInstanceAs (Decidable (length ≤ b.writeBufferFrameNb))
  | .read _ _ => inferInstanceAs (Decidable True)

instance : DecidablePred (Request.ReadFits b)
  | .write _ _ => inferInstanceAs (Decidable True)
  | .read _ length => inferInstanceAs (Decidable (length ≤ b.readBufferFrameNb))

/-- Serving a request keeps the invariant. -/
theorem FirmInv.serve (hnew : ∀ n, newPage n = .success) (h : FirmInv g fit reqs d rs ws cs)
    {req : Request} (hreq : req.InRange g) (hwrite : req.WriteFits b)
    (hread : fit → req.ReadFits b) :
    ∃ d' rs' ws' cs', d.serve g newPage req = .ok d' ∧
      FirmInv g fit (reqs ++ [req]) d' rs' ws' cs' := by
  cases req with
  | write sectorNb length => exact h.ssdWrite hnew hreq hwrite
  | read sectorNb length => exact h.ssdRead hnew hreq hread

/-- **Runs.** Every sequence of requests within the device whose writes fit into the buffer is
served, and the invariant holds after it. -/
theorem serveAll_inv (hnew : ∀ n, newPage n = .success) (h : FirmInv g fit reqs d rs ws cs)
    (more : List Request) (hreq : ∀ req ∈ more, req.InRange g)
    (hwrite : ∀ req ∈ more, req.WriteFits b) (hread : fit → ∀ req ∈ more, req.ReadFits b) :
    ∃ d' rs' ws' cs', d.serveAll g newPage more = .ok d' ∧
      FirmInv g fit (reqs ++ more) d' rs' ws' cs' := by
  induction more generalizing reqs d rs ws cs with
  | nil => exact ⟨d, rs, ws, cs, rfl, by simpa using h⟩
  | cons req more ih =>
    obtain ⟨d₁, rs₁, ws₁, cs₁, hd₁, h₁⟩ := h.serve hnew (hreq req (by simp))
      (hwrite req (by simp)) fun hfit => hread hfit req (by simp)
    obtain ⟨d', rs', ws', cs', hd', h'⟩ := ih h₁
      (fun req hmem => hreq req (List.mem_cons_of_mem _ hmem))
      (fun req hmem => hwrite req (List.mem_cons_of_mem _ hmem))
      fun hfit req hmem => hread hfit req (List.mem_cons_of_mem _ hmem)
    refine ⟨d', rs', ws', cs', ?_, by simpa using h'⟩
    rw [Device.serveAll, List.foldlM_cons, hd₁]
    exact hd'

end Vssim
