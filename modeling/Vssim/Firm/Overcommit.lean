import Vssim.Firm.Accounting

/-!
# Writes longer than the write buffer

`SSD_WRITE` flushes the queue when a write does not fit into the free frames, but a write that is
longer than the whole buffer fits no better afterwards. Its length is an `unsigned int` that
`INCREASE_WB_SATA_POINTER` takes as an `int`: below `2 ^ 31` the count of free frames becomes
negative, and at `2 ^ 31` no frame is filled at all, so that the next flush looks for `'V'` frames
for ever. So the buffer is over-committed exactly by writes longer than itself
(`run_notOvercommitted`).
-/

namespace Vssim

open LinkedHeap

variable {b : BufferConfig} {g : Geometry} {newPage : ℕ → Ret} {fit : Prop} {reqs : List Request}
  {rs ws cs : List (EventAt b)} {d : Device b} {sectorNb : ℤ} {length : ℕ}

/-- The state after an `SSD_WRITE`: the count of free frames is not negative, no frame that was `'V'`
has been filled, and a flush of the queue ends. -/
structure NotOvercommitted (g : Geometry) (newPage : ℕ → Ret) (d : Device b) : Prop where
  nonneg : 0 ≤ d.firm.wb.emptyWriteBufferFrame
  fills : ∀ ev ∈ d.log, ∀ p, ev.call = .fillFrame p → (ev.firm.wb.frames p).valid ≠ .valid
  flushes : ∃ d', d.secureWriteBuffer g newPage = .ok d'

private theorem FirmInv.notOvercommitted (hnew : ∀ n, newPage n = .success)
    (h : FirmInv g fit reqs d rs ws cs) : NotOvercommitted g newPage d where
  nonneg := h.core.wb.accounts.nonneg
  fills ev hev p hcall := by
    obtain ⟨rs', ws', -, hok⟩ := h.log ev hev
    rw [hcall] at hok
    simp [hok]
  flushes := by
    obtain ⟨d', -, hd', -⟩ := h.secureWriteBuffer hnew
    exact ⟨d', hd'⟩

/-! ### A flush that does not end -/

/-- Without `'V'` frames `INCREASE_WB_FTL_POINTER` does not end. -/
private theorem WriteBuffer.increaseWbFtlPointer_hang {s : WriteBuffer b} {n : ℕ} (hpos : 0 < n)
    (hlt : n < 2 ^ 31) (hzero : ∀ p, (s.frames p).valid = .zero) :
    s.increaseWbFtlPointer n = .error .hang := by
  have hn : toI32 (n : ℤ) = n := toI32_of_bounds (by omega) (by exact_mod_cast hlt)
  rw [increaseWbFtlPointer, hn, scanFrames, if_neg (by omega), Int.toNat_natCast,
    Ring.scan_none hpos fun q => by simp [hzero q]]
  rfl

/-- `FTL_WRITE` then does not return. -/
private theorem Device.ftlWrite_hang (hreq : InRange g sectorNb length) (merged : List HostWrite)
    (hzero : ∀ p, (d.firm.wb.frames p).valid = .zero) :
    d.ftlWrite g newPage sectorNb length merged = .error .hang := by
  have hok := Cursor.Ok.start hreq
  have hpos : 0 < (Cursor.start g sectorNb length).remain := hreq.pos
  have hsects : (Cursor.start g sectorNb length).sects g < 2 ^ 31 := by
    have := hok.sects_eq
    have := g.sectorsPerPage_lt
    omega
  obtain ⟨rounds, hrounds⟩ : ∃ k, length = k + 1 := ⟨length - 1, by have := hreq.pos; omega⟩
  set c := Cursor.start g sectorNb length with hc
  set d₁ := d.note (.ftlWrite sectorNb length) with hd₁
  have hrun : d₁.firm.wb.increaseWbFtlPointer (c.sects g) = .error .hang :=
    WriteBuffer.increaseWbFtlPointer_hang (hok.sects_pos hpos) hsects hzero
  have hloop : d₁.ftlWriteLoop g newPage merged length c = .error .hang := by
    rw [hrounds, ftlWriteLoop, if_pos hpos, wbLoop, hrun]
    rfl
  rw [ftlWrite, if_neg hreq.toU32_le, ← hc, ← hd₁, hloop]
  rfl

/-- A flush hangs when the only pending event is a write without frames. -/
private theorem Device.secureWriteBuffer_hang {a : ℕ} {e : EventQueueEntry b}
    (hq : d.firm.queues.Rep [] [(a, e)] cs []) (hv : e.valid = true)
    (hreq : InRange g e.sectorNb e.length) (hzero : ∀ p, (d.firm.wb.frames p).valid = .zero) :
    d.secureWriteBuffer g newPage = .error .hang := by
  have htail : d.firm.queues.eQueue.tail = some a := hq.pending.tail
  have htype : e.ioType = .write := hq.writes (a, e) (by simp)
  obtain ⟨n, -, hrun⟩ := Device.dequeueIo_eq g newPage hq rfl
  have hexec : (d.setQueues (d.firm.queues.unlinkHead a ⟨e, n⟩)).execute g newPage a e =
      .error .hang := by
    rw [execute, if_pos hv]
    simp only [htype]
    exact ftlWrite_hang hreq e.merged hzero
  rw [secureWriteBuffer, htail, Device.flushEventQueueUntil_eq g newPage hq rfl]
  rw [List.length_nil, Nat.zero_add, dequeueTimes, hrun, hexec]
  rfl

/-! ### A write into an empty queue -/

/-- Filling frames, whether they are free or not. -/
private theorem Device.fill_empty (w : HostWrite) (k : ℕ) :
    ∃ d' wb, (List.range k).foldl (fun d (i : ℕ) =>
        (d.note (.fillFrame d.firm.wb.sataWritePtr)).setWb
          (d.firm.wb.fill (w.sectorNb + i, w.nb))) d = d' ∧
      d'.firm = { d.firm with wb } ∧
      wb.emptyWriteBufferFrame = d.firm.wb.emptyWriteBufferFrame - k ∧
      (k = 0 → wb = d.firm.wb) := by
  induction k with
  | zero => exact ⟨d, d.firm.wb, rfl, rfl, by simp, fun _ => rfl⟩
  | succ k ih =>
    obtain ⟨d₁, wb, hd₁, hfirm, hempty, -⟩ := ih
    refine ⟨_, wb.fill (w.sectorNb + k, w.nb), rfl, ?_, ?_, by simp⟩
    · rw [List.range_succ, List.foldl_append, hd₁]
      simp only [List.foldl_cons, List.foldl_nil, setWb, note, hfirm]
    · rw [WriteBuffer.fill, hempty]
      push_cast
      omega

/-- `ENQUEUE_WRITE` into an empty queue, whatever the length of the write. -/
private theorem Core.enqueueWrite_empty (h : Core g reqs d.firm [] [] cs [] []) (sectorNb : ℤ)
    (length : ℕ) :
    ∃ d' q wb a e, d.enqueueWrite sectorNb length = .ok d' ∧
      d'.firm = { d.firm with queues := q, wb } ∧ q.Rep [] [(a, e)] cs [] ∧ e.valid = true ∧
      e.sectorNb = sectorNb ∧ e.length = length ∧
      wb.emptyWriteBufferFrame = d.firm.wb.emptyWriteBufferFrame - (toI32 length).toNat ∧
      ((toI32 length).toNat = 0 → wb = d.firm.wb) := by
  generalize hk : (toI32 (length : ℤ)).toNat = k
  obtain ⟨d₁, wb, hd₁, hfirm₁, hempty, hsame⟩ :=
    Device.fill_empty (d := d) ⟨d.firm.writeNb, sectorNb, length⟩ k
  have hd₁ : d.writeDataToBuffer ⟨d.firm.writeNb, sectorNb, length⟩ = d₁ := by
    rw [Device.writeDataToBuffer, hk]
    exact hd₁
  have hq₁ : d₁.firm.queues.Rep [] [] cs [] := by
    rw [hfirm₁]
    exact h.queues
  obtain ⟨p, hp, hseg⟩ := hq₁.firstWrite
  obtain rfl : p = none := hseg
  have hd₂ : d₁.overwriteLoop sectorNb length d₁.firm.queues.heap.brk none = .ok d₁ := by
    rw [Device.overwriteLoop]
  obtain ⟨q, hq, hrep⟩ := hq₁.appendWrite (e :=
    { ioType := .write
      valid := true
      sectorNb
      length
      buf := some (.wb d.firm.wb.sataWritePtr)
      requestNb := d₁.firm.requestNb
      merged := [⟨d.firm.writeNb, sectorNb, length⟩]
      frames := Ring.span d.firm.wb.sataWritePtr k }) rfl
  refine ⟨d₁.setQueues q, q, wb, _, _, ?_, ?_, hrep, rfl, rfl, rfl, hempty, hsame⟩
  · rw [Device.enqueueWrite_eq rfl hd₁ hp hd₂, hk, Device.placeWrite, hq₁.tailEvent_nil]
    exact congrArg (Except.map d₁.setQueues) hq
  · rw [Device.setQueues, hfirm₁]

/-! ### The condition -/

/-- `SSD_WRITE` of a write longer than the buffer over-commits it. -/
private theorem FirmInv.ssdWrite_long (hnew : ∀ n, newPage n = .success)
    (h : FirmInv g fit reqs d rs ws cs) (hreq : InRange g sectorNb length)
    (hlong : b.writeBufferFrameNb < length) :
    ∃ d', d.ssdWrite g newPage length sectorNb = .ok d' ∧ ¬ NotOvercommitted g newPage d' := by
  obtain ⟨d₁, hd₁, h₁, hrb₁, -, hquiet₁⟩ := h.core.dequeueCompletedRead h.rb
  have hinv₁ := h.quiet h₁ hrb₁ hquiet₁
  have hbounds := hinv₁.core.wb.accounts
  have hlt := b.writeBufferFrameNb_lt
  have hfull : eventQueueIsFull .write length d₁.firm = .success := by
    have h0 := hbounds.nonneg
    have h1 := hbounds.le
    have hu32 := toU32_of_nonneg (x := d₁.firm.wb.emptyWriteBufferFrame) h0 (by omega)
    exact if_pos (by omega)
  -- the flush leaves all frames free
  obtain ⟨d₂, cs₂, hd₂, h₂, -⟩ := hinv₁.secureWriteBuffer hnew
  have hempty₂ := h₂.wb.empty
  have hzero₂ : ∀ p, (d₂.firm.wb.frames p).valid = .zero := fun p => h₂.wb.zero p (by simp)
  simp only [ownedFrames_nil, List.append_nil, List.length_nil] at hempty₂
  obtain ⟨d₃, q, wb, a, e, hd₃, hfirm, hq, hv, hsector, hlength, hempty, hsame⟩ :=
    h₂.enqueueWrite_empty sectorNb length
  refine ⟨d₃.countWrite, Device.ssdWrite_eq hd₁ ((if_pos hfull).trans hd₂) hd₃, fun hnot => ?_⟩
  have hwb : d₃.countWrite.firm.wb = wb := congrArg Firm.wb hfirm
  have hqueues : d₃.countWrite.firm.queues = q := congrArg Firm.queues hfirm
  have hi := hreq.le_int32
  have h0 := hreq.nonneg
  rcases Nat.lt_or_ge length (2 ^ 31) with hshort | hmax
  · -- too many frames have been filled
    have hlen : toI32 (length : ℤ) = length := toI32_of_bounds (by omega) (by omega)
    have hnonneg := hnot.nonneg
    rw [hwb, hempty, hlen, Int.toNat_natCast] at hnonneg
    omega
  · -- no frame has been filled, and the flush does not end
    have hnone : (toI32 (length : ℤ)).toNat = 0 := by
      have hmax' : (length : ℤ) = 2 ^ 31 := by omega
      rw [hmax']
      decide +kernel
    obtain ⟨d', hd'⟩ := hnot.flushes
    have hhang : d₃.countWrite.secureWriteBuffer g newPage = .error .hang := by
      refine Device.secureWriteBuffer_hang (hqueues ▸ hq) hv ?_ fun p => ?_
      · rw [hsector, hlength]
        exact hreq
      · rw [hwb, hsame hnone]
        exact hzero₂ p
    rw [hhang] at hd'
    exact absurd hd' (by simp)

/-- **The write buffer and the length of writes.** After any sequence of requests within the device
whose writes fit into the write buffer, as long as pages can be allocated, one more write
over-commits the buffer exactly if it is longer than the buffer. Reads may have any length. -/
theorem run_notOvercommitted (newPage : ℕ → Ret) (hnew : ∀ n, newPage n = .success)
    (reqs : List Request) (hreq : ∀ req ∈ reqs, req.InRange g)
    (hwrite : ∀ req ∈ reqs, req.WriteFits b) (sectorNb : ℤ) (length : ℕ)
    (hlast : InRange g sectorNb length) :
    ∃ d d', (initIoBuffer b).serveAll g newPage reqs = .ok d ∧
      d.ssdWrite g newPage length sectorNb = .ok d' ∧
      (NotOvercommitted g newPage d' ↔ length ≤ b.writeBufferFrameNb) := by
  obtain ⟨d, rs, ws, cs, hd, h⟩ :=
    serveAll_inv hnew (initIoBuffer_inv g False b) reqs hreq hwrite fun hfit => hfit.elim
  rcases Nat.lt_or_ge b.writeBufferFrameNb length with hlong | hfits
  · obtain ⟨d', hd', hnot⟩ := h.ssdWrite_long hnew hlast hlong
    exact ⟨d, d', hd, hd', iff_of_false hnot (by omega)⟩
  · obtain ⟨d', rs', ws', cs', hd', h'⟩ := h.ssdWrite hnew hlast hfits
    exact ⟨d, d', hd, hd', iff_of_true (h'.notOvercommitted hnew) hfits⟩

/-- A write that just fits, after a read longer than the read buffer. -/
theorem run_notOvercommitted_smallBuffers : ∃ d d',
    (initIoBuffer smallBuffers).serveAll smallDevice (fun _ => .success)
      [.write 0 5, .read 2 12] = .ok d ∧
    d.ssdWrite smallDevice (fun _ => .success) 8 3 = .ok d' ∧
    NotOvercommitted smallDevice (fun _ => .success) d' := by
  obtain ⟨d, d', hd, hd', hiff⟩ :=
    run_notOvercommitted (b := smallBuffers) (g := smallDevice) (fun _ => .success) (fun _ => rfl)
      [.write 0 5, .read 2 12] (by decide) (by decide) 3 8 (by decide)
  exact ⟨d, d', hd, hd', hiff.mpr (by decide)⟩

/-- A write of nine sectors into a buffer of eight frames: the count of free frames is negative, the
first frame is filled twice, and the flush does not end. -/
theorem longWrite_overcommits : ∃ d,
    (initIoBuffer smallBuffers).serveAll smallDevice (fun _ => .success) [.write 0 9] = .ok d ∧
    d.firm.wb.emptyWriteBufferFrame = -1 ∧
    (∃ ev ∈ d.log, ∃ p, ev.call = .fillFrame p ∧ (ev.firm.wb.frames p).valid = .valid) ∧
    d.secureWriteBuffer smallDevice (fun _ => .success) = .error .hang := by
  obtain ⟨d, hd, hP⟩ := exists_ok (x := (initIoBuffer smallBuffers).serveAll smallDevice
      (fun _ => .success) [.write 0 9])
    (fun d => decide (d.firm.wb.emptyWriteBufferFrame = -1) &&
      (d.log.any fun ev => match ev.call with
        | .fillFrame p => decide ((ev.firm.wb.frames p).valid = .valid)
        | _ => false) &&
      match d.secureWriteBuffer smallDevice (fun _ => .success) with
        | .error .hang => true
        | _ => false) (by decide +kernel)
  simp only [Bool.and_eq_true, decide_eq_true_eq, List.any_eq_true] at hP
  obtain ⟨⟨hempty, ev, hev, hfill⟩, hflush⟩ := hP
  refine ⟨d, hd, hempty, ⟨ev, hev, ?_⟩, ?_⟩
  · split at hfill
    · next p hcall => exact ⟨p, hcall, of_decide_eq_true hfill⟩
    · exact absurd hfill (by simp)
  · split at hflush
    · next hhang => exact hhang
    · exact absurd hflush (by simp)

end Vssim
