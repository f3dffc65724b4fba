import Vssim.Firm.Ordering

/-!
# The accounts of the two buffers

Between two requests the counters and pointers of the write buffer describe its cells and the
frames of every pending write (`run_writeAccounts`), and those of the read buffer describe the
reads that have not been handed to the host (`run_readAccounts`).

Both rest on requests that the FTL accepts. A write that it rejects keeps its frames for ever, and
a read that it rejects puts `sata_read_ptr` out of step (`rejected_notReclaimed`); without such
requests everything is reclaimed (`run_reclaimed`).
-/

namespace Vssim

open LinkedHeap

variable {b : BufferConfig} {g : Geometry} {newPage : ℕ → Ret} {fit : Prop} {reqs : List Request}
  {rs ws cs : List (EventAt b)} {d : Device b}

/-! ### The write buffer -/

/-- The accounts of the write buffer, with pending writes `ws`. The frames of an event are those its
writes have filled. -/
structure WriteAccounts (s : WriteBuffer b) (ws : List (EventAt b)) : Prop where
  count : s.emptyWriteBufferFrame =
    (Finset.univ.filter fun p => (s.frames p).valid = .zero).card
  nonneg : 0 ≤ s.emptyWriteBufferFrame
  le : s.emptyWriteBufferFrame ≤ b.writeBufferFrameNb
  /-- The cells in use are those from `write_limit_ptr` up to `sata_write_ptr`. -/
  used : ∃ k : ℕ, (k : ℤ) = b.writeBufferFrameNb - s.emptyWriteBufferFrame ∧
    s.sataWritePtr = Ring.advance s.writeLimitPtr k ∧
    (∀ p, (s.frames p).valid ≠ .zero ↔ p ∈ Ring.span s.writeLimitPtr k) ∧
    ((ws.filter fun w => w.2.valid).flatMap fun w => w.2.frames).Sublist
      (Ring.span s.writeLimitPtr k)
  ftl : s.ftlWritePtr = s.writeLimitPtr
  disjoint : (ws.filter fun w => w.2.valid).Pairwise fun v w =>
    List.Disjoint v.2.frames w.2.frames
  /-- A valid write owns a segment that starts at its `buf`, with `length` cells `'V'` and all others
  `'I'`. -/
  segment : ∀ w ∈ ws, w.2.valid = true → ∃ p, w.2.buf = some (.wb p) ∧
    w.2.frames = Ring.span p w.2.frames.length ∧
    w.2.frames.countP (fun q => (s.frames q).valid = .valid) = w.2.length ∧
    ∀ q ∈ w.2.frames, (s.frames q).valid = .valid ∨ (s.frames q).valid = .invalid

/-- Every loop over `wb_valid_array` so far has left the frames of all pending writes alone, except
those of the one it ran for. -/
def LoopsApart (d : Device b) : Prop :=
  ∀ ev ∈ d.log, ∀ loop owner after, ev.call = .wbLoop loop owner after →
    ∃ rs ws, ev.firm.queues.Shape rs ws ∧
      ∀ p, after p ≠ ev.firm.wb.frames p → ∀ w ∈ ws, owner ≠ some w.1 → p ∉ w.2.frames

/-- The cells in use are those of the pending writes. -/
private theorem WbRep.ne_zero_iff {n : ℕ} {s : WriteBuffer b} (h : WbRep g n s [] ws [])
    (p : WbPtr b) : (s.frames p).valid ≠ .zero ↔ p ∈ ownedFrames ws := by
  constructor
  · intro hne
    by_contra hp
    exact hne (h.zero p (by simpa using hp))
  · intro hp
    obtain ⟨w, hw, hpw⟩ := mem_ownedFrames.mp hp
    have hev := h.events w hw
    by_cases hv : w.2.valid = true
    · rcases hev.cells hv p hpw with hc | hc <;> simp [hc]
    · simp [hev.dead (by simpa using hv) p hpw]

theorem WbRep.accounts {n : ℕ} {s : WriteBuffer b} (h : WbRep g n s [] ws []) :
    WriteAccounts s ws := by
  have hspan := h.span
  have hle := h.le
  have hempty := h.empty
  have hsata := h.sata
  have hnd := h.nodup
  simp only [List.nil_append, List.append_nil] at hspan hle hempty hsata hnd
  have hsub : ((ws.filter fun w => w.2.valid).flatMap fun w => w.2.frames).Sublist
      (ownedFrames ws) := by
    exact List.filter_sublist.flatMap _
  refine
    { count := ?_
      nonneg := by omega
      le := by omega
      used := ⟨(ownedFrames ws).length, by omega, hsata, fun p => ?_, hspan ▸ hsub⟩
      ftl := h.ftl
      disjoint := (List.nodup_flatMap.mp (hnd.sublist hsub)).2
      segment := fun w hw hv => ?_ }
  · have hzero : (Finset.univ.filter fun p => (s.frames p).valid = .zero) =
        (ownedFrames ws).toFinsetᶜ := by
      ext p
      rw [Finset.mem_filter_univ, Finset.mem_compl, List.mem_toFinset, ← h.ne_zero_iff, not_not]
    rw [hzero, Finset.card_compl, List.toFinset_card_of_nodup hnd, Fintype.card_fin, hempty]
    omega
  · rw [h.ne_zero_iff, ← hspan]
  · obtain ⟨us, vs, rfl⟩ := List.append_of_mem hw
    obtain ⟨p, hbuf, hframes, -, -⟩ := h.segment
    have hev := h.events w hw
    refine ⟨p, hbuf, hframes, ?_, hev.cells hv⟩
    rw [← hev.countP_valid hv, List.countP_map]
    exact List.countP_congr fun q _ => by simp [Frame.isValid]

/-- **Write-buffer ring accounting.** For every sequence of requests within the device that fit into
the buffers, as long as pages can be allocated: all loops end, the accounts of the write buffer
are right, no loop touches the frames of another event, and flushing the queue leaves every cell
`'0'`. -/
theorem run_writeAccounts (newPage : ℕ → Ret) (hnew : ∀ n, newPage n = .success)
    (reqs : List Request) (hreq : ∀ req ∈ reqs, req.InRange g)
    (hwrite : ∀ req ∈ reqs, req.WriteFits b) (hread : ∀ req ∈ reqs, req.ReadFits b) :
    ∃ d d' rs ws, (initIoBuffer b).serveAll g newPage reqs = .ok d ∧
      d.firm.queues.Shape rs ws ∧ WriteAccounts d.firm.wb ws ∧ LoopsApart d ∧
      d.secureWriteBuffer g newPage = .ok d' ∧ LoopsApart d' ∧
      ∀ p, (d'.firm.wb.frames p).valid = .zero := by
  have hapart : ∀ d : Device b, (∀ ev ∈ d.log, CallOk True reqs ev ∨
      QueueOk ev.firm.queues ∧ ∃ e, ev.call = .error e) → LoopsApart d := by
    intro d hlog ev hev loop owner after hcall
    rcases hlog ev hev with ⟨rs, ws, hshape, hok⟩ | ⟨-, e, he⟩
    · rw [hcall] at hok
      exact ⟨rs, ws, hshape, hok⟩
    · rw [hcall] at he
      exact absurd he (by simp)
  obtain ⟨d, rs, ws, cs, hd, h⟩ :=
    serveAll_inv hnew (initIoBuffer_inv g True b) reqs hreq hwrite fun _ => hread
  obtain ⟨d', cs', hd', h', hlog⟩ := h.secureWriteBuffer hnew
  exact ⟨d, d', rs, ws, hd, h.core.queues.toShape, h.core.wb.accounts,
    hapart d fun ev hev => .inl (h.log ev hev), hd', hapart d' hlog,
    fun p => h'.wb.zero p (by simp)⟩

/-- A partly invalidated event, then one that covers it. -/
theorem run_writeAccounts_smallBuffers : ∃ d rs ws,
    (initIoBuffer smallBuffers).serveAll smallDevice (fun _ => .success)
      [.write 0 3, .write 1 3, .read 12 1, .write 8 2] = .ok d ∧
    d.firm.queues.Shape rs ws ∧ WriteAccounts d.firm.wb ws ∧
    d.firm.wb.emptyWriteBufferFrame = 0 := by
  obtain ⟨d, -, rs, ws, hd, hshape, hacc, -⟩ :=
    run_writeAccounts (b := smallBuffers) (g := smallDevice) (fun _ => .success) (fun _ => rfl)
      [.write 0 3, .write 1 3, .read 12 1, .write 8 2] (by decide) (by decide) (by decide)
  have hempty : ((initIoBuffer smallBuffers).serveAll smallDevice (fun _ => .success)
      [.write 0 3, .write 1 3, .read 12 1, .write 8 2]).map
      (fun d => d.firm.wb.emptyWriteBufferFrame) = .ok 0 := by decide +kernel
  rw [hd] at hempty
  exact ⟨d, rs, ws, hd, hshape, hacc, Except.ok.inj hempty⟩

/-! ### The read buffer -/

/-- Two reads that both own frames own different ones. -/
def FramesApart (r r' : EventAt b) : Prop :=
  ∀ p p', r.2.buf = some (.rb p) → r'.2.buf = some (.rb p') →
    List.Disjoint (Ring.span p r.2.length) (Ring.span p' r'.2.length)

/-- The accounts of the read buffer, when the reads `es` have been enqueued and not yet consumed. -/
structure ReadAccounts (s : ReadBuffer b) (es : List (EventAt b)) : Prop where
  disjoint : es.Pairwise FramesApart
  empty : s.emptyReadBufferFrame = b.readBufferFrameNb - totalLength es
  nonneg : 0 ≤ s.emptyReadBufferFrame

/-- Every read so far was handed to the host from where `sata_read_ptr` points. -/
def HandedOver (d : Device b) : Prop :=
  ∀ ev ∈ d.log, ∀ e, ev.call = .toHost e → e.buf = some (.rb ev.firm.rb.sataReadPtr)

/-- The frames of a tiled list lie in one stretch. -/
private theorem Tiled.span_subset {p : RbPtr b} {es : List (EventAt b)} (h : Tiled p es)
    {e : EventAt b} (he : e ∈ es) {p' : RbPtr b} (hp : e.2.buf = some (.rb p')) :
    Ring.span p' e.2.length ⊆ Ring.span p (totalLength es) := by
  induction es generalizing p with
  | nil => simp at he
  | cons x es ih =>
    rw [totalLength_cons, Ring.span_add]
    rcases List.mem_cons.mp he with rfl | he
    · rw [h.1] at hp
      cases hp
      exact List.subset_append_left _ _
    · exact List.Subset.trans (ih h.2 he) (List.subset_append_right _ _)

/-- Tiles do not overlap. -/
private theorem Tiled.pairwise {p : RbPtr b} {es : List (EventAt b)} (h : Tiled p es)
    (hle : totalLength es ≤ b.readBufferFrameNb) : es.Pairwise FramesApart := by
  induction es generalizing p with
  | nil => exact .nil
  | cons x es ih =>
    have hnd := Ring.nodup_span p hle
    rw [totalLength_cons] at hle hnd
    rw [Ring.span_add, List.nodup_append] at hnd
    refine .cons (fun e he q q' hq hq' => ?_) (ih h.2 (by omega))
    rw [h.1] at hq
    cases hq
    intro y hy hy'
    exact hnd.2.2 y hy y (h.2.span_subset he hq' hy') rfl

private theorem RbOk.accounts {s : ReadBuffer b} (h : RbOk s cs rs) :
    ReadAccounts s (cs ++ rs) := by
  obtain ⟨hs, ns, rfl, hrep⟩ := h
  have hempty := hrep.empty
  have hle := hrep.le
  refine ⟨?_, hempty, by omega⟩
  rw [← List.append_assoc, List.pairwise_append]
  have hunowned : ∀ r ∈ ns, ∀ p, r.2.buf ≠ some (.rb p) := by
    intro r hr p
    simp [hrep.unowned r hr]
  refine ⟨hrep.tiled.pairwise ?_, ?_, ?_⟩
  · simp only [totalLength_append] at hle ⊢
    omega
  · exact List.pairwise_of_forall_mem_list fun r hr r' _ p p' hp _ =>
      absurd hp (hunowned r hr p)
  · exact fun r _ r' hr' p p' _ hp' => absurd hp' (hunowned r' hr' p')

/-- The reads that a firmware in order has handed over. -/
private theorem FirmInv.handedOver (h : FirmInv g True reqs d rs ws cs) : HandedOver d := by
  intro ev hev e hcall
  obtain ⟨rs', ws', -, hok⟩ := h.log ev hev
  rw [hcall] at hok
  exact hok trivial

/-- **Read-buffer hand-over order.** For every sequence of requests within the device that fit into
the buffers, as long as pages can be allocated: every completed read is consumed where
`sata_read_ptr` points, no error message is printed, and the reads that have not been consumed own
disjoint frames, which the count of free frames leaves out. -/
theorem run_readAccounts (newPage : ℕ → Ret) (hnew : ∀ n, newPage n = .success)
    (reqs : List Request) (hreq : ∀ req ∈ reqs, req.InRange g)
    (hwrite : ∀ req ∈ reqs, req.WriteFits b) (hread : ∀ req ∈ reqs, req.ReadFits b) :
    ∃ d rs ws cs, (initIoBuffer b).serveAll g newPage reqs = .ok d ∧
      d.firm.queues.Shape rs ws ∧ QRep d.firm.queues.heap d.firm.queues.cEQueue cs ∧
      ReadAccounts d.firm.rb (cs ++ rs) ∧ HandedOver d ∧
      ∀ ev ∈ d.log, ∀ e, ev.call ≠ .error e := by
  obtain ⟨d, rs, ws, cs, hd, h⟩ :=
    serveAll_inv hnew (initIoBuffer_inv g True b) reqs hreq hwrite fun _ => hread
  refine ⟨d, rs, ws, cs, hd, h.core.queues.toShape, h.core.queues.completed, (h.rb trivial).accounts,
    h.handedOver, fun ev hev e hcall => ?_⟩
  obtain ⟨rs', ws', -, hok⟩ := h.log ev hev
  rw [hcall] at hok
  exact hok trivial

/-- Reads that the FTL and the write buffer serve, until the read buffer is full. -/
theorem run_readAccounts_smallBuffers : ∃ d rs ws cs,
    (initIoBuffer smallBuffers).serveAll smallDevice (fun _ => .success)
      [.read 0 3, .write 4 2, .read 4 2, .read 9 3, .read 1 7] = .ok d ∧
    d.firm.queues.Shape rs ws ∧ QRep d.firm.queues.heap d.firm.queues.cEQueue cs ∧
    ReadAccounts d.firm.rb (cs ++ rs) ∧ d.firm.rb.emptyReadBufferFrame = 1 := by
  obtain ⟨d, rs, ws, cs, hd, hshape, hcs, hacc, -⟩ :=
    run_readAccounts (b := smallBuffers) (g := smallDevice) (fun _ => .success) (fun _ => rfl)
      [.read 0 3, .write 4 2, .read 4 2, .read 9 3, .read 1 7] (by decide) (by decide) (by decide)
  have hempty : ((initIoBuffer smallBuffers).serveAll smallDevice (fun _ => .success)
      [.read 0 3, .write 4 2, .read 4 2, .read 9 3, .read 1 7]).map
      (fun d => d.firm.rb.emptyReadBufferFrame) = .ok 1 := by decide +kernel
  rw [hd] at hempty
  exact ⟨d, rs, ws, cs, hd, hshape, hcs, hacc, Except.ok.inj hempty⟩

/-! ### Rejected requests -/

/-- With no event pending, all frames of the write buffer are free. -/
def Reclaimed (d : Device b) : Prop :=
  d.firm.queues.eQueue.count = 0 →
    (∀ p, (d.firm.wb.frames p).valid = .zero) ∧
      d.firm.wb.emptyWriteBufferFrame = b.writeBufferFrameNb

private theorem Core.reclaimed (h : Core g reqs d.firm rs ws cs [] []) : Reclaimed d := by
  intro hcount
  obtain ⟨rfl, rfl⟩ := List.append_eq_nil_iff.mp (h.queues.pending.count_eq_zero.mp hcount)
  refine ⟨fun p => h.wb.zero p (by simp), ?_⟩
  have hempty := h.wb.empty
  simpa using hempty

/-- **Buffered mode with requests that the FTL accepts.** For every sequence of requests within the
device that fit into the buffers, as long as pages can be allocated: the frames of the events that
have left the queue are reclaimed, also after a flush, and completed reads are consumed where
`sata_read_ptr` points. -/
theorem run_reclaimed (newPage : ℕ → Ret) (hnew : ∀ n, newPage n = .success)
    (reqs : List Request) (hreq : ∀ req ∈ reqs, req.InRange g)
    (hwrite : ∀ req ∈ reqs, req.WriteFits b) (hread : ∀ req ∈ reqs, req.ReadFits b) :
    ∃ d d', (initIoBuffer b).serveAll g newPage reqs = .ok d ∧ Reclaimed d ∧ HandedOver d ∧
      d.secureWriteBuffer g newPage = .ok d' ∧ d'.firm.queues.eQueue.count = 0 ∧ Reclaimed d' ∧
      HandedOver d' := by
  obtain ⟨d, rs, ws, cs, hd, h⟩ :=
    serveAll_inv hnew (initIoBuffer_inv g True b) reqs hreq hwrite fun _ => hread
  obtain ⟨d', cs', hd', h', hlog⟩ := h.secureWriteBuffer hnew
  refine ⟨d, d', hd, h.core.reclaimed, h.handedOver, hd', h'.queues.pending.count, h'.reclaimed, ?_⟩
  intro ev hev e hcall
  rcases hlog ev hev with ⟨rs', ws', -, hok⟩ | ⟨-, m, hm⟩
  · rw [hcall] at hok
    exact hok trivial
  · rw [hcall] at hm
    exact absurd hm (by simp)

/-- The run of the accounts, with a flush at the end. -/
theorem run_reclaimed_smallBuffers : ∃ d d',
    (initIoBuffer smallBuffers).serveAll smallDevice (fun _ => .success)
      [.write 0 3, .write 1 3, .read 12 1, .write 8 2] = .ok d ∧
    d.secureWriteBuffer smallDevice (fun _ => .success) = .ok d' ∧
    d'.firm.wb.emptyWriteBufferFrame = 8 := by
  obtain ⟨d, d', hd, -, -, hd', hcount, hrec, -⟩ :=
    run_reclaimed (b := smallBuffers) (g := smallDevice) (fun _ => .success) (fun _ => rfl)
      [.write 0 3, .write 1 3, .read 12 1, .write 8 2] (by decide) (by decide) (by decide)
  exact ⟨d, d', hd, hd', (hrec hcount).2⟩

/-- The device has 16 sectors. A write of two sectors from the last one on is rejected when it is
flushed, and its frames stay `'V'`. After a read of these sectors the next read is consumed
at the wrong place. -/
theorem rejected_notReclaimed :
    (∃ d d', (initIoBuffer smallBuffers).serveAll smallDevice (fun _ => .success)
        [.write 15 2] = .ok d ∧
      d.secureWriteBuffer smallDevice (fun _ => .success) = .ok d' ∧ ¬ Reclaimed d') ∧
    ∃ d, (initIoBuffer smallBuffers).serveAll smallDevice (fun _ => .success)
        [.read 15 2, .read 0 1, .read 0 8] = .ok d ∧ ¬ HandedOver d := by
  refine ⟨?_, ?_⟩
  · obtain ⟨d, hd, hd'⟩ := exists_ok (x := (initIoBuffer smallBuffers).serveAll smallDevice
        (fun _ => .success) [.write 15 2])
      (fun d => (d.secureWriteBuffer smallDevice (fun _ => .success)).toOption.any
        fun d' : Device smallBuffers => decide (d'.firm.queues.eQueue.count = 0 ∧
          (d'.firm.wb.frames ⟨0, smallBuffers.writeBufferFrameNb_pos⟩).valid = .valid))
      (by decide +kernel)
    obtain ⟨d', hd', hP⟩ := exists_ok _ hd'
    obtain ⟨hcount, hvalid⟩ := of_decide_eq_true hP
    refine ⟨d, d', hd, hd', fun hrec => ?_⟩
    rw [(hrec hcount).1] at hvalid
    exact absurd hvalid (by simp)
  · obtain ⟨d, hd, hP⟩ := exists_ok (x := (initIoBuffer smallBuffers).serveAll smallDevice
        (fun _ => .success) [.read 15 2, .read 0 1, .read 0 8])
      (fun d => d.log.any fun ev => match ev.call with
        | .toHost e => decide (e.buf ≠ some (.rb ev.firm.rb.sataReadPtr))
        | _ => false) (by decide +kernel)
    refine ⟨d, hd, fun hover => ?_⟩
    obtain ⟨ev, hev, htest⟩ := List.any_eq_true.mp hP
    split at htest
    · next e hcall => exact of_decide_eq_true htest (hover ev hev e hcall)
    · exact absurd htest (by simp)

end Vssim
