import Vssim.Firm.Serve

/-!
# The order of reads and writes

Reads overtake pending writes, covered writes are dropped, adjacent and overlapping ones are merged.
Still `e_queue` is a run of reads followed by a run of writes, a read that the FTL executes finds
the data of the last write before it, and flushing the queue leaves the last write of every sector
in the FTL (`run_writeOrder`).
-/

namespace Vssim

open LinkedHeap

variable {b : BufferConfig} {g : Geometry} {newPage : ℕ → Ret} {fit : Prop} {reqs : List Request}
  {rs ws cs : List (EventAt b)} {d : Device b}

/-- `e_queue` is a run of reads followed by a run of writes, and `last_read_entry`, `entry_nb`, `head`
and `tail` match. -/
def QueueOk (q : EventQueues b) : Prop := ∃ rs ws, q.Shape rs ws

/-- What the firmware guarantees about the order of the requests `reqs`, now and at every call so
far. -/
structure WriteOrder (reqs : List Request) (d : Device b) : Prop where
  queue : QueueOk d.firm.queues
  queueAtCalls : ∀ ev ∈ d.log, QueueOk ev.firm.queues
  /-- Whenever `FTL_READ` runs, it is for one of the reads, and the FTL holds for each of its sectors
  the stamp of the last write before that read. -/
  ftlReads : ∀ ev ∈ d.log, ∀ requestNb sectorNb length,
    ev.call = .ftlRead requestNb sectorNb length →
      reqs[requestNb]? = some (.read sectorNb length) ∧
        ∀ x, Covers sectorNb length x →
          ev.firm.store x = lastStamp (ssdWrites (reqs.take requestNb)) x

/-- The order of the calls that are in order. -/
theorem WriteOrder.of_log (hqueue : QueueOk d.firm.queues)
    (hlog : ∀ ev ∈ d.log, CallOk fit reqs ev ∨ QueueOk ev.firm.queues ∧ ∃ e, ev.call = .error e) :
    WriteOrder reqs d where
  queue := hqueue
  queueAtCalls ev hev := by
    rcases hlog ev hev with ⟨rs, ws, hshape, -⟩ | ⟨hq, -⟩
    · exact ⟨rs, ws, hshape⟩
    · exact hq
  ftlReads ev hev requestNb sectorNb length hcall := by
    rcases hlog ev hev with ⟨rs, ws, -, hok⟩ | ⟨-, e, he⟩
    · rw [hcall] at hok
      exact hok
    · rw [hcall] at he
      exact absurd he (by simp)

/-- `SECURE_WRITE_BUFFER` between two requests. With an empty queue it prints an error message and
does nothing. -/
theorem FirmInv.secureWriteBuffer (hnew : ∀ n, newPage n = .success)
    (h : FirmInv g fit reqs d rs ws cs) :
    ∃ d' cs', d.secureWriteBuffer g newPage = .ok d' ∧ Core g reqs d'.firm [] [] cs' [] [] ∧
      ∀ ev ∈ d'.log, CallOk fit reqs ev ∨ QueueOk ev.firm.queues ∧ ∃ e, ev.call = .error e := by
  rcases eq_or_ne (rs ++ ws) [] with hnil | hne
  · obtain ⟨rfl, rfl⟩ := List.append_eq_nil_iff.mp hnil
    have htail : d.firm.queues.eQueue.tail = none := h.core.queues.pending.tail
    refine ⟨d.note (.error .flushEventQueueUntilInvalidEventPointer), cs, ?_, h.core, fun ev hev => ?_⟩
    · rw [Device.secureWriteBuffer, htail]
      rfl
    · rcases List.mem_append.mp hev with hev | hev
      · exact .inl (h.log ev hev)
      · rw [List.mem_singleton.mp hev]
        exact .inr ⟨⟨[], [], h.core.queues.toShape⟩, _, rfl⟩
  · obtain ⟨d', cs', hd', h', -, hquiet⟩ := h.core.secureWriteBuffer hnew hne h.rb
    obtain ⟨evs, hlog, hevs⟩ := hquiet.log
    refine ⟨d', cs', hd', h', fun ev hev => .inl ?_⟩
    rw [hlog] at hev
    exact (List.mem_append.mp hev).elim (h.log ev) fun hev => (hevs ev hev).1

/-- **Write-buffer ordering.** For every sequence of requests within the device that fit into the
buffers, as long as pages can be allocated: the queue is always in order, the FTL reads what the
last write before the read has written, and `SECURE_WRITE_BUFFER` leaves the last write of every
sector in the FTL. -/
theorem run_writeOrder (newPage : ℕ → Ret) (hnew : ∀ n, newPage n = .success)
    (reqs : List Request) (hreq : ∀ req ∈ reqs, req.InRange g)
    (hwrite : ∀ req ∈ reqs, req.WriteFits b) (hread : ∀ req ∈ reqs, req.ReadFits b) :
    ∃ d d', (initIoBuffer b).serveAll g newPage reqs = .ok d ∧ WriteOrder reqs d ∧
      d.secureWriteBuffer g newPage = .ok d' ∧ WriteOrder reqs d' ∧
      ∀ x, d'.firm.store x = lastStamp (ssdWrites reqs) x := by
  obtain ⟨d, rs, ws, cs, hd, h⟩ :=
    serveAll_inv hnew (initIoBuffer_inv g True b) reqs hreq hwrite fun _ => hread
  obtain ⟨d', cs', hd', h', hlog⟩ := h.secureWriteBuffer hnew
  refine ⟨d, d', hd, .of_log ⟨rs, ws, h.core.queues.toShape⟩ fun ev hev => .inl (h.log ev hev), hd',
    .of_log ⟨[], [], h'.queues.toShape⟩ hlog, fun x => ?_⟩
  exact congrFun h'.value x

/-- Buffers of eight frames. -/
def smallBuffers : BufferConfig where
  writeBufferFrameNb := 8
  readBufferFrameNb := 8
  writeBufferFrameNb_pos := by decide
  readBufferFrameNb_pos := by decide
  writeBufferFrameNb_lt := by decide
  readBufferFrameNb_lt := by decide

/-- A computation that succeeds with a result that passes a test. -/
theorem exists_ok {α : Type} {x : Except Fault α} (P : α → Bool) (h : x.toOption.any P = true) :
    ∃ a, x = .ok a ∧ P a = true := by
  cases x with
  | error e => simp [Except.toOption] at h
  | ok a => exact ⟨a, rfl, by simpa [Except.toOption] using h⟩

/-- Overlapping and adjacent writes, a read that the write buffer serves in part, and a write that
covers pending ones. -/
theorem run_writeOrder_smallBuffers : ∃ d d',
    (initIoBuffer smallBuffers).serveAll smallDevice (fun _ => .success)
      [.write 0 4, .write 2 4, .write 6 1, .read 1 8, .write 9 3, .write 8 5, .read 9 2] = .ok d ∧
    d.secureWriteBuffer smallDevice (fun _ => .success) = .ok d' ∧
    d'.firm.store 2 = some 1 ∧ d'.firm.store 9 = some 4 := by
  obtain ⟨d, d', hd, -, hd', -, hstore⟩ :=
    run_writeOrder (b := smallBuffers) (g := smallDevice) (fun _ => .success) (fun _ => rfl)
      [.write 0 4, .write 2 4, .write 6 1, .read 1 8, .write 9 3, .write 8 5, .read 9 2]
      (by decide) (by decide) (by decide)
  refine ⟨d, d', hd, hd', ?_, ?_⟩
  · rw [hstore]
    decide
  · rw [hstore]
    decide

end Vssim
