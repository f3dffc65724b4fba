import Vssim.Firm.Handshake

/-!
# The SSD thread that works while requests come

With `SSD_THREAD_MODE_1` the SSD thread takes an event off the queue as soon as there is one, while
the host thread goes on with the next request. Whatever the schedule, the threads keep the invariant
of the firmware (`Works`): the queue is in order, the FTL reads what it has to read, and once the
queue is empty it holds the last write of every sector (`mode1_ordered`). No wake-up is lost: when
the host thread stands still, the SSD thread empties the queue (`mode1_drains`).

The flags `r_queue_full` and `w_queue_full` are lowered only by the code of `SSD_THREAD_MODE_2`. A
request that finds its buffer full never returns, even if the buffer is emptied
(`mode1_never_returns`).
-/

namespace Vssim

open LinkedHeap

variable {b : BufferConfig} {g : Geometry} {newPage : ℕ → Ret} {fit : Prop} {reqs : List Request}
  {rs ws us cs : List (EventAt b)} {fs : List (ℕ × SNode (EventQueueEntry b))}
  {orphans : List (WbPtr b)} {r w : EventAt b} {d : Device b} {req : Request}

/-! ### The two parts of `DEQUEUE_IO` -/

/-- The first part of `DEQUEUE_IO` with the event `r` at the head. -/
private theorem Device.takeEvent_eq (g : Geometry) (newPage : ℕ → Ret)
    (hq : d.firm.queues.Rep rs ws cs fs) (hhead : rs ++ ws = r :: us) :
    ∃ n, d.firm.queues.heap.cell r.1 = some ⟨r.2, n⟩ ∧
      d.takeEvent g newPage =
        (d.setQueues (d.firm.queues.unlinkHead r.1 ⟨r.2, n⟩)).execute g newPage r.1 r.2 >>=
          fun d => .ok (some (r.1, r.2.ioType), d) := by
  obtain ⟨hcount, hfirst, n, hcell, hderef⟩ := hq.head hhead
  refine ⟨n, hcell, ?_⟩
  simp only [Device.takeEvent, if_neg hcount, hfirst, hderef, ok_bind]

/-- A write is stored in the first part of `DEQUEUE_IO`. -/
private theorem Core.takeEvent_write (hnew : ∀ n, newPage n = .success) (fit : Prop)
    (h : Core g reqs d.firm [] (w :: ws) cs fs orphans) :
    ∃ d', d.takeEvent g newPage = .ok (some (w.1, .write), d') ∧
      Core g reqs d'.firm [] ws cs fs (if w.2.valid then [] else orphans ++ w.2.frames) ∧
      d'.firm.rb = d.firm.rb ∧ Quiet fit reqs d d' := by
  obtain ⟨d', hd', h', hrb, hquiet⟩ := h.dequeueIo_write hnew fit
  refine ⟨d', ?_, h', hrb, hquiet⟩
  obtain ⟨n, -, hrun⟩ := Device.takeEvent_eq g newPage h.queues (List.nil_append _)
  rw [Device.dequeueIo_eq_takeEvent] at hd'
  obtain ⟨taken, htaken, hd'⟩ := Except.bind_eq_ok hd'
  obtain ⟨d₁, -, hok⟩ := Except.bind_eq_ok (hrun.symm.trans htaken)
  cases hok
  have htype : w.2.ioType = .write := h.queues.writes w (by simp)
  rw [htype] at htaken hd'
  cases hd'
  exact htaken

/-- The FTL has room for no less after a write has left the queue. -/
private theorem Core.emptyWriteBufferFrame_le {d' : Device b} {n : ℕ}
    (h : Core g reqs d.firm [] (w :: ws) cs fs orphans)
    (h' : Core g reqs d'.firm [] ws cs fs (if w.2.valid then [] else orphans ++ w.2.frames))
    (hn : (n : ℤ) ≤ d.firm.wb.emptyWriteBufferFrame) :
    (n : ℤ) ≤ d'.firm.wb.emptyWriteBufferFrame := by
  have hempty := h.wb.empty
  have hempty' := h'.wb.empty
  split at hempty' <;>
    simp only [ownedFrames_cons, List.length_append, List.length_nil] at hempty hempty' <;> omega

/-- A read is executed in the first part of `DEQUEUE_IO`, and is in no queue after it. -/
private theorem Core.takeEvent_read (newPage : ℕ → Ret)
    (h : Core g reqs d.firm (r :: rs) ws cs fs orphans)
    (hrb : fit → RbOk d.firm.rb cs (r :: rs)) :
    ∃ d' e n, d.takeEvent g newPage = .ok (some (r.1, .read), d') ∧ e.buf ≠ none ∧
      Core g reqs d'.firm rs ws cs ((r.1, ⟨e, n⟩) :: fs) orphans ∧
      (fit → RbOk d'.firm.rb cs ((r.1, e) :: rs)) ∧ d'.firm.wb = d.firm.wb ∧
      d'.firm.rb.emptyReadBufferFrame = d.firm.rb.emptyReadBufferFrame ∧ Quiet fit reqs d d' := by
  obtain ⟨n, hcell, hrun⟩ := Device.takeEvent_eq g newPage h.queues List.cons_append
  have htype : r.2.ioType = .read := h.queues.reads r (by simp)
  have hread := h.reads r (by simp)
  have hreads : ∀ x ∈ rs, PendingRead g reqs d.firm.store x.2 :=
    fun x hx => h.reads x (List.mem_cons_of_mem _ hx)
  have hq := h.queues.unlink_read hcell
  set q := d.firm.queues.unlinkHead r.1 ⟨r.2, n⟩ with hqdef
  rw [htype] at hrun
  rcases hbuf : r.2.buf with _ | p
  · -- the FTL executes it
    have hq₁ := hq.modify_float fun e => { e with buf := some (.rb d.firm.rb.ftlReadPtr) }
    set q₁ := q.modify r.1 fun e => { e with buf := some (.rb d.firm.rb.ftlReadPtr) } with hq₁def
    set rb := { d.firm.rb.increaseRbFtlPointer r.2.length with
      readLimitPtr := (d.firm.rb.increaseRbFtlPointer r.2.length).ftlReadPtr } with hrbdef
    set d₁ := (((d.setQueues q₁).note (.ftlRead r.2.requestNb r.2.sectorNb r.2.length)).setRb rb)
      with hd₁
    have hexec : (d.setQueues q).execute g newPage r.1 r.2 = .ok d₁ := by
      rw [Device.execute, if_pos hread.valid]
      simp only [htype, hbuf, if_true]
      exact Device.ftlRead_eq hread.inRange
    refine ⟨d₁, { r.2 with buf := some (.rb d.firm.rb.ftlReadPtr) }, n, ?_, by simp, ?_,
      fun hfit => (hrb hfit).execute_unowned hbuf _, rfl, ?_, ?_⟩
    · rw [hrun, hexec]
      rfl
    · exact { h with queues := hq₁, reads := hreads }
    · change rb.emptyReadBufferFrame = _
      rw [hrbdef, ReadBuffer.increaseRbFtlPointer]
    · have hcall : CallOk fit reqs
          ⟨.ftlRead r.2.requestNb r.2.sectorNb r.2.length, (d.setQueues q₁).firm⟩ :=
        ⟨rs, ws, hq₁.toShape, hread.request, hread.upToDate hbuf⟩
      exact (((Quiet.refl d).setQueues q₁).note ⟨hcall, rfl⟩).setRb rb
  · -- its data came from the write buffer
    have hexec : (d.setQueues q).execute g newPage r.1 r.2 = .ok (d.setQueues q) := by
      rw [Device.execute, if_pos hread.valid]
      simp [htype, hbuf]
    refine ⟨d.setQueues q, r.2, n, ?_, by simp [hbuf], ?_, fun hfit => hrb hfit, rfl, rfl,
      (Quiet.refl d).setQueues q⟩
    · rw [hrun, hexec]
      rfl
    · exact { h with queues := hq, reads := hreads }

/-- **`ENQUEUE_READ`**, whether the write buffer serves the read or not. -/
theorem Core.enqueueRead (hnew : ∀ n, newPage n = .success)
    (h : Core g reqs d.firm rs ws cs [] orphans) (hrb : fit → RbOk d.firm.rb cs rs)
    {sectorNb : ℤ} {length : ℕ}
    (hroom : fit → totalLength cs + totalLength rs + length ≤ b.readBufferFrameNb)
    (hreq : InRange g sectorNb length) (hnb : d.firm.requestNb = reqs.length) :
    ∃ d' rs' ws' cs' orphans', d.enqueueRead g newPage sectorNb length = .ok d' ∧
      Core g (reqs ++ [.read sectorNb length]) d'.firm rs' ws' cs' [] orphans' ∧
      (fit → RbOk d'.firm.rb cs' rs') ∧ Device.Extends (CallOk fit reqs) d d' ∧
      d'.firm.requestNb = d.firm.requestNb ∧ d'.firm.writeNb = d.firm.writeNb := by
  rcases hhit : bufferHit sectorNb length ws with _ | w
  · obtain ⟨d', rs', ws', cs', orphans', hd', h', -, hrb', hquiet⟩ :=
      h.enqueueRead_miss hnew hrb hroom hreq hnb hhit
    exact ⟨d', rs', ws', cs', orphans', hd', h', hrb', hquiet.log.imp fun _ => And.left,
      hquiet.requestNb, hquiet.writeNb⟩
  · obtain ⟨d', d₁, evs, s, rs', ws', cs', p, offset, hd', h', hrb', hquiet, hlog, hfirm, -, hshape,
      hcopies, -, -, -⟩ := h.enqueueRead_hit hnew hrb hroom hreq hnb hhit
    have hcalls : ∀ ev ∈ evs, CallOk fit reqs ev := fun ev hev => hcopies.callOk hshape hev
    refine ⟨d', rs', ws', cs', [], hd', h', hrb',
      (hquiet.log.imp fun _ => And.left).trans ⟨evs, hlog, hcalls⟩, ?_, ?_⟩
    · rw [hfirm, ← hquiet.requestNb]
    · rw [hfirm, ← hquiet.writeNb]

/-! ### The invariant of the firmware between two turns -/

/-- The cell of the read that the SSD thread has executed and not completed. -/
def InFlight (ssd : SsdStmt) (fs : List (ℕ × SNode (EventQueueEntry b))) : Prop :=
  match ssd with
  | .lockCq a .read | .complete a .read => ∃ e n, fs = [(a, ⟨e, n⟩)] ∧ e.buf ≠ none
  | _ => fs = []

/-- The events that some cells hold. -/
def events (fs : List (ℕ × SNode (EventQueueEntry b))) : List (EventAt b) :=
  fs.map fun x => (x.1, x.2.val)

/-- The invariant of the firmware, when `reqs` have been put on the queue and the SSD thread is at
`ssd`. In the read buffer, a read in flight is still one of those before the completed ones. -/
structure Working (g : Geometry) (reqs : List Request) (ssd : SsdStmt) (d : Device b)
    (rs ws cs : List (EventAt b)) (fs : List (ℕ × SNode (EventQueueEntry b)))
    (orphans : List (WbPtr b)) : Prop where
  core : Core g reqs d.firm rs ws cs fs orphans
  rb : RbOk d.firm.rb cs (events fs ++ rs)
  inFlight : InFlight ssd fs
  requestNb : d.firm.requestNb = reqs.length
  writeNb : d.firm.writeNb = (ssdWrites reqs).length
  log : ∀ ev ∈ d.log, CallOk True reqs ev

/-- `Working` for the queues as they are. -/
def Works (g : Geometry) (reqs : List Request) (ssd : SsdStmt) (d : Device b) : Prop :=
  ∃ rs ws cs fs orphans, Working g reqs ssd d rs ws cs fs orphans

/-- There is room for a request. -/
def Request.Room (d : Device b) : Request → Prop
  | .write _ length => (length : ℤ) ≤ d.firm.wb.emptyWriteBufferFrame
  | .read _ length => (length : ℤ) ≤ d.firm.rb.emptyReadBufferFrame

/-- The number of pending events. -/
abbrev Device.entryNb (d : Device b) : ℕ := d.firm.queues.eQueue.count

namespace Works

variable {ssd ssd' : SsdStmt} {d' : Device b} {a : ℕ} {ioType : IoType}

private theorem start (g : Geometry) (b : BufferConfig) : Works g [] .lockEq (initIoBuffer b) := by
  have h := initIoBuffer_inv g True b
  exact ⟨[], [], [], [], [], h.core, h.rb trivial, rfl, h.requestNb, h.writeNb, h.log⟩

/-- The SSD thread goes on without touching the device. -/
private theorem move (h : Works g reqs ssd d)
    (hmove : ∀ fs, InFlight (b := b) ssd fs → InFlight ssd' fs) :
    Works g reqs ssd' d := by
  obtain ⟨rs, ws, cs, fs, orphans, h⟩ := h
  exact ⟨rs, ws, cs, fs, orphans, { h with inFlight := hmove fs h.inFlight }⟩

/-- A quiet step. -/
private theorem quiet {rs' ws' cs' : List (EventAt b)} {fs' : List (ℕ × SNode (EventQueueEntry b))}
    {orphans' : List (WbPtr b)} (h : Working g reqs ssd d rs ws cs fs orphans)
    (hcore : Core g reqs d'.firm rs' ws' cs' fs' orphans')
    (hrb : RbOk d'.firm.rb cs' (events fs' ++ rs')) (hflight : InFlight ssd' fs')
    (hquiet : Quiet True reqs d d') : Works g reqs ssd' d' := by
  obtain ⟨evs, hlog, hevs⟩ := hquiet.log
  refine ⟨rs', ws', cs', fs', orphans', hcore, hrb, hflight, hquiet.requestNb.trans h.requestNb,
    hquiet.writeNb.trans h.writeNb, ?_⟩
  intro ev hev
  rw [hlog] at hev
  exact (List.mem_append.mp hev).elim (h.log ev) fun hev => (hevs ev hev).1

/-- The host thread takes the completed reads, whatever the SSD thread is doing. -/
theorem dequeueCompletedRead (h : Works g reqs ssd d) :
    ∃ d', d.dequeueCompletedRead = .ok d' ∧ Works g reqs ssd d' ∧ d'.entryNb = d.entryNb := by
  obtain ⟨rs, ws, cs, fs, orphans, h⟩ := h
  obtain ⟨d', hd', h', hrb, -, hquiet⟩ := h.core.dequeueCompletedRead fun _ : True => h.rb
  refine ⟨d', hd', quiet h h' (hrb trivial) h.inFlight hquiet, ?_⟩
  rw [Device.entryNb, Device.entryNb, h'.queues.pending.count, h.core.queues.pending.count]

/-- The SSD thread takes an event off the queue. -/
private theorem takeEvent (hnew : ∀ n, newPage n = .success) (h : Works g reqs .body d)
    (hcount : d.entryNb ≠ 0) :
    ∃ d' a ioType, d.takeEvent g newPage = .ok (some (a, ioType), d') ∧
      Works g reqs (.lockCq a ioType) d' ∧ d.entryNb = d'.entryNb + 1 ∧
      ∀ req : Request, req.Room d → req.Room d' := by
  obtain ⟨rs, ws, cs, fs, orphans, h⟩ := h
  obtain rfl : fs = [] := h.inFlight
  have hlen := h.core.queues.pending.count
  rcases rs with _ | ⟨r, rs⟩
  · rcases ws with _ | ⟨w, ws⟩
    · exact absurd hlen hcount
    · obtain ⟨d', hd', h', hrb, hquiet⟩ := h.core.takeEvent_write hnew True
      have hrb' : RbOk d'.firm.rb cs (events [] ++ []) := hrb ▸ h.rb
      refine ⟨d', w.1, .write, hd', quiet h h' hrb' rfl hquiet, ?_, ?_⟩
      · rw [Device.entryNb, Device.entryNb, hlen, h'.queues.pending.count]
        simp
      · rintro (⟨x, n⟩ | ⟨x, n⟩) hroom
        · exact h.core.emptyWriteBufferFrame_le h' hroom
        · rw [Request.Room, hrb]
          exact hroom
  · obtain ⟨d', e, n, hd', hbuf, h', hrb, hwb, hempty, hquiet⟩ :=
      h.core.takeEvent_read newPage fun _ : True => h.rb
    refine ⟨d', r.1, .read, hd', quiet h h' (hrb trivial) ⟨e, n, rfl, hbuf⟩ hquiet, ?_, ?_⟩
    · rw [Device.entryNb, Device.entryNb, hlen, h'.queues.pending.count]
      simp only [List.cons_append, List.length_cons]
    · rintro (⟨x, m⟩ | ⟨x, m⟩) hroom
      · rw [Request.Room, hwb]
        exact hroom
      · rw [Request.Room, hempty]
        exact hroom

/-- The SSD thread completes the event. -/
theorem completeEvent (h : Works g reqs (.complete a ioType) d) :
    ∃ d', d.completeEvent a ioType = .ok d' ∧ Works g reqs .unlockCq d' ∧
      d'.entryNb = d.entryNb ∧ ∀ req : Request, req.Room d → req.Room d' := by
  obtain ⟨rs, ws, cs, fs, orphans, h⟩ := h
  by_cases htype : ioType = .read
  · subst htype
    obtain ⟨e, n, rfl, hbuf⟩ := h.inFlight
    obtain ⟨q, hq, hrep⟩ := h.core.queues.completeRead
    refine ⟨d.setQueues q, ?_, ?_, ?_, ?_⟩
    · rw [Device.completeEvent, if_pos rfl, hq]
      rfl
    · exact quiet h { h.core with queues := hrep } (h.rb.complete_owned hbuf) rfl
        ((Quiet.refl d).setQueues q)
    · rw [Device.entryNb, Device.entryNb, h.core.queues.pending.count]
      exact hrep.pending.count
    · rintro (_ | _) hroom <;> exact hroom
  · refine ⟨d, if_neg htype, ?_, rfl, fun _ => id⟩
    refine Works.move ⟨rs, ws, cs, fs, orphans, h⟩ fun fs hfs => ?_
    cases ioType <;> first | exact absurd rfl htype | exact hfs

/-- The host thread puts a request on the queue, while the SSD thread does not hold `eq_lock`. -/
private theorem enqueueIo (hnew : ∀ n, newPage n = .success) (h : Works g reqs ssd d)
    (hssd : ssd.holdsEq = false) (hreq : req.InRange g) (hroom : req.Room d) :
    ∃ d', d.enqueueIo g newPage req.ioType req.sectorNb req.length = .ok d' ∧
      Works g (reqs ++ [req]) ssd (d'.countRequest req) := by
  obtain ⟨rs, ws, cs, fs, orphans, h⟩ := h
  have hnil : ∀ fs, InFlight (b := b) ssd fs ↔ fs = [] := by
    intro fs
    cases ssd <;> first | exact Iff.rfl | simp [SsdStmt.holdsEq] at hssd
  obtain rfl := (hnil fs).mp h.inFlight
  have hlogs : ∀ {d' : Device b}, Device.Extends (CallOk True reqs) d d' →
      ∀ ev ∈ d'.log, CallOk True (reqs ++ [req]) ev := by
    rintro d' ⟨evs, hlog, hevs⟩ ev hev
    rw [hlog] at hev
    exact ((List.mem_append.mp hev).elim (h.log ev) (hevs ev)).mono
  cases req with
  | write sectorNb length =>
    obtain ⟨d', ws', hd', h', hfirm, hlog⟩ := h.core.enqueueWrite True hroom hreq h.writeNb
    refine ⟨d', hd', rs, ws', cs, [], orphans, ?_⟩
    exact
      { core := { h' with }
        rb := by
          have hrb : d'.firm.rb = d.firm.rb := by rw [hfirm]
          exact hrb ▸ h.rb
        inFlight := (hnil []).mpr rfl
        requestNb := by
          have hnb : d'.firm.requestNb = d.firm.requestNb := by rw [hfirm]
          rw [Device.countRequest, hnb, h.requestNb, List.length_append]
          rfl
        writeNb := by
          have hnb : d'.firm.writeNb = d.firm.writeNb := by rw [hfirm]
          rw [Device.countRequest, hnb, h.writeNb, ssdWrites_write, List.length_append]
          rfl
        log := hlogs (hlog.imp fun _ => And.left) }
  | read sectorNb length =>
    have hfits : totalLength cs + totalLength rs + length ≤ b.readBufferFrameNb := by
      obtain ⟨hs, ns, heq, hrep⟩ := h.rb
      have hempty := hrep.empty
      have hle := hrep.le
      obtain rfl : rs = hs ++ ns := heq
      have hroom : (length : ℤ) ≤ d.firm.rb.emptyReadBufferFrame := hroom
      simp only [totalLength_append] at hempty ⊢
      omega
    obtain ⟨d', rs', ws', cs', orphans', hd', h', hrb, hlog, hrequestNb, hwriteNb⟩ :=
      h.core.enqueueRead hnew (fun _ : True => h.rb) (fun _ => hfits) hreq h.requestNb
    refine ⟨d', hd', rs', ws', cs', [], orphans', ?_⟩
    exact
      { core := { h' with }
        rb := hrb trivial
        inFlight := (hnil []).mpr rfl
        requestNb := by
          rw [Device.countRequest, hrequestNb, h.requestNb, List.length_append]
          rfl
        writeNb := by rw [Device.countRequest, hwriteNb, h.writeNb, ssdWrites_read]
        log := hlogs hlog }

/-- A request for which the buffer is not full has room in it. -/
private theorem room (h : Works g reqs ssd d) (hfull : ¬ Threads.Full req d) : req.Room d := by
  obtain ⟨rs, ws, cs, fs, orphans, h⟩ := h
  cases req with
  | write sectorNb length =>
    have hroom : ¬ toU32 d.firm.wb.emptyWriteBufferFrame < length := fun hlt => hfull (if_pos hlt)
    have hempty := h.core.wb.empty
    have hle := h.core.wb.le
    have hlt := b.writeBufferFrameNb_lt
    have hu32 := toU32_of_nonneg (x := d.firm.wb.emptyWriteBufferFrame) (by omega) (by omega)
    rw [Request.Room]
    omega
  | read sectorNb length =>
    have hroom : ¬ toU32 d.firm.rb.emptyReadBufferFrame < length := fun hlt => hfull (if_pos hlt)
    obtain ⟨hs, ns, heq, hrep⟩ := h.rb
    have hempty := hrep.empty
    have hle := hrep.le
    have hlt := b.readBufferFrameNb_lt
    have hu32 := toU32_of_nonneg (x := d.firm.rb.emptyReadBufferFrame) (by omega) (by omega)
    rw [Request.Room]
    omega

/-- With an empty queue, the FTL has all writes and the write buffer is free. -/
private theorem empty (h : Works g reqs ssd d) (hcount : d.entryNb = 0) :
    (∀ x, d.firm.store x = lastStamp (ssdWrites reqs) x) ∧
      d.firm.wb.emptyWriteBufferFrame = b.writeBufferFrameNb := by
  obtain ⟨rs, ws, cs, fs, orphans, h⟩ := h
  have hlen : d.entryNb = (rs ++ ws).length := h.core.queues.pending.count
  rw [hcount] at hlen
  obtain ⟨rfl, rfl⟩ := List.append_eq_nil_iff.mp (List.length_eq_zero_iff.mp hlen.symm)
  obtain rfl := h.core.nil rfl
  refine ⟨fun x => h.core.store_eq (by simp), ?_⟩
  have hempty := h.core.wb.empty
  simpa using hempty

end Works

/-! ### The invariant of the threads -/

/-- The host thread is going to signal `eq_ready`. -/
def HostPc.signals : HostPc → Bool
  | .serving _ .unlockEq | .serving _ .signalReady => true
  | _ => false

variable {s s' : Threads b} {t : Threads.Turn} {eqLock cqLock : Option ThreadId} {host : HostPc}
  {ssd : SsdStmt} {todo : List Request}

namespace Threads

/-- What holds of the flags with `SSD_THREAD_MODE_1`, whether or not the calls of the threads
succeed. -/
structure Flags (s : Threads b) : Prop where
  raised : ∀ ioType, s.host.awaits = some ioType → s.queueFull ioType = true
  /-- Nobody lowers a flag. -/
  apart : ∀ ioType, s.ssd ≠ .lowerFlag ioType

namespace Flags

private theorem start (b : BufferConfig) (reqs : List Request) : Flags (start b reqs) where
  raised ioType hf := by cases hf
  apart ioType := by simp [Threads.start]

/-- The host thread signals `eq_ready`. -/
private theorem signal (h : Flags s)
    (hraised : ∀ ioType, host.awaits = some ioType → s.queueFull ioType = true) :
    Flags { s.signalEqReady with host } := by
  refine ⟨hraised, fun ioType hl => ?_⟩
  by_cases hasleep : s.ssd = .asleep
  · simp [signalEqReady, hasleep] at hl
  · exact h.apart ioType (by simpa [signalEqReady, hasleep] using hl)

/-- A turn of the host thread. -/
private theorem hostMove {mode : ThreadMode} (h : Flags s) (hmove : HostMove g newPage mode s s') :
    Flags s' := by
  -- the host thread awaits a flag only after it has raised it
  cases hmove with
  | @raiseFlag req hhost =>
    refine ⟨fun ioType hf => ?_, h.apart⟩
    cases hf
    exact Handshake.queueFull_raised req
  | stay hhost hflag =>
    refine ⟨fun ioType hf => ?_, h.apart⟩
    cases hf
    exact hflag
  | @signalFull req hhost =>
    refine h.signal fun ioType hf => ?_
    cases hf
    exact h.raised req.ioType (by rw [hhost]; rfl)
  | signalReady => exact h.signal (by simp [HostPc.awaits])
  | _ => exact ⟨by simp [HostPc.awaits], h.apart⟩

/-- A turn of the SSD thread. -/
private theorem ssdMove (h : Flags s) (hmove : SsdMove g newPage .mode1 s s') : Flags s' := by
  -- the two turns that lead to `lowerFlag` are those of the other mode
  cases hmove with
  | secureRead _ hmode => cases hmode
  | secureWrite _ hmode => cases hmode
  | lowerFlag hssd => exact absurd hssd (h.apart _)
  | _ => exact ⟨h.raised, by simp⟩

private theorem step (h : Flags s) (hstep : Step g newPage .mode1 s t s') : Flags s' := by
  rcases hstep.move with hmove | hmove | ⟨-, rfl⟩
  · exact h.hostMove hmove
  · exact h.ssdMove hmove
  · exact ⟨h.raised, by simp⟩

private theorem reachable (h : Reachable g newPage .mode1 reqs s) : Flags s := by
  obtain ⟨ts, htrace⟩ := h
  exact htrace.invariant (fun _ _ _ => step) (start b reqs)

end Flags

/-- What holds in every state with `SSD_THREAD_MODE_1`. -/
structure Worker (g : Geometry) (reqs : List Request) (s : Threads b) : Prop where
  locks : Locks s
  flags : Flags s
  works : Works g s.enqueued s.ssd s.device
  /-- The room that a request has found is still there when it is put on the queue. -/
  room : ∀ req, s.host = .serving req .lockEq ∨ s.host = .serving req .enqueueIo →
    req.Room s.device
  body : s.ssd = .body → s.device.entryNb ≠ 0
  /-- The SSD thread does not sleep while there is something to do. -/
  awake : s.ssd = .asleep → s.device.entryNb = 0 ∨ s.host.signals = true
  order : s.enqueued ++ (s.host.pending ++ s.todo) = reqs

namespace Worker

private theorem start (g : Geometry) (b : BufferConfig) (reqs : List Request) :
    Worker g reqs (start b reqs) where
  locks := .start b reqs
  flags := .start b reqs
  works := .start g b
  room req hreq := by simp [Threads.start] at hreq
  body hb := by cases hb
  awake ha := by cases ha
  order := rfl

/-- The host thread goes on without touching the device, a flag or the SSD thread. -/
theorem hostMove_elsewhere (h : Worker g reqs s)
    (hlocks : Locks { s with eqLock, cqLock, host, todo })
    (hflags : Flags { s with eqLock, cqLock, host, todo })
    (hroom : ∀ req, host = .serving req .lockEq ∨ host = .serving req .enqueueIo →
      req.Room s.device)
    (hsignals : s.host.signals = true → host.signals = true)
    (horder : s.enqueued ++ (host.pending ++ todo) = reqs) :
    Worker g reqs { s with eqLock, cqLock, host, todo } where
  locks := hlocks
  flags := hflags
  works := h.works
  room := hroom
  body := h.body
  awake ha := (h.awake ha).imp id hsignals
  order := horder

/-- The host thread signals `eq_ready`. -/
private theorem signal (h : Worker g reqs s) (hlocks : Locks { s.signalEqReady with host })
    (hflags : Flags { s.signalEqReady with host })
    (hroom : ∀ req, host ≠ .serving req .lockEq ∧ host ≠ .serving req .enqueueIo)
    (horder : s.enqueued ++ (host.pending ++ s.todo) = reqs) :
    Worker g reqs { s.signalEqReady with host } := by
  have hssd : s.signalEqReady.ssd = .awake ∨
      s.signalEqReady.ssd = s.ssd ∧ s.ssd ≠ .asleep := by
    by_cases hasleep : s.ssd = .asleep
    · exact .inl (by simp [signalEqReady, hasleep])
    · exact .inr ⟨by simp [signalEqReady, hasleep], hasleep⟩
  refine
    { locks := hlocks
      flags := hflags
      works := h.works.move fun fs hfs => ?_
      room := fun req hreq => absurd hreq (not_or.mpr (hroom req))
      body := fun hb => ?_
      awake := fun ha => ?_
      order := horder }
  · by_cases hasleep : s.ssd = .asleep
    · rw [hasleep] at hfs
      simp only [signalEqReady, hasleep, if_true]
      exact hfs
    · simpa [signalEqReady, hasleep] using hfs
  · rcases hssd with hssd | ⟨hssd, -⟩
    · cases hssd.symm.trans hb
    · exact h.body (hssd.symm.trans hb)
  · rcases hssd with hssd | ⟨hssd, hasleep⟩
    · cases hssd.symm.trans ha
    · exact absurd (hssd.symm.trans ha) hasleep

/-- The request that the host thread has not put on the queue yet is one of the requests. -/
private theorem inRange (hreqs : ∀ req ∈ reqs, req.InRange g) (h : Worker g reqs s)
    (hpending : s.host.pending = [req]) : req.InRange g := by
  refine hreqs req ?_
  rw [← h.order, hpending]
  simp

/-- The host thread puts its request on the queue: the SSD thread does not hold `eq_lock`. -/
private theorem enqueueIo (hnew : ∀ n, newPage n = .success) (hreqs : ∀ req ∈ reqs, req.InRange g)
    (h : Worker g reqs s) (hhost : s.host = .serving req .enqueueIo) :
    ∃ d', s.device.enqueueIo g newPage req.ioType req.sectorNb req.length = .ok d' ∧
      Works g (s.enqueued ++ [req]) s.ssd (d'.countRequest req) := by
  refine h.works.enqueueIo hnew ?_ ?_ ?_
  · exact h.locks.exclusive (by rw [hhost]; rfl)
  · exact h.inRange hreqs (by rw [hhost]; rfl)
  · exact h.room req (.inr hhost)

/-- A turn of the host thread. -/
private theorem hostMove (hnew : ∀ n, newPage n = .success) (hreqs : ∀ req ∈ reqs, req.InRange g)
    (h : Worker g reqs s) (hmove : HostMove g newPage .mode1 s s') : Worker g reqs s' := by
  have hlocks := h.locks.hostMove hmove
  have hflags := h.flags.hostMove hmove
  have horder := h.order
  cases hmove with
  | begin hhost htodo =>
    refine h.hostMove_elsewhere hlocks hflags (by simp) ?_ ?_
    · simp [hhost, HostPc.signals]
    · simpa [hhost, htodo, HostPc.pending] using horder
  | lockCq hhost _ =>
    refine h.hostMove_elsewhere hlocks hflags (by simp) ?_ ?_
    · simp [hhost, HostPc.signals]
    · simpa [hhost, HostPc.pending] using horder
  | dequeueCompletedRead hhost hrun =>
    obtain ⟨d', hd', hworks, hcount⟩ := h.works.dequeueCompletedRead
    cases hrun.symm.trans hd'
    refine
      { locks := hlocks
        flags := hflags
        works := hworks
        room := by simp
        body := fun hb => ?_
        awake := fun ha => ?_
        order := by simpa [hhost, HostPc.pending] using horder }
    · rw [hcount]
      exact h.body hb
    · rw [hcount]
      refine (h.awake ha).imp id fun hsig => ?_
      simp [hhost, HostPc.signals] at hsig
  | unlockCq hhost =>
    refine h.hostMove_elsewhere hlocks hflags (by simp) ?_ ?_
    · simp [hhost, HostPc.signals]
    · simpa [hhost, HostPc.pending] using horder
  | full hhost _ =>
    refine h.hostMove_elsewhere hlocks hflags (by simp) ?_ ?_
    · simp [hhost, HostPc.signals]
    · simpa [hhost, HostPc.pending] using horder
  | notFull hhost hfull =>
    refine h.hostMove_elsewhere hlocks hflags ?_ ?_ ?_
    · rintro req (hreq | hreq) <;> cases hreq
      exact h.works.room hfull
    · simp [hhost, HostPc.signals]
    · simpa [hhost, HostPc.pending] using horder
  | @raiseFlag req hhost =>
    refine
      { locks := hlocks
        flags := hflags
        works := h.works
        room := by simp
        body := h.body
        awake := fun ha => (h.awake ha).imp id fun hsig => ?_
        order := by simpa [hhost, HostPc.pending, setQueueFull] using horder }
    simp [hhost, HostPc.signals] at hsig
  | stay hhost _ =>
    refine h.hostMove_elsewhere hlocks hflags (by simp) ?_ ?_
    · simp [hhost, HostPc.signals]
    · simpa [hhost, HostPc.pending] using horder
  | leave hhost hflag =>
    have hset := h.flags.raised _ (by rw [hhost]; rfl)
    exact absurd (hflag.symm.trans hset) (by simp)
  | signalFull hhost =>
    refine h.signal hlocks hflags (by simp) ?_
    simpa [hhost, HostPc.pending] using horder
  | lockEq hhost _ =>
    refine h.hostMove_elsewhere hlocks hflags ?_ ?_ ?_
    · rintro req (hreq | hreq) <;> cases hreq
      exact h.room _ (.inl hhost)
    · simp [hhost, HostPc.signals]
    · simpa [hhost, HostPc.pending] using horder
  | @enqueueIo req device hhost _ hrun =>
    obtain ⟨d', hd', hworks⟩ := h.enqueueIo hnew hreqs hhost
    cases hrun.symm.trans hd'
    have hssd := h.locks.exclusive (by rw [hhost]; rfl)
    refine
      { locks := hlocks
        flags := hflags
        works := hworks
        room := by simp
        body := fun hb => ?_
        awake := fun _ => .inr rfl
        order := by simpa [hhost, HostPc.pending] using horder }
    rw [show s.ssd = .body from hb] at hssd
    cases hssd
  | unlockEq hhost _ =>
    refine h.hostMove_elsewhere hlocks hflags (by simp) (fun _ => rfl) ?_
    simpa [hhost, HostPc.pending] using horder
  | finish _ hmode => cases hmode
  | signalReady hhost =>
    refine h.signal hlocks hflags (by simp) ?_
    simpa [hhost, HostPc.pending] using horder

/-- The SSD thread goes on without touching the device. -/
theorem ssdMove_elsewhere (h : Worker g reqs s) (hlocks : Locks { s with eqLock, cqLock, ssd })
    (hflags : Flags { s with eqLock, cqLock, ssd })
    (hflight : ∀ fs, InFlight (b := b) s.ssd fs → InFlight ssd fs)
    (hbody : ssd = .body → s.device.entryNb ≠ 0)
    (hawake : ssd = .asleep → s.device.entryNb = 0) :
    Worker g reqs { s with eqLock, cqLock, ssd } where
  locks := hlocks
  flags := hflags
  works := h.works.move hflight
  room := h.room
  body := hbody
  awake ha := .inl (hawake ha)
  order := h.order

/-- A turn of the SSD thread. -/
private theorem ssdMove (hnew : ∀ n, newPage n = .success) (h : Worker g reqs s)
    (hmove : SsdMove g newPage .mode1 s s') : Worker g reqs s' := by
  have hlocks := h.locks.ssdMove hmove
  have hflags := h.flags.ssdMove hmove
  have hworks := h.works
  cases hmove with
  | lockEq hssd _ =>
    refine h.ssdMove_elsewhere hlocks hflags (fun fs hfs => ?_) (by simp) (by simp)
    rcases hssd with hssd | hssd <;> rw [hssd] at hfs <;> exact hfs
  | sleep hssd hidle =>
    refine h.ssdMove_elsewhere hlocks hflags (fun fs hfs => ?_) (by simp) (fun _ => ?_)
    · rw [hssd] at hfs
      exact hfs
    · simpa [nothingToDo] using hidle
  | work hssd hidle =>
    refine h.ssdMove_elsewhere hlocks hflags (fun fs hfs => ?_) (fun _ => ?_) (by simp)
    · rw [hssd] at hfs
      exact hfs
    · simpa [nothingToDo] using hidle
  | noEvent hssd _ hrun =>
    rw [hssd] at hworks
    obtain ⟨d', a, ioType, hd', -⟩ := hworks.takeEvent hnew (h.body hssd)
    cases hrun.symm.trans hd'
  | takeEvent hssd _ hrun =>
    rw [hssd] at hworks
    obtain ⟨d', a, ioType, hd', hworks', -, hroom⟩ := hworks.takeEvent hnew (h.body hssd)
    cases hrun.symm.trans hd'
    exact
      { locks := hlocks
        flags := hflags
        works := hworks'
        room := fun req hreq => hroom req (h.room req hreq)
        body := by simp
        awake := by simp
        order := h.order }
  | secureRead _ hmode => cases hmode
  | secureWrite _ hmode => cases hmode
  | wrongSignal _ hmode => cases hmode
  | @lockCq a ioType hssd _ =>
    refine h.ssdMove_elsewhere hlocks hflags (fun fs hfs => ?_) (by simp) (by simp)
    rw [hssd] at hfs
    cases ioType <;> exact hfs
  | complete hssd hrun =>
    rw [hssd] at hworks
    obtain ⟨d', hd', hworks', -, hroom⟩ := hworks.completeEvent
    cases hrun.symm.trans hd'
    exact
      { locks := hlocks
        flags := hflags
        works := hworks'
        room := fun req hreq => hroom req (h.room req hreq)
        body := by simp
        awake := by simp
        order := h.order }
  | unlockCq hssd =>
    refine h.ssdMove_elsewhere hlocks hflags (fun fs hfs => ?_) (by simp) (by simp)
    rw [hssd] at hfs
    exact hfs
  | lowerFlag hssd => exact absurd hssd (h.flags.apart _)
  | unlockEq hssd =>
    refine h.ssdMove_elsewhere hlocks hflags (fun fs hfs => ?_) (by simp) (by simp)
    rw [hssd] at hfs
    exact hfs

private theorem step (hnew : ∀ n, newPage n = .success) (hreqs : ∀ req ∈ reqs, req.InRange g)
    (h : Worker g reqs s) (hstep : Step g newPage .mode1 s t s') : Worker g reqs s' := by
  have hlocks := h.locks.step hstep
  have hflags := h.flags.step hstep
  rcases hstep.move with hmove | hmove | ⟨hssd, rfl⟩
  · exact h.hostMove hnew hreqs hmove
  · exact h.ssdMove hnew hmove
  · refine h.ssdMove_elsewhere hlocks hflags (fun fs hfs => ?_) (by simp) (by simp)
    rw [hssd] at hfs
    exact hfs

/-- Every schedule keeps the invariant. -/
private theorem reachable (hnew : ∀ n, newPage n = .success) (hreqs : ∀ req ∈ reqs, req.InRange g)
    (h : Reachable g newPage .mode1 reqs s) : Worker g reqs s := by
  obtain ⟨ts, htrace⟩ := h
  exact htrace.invariant (fun _ _ _ => step hnew hreqs) (start g b reqs)

/-- No turn faults. -/
private theorem no_fault (hnew : ∀ n, newPage n = .success) (hreqs : ∀ req ∈ reqs, req.InRange g)
    (h : Worker g reqs s) (t : Turn) (e : Fault) :
    s.turn g newPage .mode1 t ≠ some (.error e) := by
  have hworks := h.works
  have hmap : ∀ {α : Type} {x : Except Fault α} {f : α → Threads b},
      (∃ y, x = .ok y) → some (x.map f) ≠ some (.error e) := by
    rintro α x f ⟨y, rfl⟩ heq
    cases heq
  cases t with
  | host =>
    cases hhost : s.host with
    | idle => cases htodo : s.todo <;> simp [turn, hostStep, hhost, htodo]
    | serving req stmt =>
      cases stmt <;> simp only [turn, hostStep, hhost]
      case dequeueCompletedRead =>
        obtain ⟨d', hd', -⟩ := hworks.dequeueCompletedRead
        exact hmap ⟨d', hd'⟩
      case enqueueIo =>
        obtain ⟨d', hd', -⟩ := h.enqueueIo hnew hreqs hhost
        split
        · exact hmap ⟨d', hd'⟩
        · simp
      all_goals try split
      all_goals simp
  | ssd =>
    cases hssd : s.ssd <;> simp only [turn, ssdStep, hssd] <;> rw [hssd] at hworks
    case body =>
      obtain ⟨d', a, ioType, hd', -⟩ := hworks.takeEvent hnew (h.body hssd)
      exact hmap ⟨_, hd'⟩
    case complete =>
      obtain ⟨d', hd', -⟩ := hworks.completeEvent
      exact hmap ⟨d', hd'⟩
    all_goals try split
    all_goals simp
  | wakeup =>
    rw [turn]
    split <;> simp

end Worker

/-- **Write-buffer ordering across threads.** With `SSD_THREAD_MODE_1` and requests within the
device, as long as pages can be allocated, whatever the schedule: no turn faults, no error message
is printed, the queue is always in order and the FTL reads what the last write before the read has
written. Whenever the queue is empty, the FTL holds the last write of every sector. -/
theorem mode1_ordered (hnew : ∀ n, newPage n = .success) (hreqs : ∀ req ∈ reqs, req.InRange g)
    (h : Reachable g newPage .mode1 reqs s) :
    (∀ t e, s.turn g newPage .mode1 t ≠ some (.error e)) ∧ WriteOrder s.enqueued s.device ∧
      (∀ ev ∈ s.device.log, ∀ e, ev.call ≠ .error e) ∧
      (s.device.firm.queues.eQueue.count = 0 →
        ∀ x, s.device.firm.store x = lastStamp (ssdWrites s.enqueued) x) := by
  have hworker := Worker.reachable hnew hreqs h
  obtain ⟨rs, ws, cs, fs, orphans, hworks⟩ := hworker.works
  refine ⟨hworker.no_fault hnew hreqs, ?_, ?_, ?_⟩
  · exact .of_log ⟨rs, ws, hworks.core.queues.toShape⟩ fun ev hev => .inl (hworks.log ev hev)
  · intro ev hev e hcall
    obtain ⟨rs', ws', hshape, hok⟩ := hworks.log ev hev
    rw [hcall] at hok
    exact hok trivial
  · intro hcount
    exact (hworker.works.empty hcount).1

/-- The SSD thread stores the first write while the host thread begins to read from it, and has
executed the read, but not completed it, when the host thread begins the next write. -/
def mixedTurns : List Turn :=
  List.replicate 9 .host ++ List.replicate 3 .ssd ++ List.replicate 5 .host ++
    List.replicate 4 .ssd ++ List.replicate 4 .host ++ List.replicate 3 .ssd ++ [.host]

theorem mode1_ordered_mixedTurns : ∃ s : Threads smallBuffers,
    s.ssd = .lockCq 1 .read ∧ s.host = .serving (.write 6 4) .lockCq ∧
    WriteOrder s.enqueued s.device ∧ ∀ ev ∈ s.device.log, ∀ e, ev.call ≠ .error e := by
  obtain ⟨s, hs, htest⟩ := reachable_of_play smallDevice (fun _ => .success) .mode1
    [.write 0 6, .read 2 2, .write 6 4] mixedTurns (fun s : Threads smallBuffers =>
      s.ssd == .lockCq 1 .read && s.host == .serving (.write 6 4) .lockCq) (by decide +kernel)
  simp only [Bool.and_eq_true, beq_iff_eq] at htest
  obtain ⟨-, horder, herror, -⟩ := mode1_ordered (fun _ => rfl) (by decide) hs
  exact ⟨s, htest.1, htest.2, horder, herror⟩

/-! ### The SSD thread alone -/

end Threads

/-- How far the SSD thread is from looking at the queue again. -/
def SsdStmt.untilTest : SsdStmt → ℕ
  | .lockCq _ _ => 9
  | .complete _ _ => 8
  | .unlockCq => 7
  | .unlockEq => 6
  | .lockEq | .awake => 5
  | .test => 4
  | .body => 3
  | .asleep | .lowerFlag _ => 0

namespace Threads

/-- A bound on the turns until the queue is empty and the SSD thread asleep. -/
def backlog (s : Threads b) : ℕ := 10 * s.device.entryNb + s.ssd.untilTest

/-- The host thread holds no lock and nobody waits for its signal. -/
def Aside (s : Threads b) : Prop :=
  s.host.holdsEq = false ∧ s.host.holdsCq = false ∧ s.host.signals = false

/-- While the host thread stands aside, the SSD thread always has a turn until it sleeps on an empty
queue. -/
private theorem Worker.closer (hnew : ∀ n, newPage n = .success) (h : Worker g reqs s)
    (haside : s.Aside) (hunfinished : ¬ (s.ssd = .asleep ∧ s.device.entryNb = 0)) :
    ∃ s', Step g newPage .mode1 s .ssd s' ∧ s'.host = s.host ∧ s'.enqueued = s.enqueued ∧
      s'.backlog < s.backlog := by
  have hworks := h.works
  obtain ⟨heq, hcq, hsignals⟩ := haside
  cases hssd : s.ssd <;> rw [hssd] at hworks
  case lockEq | awake =>
    have hfree := h.locks.eqLock_free heq (by rw [hssd]; rfl)
    refine ⟨{ s with eqLock := some .ssd, ssd := .test }, ?_, rfl, rfl, ?_⟩
    · simp [Step, turn, ssdStep, hssd, hfree]
    · simp [backlog, hssd, SsdStmt.untilTest]
  case test =>
    by_cases hidle : s.device.entryNb = 0
    · refine ⟨{ s with eqLock := none, ssd := .asleep }, ?_, rfl, rfl, ?_⟩
      · simp [Step, turn, ssdStep, hssd, nothingToDo, hidle]
      · simp [backlog, hssd, SsdStmt.untilTest]
    · refine ⟨{ s with ssd := .body }, ?_, rfl, rfl, ?_⟩
      · simp [Step, turn, ssdStep, hssd, nothingToDo, hidle]
      · simp [backlog, hssd, SsdStmt.untilTest]
  case asleep =>
    rcases h.awake hssd with hidle | hsig
    · exact absurd ⟨hssd, hidle⟩ hunfinished
    · exact absurd (hsignals.symm.trans hsig) (by simp)
  case body =>
    obtain ⟨d', a, ioType, hd', -, hcount, -⟩ := hworks.takeEvent hnew (h.body hssd)
    refine ⟨{ s with device := d', ssd := .lockCq a ioType }, ?_, rfl, rfl, ?_⟩
    · simp [Step, turn, ssdStep, hssd, hd', Except.map]
    · simp only [backlog, hssd, SsdStmt.untilTest, hcount]
      omega
  case lockCq a ioType =>
    have hfree := h.locks.cqLock_free hcq (by rw [hssd]; rfl)
    refine ⟨{ s with cqLock := some .ssd, ssd := .complete a ioType }, ?_, rfl, rfl, ?_⟩
    · simp [Step, turn, ssdStep, hssd, hfree]
    · simp [backlog, hssd, SsdStmt.untilTest]
  case complete a ioType =>
    obtain ⟨d', hd', -, hcount, -⟩ := hworks.completeEvent
    refine ⟨{ s with device := d', ssd := .unlockCq }, ?_, rfl, rfl, ?_⟩
    · simp [Step, turn, ssdStep, hssd, hd', Except.map]
    · simp only [backlog, hssd, SsdStmt.untilTest, hcount]
      omega
  case unlockCq =>
    refine ⟨{ s with cqLock := none, ssd := .unlockEq }, ?_, rfl, rfl, ?_⟩
    · simp [Step, turn, ssdStep, hssd]
    · simp [backlog, hssd, SsdStmt.untilTest]
  case lowerFlag ioType => exact absurd hssd (h.flags.apart ioType)
  case unlockEq =>
    refine ⟨{ s with eqLock := none, ssd := .lockEq }, ?_, rfl, rfl, ?_⟩
    · simp [Step, turn, ssdStep, hssd]
    · simp [backlog, hssd, SsdStmt.untilTest]

/-- The SSD thread empties the queue while the host thread stands aside. -/
private theorem Worker.drains (hnew : ∀ n, newPage n = .success)
    (hreqs : ∀ req ∈ reqs, req.InRange g) (h : Worker g reqs s) (haside : s.Aside) :
    ∃ ts s', Trace (Step g newPage .mode1) s ts s' ∧ (∀ t ∈ ts, t = .ssd) ∧
      Worker g reqs s' ∧ s'.host = s.host ∧ s'.enqueued = s.enqueued ∧ s'.ssd = .asleep ∧
      s'.device.entryNb = 0 := by
  obtain ⟨host, hhost⟩ : ∃ host, s.host = host := ⟨_, rfl⟩
  obtain ⟨enqueued, henqueued⟩ : ∃ enqueued, s.enqueued = enqueued := ⟨_, rfl⟩
  have hcloser : ∀ s : Threads b,
      Worker g reqs s ∧ s.Aside ∧ s.host = host ∧ s.enqueued = enqueued →
      ¬ (s.ssd = .asleep ∧ s.device.entryNb = 0) →
      ∃ t s', t = .ssd ∧ Step g newPage .mode1 s t s' ∧
        (Worker g reqs s' ∧ s'.Aside ∧ s'.host = host ∧ s'.enqueued = enqueued) ∧
        s'.backlog < s.backlog := by
    rintro s ⟨h, haside, hhost, henqueued⟩ hunfinished
    obtain ⟨s', hstep, hhost', henqueued', hlt⟩ := h.closer hnew haside hunfinished
    refine ⟨.ssd, s', rfl, hstep, ⟨h.step hnew hreqs hstep, ?_, ?_, ?_⟩, hlt⟩
    · rw [Aside, hhost']
      exact haside
    · exact hhost'.trans hhost
    · exact henqueued'.trans henqueued
  obtain ⟨ts, s', htrace, hts, ⟨h', -, hhost', henqueued'⟩, hssd, hcount⟩ :=
    Trace.reaches backlog hcloser ⟨h, haside, hhost, henqueued⟩
  exact ⟨ts, s', htrace, hts, h', hhost'.trans hhost.symm, henqueued'.trans henqueued.symm, hssd,
    hcount⟩

/-- **No lost wake-up.** With `SSD_THREAD_MODE_1`, whenever the host thread is between two requests,
the SSD thread on its own executes all that is pending, without a wake-up that nobody signals, and
leaves the last write of every sector in the FTL. -/
theorem mode1_drains (hnew : ∀ n, newPage n = .success) (hreqs : ∀ req ∈ reqs, req.InRange g)
    (h : Reachable g newPage .mode1 reqs s) (hidle : s.host = .idle) :
    ∃ ts s', Trace (Step g newPage .mode1) s ts s' ∧ (∀ t ∈ ts, t = .ssd) ∧ s'.host = .idle ∧
      s'.ssd = .asleep ∧ s'.device.firm.queues.eQueue.count = 0 ∧
      ∀ x, s'.device.firm.store x = lastStamp (ssdWrites s.enqueued) x := by
  have hworker := Worker.reachable hnew hreqs h
  have haside : s.Aside := by rw [Aside, hidle]; exact ⟨rfl, rfl, rfl⟩
  obtain ⟨ts, s', htrace, hts, h', hhost, henqueued, hssd, hcount⟩ :=
    hworker.drains hnew hreqs haside
  refine ⟨ts, s', htrace, hts, hhost.trans hidle, hssd, hcount, ?_⟩
  rw [← henqueued]
  exact (h'.works.empty hcount).1

/-- The SSD thread has gone to sleep before the host thread puts two requests on the queue. -/
theorem mode1_drains_two : ∃ (s : Threads smallBuffers) (ts : List Turn)
    (s' : Threads smallBuffers), s.device.firm.queues.eQueue.count = 2 ∧
    Trace (Step smallDevice (fun _ => .success) .mode1) s ts s' ∧ (∀ t ∈ ts, t = .ssd) ∧
    s'.device.firm.queues.eQueue.count = 0 ∧ s'.device.firm.store 3 = some 0 := by
  obtain ⟨s, hs, htest⟩ := reachable_of_play smallDevice (fun _ => .success) .mode1
    [.write 0 6, .read 8 2] ([.ssd, .ssd] ++ List.replicate 18 .host)
    (fun s : Threads smallBuffers => s.host == .idle && s.device.firm.queues.eQueue.count == 2 &&
      s.enqueued == [.write 0 6, .read 8 2]) (by decide +kernel)
  simp only [Bool.and_eq_true, beq_iff_eq] at htest
  obtain ⟨⟨hidle, htwo⟩, henqueued⟩ := htest
  obtain ⟨ts, s', htrace, hts, -, -, hcount, hstore⟩ :=
    mode1_drains (fun _ => rfl) (by decide) hs hidle
  refine ⟨s, ts, s', htwo, htrace, hts, hcount, ?_⟩
  rw [hstore, henqueued]
  decide

/-! ### The flags -/

/-- The host thread has found the buffer full and waits. -/
def Stuck (req : Request) (s : Threads b) : Prop :=
  s.host = .serving req .raiseFlag ∨ s.host = .serving req .testFlag ∨
    s.host = .serving req .signalFull

private theorem SsdMove.host_eq {mode : ThreadMode} (hmove : SsdMove g newPage mode s s') :
    s'.host = s.host ∧ s'.enqueued = s.enqueued := by
  cases hmove <;> exact ⟨rfl, rfl⟩

/-- A request that waits for its flag goes on waiting. -/
private theorem Stuck.step (h : Flags s) (hstuck : s.Stuck req)
    (hstep : Step g newPage .mode1 s t s') : s'.Stuck req ∧ s'.enqueued = s.enqueued := by
  cases t with
  | host =>
    rcases hstuck with hhost | hhost | hhost
    · simp only [Step, turn, hostStep, hhost, Option.some.injEq, Except.ok.injEq] at hstep
      subst hstep
      exact ⟨.inr (.inl rfl), rfl⟩
    · have hflag := h.raised req.ioType (by rw [hhost]; rfl)
      simp only [Step, turn, hostStep, hhost, hflag, if_true, Option.some.injEq,
        Except.ok.injEq] at hstep
      subst hstep
      exact ⟨.inr (.inr rfl), rfl⟩
    · simp only [Step, turn, hostStep, hhost, Option.some.injEq, Except.ok.injEq] at hstep
      subst hstep
      exact ⟨.inr (.inl rfl), rfl⟩
  | ssd =>
    obtain ⟨hhost, henqueued⟩ := (ssdStep_move hstep).host_eq
    refine ⟨?_, henqueued⟩
    rw [Stuck, hhost]
    exact hstuck
  | wakeup =>
    rw [Step, turn] at hstep
    split at hstep
    · cases hstep
      exact ⟨hstuck, rfl⟩
    · cases hstep

/-- It does so in every schedule. -/
private theorem Stuck.trace (h : Flags s) (hstuck : s.Stuck req) {ts : List Turn}
    (htrace : Trace (Step g newPage .mode1) s ts s') :
    s'.Stuck req ∧ s'.enqueued = s.enqueued := by
  have hinv : Flags s' ∧ s'.Stuck req ∧ s'.enqueued = s.enqueued := by
    refine htrace.invariant (P := fun s' => Flags s' ∧ s'.Stuck req ∧ s'.enqueued = s.enqueued) ?_
      ⟨h, hstuck, rfl⟩
    rintro s₁ t s₂ ⟨hflags₁, hstuck₁, henqueued₁⟩ hstep
    obtain ⟨hstuck₂, henqueued₂⟩ := hstuck₁.step hflags₁ hstep
    exact ⟨hflags₁.step hstep, hstuck₂, henqueued₂.trans henqueued₁⟩
  exact hinv.2

/-- **The host hangs.** With `SSD_THREAD_MODE_1` a request that has found its buffer full never
returns, whatever the schedule and whether or not the calls of the FTL succeed. It waits for a flag
that nobody lowers, also when the SSD thread has made room for it in the meantime, as it can when
pages can be allocated and the requests lie within the device. -/
theorem mode1_never_returns (h : Reachable g newPage .mode1 reqs s)
    (hhost : s.host = .serving req .raiseFlag) :
    (∀ ts s', Trace (Step g newPage .mode1) s ts s' →
      s'.Stuck req ∧ s'.enqueued = s.enqueued) ∧
    ((∀ n, newPage n = .success) → (∀ req ∈ reqs, req.InRange g) →
      ∀ sectorNb length, req = .write sectorNb length → length ≤ b.writeBufferFrameNb →
        ∃ ts s', Trace (Step g newPage .mode1) s ts s' ∧ s'.Stuck req ∧ ¬ Full req s'.device) := by
  have hflags := Flags.reachable h
  have hstuck : s.Stuck req := .inl hhost
  refine ⟨fun ts s' htrace => hstuck.trace hflags htrace, ?_⟩
  rintro hnew hreqs sectorNb length rfl hlen
  have hworker := Worker.reachable hnew hreqs h
  have haside : s.Aside := by rw [Aside, hhost]; exact ⟨rfl, rfl, rfl⟩
  obtain ⟨ts, s', htrace, -, hworker', -, -, -, hcount⟩ := hworker.drains hnew hreqs haside
  refine ⟨ts, s', htrace, (hstuck.trace hflags htrace).1, ?_⟩
  have hempty := (hworker'.works.empty hcount).2
  have hlt := b.writeBufferFrameNb_lt
  have hu32 := toU32_of_nonneg (x := s'.device.firm.wb.emptyWriteBufferFrame) (by omega) (by omega)
  have hroom : ¬ toU32 s'.device.firm.wb.emptyWriteBufferFrame < length := by omega
  have hfail : eventQueueIsFull .write length s'.device.firm = .fail := if_neg hroom
  intro hfull
  cases hfail.symm.trans hfull

/-- The second write finds the buffer full. -/
theorem mode1_never_returns_second : ∃ (s : Threads smallBuffers) (ts : List Turn)
    (s' : Threads smallBuffers), s.host = .serving (.write 6 4) .raiseFlag ∧
    Trace (Step smallDevice (fun _ => .success) .mode1) s ts s' ∧
    s'.Stuck (.write 6 4) ∧ ¬ Full (.write 6 4) s'.device := by
  obtain ⟨s, hs, htest⟩ := reachable_of_play smallDevice (fun _ => .success) .mode1
    [.write 0 6, .write 6 4] (List.replicate 14 .host)
    (fun s : Threads smallBuffers => s.host == .serving (.write 6 4) .raiseFlag)
    (by decide +kernel)
  have hhost : s.host = .serving (.write 6 4) .raiseFlag := by simpa using htest
  obtain ⟨-, hmade⟩ := mode1_never_returns hs hhost
  obtain ⟨ts, s', htrace, hstuck, hfull⟩ := hmade (fun _ => rfl) (by decide) 6 4 rfl (by decide)
  exact ⟨s, ts, s', hhost, htrace, hstuck, hfull⟩

end Threads

end Vssim
