import Vssim.Ftl.Request
import Vssim.Library.Overlay
import Vssim.Library.Ring

/-!
# The buffers of the firmware

The read and write buffers of `firm_buffer_manager.c` in the build with `FIRM_IO_BUFFER` and
without `SSD_THREAD`. A buffer is a ring of frames of one sector; its pointers are frame numbers,
so they are inside the buffer by their type and the index check of
`UPDATE_WB_VALID_ARRAY_ENTRY` never fires.

A scan that looks for frames has no bound of its own in the source. Here it has as much fuel as
full turns can be of use; when that runs out the scan never ends, and the result is the fault
`hang`.

Some fields are not in the source, and are read by no function of it: they say which host write
filled a frame, which writes an event has merged and what the FTL holds. The FTL is represented
by the moves its functions make on the buffers, by the answers of `GET_NEW_PAGE`, and by the
stamps of the sectors it holds.
-/

namespace Vssim

open LinkedHeap

/-- The buffer sizes. `INIT_SSD_CONFIG` rejects zero. Byte offsets into a buffer are C `int`s, so in
the program the frames times `SECTOR_SIZE` stay within `2 ^ 31`; here only the frame numbers must
fit, since offsets are not modelled. -/
structure BufferConfig where
  writeBufferFrameNb : ℕ
  readBufferFrameNb : ℕ
  writeBufferFrameNb_pos : 0 < writeBufferFrameNb
  readBufferFrameNb_pos : 0 < readBufferFrameNb
  writeBufferFrameNb_lt : writeBufferFrameNb < 2 ^ 31
  readBufferFrameNb_lt : readBufferFrameNb < 2 ^ 31

/-- A frame number of the write buffer. -/
abbrev WbPtr (b : BufferConfig) : Type := Fin b.writeBufferFrameNb

/-- A frame number of the read buffer. -/
abbrev RbPtr (b : BufferConfig) : Type := Fin b.readBufferFrameNb

/-! ### Host writes and their stamps -/

/-- The `nb`-th `SSD_WRITE`. -/
structure HostWrite where
  nb : ℕ
  sectorNb : ℤ
  length : ℕ
  deriving DecidableEq, Repr

/-- The sector `x` is one of the `length` sectors from `sectorNb` on. -/
def Covers (sectorNb : ℤ) (length : ℕ) (x : ℤ) : Prop := sectorNb ≤ x ∧ x < sectorNb + length

instance (sectorNb : ℤ) (length : ℕ) (x : ℤ) : Decidable (Covers sectorNb length x) :=
  inferInstanceAs (Decidable (_ ∧ _))

/-- The stamps a write puts on its sectors. -/
def HostWrite.stamps (w : HostWrite) : ℤ → Option ℕ :=
  fun x => if Covers w.sectorNb w.length x then some w.nb else none

/-- The stamp of the last write of `ws` that covers a sector. -/
def lastStamp (ws : List HostWrite) : ℤ → Option ℕ :=
  Overlay.stack (fun _ => none) (ws.map HostWrite.stamps)

/-! ### The write buffer -/

/-- The states of a frame in `wb_valid_array`: `'0'`, `'V'`, `'F'` and `'I'`. -/
inductive WbValid
  | zero
  | valid
  | ftl
  | invalid
  deriving DecidableEq, Repr

/-- A frame of the write buffer: its cell of `wb_valid_array`, and the sector and the number of the
`SSD_WRITE` that filled it last. -/
structure Frame where
  valid : WbValid
  label : Option (ℤ × ℕ)
  deriving DecidableEq, Repr

/-- Set the cell of a frame. -/
def Frame.set (v : WbValid) (c : Frame) : Frame := { c with valid := v }

/-- The write buffer with its pointers and its count of free frames. -/
structure WriteBuffer (b : BufferConfig) where
  frames : WbPtr b → Frame
  ftlWritePtr : WbPtr b
  sataWritePtr : WbPtr b
  writeLimitPtr : WbPtr b
  emptyWriteBufferFrame : ℤ

/-- What can go wrong in a way C does not report: a loop that does not end, and a read through a
pointer that is `NULL`, not live or not into the write buffer. -/
inductive Fault
  | hang
  | wildPointer
  deriving DecidableEq, Repr

/-- The four loops over `wb_valid_array`. -/
inductive WbLoop
  | updateWbValidArray
  | updateWbValidArrayPartial
  | increaseWbFtlPointer
  | increaseWbLimitPointer
  deriving DecidableEq, Repr

variable {b : BufferConfig}

/-- The shape `while (count != n)` that the scans share: walk over `n` frames whose cell passes
`test`, rewriting the cell of each. The bound is an `int`. -/
def scanFrames (test : WbValid → Bool) (put : Frame → Frame) (n : ℤ) (p : WbPtr b)
    (f : WbPtr b → Frame) : Except Fault (WbPtr b × (WbPtr b → Frame)) :=
  if n < 0 then .error .hang
  else match Ring.scan (fun c => test c.valid) put (b.writeBufferFrameNb * n.toNat) n.toNat p f with
    | none => .error .hang
    | some r => .ok r

namespace WriteBuffer

/-- One round of `INCREASE_WB_SATA_POINTER`: the frame at `sata_write_ptr` is filled with `label`. -/
def fill (label : ℤ × ℕ) (s : WriteBuffer b) : WriteBuffer b :=
  { s with
    frames := Function.update s.frames s.sataWritePtr ⟨.valid, some label⟩
    sataWritePtr := Ring.next s.sataWritePtr
    emptyWriteBufferFrame := s.emptyWriteBufferFrame - 1 }

/-- The loop of `UPDATE_WB_VALID_ARRAY` over the frames of an event with `length` frames from
`pBuf` on. -/
def updateWbValidArray (pBuf : WbPtr b) (length : ℕ) (newValue : WbValid) (s : WriteBuffer b) :
    Except Fault (WriteBuffer b) :=
  (scanFrames (fun v => v == .valid) (Frame.set newValue) (toI32 length) pBuf s.frames).map
    fun r => { s with frames := r.2 }

/-- `UPDATE_WB_VALID_ARRAY_PARTIAL` with mode 1, the only one in use: the last `length` of the
`entryLength` frames that are not invalid, from `pBuf` on. -/
def updateWbValidArrayPartial (pBuf : WbPtr b) (entryLength : ℕ) (newValue : WbValid)
    (length : ℤ) (s : WriteBuffer b) : Except Fault (WriteBuffer b) := do
  let offset := toI32 (entryLength - length)
  let r ← scanFrames (fun v => v != .invalid) id offset pBuf s.frames
  let r ← scanFrames (fun v => v != .invalid) (Frame.set newValue) length r.1 r.2
  .ok { s with frames := r.2 }

/-- `INCREASE_WB_FTL_POINTER`. -/
def increaseWbFtlPointer (entryNb : ℕ) (s : WriteBuffer b) : Except Fault (WriteBuffer b) :=
  (scanFrames (fun v => v == .valid) (Frame.set .ftl) (toI32 entryNb) s.ftlWritePtr s.frames).map
    fun r => { s with frames := r.2, ftlWritePtr := r.1 }

/-- `INCREASE_WB_LIMIT_POINTER`. -/
def increaseWbLimitPointer (s : WriteBuffer b) : Except Fault (WriteBuffer b) :=
  match Ring.sweep (Frame.set .zero) s.ftlWritePtr b.writeBufferFrameNb s.writeLimitPtr s.frames with
  | none => .error .hang
  | some r => .ok { s with
      frames := r.1
      writeLimitPtr := s.ftlWritePtr
      emptyWriteBufferFrame := s.emptyWriteBufferFrame + r.2 }

end WriteBuffer

/-! ### The read buffer -/

/-- The pointers into the read buffer and its count of free frames. -/
structure ReadBuffer (b : BufferConfig) where
  ftlReadPtr : RbPtr b
  sataReadPtr : RbPtr b
  readLimitPtr : RbPtr b
  emptyReadBufferFrame : ℤ

namespace ReadBuffer

/-- `INCREASE_RB_SATA_POINTER`; its parameter is an `int`. -/
def increaseRbSataPointer (entryNb : ℕ) (s : ReadBuffer b) : ReadBuffer b :=
  let n := (toI32 entryNb).toNat
  { s with
    sataReadPtr := Ring.next^[n] s.sataReadPtr
    emptyReadBufferFrame := s.emptyReadBufferFrame + n }

/-- `INCREASE_RB_FTL_POINTER`; its parameter is an `int`. -/
def increaseRbFtlPointer (entryNb : ℕ) (s : ReadBuffer b) : ReadBuffer b :=
  { s with ftlReadPtr := Ring.next^[(toI32 entryNb).toNat] s.ftlReadPtr }

/-- `INCREASE_RB_LIMIT_POINTER`. -/
def increaseRbLimitPointer (s : ReadBuffer b) : Except Fault (ReadBuffer b) :=
  match Ring.chase s.ftlReadPtr b.readBufferFrameNb s.readLimitPtr with
  | none => .error .hang
  | some p => .ok { s with readLimitPtr := p }

end ReadBuffer

/-! ### Events and the state -/

/-- A pointer into one of the buffers. -/
inductive BufPtr (b : BufferConfig)
  | wb (p : WbPtr b)
  | rb (p : RbPtr b)
  deriving DecidableEq

/-- An `event_queue_entry`, with three fields that the source does not have: the number of the
request that created it, the writes merged into it, and the frames these writes filled. -/
structure EventQueueEntry (b : BufferConfig) where
  ioType : IoType
  valid : Bool
  sectorNb : ℤ
  length : ℕ
  buf : Option (BufPtr b)
  requestNb : ℕ
  merged : List HostWrite
  frames : List (WbPtr b)

/-- The two event queues, in one heap, and `last_read_entry`. -/
structure EventQueues (b : BufferConfig) where
  heap : Heap (SNode (EventQueueEntry b))
  eQueue : ListRoot
  cEQueue : ListRoot
  lastReadEntry : Option ℕ

/-- The state of the firmware. -/
structure Firm (b : BufferConfig) where
  queues : EventQueues b
  wb : WriteBuffer b
  rb : ReadBuffer b
  /-- The stamp of every sector the FTL holds. -/
  store : ℤ → Option ℕ
  /-- The number of `GET_NEW_PAGE` calls so far. -/
  newPageNb : ℕ
  /-- The number of requests issued so far. -/
  requestNb : ℕ
  /-- The number of `SSD_WRITE`s among them. -/
  writeNb : ℕ

/-- The error messages of the buffer manager, and those of the FTL. -/
inductive FirmError
  | enqueueIoWrongIoType
  | dequeueIoNoEvent
  | dequeueIoInvalidIoType
  | dequeueCompletedReadEntryNumber
  | readDataFromBufferToHostSataPointer
  | flushEventQueueUntilInvalidEventPointer
  | updateWbValidArrayNullPointer
  | ftl (message : ErrorMessage)
  deriving DecidableEq, Repr

/-- What the firmware does that can be seen from outside its queues and pointers. -/
inductive FirmCall (b : BufferConfig)
  /-- `FTL_READ` for the read of request `requestNb`. -/
  | ftlRead (requestNb : ℕ) (sectorNb : ℤ) (length : ℕ)
  /-- `FTL_WRITE`. -/
  | ftlWrite (sectorNb : ℤ) (length : ℕ)
  /-- `INCREASE_WB_SATA_POINTER` fills the frame `p`. -/
  | fillFrame (p : WbPtr b)
  /-- The `k`-th `memcpy` of `COPY_DATA_TO_READ_BUFFER` for the read of request `requestNb`. -/
  | copyFrame (requestNb : ℕ) (sectorNb : ℤ) (k : ℕ) (src : WbPtr b)
  /-- `READ_DATA_FROM_BUFFER_TO_HOST`. -/
  | toHost (entry : EventQueueEntry b)
  /-- A loop over `wb_valid_array` on behalf of the event at `owner`, and the frames after it. -/
  | wbLoop (loop : WbLoop) (owner : Option ℕ) (after : WbPtr b → Frame)
  /-- `printf("ERROR[...] ...")`. -/
  | error (e : FirmError)

/-- A call together with the state it is made in. -/
structure FirmEvent (b : BufferConfig) where
  call : FirmCall b
  firm : Firm b

/-- The firmware, with a log of its calls. -/
structure Device (b : BufferConfig) where
  firm : Firm b
  log : List (FirmEvent b)

namespace Device

/-- Append a call to the log. -/
def note (d : Device b) (call : FirmCall b) : Device b :=
  { d with log := d.log ++ [⟨call, d.firm⟩] }

/-- Replace the queues. -/
def setQueues (d : Device b) (queues : EventQueues b) : Device b :=
  { d with firm := { d.firm with queues } }

/-- Replace the write buffer. -/
def setWb (d : Device b) (wb : WriteBuffer b) : Device b := { d with firm := { d.firm with wb } }

/-- Replace the read buffer. -/
def setRb (d : Device b) (rb : ReadBuffer b) : Device b := { d with firm := { d.firm with rb } }

/-- A loop over `wb_valid_array`, logged. -/
def wbLoop (loop : WbLoop) (owner : Option ℕ)
    (run : WriteBuffer b → Except Fault (WriteBuffer b)) (d : Device b) :
    Except Fault (Device b) :=
  (run d.firm.wb).map fun wb => (d.note (.wbLoop loop owner wb.frames)).setWb wb

end Device

end Vssim
