import Vssim.Firm.Buffer
import Vssim.Ftl.Run

/-!
# The event queue of the firmware

The queue functions of `firm_buffer_manager.c`, the part of `_FTL_READ` and `_FTL_WRITE` that
moves the buffer pointers, and `SSD_READ` and `SSD_WRITE` of `ssd.c`, in the build with
`FIRM_IO_BUFFER` and without `SSD_THREAD`.

A walk over a list has as much fuel as the heap has cells: a list without a cycle is no longer.
-/

namespace Vssim

open LinkedHeap

variable {b : BufferConfig}

namespace EventQueues

/-- The event at `p`. -/
def deref (q : EventQueues b) (p : Option ℕ) : Except Fault (SNode (EventQueueEntry b)) :=
  match p.bind q.heap.cell with
  | none => .error .wildPointer
  | some c => .ok c

/-- Assign to the fields of the event at `a`. -/
def modify (q : EventQueues b) (a : ℕ) (f : EventQueueEntry b → EventQueueEntry b) :
    EventQueues b :=
  { q with heap := q.heap.modify a fun c => { c with val := f c.val } }

/-- Assign the `next` pointer of the event at `a`. -/
def link (q : EventQueues b) (a : ℕ) (n : Option ℕ) : EventQueues b :=
  { q with heap := q.heap.modify a (SNode.link n) }

/-- `ALLOC_NEW_EVENT`; the new event is at `q.heap.brk`. -/
def allocNewEvent (e : EventQueueEntry b) (q : EventQueues b) : EventQueues b :=
  { q with heap := q.heap.alloc ⟨e, none⟩ }

/-- The first event after the pending reads: `last_read_entry->next`, or the head. -/
def firstWrite (q : EventQueues b) : Except Fault (Option ℕ) :=
  match q.lastReadEntry with
  | none => .ok q.eQueue.head
  | some a => (q.deref (some a)).map SNode.next

/-- The event at the tail, with its address; `none` when the tail pointer is `NULL`. -/
def tailEvent (q : EventQueues b) : Except Fault (Option (ℕ × EventQueueEntry b)) :=
  match q.eQueue.tail with
  | none => .ok none
  | some a => (q.deref (some a)).map fun c => some (a, c.val)

/-- The start of `DEQUEUE_IO`: take the head event off the queue. A write is freed, a read is not. -/
def unlinkHead (a : ℕ) (c : SNode (EventQueueEntry b)) (q : EventQueues b) : EventQueues b :=
  let entryNb := q.eQueue.count - 1
  { heap := if c.val.ioType = .write then q.heap.free a else q.heap
    eQueue := if entryNb = 0 then ⟨none, none, entryNb⟩ else ⟨c.next, q.eQueue.tail, entryNb⟩
    cEQueue := q.cEQueue
    lastReadEntry :=
      if c.val.ioType ≠ .write ∧ q.lastReadEntry = some a then none else q.lastReadEntry }

/-- The end of `DEQUEUE_IO` for a read: move the event at `a` to the completed queue. -/
def completeRead (a : ℕ) (q : EventQueues b) : Except Fault (EventQueues b) :=
  let q := q.link a none
  if q.cEQueue.count = 0 then .ok { q with cEQueue := ⟨some a, some a, q.cEQueue.count + 1⟩ }
  else match q.cEQueue.tail.filter fun t => (q.heap.cell t).isSome with
    | none => .error .wildPointer
    | some t => .ok { q.link t (some a) with
        cEQueue := ⟨q.cEQueue.head, some a, q.cEQueue.count + 1⟩ }

/-- The end of `ENQUEUE_READ`: the event at `a` goes behind the pending reads. -/
def insertRead (a : ℕ) (q : EventQueues b) : Except Fault (EventQueues b) :=
  let entryNb := q.eQueue.count + 1
  match q.lastReadEntry with
  | none =>
    if q.eQueue.count = 0 then
      .ok { q with eQueue := ⟨some a, some a, entryNb⟩, lastReadEntry := some a }
    else
      .ok { q.link a q.eQueue.head with
        eQueue := ⟨some a, q.eQueue.tail, entryNb⟩
        lastReadEntry := some a }
  | some r =>
    (q.deref (some r)).map fun c =>
      if some r = q.eQueue.tail then
        { q.link r (some a) with
          eQueue := ⟨q.eQueue.head, some a, entryNb⟩
          lastReadEntry := some a }
      else
        { (q.link a c.next).link r (some a) with
          eQueue := ⟨q.eQueue.head, q.eQueue.tail, entryNb⟩
          lastReadEntry := some a }

/-- The end of `ENQUEUE_WRITE`: a new event goes to the tail. -/
def appendWrite (e : EventQueueEntry b) (q : EventQueues b) : Except Fault (EventQueues b) :=
  let a := q.heap.brk
  let q := q.allocNewEvent e
  let entryNb := q.eQueue.count + 1
  if q.eQueue.count = 0 then .ok { q with eQueue := ⟨some a, some a, entryNb⟩ }
  else match q.eQueue.tail.filter fun t => (q.heap.cell t).isSome with
    | none => .error .wildPointer
    | some t => .ok { q.link t (some a) with eQueue := ⟨q.eQueue.head, some a, entryNb⟩ }

/-- The loop of `FLUSH_EVENT_QUEUE_UNTIL` that counts the events up to the one at `a`. -/
def countUntil (q : EventQueues b) (a : ℕ) : ℕ → Option ℕ → ℕ → Except Fault ℕ
  | 0, _, _ => .error .hang
  | fuel + 1, p, count =>
    if p = some a then .ok count
    else do
      let c ← q.deref p
      countUntil q a fuel c.next (count + 1)

end EventQueues

/-! ### Comparing requests with pending events -/

/-- `CHECK_OVERWRITE`: the new request covers the whole event. The ends are compared as unsigned
numbers. -/
def checkOverwrite (e : EventQueueEntry b) (sectorNb : ℤ) (length : ℕ) : Ret :=
  if e.ioType = .write ∧ sectorNb ≤ e.sectorNb ∧
      toU32 (e.sectorNb + e.length) ≤ toU32 (sectorNb + length) then .success
  else .fail

/-- `CHECK_SEQUENTIALITY`: the new request starts where the event ends. -/
def checkSequentiality (e : EventQueueEntry b) (sectorNb : ℤ) : Ret :=
  if e.ioType = .write ∧ e.valid ∧ toU32 (e.sectorNb + e.length) = toU32 sectorNb then .success
  else .fail

/-- `CHECK_IO_DEPENDENCY_FOR_WRITE`: the new request starts inside the event and ends behind it. -/
def checkIoDependencyForWrite (e : EventQueueEntry b) (sectorNb : ℤ) (length : ℕ) : Ret :=
  let lastSectorNb := toI32 (sectorNb + length - 1)
  let tempLastSectorNb := toI32 (e.sectorNb + e.length - 1)
  if e.ioType = .write ∧ e.valid ∧ e.sectorNb < sectorNb ∧ sectorNb < tempLastSectorNb ∧
      tempLastSectorNb < lastSectorNb then .success
  else .fail

/-- The test of `CHECK_IO_DEPENDENCY_FOR_READ`: the event shares a sector with the request. -/
def overlaps (e : EventQueueEntry b) (sectorNb : ℤ) (length : ℕ) : Bool :=
  let lastSectorNb := toI32 (sectorNb + length - 1)
  let tempLastSectorNb := toI32 (e.sectorNb + e.length - 1)
  e.valid && decide (e.sectorNb ≤ lastSectorNb) && decide (sectorNb ≤ tempLastSectorNb)

/-- The loop of `CHECK_IO_DEPENDENCY_FOR_READ`, from the event at `p`; `ret` is the last event
found so far. -/
def checkIoDependencyLoop (q : EventQueues b) (sectorNb : ℤ) (length : ℕ) :
    ℕ → Option ℕ → Option ℕ → Except Fault (Option ℕ)
  | _, none, ret => .ok ret
  | 0, some _, _ => .error .hang
  | fuel + 1, some a, ret => do
    let c ← q.deref (some a)
    checkIoDependencyLoop q sectorNb length fuel c.next
      (if overlaps c.val sectorNb length then some a else ret)

/-- `CHECK_IO_DEPENDENCY_FOR_READ`: the last valid event behind the pending reads that shares a
sector with the request. -/
def checkIoDependencyForRead (sectorNb : ℤ) (length : ℕ) (q : EventQueues b) :
    Except Fault (Option ℕ) := do
  let p ← q.firstWrite
  checkIoDependencyLoop q sectorNb length q.heap.brk p none

/-- `EVENT_QUEUE_IS_FULL`: the number of free frames is an `int`, compared with an
`unsigned int`. -/
def eventQueueIsFull (ioType : IoType) (length : ℕ) (s : Firm b) : Ret :=
  match ioType with
  | .write => if toU32 s.wb.emptyWriteBufferFrame < length then .success else .fail
  | .read => if toU32 s.rb.emptyReadBufferFrame < length then .success else .fail
  | _ => .fail

namespace Device

/-! ### Calls into the FTL -/

variable (g : Geometry) (newPage : ℕ → Ret)

/-- The FTL writes a page: its sectors, from `lba` on, hold the newest stamps of `merged`. -/
def storePage (lba : ℤ) (sects : ℕ) (merged : List HostWrite) (d : Device b) : Device b :=
  { d with firm := { d.firm with
      store := fun x => if Covers lba sects x then lastStamp merged x else d.firm.store x } }

/-- The page loop of `_FTL_WRITE`, from loop variables `c`: per page, `INCREASE_WB_FTL_POINTER`
and `GET_NEW_PAGE`. -/
def ftlWriteLoop (merged : List HostWrite) :
    ℕ → Cursor → Device b → Except Fault (Ret × Device b)
  | 0, c, d => if 0 < c.remain then .error .hang else .ok (.success, d)
  | rounds + 1, c, d =>
    if 0 < c.remain then do
      let d ← d.wbLoop .increaseWbFtlPointer none (·.increaseWbFtlPointer (c.sects g))
      let ret := newPage d.firm.newPageNb
      let d := { d with firm := { d.firm with newPageNb := d.firm.newPageNb + 1 } }
      match ret with
      | .fail => .ok (.fail, d.note (.error (.ftl .ftlWriteGetNewPageFail)))
      | .success =>
        ftlWriteLoop merged rounds (c.next g) (d.storePage c.lba (c.sects g) merged)
    else .ok (.success, d)

/-- `FTL_WRITE` of an event that has merged the writes `merged`. -/
def ftlWrite (sectorNb : ℤ) (length : ℕ) (merged : List HostWrite) (d : Device b) :
    Except Fault (Device b) :=
  let d := d.note (.ftlWrite sectorNb length)
  if g.sectorNb < toU32 (sectorNb + length) then
    .ok (d.note (.error (.ftl .ftlWriteExceedSectorNumber)))
  else do
    let r ← ftlWriteLoop g newPage merged length (.start g sectorNb length) d
    match r.1 with
    | .fail => .ok r.2
    | .success => r.2.wbLoop .increaseWbLimitPointer none (·.increaseWbLimitPointer)

/-- `FTL_READ`. Whether its pages are mapped or not, `_FTL_READ` moves both pointers. -/
def ftlRead (requestNb : ℕ) (sectorNb : ℤ) (length : ℕ) (d : Device b) :
    Except Fault (Device b) :=
  let d := d.note (.ftlRead requestNb sectorNb length)
  if g.sectorNb < toU32 (sectorNb + length) then
    .ok (d.note (.error (.ftl .ftlReadExceedSectorNumber)))
  else (d.firm.rb.increaseRbFtlPointer length).increaseRbLimitPointer.map d.setRb

/-! ### Taking events off the queues -/

/-- The middle of `DEQUEUE_IO`: execute the event that was at `a`. A read with a buffer has its
data already. -/
def execute (a : ℕ) (e : EventQueueEntry b) (d : Device b) : Except Fault (Device b) :=
  if e.valid then
    match e.ioType with
    | .read =>
      if e.buf = none then
        (d.setQueues (d.firm.queues.modify a fun e =>
          { e with buf := some (.rb d.firm.rb.ftlReadPtr) })).ftlRead g e.requestNb e.sectorNb
            e.length
      else .ok d
    | .write => d.ftlWrite g newPage e.sectorNb e.length e.merged
    | _ => .ok (d.note (.error .dequeueIoInvalidIoType))
  else .ok d

/-- `DEQUEUE_IO`. -/
def dequeueIo (d : Device b) : Except Fault (Device b) :=
  let q := d.firm.queues
  if q.eQueue.count = 0 then .ok (d.note (.error .dequeueIoNoEvent))
  else match q.eQueue.head with
    | none => .ok (d.note (.error .dequeueIoNoEvent))
    | some a => do
      let c ← q.deref (some a)
      let d ← (d.setQueues (q.unlinkHead a c)).execute g newPage a c.val
      if c.val.ioType = .read then (d.firm.queues.completeRead a).map d.setQueues else .ok d

/-- The loop of `FLUSH_EVENT_QUEUE_UNTIL` that takes events off the queue. -/
def dequeueTimes : ℕ → Device b → Except Fault (Device b)
  | 0, d => .ok d
  | n + 1, d => do
    let d ← d.dequeueIo g newPage
    dequeueTimes n d

/-- `FLUSH_EVENT_QUEUE_UNTIL`. -/
def flushEventQueueUntil (p : Option ℕ) (d : Device b) : Except Fault (Device b) :=
  let q := d.firm.queues
  match p, q.eQueue.head with
  | some a, some h => do
    let count ← if some a = q.eQueue.tail then .ok q.eQueue.count
      else q.countUntil a (q.heap.brk + 1) (some h) 1
    d.dequeueTimes g newPage count
  | _, _ => .ok (d.note (.error .flushEventQueueUntilInvalidEventPointer))

/-- `READ_DATA_FROM_BUFFER_TO_HOST`. -/
def readDataFromBufferToHost (e : EventQueueEntry b) (d : Device b) : Device b :=
  let d := d.note (.toHost e)
  let d := if e.buf = some (.rb d.firm.rb.sataReadPtr) then d
    else d.note (.error .readDataFromBufferToHostSataPointer)
  d.setRb (d.firm.rb.increaseRbSataPointer e.length)

/-- The loop of `DEQUEUE_COMPLETED_READ`, from the event at `p`. -/
def dequeueCompletedReadLoop : ℕ → Option ℕ → Device b → Except Fault (Device b)
  | _, none, d => .ok d
  | 0, some _, _ => .error .hang
  | fuel + 1, some a, d => do
    let c ← d.firm.queues.deref (some a)
    let d := d.readDataFromBufferToHost c.val
    let q := d.firm.queues
    dequeueCompletedReadLoop fuel c.next (d.setQueues { q with
      heap := q.heap.free a
      cEQueue := { q.cEQueue with count := q.cEQueue.count - 1 } })

/-- `DEQUEUE_COMPLETED_READ`. -/
def dequeueCompletedRead (d : Device b) : Except Fault (Device b) :=
  let q := d.firm.queues
  if q.cEQueue.count = 0 ∨ q.cEQueue.head = none then .ok d
  else do
    let d ← d.dequeueCompletedReadLoop q.heap.brk q.cEQueue.head
    let q := d.firm.queues
    if q.cEQueue.count ≠ 0 then .ok (d.note (.error .dequeueCompletedReadEntryNumber))
    else .ok (d.setQueues { q with cEQueue := { q.cEQueue with head := none, tail := none } })

/-- `SECURE_WRITE_BUFFER`. -/
def secureWriteBuffer (d : Device b) : Except Fault (Device b) :=
  d.flushEventQueueUntil g newPage d.firm.queues.eQueue.tail

/-- `SECURE_READ_BUFFER`. -/
def secureReadBuffer (d : Device b) : Except Fault (Device b) := do
  let d ← if d.firm.queues.cEQueue.count ≠ 0 then d.dequeueCompletedRead else .ok d
  if d.firm.queues.lastReadEntry ≠ none then do
    let d ← d.flushEventQueueUntil g newPage d.firm.queues.lastReadEntry
    d.dequeueCompletedRead
  else .ok d

/-! ### Reads -/

/-- The second loop of `COPY_DATA_TO_READ_BUFFER`: `n` frames remain to be copied, the next one as
number `k`. `dst_buf` starts at `ftl_read_ptr` and the two move together. -/
def copyLoop (requestNb : ℕ) (sectorNb : ℤ) :
    ℕ → ℕ → ℕ → WbPtr b → RbPtr b → Device b → Except Fault (Device b)
  | _, 0, _, _, _, d => .ok d
  | 0, _ + 1, _, _, _, _ => .error .hang
  | fuel + 1, n + 1, k, src, dst, d =>
    if (d.firm.wb.frames src).valid = .invalid then
      copyLoop requestNb sectorNb fuel (n + 1) k (Ring.next src) dst d
    else
      let d := d.note (.copyFrame requestNb sectorNb k src)
      copyLoop requestNb sectorNb fuel n (k + 1) (Ring.next src) (Ring.next dst)
        (d.setRb { d.firm.rb with ftlReadPtr := Ring.next dst })

/-- `COPY_DATA_TO_READ_BUFFER` from the frames of the event `src` to the read at `a`, whose buffer
is `ftl_read_ptr`. -/
def copyDataToReadBuffer (a : ℕ) (src : EventQueueEntry b) (d : Device b) :
    Except Fault (Device b) := do
  let c ← d.firm.queues.deref (some a)
  match src.buf with
  | some (.wb p) => do
    let offset := toI32 (c.val.sectorNb - src.sectorNb)
    let r ← scanFrames (fun v => v != .invalid) id offset p d.firm.wb.frames
    let d ← d.copyLoop c.val.requestNb c.val.sectorNb
      (b.writeBufferFrameNb * c.val.length) c.val.length 0 r.1 d.firm.rb.ftlReadPtr
    d.firm.rb.increaseRbLimitPointer.map d.setRb
  | _ => .error .wildPointer

/-- The middle of `ENQUEUE_READ`: flush the events that the read at `a` depends on, and copy its
data from the write buffer if the last of them has all of it. -/
def resolveRead (a : ℕ) (sectorNb : ℤ) (length : ℕ) (d : Device b) :
    Except Fault (Device b) := do
  let ret ← checkIoDependencyForRead sectorNb length d.firm.queues
  match ret with
  | none => .ok d
  | some r => do
    let c ← d.firm.queues.deref (some r)
    let d ← d.flushEventQueueUntil g newPage (some r)
    if c.val.sectorNb ≤ sectorNb ∧
        toU32 (sectorNb + length) ≤ toU32 (c.val.sectorNb + c.val.length) then
      (d.setQueues (d.firm.queues.modify a fun e =>
        { e with buf := some (.rb d.firm.rb.ftlReadPtr) })).copyDataToReadBuffer a c.val
    else .ok d

/-- `ENQUEUE_READ`. -/
def enqueueRead (sectorNb : ℤ) (length : ℕ) (d : Device b) : Except Fault (Device b) := do
  let a := d.firm.queues.heap.brk
  let d := d.setQueues (d.firm.queues.allocNewEvent
    { ioType := .read
      valid := true
      sectorNb
      length
      buf := none
      requestNb := d.firm.requestNb
      merged := []
      frames := [] })
  let q := d.firm.queues
  let d ← if q.eQueue.count = 0 then
      .ok (d.setQueues { q with
        eQueue := ⟨some a, some a, q.eQueue.count + 1⟩
        lastReadEntry := some a })
    else do
      let d ← d.resolveRead g newPage a sectorNb length
      (d.firm.queues.insertRead a).map d.setQueues
  .ok (d.setRb { d.firm.rb with
    emptyReadBufferFrame := toI32 (d.firm.rb.emptyReadBufferFrame - length) })

/-! ### Writes -/

/-- `WRITE_DATA_TO_BUFFER`, which is `INCREASE_WB_SATA_POINTER`: the frame of round `i` holds sector
`sector_nb + i`. -/
def writeDataToBuffer (w : HostWrite) (d : Device b) : Device b :=
  (List.range (toI32 w.length).toNat).foldl
    (fun d (i : ℕ) => (d.note (.fillFrame d.firm.wb.sataWritePtr)).setWb
      (d.firm.wb.fill (w.sectorNb + i, w.nb))) d

/-- `UPDATE_WB_VALID_ARRAY` for the event `e` at `a`. -/
def updateWbValidArray (a : ℕ) (e : EventQueueEntry b) (newValue : WbValid) (d : Device b) :
    Except Fault (Device b) :=
  match e.buf with
  | none => .ok (d.note (.error .updateWbValidArrayNullPointer))
  | some (.wb p) => d.wbLoop .updateWbValidArray (some a) (·.updateWbValidArray p e.length newValue)
  | some (.rb _) => .error .wildPointer

/-- The loop of `ENQUEUE_WRITE` over the pending writes, from the event at `p`: those that the new
write covers are invalidated. -/
def overwriteLoop (sectorNb : ℤ) (length : ℕ) :
    ℕ → Option ℕ → Device b → Except Fault (Device b)
  | _, none, d => .ok d
  | 0, some _, _ => .error .hang
  | fuel + 1, some a, d => do
    let c ← d.firm.queues.deref (some a)
    let d ← if c.val.valid ∧ checkOverwrite c.val sectorNb length = .success then
        (d.setQueues (d.firm.queues.modify a fun e => { e with valid := false })).updateWbValidArray
          a c.val .invalid
      else .ok d
    overwriteLoop sectorNb length fuel c.next d

/-- The new write `w`, which filled `frames`, becomes a part of the event at `a`, `grow` sectors
longer. -/
def mergeWrite (a : ℕ) (w : HostWrite) (frames : List (WbPtr b)) (grow : ℤ) (d : Device b) :
    Device b :=
  d.setQueues (d.firm.queues.modify a fun e =>
    { e with
      length := toU32 (e.length + grow)
      merged := e.merged ++ [w]
      frames := e.frames ++ frames })

/-- The end of `ENQUEUE_WRITE`: the new write `w`, which filled `frames` from `pBuf` on, is merged
into the tail event or becomes a new one. -/
def placeWrite (w : HostWrite) (pBuf : WbPtr b) (frames : List (WbPtr b)) (d : Device b) :
    Except Fault (Device b) := do
  let t ← d.firm.queues.tailEvent
  let append := (d.firm.queues.appendWrite
    { ioType := .write
      valid := true
      sectorNb := w.sectorNb
      length := w.length
      buf := some (.wb pBuf)
      requestNb := d.firm.requestNb
      merged := [w]
      frames := frames }).map d.setQueues
  match t with
  | none => append
  | some (a, e) =>
    if checkSequentiality e w.sectorNb = .success then .ok (d.mergeWrite a w frames w.length)
    else if checkIoDependencyForWrite e w.sectorNb w.length = .success then
      match e.buf with
      | some (.wb p) => do
        let invalidLen := toI32 (e.sectorNb + e.length - w.sectorNb)
        let d ← d.wbLoop .updateWbValidArrayPartial (some a)
          (·.updateWbValidArrayPartial p e.length .invalid invalidLen)
        .ok (d.mergeWrite a w frames (w.length - invalidLen))
      | _ => .error .wildPointer
    else append

/-- `ENQUEUE_WRITE`. -/
def enqueueWrite (sectorNb : ℤ) (length : ℕ) (d : Device b) : Except Fault (Device b) := do
  let w : HostWrite := ⟨d.firm.writeNb, sectorNb, length⟩
  let pBuf := d.firm.wb.sataWritePtr
  let d := d.writeDataToBuffer w
  let p ← d.firm.queues.firstWrite
  let d ← d.overwriteLoop sectorNb length d.firm.queues.heap.brk p
  d.placeWrite w pBuf (Ring.span pBuf (toI32 length).toNat)

/-- `ENQUEUE_IO`. -/
def enqueueIo (ioType : IoType) (sectorNb : ℤ) (length : ℕ) (d : Device b) :
    Except Fault (Device b) :=
  match ioType with
  | .read => d.enqueueRead g newPage sectorNb length
  | .write => d.enqueueWrite sectorNb length
  | _ => .ok (d.note (.error .enqueueIoWrongIoType))

/-! ### Host requests -/

/-- `SSD_WRITE`. -/
def ssdWrite (length : ℕ) (sectorNb : ℤ) (d : Device b) : Except Fault (Device b) := do
  let d ← d.dequeueCompletedRead
  let d ← if eventQueueIsFull .write length d.firm = .success then d.secureWriteBuffer g newPage
    else .ok d
  let d ← d.enqueueIo g newPage .write sectorNb length
  .ok { d with firm := { d.firm with
    requestNb := d.firm.requestNb + 1
    writeNb := d.firm.writeNb + 1 } }

/-- `SSD_READ`. -/
def ssdRead (length : ℕ) (sectorNb : ℤ) (d : Device b) : Except Fault (Device b) := do
  let d ← d.dequeueCompletedRead
  let d ← if eventQueueIsFull .read length d.firm = .success then d.secureReadBuffer g newPage
    else .ok d
  let d ← d.enqueueIo g newPage .read sectorNb length
  .ok { d with firm := { d.firm with requestNb := d.firm.requestNb + 1 } }

/-- Serve a request. -/
def serve (req : Request) (d : Device b) : Except Fault (Device b) :=
  match req with
  | .write sectorNb length => d.ssdWrite g newPage length sectorNb
  | .read sectorNb length => d.ssdRead g newPage length sectorNb

/-- Serve requests one after the other. -/
def serveAll (reqs : List Request) (d : Device b) : Except Fault (Device b) :=
  reqs.foldlM (fun d req => d.serve g newPage req) d

end Device

/-- `INIT_IO_BUFFER`, over an FTL that holds nothing. -/
def initIoBuffer (b : BufferConfig) : Device b where
  firm :=
    { queues := ⟨Heap.empty, ⟨none, none, 0⟩, ⟨none, none, 0⟩, none⟩
      wb :=
        { frames := fun _ => ⟨.zero, none⟩
          ftlWritePtr := ⟨0, b.writeBufferFrameNb_pos⟩
          sataWritePtr := ⟨0, b.writeBufferFrameNb_pos⟩
          writeLimitPtr := ⟨0, b.writeBufferFrameNb_pos⟩
          emptyWriteBufferFrame := b.writeBufferFrameNb }
      rb :=
        { ftlReadPtr := ⟨0, b.readBufferFrameNb_pos⟩
          sataReadPtr := ⟨0, b.readBufferFrameNb_pos⟩
          readLimitPtr := ⟨0, b.readBufferFrameNb_pos⟩
          emptyReadBufferFrame := b.readBufferFrameNb }
      store := fun _ => none
      newPageNb := 0
      requestNb := 0
      writeNb := 0 }
  log := []

end Vssim
