import Vssim.Ftl.Request
import Mathlib.Order.Monotone.Defs
import Mathlib.Algebra.Order.Group.Int
import Mathlib.Data.Int.ConditionallyCompleteOrder
import Mathlib.Order.ConditionallyCompleteLattice.Basic

/-!
# I/O requests

The request bookkeeping of `ftl_perf_manager.c`: a singly linked list of outstanding requests,
each with the times its pages started and ended. `UPDATE_IO_REQUEST` records one of these times
and frees the request when both counts have reached its size.

Time is read from a `Clock`, one reading per `get_usec` call. The state keeps a **log** of the
updates, of the requests freed and of what is sent to the performance checker, whose averages
are not modelled; an error message and a read through a pointer that is not live are logged
too.
-/

namespace Vssim

open LinkedHeap

/-- The readings `get_usec` returns: not negative and not decreasing. A busy-wait for `time` that
starts with reading `tick` is over at reading `wait time tick`, right after the first one that
is not below `time`; where there is none the wait is assumed to return all the same. -/
structure Clock where
  read : ℕ → ℤ
  wait : ℤ → ℕ → ℕ
  nonneg : ∀ n, 0 ≤ read n
  mono : Monotone read
  wait_eq : ∀ time tick n, time ≤ read (tick + n) → (∀ m, m < n → read (tick + m) < time) →
    wait time tick = tick + n + 1

/-- The part of the configuration that the I/O manager reads, and its build switch. -/
structure IoConfig where
  channelNb : ℕ
  channelNb_pos : 0 < channelNb
  /-- `IO_PARALLELISM` is not zero. -/
  ioParallelism : Bool
  /-- `O_DIRECT_VSSIM`. -/
  oDirectVssim : Bool
  regWriteDelay : ℕ
  cellProgramDelay : ℕ
  regReadDelay : ℕ
  cellReadDelay : ℕ
  blockEraseDelay : ℕ
  channelSwitchDelayR : ℕ
  channelSwitchDelayW : ℕ

/-- Conversion to a 16-bit bit-field of type `int`. -/
@[irreducible] def toI16 (x : ℤ) : ℤ := x.bmod (2 ^ 16)

/-- An `io_request`; the size and the counts are 16-bit bit-fields. -/
structure IoRequest where
  requestNb : ℕ
  requestType : IoType
  requestSize : ℤ
  startCount : ℤ
  endCount : ℤ
  startTime : ℤ → ℤ
  endTime : ℤ → ℤ

/-- `UPDATE_START_TIME` and `UPDATE_END_TIME`. -/
inductive UpdateType
  | startTime
  | endTime
  deriving DecidableEq, Repr

/-- The operation types of `SEND_TO_PERF_CHECKER`: `CH_OP`, `REG_OP` and `LATENCY_OP`. -/
inductive PerfType
  | chOp
  | regOp
  | latencyOp
  deriving DecidableEq, Repr

/-- The error messages of the request list and the I/O manager, and what should not happen at
all: a read through a pointer that is not live, and a channel scan that does not end. -/
inductive IoError
  | lookupNoRequest
  | updateNoSuchRequest
  | freeNoSuchRequest
  | regAccessCommandError
  | danglingPointer
  | chAccessHang
  deriving DecidableEq, Repr

/-- An entry of the log. -/
inductive IoEvent
  /-- `UPDATE_IO_REQUEST` recorded a time of page `offset` of a request. -/
  | update (type : UpdateType) (requestNb : ℕ) (offset : ℤ)
  /-- `FREE_IO_REQUEST`. -/
  | free (requestNb : ℕ)
  /-- `SEND_TO_PERF_CHECKER`. -/
  | perf (opType : IoType) (opDelay : ℤ) (type : PerfType)
  | error (e : IoError)
  deriving DecidableEq, Repr

/-! ### The list of outstanding requests -/

/-- The list of outstanding requests. The root holds `io_request_start`, `io_request_end` and
`io_request_nb`. -/
structure RequestList where
  heap : Heap (SNode IoRequest)
  root : ListRoot

namespace RequestList

/-- The end of `ALLOC_IO_REQUEST`: append a request. -/
def push (l : RequestList) (r : IoRequest) : Except IoError RequestList :=
  let h := l.heap.alloc ⟨r, none⟩
  if l.root.head = none ∧ l.root.count = 0 then
    .ok ⟨h, ⟨some l.heap.brk, some l.heap.brk, l.root.count + 1⟩⟩
  else match l.root.tail.filter fun p => (h.cell p).isSome with
    | none => .error .danglingPointer
    | some p => .ok ⟨h.modify p (SNode.link (some l.heap.brk)),
        ⟨l.root.head, some l.heap.brk, l.root.count + 1⟩⟩

/-- The loop of `LOOKUP_IO_REQUEST`, from the request at `p`. -/
def lookupLoop (h : Heap (SNode IoRequest)) (requestNb : ℕ) : ℕ → ℕ → Except IoError (Option ℕ)
  | 0, _ => .ok none
  | n + 1, p =>
    match h.cell p with
    | none => .error .danglingPointer
    | some c =>
      if c.val.requestNb = requestNb then .ok (some p)
      else match c.next with
        | none => .ok none
        | some q => lookupLoop h requestNb n q

/-- `LOOKUP_IO_REQUEST`. Its parameter is an `int`, compared with an `unsigned int`. -/
def lookup (l : RequestList) (requestNb : ℤ) : Except IoError (Option ℕ) :=
  match l.root.head with
  | none => .error .lookupNoRequest
  | some p => lookupLoop l.heap (toU32 requestNb) l.root.count p

/-- The loop of `FREE_IO_REQUEST`: find the request before the one at `p` and link around it. The
result is the heap and `io_request_end`. -/
def unlinkLoop (h : Heap (SNode IoRequest)) (last : Option ℕ) (p : ℕ) :
    ℕ → Option ℕ → Except IoError (Heap (SNode IoRequest) × Option ℕ)
  | 0, _ => .error .freeNoSuchRequest
  | n + 1, prev =>
    match prev with
    | none => .error .danglingPointer
    | some a =>
      match h.cell a with
      | none => .error .danglingPointer
      | some c =>
        if c.next = some p ∧ some p = last then .ok (h.modify a (SNode.link none), some a)
        else if c.next = some p then
          match h.cell p with
          | none => .error .danglingPointer
          | some d => .ok (h.modify a (SNode.link d.next), last)
        else unlinkLoop h last p n c.next

/-- `FREE_IO_REQUEST`. -/
def freeIoRequest (l : RequestList) (p : ℕ) : Except IoError RequestList :=
  if l.root.count = 1 then .ok ⟨l.heap.free p, ⟨none, none, 0⟩⟩
  else if l.root.head = some p then
    match l.heap.cell p with
    | none => .error .danglingPointer
    | some c => .ok ⟨l.heap.free p, ⟨c.next, l.root.tail, l.root.count - 1⟩⟩
  else (unlinkLoop l.heap l.root.tail p (l.root.count - 1) l.root.head).map fun (h, last) =>
    ⟨h.free p, ⟨l.root.head, last, l.root.count - 1⟩⟩

end RequestList

/-- Record a time of page `offset`. -/
def IoRequest.update (type : UpdateType) (offset time : ℤ) (r : IoRequest) : IoRequest :=
  match type with
  | .startTime =>
    { r with
      startTime := Function.update r.startTime offset time
      startCount := toI16 (r.startCount + 1) }
  | .endTime =>
    { r with
      endTime := Function.update r.endTime offset time
      endCount := toI16 (r.endCount + 1) }

/-- `CALC_IO_LATENCY`. A page with no end time is given the one its delays imply. The size is a
16-bit bit-field: for a request of 65536 pages it is 0, and the C code then divides by zero, where
the quotient here is 0. -/
def calcIoLatency (t : IoConfig) (r : IoRequest) : ℤ :=
  let endTime := fun i =>
    if r.endTime i = 0 then
      match r.requestType with
      | .read => r.startTime i + t.regReadDelay + t.cellReadDelay
      | .write => r.startTime i + t.regWriteDelay + t.cellProgramDelay
      | _ => r.endTime i
    else r.endTime i
  let rest : List ℤ := (List.range' 1 (r.requestSize.toNat - 1)).map Int.ofNat
  let minStart := rest.foldl (fun m i => if r.startTime i < m then r.startTime i else m) (r.startTime 0)
  let maxEnd := rest.foldl (fun m i => if m < endTime i then endTime i else m) (endTime 0)
  (maxEnd - minStart).tdiv r.requestSize

/-! ### The state -/

/-- The state of the I/O manager and of the request bookkeeping. A register is a plane of a
chip. -/
structure Io where
  regIoCmd : ℕ → IoType
  regIoType : ℕ → IoType
  regIoTime : ℕ → ℤ
  cellIoTime : ℕ → ℤ
  /-- `access_nb`: request number and page of the operation in a register. -/
  accessNb : ℕ → ℤ × ℤ
  ioOverhead : ℕ → ℤ
  oldChannelNb : ℕ
  oldChannelCmd : IoType
  oldChannelTime : ℤ
  initDiffReg : ℤ
  ioAllocOverhead : ℤ
  ioUpdateOverhead : ℤ
  requests : RequestList
  ioRequestSeqNb : ℕ
  /-- The number of clock readings taken. -/
  tick : ℕ
  log : List IoEvent

namespace Io

/-- `SSD_IO_INIT` and `INIT_PERF_CHECKER`. -/
def init (t : IoConfig) : Io where
  regIoCmd := fun _ => .noop
  regIoType := fun _ => .noop
  regIoTime := fun _ => -1
  cellIoTime := fun _ => -1
  accessNb := fun _ => (-1, -1)
  ioOverhead := fun _ => 0
  oldChannelNb := t.channelNb
  oldChannelCmd := .noop
  oldChannelTime := 0
  initDiffReg := 0
  ioAllocOverhead := 0
  ioUpdateOverhead := 0
  requests := ⟨Heap.empty, ⟨none, none, 0⟩⟩
  ioRequestSeqNb := 0
  tick := 0
  log := []

/-- Append to the log. -/
def note (s : Io) (es : List IoEvent) : Io := { s with log := s.log ++ es }

/-- `SEND_TO_PERF_CHECKER`. -/
def sendToPerfChecker (opType : IoType) (opDelay : ℤ) (type : PerfType) (s : Io) : Io :=
  s.note [.perf opType opDelay type]

variable (g : Geometry) (t : IoConfig) (clk : Clock)

/-- `get_usec`. -/
def getUsec (s : Io) : ℤ × Io := (clk.read s.tick, { s with tick := s.tick + 1 })

/-- `ALLOC_IO_REQUEST`; the caller stores the time it took. -/
def allocIoRequest (sectorNb : ℤ) (length : ℕ) (ioType : IoType) (s : Io) : Io :=
  let (start, s) := getUsec clk s
  let r : IoRequest :=
    { requestNb := s.ioRequestSeqNb
      requestType := ioType
      requestSize := toI16 (ioPageNb g sectorNb length)
      startCount := 0
      endCount := 0
      startTime := fun _ => 0
      endTime := fun _ => 0 }
  match s.requests.push r with
  | .error e => s.note [.error e]
  | .ok requests =>
    let (stop, s) := getUsec clk { s with requests }
    { s with ioAllocOverhead := stop - start }

/-- The end of a request: its latency is reported and it is freed. -/
def complete (p : ℕ) (r : IoRequest) (s : Io) : Io :=
  let s := s.sendToPerfChecker r.requestType (calcIoLatency t r) .latencyOp
  match s.requests.freeIoRequest p with
  | .error e => s.note [.error e]
  | .ok requests => { s with requests }.note [.free r.requestNb]

/-- `UPDATE_IO_REQUEST`; the result is the time it took. -/
def updateIoRequest (requestNb offset time : ℤ) (type : UpdateType) (s : Io) : ℤ × Io :=
  let (start, s) := getUsec clk s
  if requestNb = -1 then (0, s)
  else match s.requests.lookup requestNb with
    | .error e => (0, s.note [.error e, .error .updateNoSuchRequest])
    | .ok none => (0, s.note [.error .updateNoSuchRequest])
    | .ok (some p) =>
      match s.requests.heap.cell p with
      | none => (0, s.note [.error .danglingPointer])
      | some c =>
        let r := c.val.update type offset time
        let s := { s with
          requests := ⟨s.requests.heap.modify p fun c => { c with val := r }, s.requests.root⟩ }
        let s := s.note [.update type r.requestNb offset]
        let s := if r.startCount = r.requestSize ∧ r.endCount = r.requestSize
          then s.complete t p r else s
        let (stop, s) := getUsec clk s
        (stop - start, s)

/-- `INCREASE_IO_REQUEST_SEQ_NB`. -/
def increaseIoRequestSeqNb (s : Io) : Io :=
  { s with ioRequestSeqNb := if s.ioRequestSeqNb = 0xffffffff then 0 else s.ioRequestSeqNb + 1 }

end Io

end Vssim
