import Vssim.Firm.Queue
import Vssim.Library.Ensures
import Vssim.Library.Trace

/-!
# The firmware with a thread of its own

`SSD_READ`, `SSD_WRITE` and `SSD_THREAD_MAIN_LOOP` in the build with `SSD_THREAD`. The host thread
puts requests on the event queue and the SSD thread takes them off: as they come with
`SSD_THREAD_MODE_1`, only when a buffer is full with `SSD_THREAD_MODE_2`. `eq_lock` protects the
event queue, `cq_lock` the completed queue, and the SSD thread sleeps on the condition variable
`eq_ready`.

A thread is represented by the statement it executes next, and a turn executes that one. A turn is
a single access to shared data, a call on mutexes or the condition variable, or a call that runs
with the lock of the data it works on. `DEQUEUE_IO` is cut in two where the SSD thread takes
`cq_lock`. A thread that waits for a mutex has no turn; one that sleeps on `eq_ready` can be woken
by a signal or for no reason at all. The flags are read and written in one order for both threads.
-/

namespace Vssim

open LinkedHeap

variable {b : BufferConfig}

/-! ### Requests and their parts -/

namespace Request

/-- The `io_type` of a request. -/
def ioType : Request → IoType
  | .write _ _ => .write
  | .read _ _ => .read

/-- The first sector of a request. -/
def sectorNb : Request → ℤ
  | .write sectorNb _ | .read sectorNb _ => sectorNb

/-- The number of sectors of a request. -/
def length : Request → ℕ
  | .write _ length | .read _ length => length

end Request

namespace Device

variable (g : Geometry) (newPage : ℕ → Ret)

/-- `DEQUEUE_IO` up to the point where it takes `cq_lock`: the event it has taken off the queue and
executed, if there was one. -/
def takeEvent (d : Device b) : Except Fault (Option (ℕ × IoType) × Device b) :=
  let q := d.firm.queues
  if q.eQueue.count = 0 then .ok (none, d.note (.error .dequeueIoNoEvent))
  else match q.eQueue.head with
    | none => .ok (none, d.note (.error .dequeueIoNoEvent))
    | some a => do
      let c ← q.deref (some a)
      let d ← (d.setQueues (q.unlinkHead a c)).execute g newPage a c.val
      .ok (some (a, c.val.ioType), d)

/-- The part of `DEQUEUE_IO` that holds `cq_lock`. -/
def completeEvent (a : ℕ) (ioType : IoType) (d : Device b) : Except Fault (Device b) :=
  if ioType = .read then (d.firm.queues.completeRead a).map d.setQueues else .ok d

/-- `SECURE_WRITE_BUFFER` or `SECURE_READ_BUFFER`. -/
def secureBuffer (ioType : IoType) (d : Device b) : Except Fault (Device b) :=
  match ioType with
  | .write => d.secureWriteBuffer g newPage
  | .read => d.secureReadBuffer g newPage
  | _ => .ok d

/-- The counts of requests, which the source does not have. -/
def countRequest (req : Request) (d : Device b) : Device b :=
  match req with
  | .write _ _ => { d with firm := { d.firm with
      requestNb := d.firm.requestNb + 1
      writeNb := d.firm.writeNb + 1 } }
  | .read _ _ => { d with firm := { d.firm with requestNb := d.firm.requestNb + 1 } }

end Device

/-! ### The threads -/

/-- The thread that calls `SSD_READ` and `SSD_WRITE`, and the one in `SSD_THREAD_MAIN_LOOP`. -/
inductive ThreadId
  | host
  | ssd
  deriving DecidableEq, Repr

/-- `SSD_THREAD_MODE_1` and `SSD_THREAD_MODE_2`. -/
inductive ThreadMode
  | mode1
  | mode2
  deriving DecidableEq, Repr

/-- The statements of `SSD_READ` and `SSD_WRITE`. -/
inductive HostStmt
  | lockCq
  | dequeueCompletedRead
  | unlockCq
  /-- `if(EVENT_QUEUE_IS_FULL(...))`. -/
  | testFull
  /-- `w_queue_full = 1`. -/
  | raiseFlag
  /-- `while(w_queue_full == 1)`. -/
  | testFlag
  /-- The `pthread_cond_signal` in that loop. -/
  | signalFull
  | lockEq
  | enqueueIo
  | unlockEq
  /-- The `pthread_cond_signal` at the end, with `SSD_THREAD_MODE_1`. -/
  | signalReady
  deriving DecidableEq, Repr

/-- Where the host thread is. -/
inductive HostPc
  | idle
  | serving (req : Request) (stmt : HostStmt)
  deriving DecidableEq, Repr

/-- The statements of `SSD_THREAD_MAIN_LOOP`. -/
inductive SsdStmt
  | lockEq
  /-- The condition of the inner loop. -/
  | test
  /-- In `pthread_cond_wait`, without the lock. -/
  | asleep
  /-- In `pthread_cond_wait`, about to take the lock again. -/
  | awake
  /-- `DEQUEUE_IO`, or `SECURE_READ_BUFFER` or `SECURE_WRITE_BUFFER`. -/
  | body
  /-- In `DEQUEUE_IO`, at `pthread_mutex_lock(&cq_lock)`. -/
  | lockCq (a : ℕ) (ioType : IoType)
  /-- In `DEQUEUE_IO`, with `cq_lock`. -/
  | complete (a : ℕ) (ioType : IoType)
  | unlockCq
  /-- `r_queue_full = 0` or `w_queue_full = 0`. -/
  | lowerFlag (ioType : IoType)
  | unlockEq
  deriving DecidableEq, Repr

/-- The state of both threads and of what they share. -/
structure Threads (b : BufferConfig) where
  device : Device b
  rQueueFull : Bool
  wQueueFull : Bool
  eqLock : Option ThreadId
  cqLock : Option ThreadId
  host : HostPc
  ssd : SsdStmt
  /-- The requests that the host has not begun. -/
  todo : List Request
  /-- The requests that have been put on the queue. -/
  enqueued : List Request

namespace Threads

/-- `r_queue_full` or `w_queue_full`. -/
def queueFull (s : Threads b) : IoType → Bool
  | .read => s.rQueueFull
  | .write => s.wQueueFull
  | _ => false

/-- Assign to `r_queue_full` or `w_queue_full`. -/
def setQueueFull (ioType : IoType) (v : Bool) (s : Threads b) : Threads b :=
  { s with
    rQueueFull := if ioType = .read then v else s.rQueueFull
    wQueueFull := if ioType = .write then v else s.wQueueFull }

/-- `pthread_cond_signal(&eq_ready)`. -/
def signalEqReady (s : Threads b) : Threads b :=
  { s with ssd := if s.ssd = .asleep then .awake else s.ssd }

variable (g : Geometry) (newPage : ℕ → Ret) (mode : ThreadMode)

/-- One statement of `SSD_WRITE` or `SSD_READ`; `none` if the host thread has to wait. Inside
`ENQUEUE_IO` the host can call `DEQUEUE_IO`, which takes `cq_lock`. -/
def hostStep (s : Threads b) : Option (Except Fault (Threads b)) :=
  match s.host with
  | .idle =>
    match s.todo with
    | [] => none
    | req :: todo => some (.ok { s with host := .serving req .lockCq, todo })
  | .serving req stmt =>
    match stmt with
    | .lockCq =>
      if s.cqLock = none then
        some (.ok { s with cqLock := some .host, host := .serving req .dequeueCompletedRead })
      else none
    | .dequeueCompletedRead =>
      some (s.device.dequeueCompletedRead.map fun device =>
        { s with device, host := .serving req .unlockCq })
    | .unlockCq => some (.ok { s with cqLock := none, host := .serving req .testFull })
    | .testFull =>
      if eventQueueIsFull req.ioType req.length s.device.firm = .success then
        some (.ok { s with host := .serving req .raiseFlag })
      else some (.ok { s with host := .serving req .lockEq })
    | .raiseFlag =>
      some (.ok { s.setQueueFull req.ioType true with host := .serving req .testFlag })
    | .testFlag =>
      if s.queueFull req.ioType = true then
        some (.ok { s with host := .serving req .signalFull })
      else some (.ok { s with host := .serving req .lockEq })
    | .signalFull => some (.ok { s.signalEqReady with host := .serving req .testFlag })
    | .lockEq =>
      if s.eqLock = none then
        some (.ok { s with eqLock := some .host, host := .serving req .enqueueIo })
      else none
    | .enqueueIo =>
      if s.cqLock = none then
        some ((s.device.enqueueIo g newPage req.ioType req.sectorNb req.length).map fun device =>
          { s with
            device := device.countRequest req
            host := .serving req .unlockEq
            enqueued := s.enqueued ++ [req] })
      else none
    | .unlockEq =>
      match mode with
      | .mode1 => some (.ok { s with eqLock := none, host := .serving req .signalReady })
      | .mode2 => some (.ok { s with eqLock := none, host := .idle })
    | .signalReady => some (.ok { s.signalEqReady with host := .idle })

/-- The condition under which the SSD thread goes to sleep. -/
def nothingToDo (s : Threads b) : Bool :=
  match mode with
  | .mode1 => s.device.firm.queues.eQueue.count == 0
  | .mode2 => !s.rQueueFull && !s.wQueueFull

/-- One statement of `SSD_THREAD_MAIN_LOOP`; `none` if the SSD thread has to wait.
`SECURE_READ_BUFFER` and `SECURE_WRITE_BUFFER` call `DEQUEUE_IO`, which takes `cq_lock`. -/
def ssdStep (s : Threads b) : Option (Except Fault (Threads b)) :=
  match s.ssd with
  | .lockEq | .awake =>
    if s.eqLock = none then some (.ok { s with eqLock := some .ssd, ssd := .test }) else none
  | .test =>
    if s.nothingToDo mode = true then some (.ok { s with eqLock := none, ssd := .asleep })
    else some (.ok { s with ssd := .body })
  | .asleep => none
  | .body =>
    match mode with
    | .mode1 =>
      some ((s.device.takeEvent g newPage).map fun r =>
        match r.1 with
        | none => { s with device := r.2, ssd := .unlockEq }
        | some (a, ioType) => { s with device := r.2, ssd := .lockCq a ioType })
    | .mode2 =>
      if s.cqLock = none then
        if s.rQueueFull = true then
          some ((s.device.secureBuffer g newPage .read).map fun device =>
            { s with device, ssd := .lowerFlag .read })
        else if s.wQueueFull = true then
          some ((s.device.secureBuffer g newPage .write).map fun device =>
            { s with device, ssd := .lowerFlag .write })
        -- "Wrong signal"
        else some (.ok { s with ssd := .unlockEq })
      else none
  | .lockCq a ioType =>
    if s.cqLock = none then
      some (.ok { s with cqLock := some .ssd, ssd := .complete a ioType })
    else none
  | .complete a ioType =>
    some ((s.device.completeEvent a ioType).map fun device => { s with device, ssd := .unlockCq })
  | .unlockCq => some (.ok { s with cqLock := none, ssd := .unlockEq })
  | .lowerFlag ioType => some (.ok { s.setQueueFull ioType false with ssd := .unlockEq })
  | .unlockEq => some (.ok { s with eqLock := none, ssd := .lockEq })

/-- Whose turn it is. The last case is a return from `pthread_cond_wait` without a signal. -/
inductive Turn
  | host
  | ssd
  | wakeup
  deriving DecidableEq, Repr

/-- What happens in a turn; `none` if it cannot be taken. -/
def turn (s : Threads b) : Turn → Option (Except Fault (Threads b))
  | .host => s.hostStep g newPage mode
  | .ssd => s.ssdStep g newPage mode
  | .wakeup => if s.ssd = .asleep then some (.ok { s with ssd := .awake }) else none

/-- A turn that is taken without a fault. -/
def Step (s : Threads b) (t : Turn) (s' : Threads b) : Prop :=
  s.turn g newPage mode t = some (.ok s')

/-- The turns of a schedule, one after the other; `none` if one of them cannot be taken or
faults. -/
def play (s : Threads b) : List Turn → Option (Threads b)
  | [] => some s
  | t :: ts =>
    match s.turn g newPage mode t with
    | some (.ok s') => s'.play ts
    | _ => none

/-- After `INIT_IO_BUFFER`, which creates the SSD thread. -/
def start (b : BufferConfig) (reqs : List Request) : Threads b where
  device := initIoBuffer b
  rQueueFull := false
  wQueueFull := false
  eqLock := none
  cqLock := none
  host := .idle
  ssd := .lockEq
  todo := reqs
  enqueued := []

/-- The states that some schedule reaches when the host has the requests `reqs`. -/
def Reachable (reqs : List Request) (s : Threads b) : Prop :=
  ∃ ts, Trace (Step g newPage mode) (start b reqs) ts s

end Threads

/-! ### The parts of the firmware's functions -/

namespace Device

variable {g : Geometry} {newPage : ℕ → Ret} {d : Device b}

/-- `DEQUEUE_IO` is its two parts. -/
theorem dequeueIo_eq_takeEvent : d.dequeueIo g newPage = (do
    let r ← d.takeEvent g newPage
    match r.1 with
    | none => .ok r.2
    | some (a, ioType) => r.2.completeEvent a ioType) := by
  rw [dequeueIo, takeEvent]
  by_cases hcount : d.firm.queues.eQueue.count = 0
  · simp only [hcount, if_true]
    rfl
  · simp only [hcount, if_false]
    cases d.firm.queues.eQueue.head with
    | none => rfl
    | some a =>
      dsimp only
      rw [bind_assoc]
      refine bind_congr fun c => ?_
      rw [bind_assoc]
      rfl

/-- A choice followed by the same computation on both sides. -/
private theorem ite_bind_same {α β : Type} {c : Prop} [Decidable c] (x y : Except Fault α)
    (k : α → Except Fault β) : (if c then x >>= k else y >>= k) = (if c then x else y) >>= k := by
  split <;> rfl

/-- `SSD_READ` and `SSD_WRITE` without the thread. -/
theorem serve_eq (req : Request) : d.serve g newPage req =
    d.dequeueCompletedRead >>= fun d₁ =>
      (if eventQueueIsFull req.ioType req.length d₁.firm = .success then
        d₁.secureBuffer g newPage req.ioType else .ok d₁) >>= fun d₂ =>
      d₂.enqueueIo g newPage req.ioType req.sectorNb req.length >>= fun d₃ =>
      .ok (d₃.countRequest req) := by
  cases req with
  | write sectorNb length | read sectorNb length =>
    exact bind_congr fun d₁ => ite_bind_same _ _ _

end Device

namespace Threads

variable {g : Geometry} {newPage : ℕ → Ret} {mode : ThreadMode} {reqs : List Request}
  {s s' : Threads b} {t : Turn} {ts : List Turn}

/-- A schedule that can be played is a trace. -/
theorem trace_of_play (h : s.play g newPage mode ts = some s') :
    Trace (Step g newPage mode) s ts s' := by
  induction ts generalizing s with
  | nil =>
    cases h
    exact .nil _
  | cons t ts ih =>
    rw [play] at h
    split at h
    · next s₁ hturn => exact .cons hturn (ih h)
    · cases h

/-! ### What a turn does -/

variable (g newPage mode) in
/-- The turns of the host thread. -/
inductive HostMove (s : Threads b) : Threads b → Prop
  | begin {req : Request} {todo : List Request} (hhost : s.host = .idle)
      (htodo : s.todo = req :: todo) : HostMove s { s with host := .serving req .lockCq, todo }
  | lockCq {req : Request} (hhost : s.host = .serving req .lockCq) (hfree : s.cqLock = none) :
      HostMove s { s with cqLock := some .host, host := .serving req .dequeueCompletedRead }
  | dequeueCompletedRead {req : Request} {device : Device b}
      (hhost : s.host = .serving req .dequeueCompletedRead)
      (hrun : s.device.dequeueCompletedRead = .ok device) :
      HostMove s { s with device, host := .serving req .unlockCq }
  | unlockCq {req : Request} (hhost : s.host = .serving req .unlockCq) :
      HostMove s { s with cqLock := none, host := .serving req .testFull }
  | full {req : Request} (hhost : s.host = .serving req .testFull)
      (hfull : eventQueueIsFull req.ioType req.length s.device.firm = .success) :
      HostMove s { s with host := .serving req .raiseFlag }
  | notFull {req : Request} (hhost : s.host = .serving req .testFull)
      (hfull : eventQueueIsFull req.ioType req.length s.device.firm ≠ .success) :
      HostMove s { s with host := .serving req .lockEq }
  | raiseFlag {req : Request} (hhost : s.host = .serving req .raiseFlag) :
      HostMove s { s.setQueueFull req.ioType true with host := .serving req .testFlag }
  | stay {req : Request} (hhost : s.host = .serving req .testFlag)
      (hflag : s.queueFull req.ioType = true) :
      HostMove s { s with host := .serving req .signalFull }
  | leave {req : Request} (hhost : s.host = .serving req .testFlag)
      (hflag : s.queueFull req.ioType = false) :
      HostMove s { s with host := .serving req .lockEq }
  | signalFull {req : Request} (hhost : s.host = .serving req .signalFull) :
      HostMove s { s.signalEqReady with host := .serving req .testFlag }
  | lockEq {req : Request} (hhost : s.host = .serving req .lockEq) (hfree : s.eqLock = none) :
      HostMove s { s with eqLock := some .host, host := .serving req .enqueueIo }
  | enqueueIo {req : Request} {device : Device b} (hhost : s.host = .serving req .enqueueIo)
      (hfree : s.cqLock = none)
      (hrun : s.device.enqueueIo g newPage req.ioType req.sectorNb req.length = .ok device) :
      HostMove s { s with
        device := device.countRequest req
        host := .serving req .unlockEq
        enqueued := s.enqueued ++ [req] }
  | unlockEq {req : Request} (hhost : s.host = .serving req .unlockEq) (hmode : mode = .mode1) :
      HostMove s { s with eqLock := none, host := .serving req .signalReady }
  | finish {req : Request} (hhost : s.host = .serving req .unlockEq) (hmode : mode = .mode2) :
      HostMove s { s with eqLock := none, host := .idle }
  | signalReady {req : Request} (hhost : s.host = .serving req .signalReady) :
      HostMove s { s.signalEqReady with host := .idle }

variable (g newPage mode) in
/-- The turns of the SSD thread. -/
inductive SsdMove (s : Threads b) : Threads b → Prop
  | lockEq (hssd : s.ssd = .lockEq ∨ s.ssd = .awake) (hfree : s.eqLock = none) :
      SsdMove s { s with eqLock := some .ssd, ssd := .test }
  | sleep (hssd : s.ssd = .test) (hidle : s.nothingToDo mode = true) :
      SsdMove s { s with eqLock := none, ssd := .asleep }
  | work (hssd : s.ssd = .test) (hidle : s.nothingToDo mode = false) :
      SsdMove s { s with ssd := .body }
  | noEvent {device : Device b} (hssd : s.ssd = .body) (hmode : mode = .mode1)
      (hrun : s.device.takeEvent g newPage = .ok (none, device)) :
      SsdMove s { s with device, ssd := .unlockEq }
  | takeEvent {device : Device b} {a : ℕ} {ioType : IoType} (hssd : s.ssd = .body)
      (hmode : mode = .mode1)
      (hrun : s.device.takeEvent g newPage = .ok (some (a, ioType), device)) :
      SsdMove s { s with device, ssd := .lockCq a ioType }
  | secureRead {device : Device b} (hssd : s.ssd = .body) (hmode : mode = .mode2)
      (hflag : s.rQueueFull = true) (hrun : s.device.secureBuffer g newPage .read = .ok device) :
      SsdMove s { s with device, ssd := .lowerFlag .read }
  | secureWrite {device : Device b} (hssd : s.ssd = .body) (hmode : mode = .mode2)
      (hread : s.rQueueFull = false) (hflag : s.wQueueFull = true)
      (hrun : s.device.secureBuffer g newPage .write = .ok device) :
      SsdMove s { s with device, ssd := .lowerFlag .write }
  | wrongSignal (hssd : s.ssd = .body) (hmode : mode = .mode2) (hread : s.rQueueFull = false)
      (hwrite : s.wQueueFull = false) : SsdMove s { s with ssd := .unlockEq }
  | lockCq {a : ℕ} {ioType : IoType} (hssd : s.ssd = .lockCq a ioType) (hfree : s.cqLock = none) :
      SsdMove s { s with cqLock := some .ssd, ssd := .complete a ioType }
  | complete {device : Device b} {a : ℕ} {ioType : IoType} (hssd : s.ssd = .complete a ioType)
      (hrun : s.device.completeEvent a ioType = .ok device) :
      SsdMove s { s with device, ssd := .unlockCq }
  | unlockCq (hssd : s.ssd = .unlockCq) :
      SsdMove s { s with cqLock := none, ssd := .unlockEq }
  | lowerFlag {ioType : IoType} (hssd : s.ssd = .lowerFlag ioType) :
      SsdMove s { s.setQueueFull ioType false with ssd := .unlockEq }
  | unlockEq (hssd : s.ssd = .unlockEq) :
      SsdMove s { s with eqLock := none, ssd := .lockEq }

private theorem hostStep_move (h : s.hostStep g newPage mode = some (.ok s')) :
    HostMove g newPage mode s s' := by
  cases hhost : s.host with
  | idle =>
    cases htodo : s.todo with
    | nil => simp [hostStep, hhost, htodo] at h
    | cons req todo =>
      simp only [hostStep, hhost, htodo, Option.some.injEq, Except.ok.injEq] at h
      exact h ▸ .begin hhost htodo
  | serving req stmt =>
    cases stmt <;> simp only [hostStep, hhost] at h
    case lockCq =>
      split at h
      · next hfree => cases h; exact .lockCq hhost hfree
      · cases h
    case dequeueCompletedRead =>
      obtain ⟨device, hrun, rfl⟩ := Except.map_eq_ok (Option.some.inj h)
      exact .dequeueCompletedRead hhost hrun
    case unlockCq => cases h; exact .unlockCq hhost
    case testFull =>
      split at h
      · next hfull => cases h; exact .full hhost hfull
      · next hfull => cases h; exact .notFull hhost hfull
    case raiseFlag => cases h; exact .raiseFlag hhost
    case testFlag =>
      split at h
      · next hflag => cases h; exact .stay hhost hflag
      · next hflag => cases h; exact .leave hhost (by simpa using hflag)
    case signalFull => cases h; exact .signalFull hhost
    case lockEq =>
      split at h
      · next hfree => cases h; exact .lockEq hhost hfree
      · cases h
    case enqueueIo =>
      split at h
      · next hfree =>
        obtain ⟨device, hrun, rfl⟩ := Except.map_eq_ok (Option.some.inj h)
        exact .enqueueIo hhost hfree hrun
      · cases h
    case unlockEq =>
      cases mode with
      | mode1 => cases h; exact .unlockEq hhost rfl
      | mode2 => cases h; exact .finish hhost rfl
    case signalReady => cases h; exact .signalReady hhost

theorem ssdStep_move (h : s.ssdStep g newPage mode = some (.ok s')) :
    SsdMove g newPage mode s s' := by
  cases hssd : s.ssd <;> simp only [ssdStep, hssd] at h
  case lockEq =>
    split at h
    · next hfree => cases h; exact .lockEq (.inl hssd) hfree
    · cases h
  case test =>
    split at h
    · next hidle => cases h; exact .sleep hssd hidle
    · next hidle => cases h; exact .work hssd (by simpa using hidle)
  case asleep => cases h
  case awake =>
    split at h
    · next hfree => cases h; exact .lockEq (.inr hssd) hfree
    · cases h
  case body =>
    cases mode with
    | mode1 =>
      obtain ⟨⟨taken, device⟩, hrun, hs'⟩ := Except.map_eq_ok (Option.some.inj h)
      cases taken with
      | none => exact hs' ▸ .noEvent hssd rfl hrun
      | some e => exact hs' ▸ .takeEvent hssd rfl hrun
    | mode2 =>
      dsimp only at h
      split at h
      · split at h
        · next hflag =>
          obtain ⟨device, hrun, rfl⟩ := Except.map_eq_ok (Option.some.inj h)
          exact .secureRead hssd rfl hflag hrun
        · next hread =>
          split at h
          · next hflag =>
            obtain ⟨device, hrun, rfl⟩ := Except.map_eq_ok (Option.some.inj h)
            exact .secureWrite hssd rfl (by simpa using hread) hflag hrun
          · next hwrite =>
            cases h
            exact .wrongSignal hssd rfl (by simpa using hread) (by simpa using hwrite)
      · cases h
  case lockCq a ioType =>
    split at h
    · next hfree => cases h; exact .lockCq hssd hfree
    · cases h
  case complete a ioType =>
    obtain ⟨device, hrun, rfl⟩ := Except.map_eq_ok (Option.some.inj h)
    exact .complete hssd hrun
  case unlockCq => cases h; exact .unlockCq hssd
  case lowerFlag ioType => cases h; exact .lowerFlag hssd
  case unlockEq => cases h; exact .unlockEq hssd

/-- What a turn can be. -/
theorem Step.move (h : Step g newPage mode s t s') :
    HostMove g newPage mode s s' ∨ SsdMove g newPage mode s s' ∨
      s.ssd = .asleep ∧ s' = { s with ssd := .awake } := by
  cases t with
  | host => exact .inl (hostStep_move h)
  | ssd => exact .inr (.inl (ssdStep_move h))
  | wakeup =>
    rw [Step, turn] at h
    split at h
    · next hssd => exact .inr (.inr ⟨hssd, (Except.ok.inj (Option.some.inj h)).symm⟩)
    · cases h

/-! ### Who holds which lock -/

end Threads

/-- The host thread holds `eq_lock`. -/
def HostPc.holdsEq : HostPc → Bool
  | .serving _ .enqueueIo | .serving _ .unlockEq => true
  | _ => false

/-- The host thread holds `cq_lock`. -/
def HostPc.holdsCq : HostPc → Bool
  | .serving _ .dequeueCompletedRead | .serving _ .unlockCq => true
  | _ => false

/-- The SSD thread holds `eq_lock`: always, except while it waits for it or sleeps. -/
def SsdStmt.holdsEq : SsdStmt → Bool
  | .lockEq | .asleep | .awake => false
  | _ => true

/-- The SSD thread holds `cq_lock`. -/
def SsdStmt.holdsCq : SsdStmt → Bool
  | .complete _ _ | .unlockCq => true
  | _ => false

namespace Threads

/-- The mutexes are held by the threads that are between their calls to lock and to unlock them. -/
structure Locks (s : Threads b) : Prop where
  eqHost : s.eqLock = some .host ↔ s.host.holdsEq = true
  eqSsd : s.eqLock = some .ssd ↔ s.ssd.holdsEq = true
  cqHost : s.cqLock = some .host ↔ s.host.holdsCq = true
  cqSsd : s.cqLock = some .ssd ↔ s.ssd.holdsCq = true

namespace Locks

theorem start (b : BufferConfig) (reqs : List Request) : Locks (start b reqs) := by
  constructor <;> simp [Threads.start, HostPc.holdsEq, HostPc.holdsCq, SsdStmt.holdsEq,
    SsdStmt.holdsCq]

/-- The two threads do not hold `eq_lock` at once. -/
theorem exclusive (h : Locks s) (hhost : s.host.holdsEq = true) : s.ssd.holdsEq = false := by
  by_contra hssd
  rw [Bool.not_eq_false] at hssd
  exact absurd ((h.eqHost.mpr hhost).symm.trans (h.eqSsd.mpr hssd)) (by simp)

/-- A mutex that neither thread holds is free. -/
theorem eqLock_free (h : Locks s) (hhost : s.host.holdsEq = false)
    (hssd : s.ssd.holdsEq = false) : s.eqLock = none := by
  have h₁ := h.eqHost
  have h₂ := h.eqSsd
  rcases hlock : s.eqLock with _ | _ | _
  · rfl
  · simp [h₁.mp hlock] at hhost
  · simp [h₂.mp hlock] at hssd

theorem cqLock_free (h : Locks s) (hhost : s.host.holdsCq = false)
    (hssd : s.ssd.holdsCq = false) : s.cqLock = none := by
  have h₁ := h.cqHost
  have h₂ := h.cqSsd
  rcases hlock : s.cqLock with _ | _ | _
  · rfl
  · simp [h₁.mp hlock] at hhost
  · simp [h₂.mp hlock] at hssd

theorem hostMove (h : Locks s) (hmove : HostMove g newPage mode s s') : Locks s' := by
  have hwake : s.signalEqReady.ssd.holdsEq = s.ssd.holdsEq ∧
      s.signalEqReady.ssd.holdsCq = s.ssd.holdsCq := by
    rw [signalEqReady]
    dsimp only
    split
    · next hssd => simp [hssd, SsdStmt.holdsEq, SsdStmt.holdsCq]
    · exact ⟨rfl, rfl⟩
  obtain ⟨h₁, h₂, h₃, h₄⟩ := h
  cases hmove with
  | signalFull hhost | signalReady hhost =>
    rw [hhost] at h₁ h₃
    exact ⟨h₁, h₂.trans (by rw [hwake.1]), h₃, h₄.trans (by rw [hwake.2])⟩
  | _ => constructor <;> simp_all [HostPc.holdsEq, HostPc.holdsCq, setQueueFull]

theorem ssdMove (h : Locks s) (hmove : SsdMove g newPage mode s s') : Locks s' := by
  obtain ⟨h₁, h₂, h₃, h₄⟩ := h
  cases hmove with
  | lockEq hssd hfree =>
    rcases hssd with hssd | hssd <;> constructor <;>
      simp_all [SsdStmt.holdsEq, SsdStmt.holdsCq]
  | _ => constructor <;> simp_all [SsdStmt.holdsEq, SsdStmt.holdsCq, setQueueFull]

theorem step (h : Locks s) (hstep : Step g newPage mode s t s') : Locks s' := by
  rcases hstep.move with hmove | hmove | ⟨hssd, rfl⟩
  · exact h.hostMove hmove
  · exact h.ssdMove hmove
  · obtain ⟨h₁, h₂, h₃, h₄⟩ := h
    rw [hssd] at h₂ h₄
    exact ⟨h₁, h₂, h₃, h₄⟩

end Locks

end Threads

end Vssim
